import Deai.EventPromise
import Mathlib.Tactic

/-!
# What a step of the promise machine can do

Each step is a sequence of small moves, and each move changes one thing: a promise
is settled, a handler is attached, a closure goes from one place to the next. A
move says in which situation the code makes it. The invariants of the promise
modules are all proved move by move; no proof about them looks into a function of
the model again.

A run can be restricted by `Rules`: which promise a handler may be added to, given
the one that is being dispatched, whether the call of a handler may fail, and when
the queue may be popped.
-/
namespace Deai.PromiseSteps
open Value EventPromise Relation

structure Rules where
  attach : Option ObjRef → ObjRef → Prop
  fail : Prop
  pop : State → Prop

/-- No restriction. -/
def Rules.all : Rules := ⟨fun _ _ => True, True, fun _ => True⟩

/-! ## Moves -/

/-- A new promise and the closure that will settle it. -/
def derive (p : ObjRef) (resolve reject : Option Handler) (s : State) : State :=
  (newClosure p s.promiseCount resolve reject (diNewPromise (.derived s.closureCount) s).2).2

/-- A handler refers to one of the first `promises` promises and of the first
`storages` storages. -/
def Valid (promises storages : ℕ) : Handler → Prop
  | .user _ => True
  | .any ret => ret < promises
  | .join _ st ret => ret < promises ∧ st < storages

/-- A handler that `di_promise_then_inner` may be given as `resolve`: a built-in one
is of a call that has not returned. -/
def Registrable (s : State) : Handler → Prop
  | .user _ => True
  | .any ret => (s.promises ret).role = .any ∧ ∀ a ∈ s.anys, a.ret ≠ ret
  | .join _ st ret => (s.promises ret).role = .join st ∧ (s.storages st).total = none

/-- The outcome a closure has to pass on. -/
def Verdict (x : Closure) (o : Outcome) : Prop :=
  (x.place = .passing ∧ ∃ p, x.heard.getLast? = some (p, o)) ∨
  (x.place = .replied ∧ ((∃ e, x.replies.getLast? = some (.threw e) ∧ o = .rejected e) ∨
    ∃ v, x.replies.getLast? = some (.value v) ∧ o = .resolved v))

/-- A closure whose handler `h` is running, and the call it answers. -/
def Serving (s : State) (c : ClosureId) (h : Handler) (p : ObjRef) (o : Outcome) : Prop :=
  (s.closures c).place = .running ∧ (s.closures c).chosen = some h ∧
    (s.closures c).heard.getLast? = some (p, o)

/-- Who may settle `p` with `o`. -/
def Settles (s : State) (p : ObjRef) (o : Outcome) : Origin → Prop
  | .direct => True
  | .closure c => (s.closures c).promise = some p ∧ Verdict (s.closures c) o
  | .any => ∃ c q o', Serving s c (.any p) q o' ∧ s.control.dispatched = some q ∧
      o = .resolved (variantArg o'.value)
  | .join st => ∃ c i q o' total vs, Serving s c (.join i st p) q o' ∧
      (s.storages st).left = some 0 ∧ (s.storages st).total = some total ∧
      collect (s.storages st).items total = some vs ∧ o = .resolved (.tuple vs)

/-- A closure that waits for `p` with the handler `h`. -/
structure Waits (x : Closure) (p : ObjRef) (h : Handler) : Prop where
  source : x.source = p
  place : x.place = .waiting p
  onResolve : x.onResolve = some h
  onReject : x.onReject = none
  heard : x.heard = []

/-- The closures `first`, `first + 1`, … wait for the promises `ps`, with the
handlers `h 0`, `h 1`, … -/
def Clients (s : State) (first : ClosureId) (ps : List ObjRef) (h : ℕ → Handler) : Prop :=
  s.closureCount = first + ps.length ∧
    ∀ i (hi : i < ps.length), Waits (s.closures (first + i)) ps[i] (h i)

/-- The handler of a closure has done what it is there for. -/
def Served (s : State) : Handler → Prop
  | .user _ => True
  | .any ret => (s.promises ret).outcome.isSome
  | .join _ st ret => (s.storages st).left = some 0 → (s.promises ret).outcome.isSome

/-- The promise `p` leaves the queue at position `n`, and its handlers leave it. -/
def takeHandlers (p : ObjRef) (o : Outcome) (n : ℕ) (s : State) : State :=
  {s with
    promises := Function.update s.promises p {s.promises p with handlers := []}
    closures := fun c => if c ∈ (s.promises p).handlers then {s.closures c with place := .taken}
      else s.closures c
    eventModule := s.eventModule.pop n
    control := .dispatching p (some o) (s.promises p).handlers}

/-- The handler of the closure `c` has come back with `x`. -/
def replied (c : ClosureId) (x : Reply) (s : State) : State :=
  s.setClosure c fun y => {y with replies := y.replies ++ [x], place := .replied}

/-- The next handler to call is that of `di_join_promises`. -/
def AtJoin (s : State) (c : ClosureId) (p : ObjRef) (o : Outcome) (rest : List ClosureId)
    (i : ℕ) (st : StorageId) (ret : ObjRef) : Prop :=
  s.control = .dispatching p (some o) (c :: rest) ∧
    (s.closures c).handlerFor o = some (.join i st ret)

inductive Move (r : Rules) (s : State) : State → Prop where
  | newPromise (role : Role) (hrole : ∀ c, role ≠ .derived c) : Move r s (diNewPromise role s).2
  | derive (p : ObjRef) (res rej : Option Handler) (hp : p < s.promiseCount)
      (hvalid : ∀ h, res = some h ∨ rej = some h → Valid s.promiseCount s.storageCount h)
      (hres : ∀ h, res = some h → Registrable s h) (hrej : ∀ h, rej = some h → ∃ f, h = .user f) :
      Move r s (derive p res rej s)
  | register {s' : State} (p : ObjRef) (c : ClosureId) (hp : p < s.promiseCount)
      (hc : c < s.closureCount) (hplace : (s.closures c).place = .detached)
      (hsource : (s.closures c).source = p)
      (hat : (s.closures c).bornAt = (s.promises p).dispatches)
      (hduring : (s.closures c).bornDuring = (s.control.dispatched == some p))
      (hr : r.attach s.control.dispatched p)
      (hrun : diPromiseAddHandler p c s = .ok s') : Move r s s'
  | follow {s' : State} (q : ObjRef) (c : ClosureId) (hq : q < s.promiseCount)
      (hplace : (s.closures c).place = .replied)
      (hreply : (s.closures c).replies.getLast? = some (.promise q))
      (hr : r.attach s.control.dispatched q)
      (hrun : diPromiseAddHandler q c s = .ok s') : Move r s s'
  | settle {s' : State} (p : ObjRef) (o : Outcome) (origin : Origin) (hp : p < s.promiseCount)
      (hby : Settles s p o origin) (hrun : EventPromise.settle p o origin s = .ok s') : Move r s s'
  | hear (p : ObjRef) (o : Outcome) (c : ClosureId) (rest : List ClosureId)
      (hctl : s.control = .dispatching p (some o) (c :: rest))
      (hother : ∀ i st ret, (s.closures c).handlerFor o ≠ some (.join i st ret)) :
      Move r s (hear p o c rest s)
  | hearJoin (p : ObjRef) (o : Outcome) (c : ClosureId) (rest : List ClosureId) (i : ℕ)
      (st : StorageId) (ret : ObjRef) (left : ℤ) (hat : AtJoin s c p o rest i st ret)
      (hi : (s.storages st).items i = none) (hleft : (s.storages st).left = some left) :
      Move r s ((hear p o c rest s).setStorage st fun x =>
        x.store i (variantArg o.value) (left - 1))
  | call (p : ObjRef) (o : Outcome) (c : ClosureId) (d : ObjRef) (rest : List ClosureId)
      (f : ObjRef) (hctl : s.control = .dispatching p (some o) rest)
      (hserve : Serving s c (.user f) p o) (hd : (s.closures c).promise = some d) :
      Move r s {s with control := .calling p o c d rest}
  | resume (p : ObjRef) (o : Outcome) (c : ClosureId) (d : ObjRef) (rest : List ClosureId)
      (hctl : s.control = .calling p o c d rest) :
      Move r s {s with control := .dispatching p (some o) rest}
  | reply (c : ClosureId) (x : Reply) (p : ObjRef) (o : Outcome) (rest : List ClosureId)
      (hctl : s.control = .dispatching p (some o) rest)
      (hplace : (s.closures c).place = .running)
      (hserved : ∀ h, (s.closures c).chosen = some h → Served s h)
      (hx : ∀ q, x = .promise q → q < s.promiseCount) (hfail : x = .failed → r.fail) :
      Move r s (replied c x s)
  | finish (c : ClosureId) (d : ObjRef) (o : Outcome) (hd : (s.closures c).promise = some d)
      (hv : Verdict (s.closures c) o) (ho : (s.promises d).outcome.isSome) :
      Move r s (finish c s)
  | drop (c : ClosureId) (hplace : (s.closures c).place = .replied)
      (hreply : (s.closures c).replies.getLast? = some .failed) (hfail : r.fail) :
      Move r s (s.setClosure c fun y => {y with place := .dropped})
  | pop (n : ℕ) (p : ObjRef) (o : Outcome) (hctl : s.control = .idle)
      (hn : s.eventModule.pendingCount = some (n + 1))
      (hp : s.eventModule.pendingPromise n = some p) (ho : (s.promises p).outcome = some o)
      (hr : r.pop s) : Move r s (takeHandlers p o n s)
  | endDispatch (p : ObjRef) (o : Option Outcome) (hctl : s.control = .dispatching p o []) :
      Move r s (endDispatch p s)
  | startIdle (hctl : s.control = .outside) : Move r s (startIdle s)
  | exitIdle (hctl : s.control = .idle) (hn : s.eventModule.pendingCount = some 0) :
      Move r s (exitIdle s)
  | newStorage : Move r s (newStorage s).2
  | openStorage (st : StorageId) (ps : List ObjRef) (ret : ObjRef) (first : ClosureId)
      (hst : st < s.storageCount) (hnew : (s.storages st).total = none)
      (hret : (s.promises ret).role = .join st) (hc : Clients s first ps fun i => .join i st ret)
      (honly : ∀ c i ret', (s.closures c).onResolve = some (.join i st ret') → first ≤ c)
      (hne : ps ≠ []) :
      Move r s (s.setStorage st fun x => x.opened ps ret first)
  | recordAny (ret : ObjRef) (ps : List ObjRef) (first : ClosureId)
      (hret : (s.promises ret).role = .any) (hnew : ∀ a ∈ s.anys, a.ret ≠ ret)
      (hc : Clients s first ps fun _ => .any ret)
      (honly : ∀ c, (s.closures c).onResolve = some (.any ret) → first ≤ c) :
      Move r s {s with anys := ⟨ret, ps, first⟩ :: s.anys}

def Moves (r : Rules) : State → State → Prop := ReflTransGen (Move r)

/-! ## What the three functions that fill the queue change -/

/-- The event module after `di_promise_start_dispatch`, if it is called at all. -/
def Woken (s : State) (p : ObjRef) (needed : Prop) (m : EventModule) : Prop :=
  (((s.promises p).isPending ∨ ¬ needed) ∧ m = s.eventModule) ∨
  ((s.promises p).isPending = false ∧ needed ∧
    ∃ n, s.eventModule.pendingCount = some n ∧ m = s.eventModule.push n p)

/-- The promise after `di_promise_add_handler`. -/
def listened (x : Promise) (c : ClosureId) : Promise :=
  {x with
    handlers := x.handlers ++ [c]
    added := x.added ++ [c]
    isPending := x.isPending || x.outcome.isSome}

/-- The promise after it has been resolved or rejected. -/
def settled (x : Promise) (o : Outcome) (origin : Origin) (t : ℕ) : Promise :=
  {x with
    resolved := match o with | .resolved v => some v | .rejected _ => x.resolved
    rejected := match o with | .resolved _ => x.rejected | .rejected e => some e
    settledBy := some origin
    settledAt := t
    isPending := true}

@[simp] theorem outcome_listened (x : Promise) (c : ClosureId) :
    (listened x c).outcome = x.outcome := rfl

theorem outcome_eq_none {x : Promise} (h : x.outcome = none) :
    x.resolved = none ∧ x.rejected = none := by
  cases hr : x.resolved <;> simp_all [Promise.outcome]

theorem outcome_settled {x : Promise} (h : x.outcome = none) (o : Outcome) (origin : Origin)
    (t : ℕ) : (settled x o origin t).outcome = some o := by
  obtain ⟨hres, hrej⟩ := outcome_eq_none h
  cases o <;> simp [settled, Promise.outcome, hres]

@[simp] theorem settledBy_settled (x : Promise) (o : Outcome) (origin : Origin) (t : ℕ) :
    (settled x o origin t).settledBy = some origin := rfl

@[simp] theorem settledAt_settled (x : Promise) (o : Outcome) (origin : Origin) (t : ℕ) :
    (settled x o origin t).settledAt = t := rfl

theorem startDispatch_cases {p : ObjRef} {s s' : State}
    (h : diPromiseStartDispatch p s = .ok s') :
    ((s.promises p).isPending ∧ s' = s) ∨ ((s.promises p).isPending = false ∧
      ∃ n, s.eventModule.pendingCount = some n ∧ s' = enqueue p n s) := by
  unfold diPromiseStartDispatch at h
  split_ifs at h with hpend hweak
  · exact .inl ⟨hpend, by simpa using h.symm⟩
  · split at h
    · cases h
    · rename_i n hn
      exact .inr ⟨by simpa using hpend, n, hn, by simpa using h.symm⟩

theorem addHandler_eq {p : ObjRef} {c : ClosureId} {s s' : State}
    (h : diPromiseAddHandler p c s = .ok s') :
    ∃ m, Woken s p (s.promises p).outcome.isSome m ∧
      s' = {s with
        promises := Function.update s.promises p (listened (s.promises p) c)
        closures := Function.update s.closures c {s.closures c with place := .waiting p}
        eventModule := m} := by
  unfold diPromiseAddHandler at h
  have hout : ((attach p c s).promises p).outcome = (s.promises p).outcome := by
    simp [attach, State.setPromise, State.setClosure, Promise.outcome]
  have hpend : ((attach p c s).promises p).isPending = (s.promises p).isPending := by
    simp [attach, State.setPromise, State.setClosure]
  simp only [hout] at h
  split_ifs at h with hset
  · rcases startDispatch_cases h with ⟨hp, rfl⟩ | ⟨hp, n, hn, rfl⟩
    · rw [hpend] at hp
      refine ⟨s.eventModule, .inl ⟨.inl hp, rfl⟩, ?_⟩
      simp [attach, State.setPromise, State.setClosure, listened, hp]
    · rw [hpend] at hp
      refine ⟨s.eventModule.push n p, .inr ⟨hp, hset, n, hn, rfl⟩, ?_⟩
      simp [attach, enqueue, State.setPromise, State.setClosure, listened, hset]
  · have hs : s' = attach p c s := by simpa using h.symm
    refine ⟨s.eventModule, .inl ⟨.inr hset, rfl⟩, ?_⟩
    simp [hs, attach, State.setPromise, State.setClosure, listened, hset]

theorem settle_eq {p : ObjRef} {o : Outcome} {origin : Origin} {s s' : State}
    (h : settle p o origin s = .ok s') :
    ((s.promises p).outcome.isSome ∧ s' = s) ∨ ((s.promises p).outcome = none ∧
      ∃ m, Woken s p True m ∧ s' = {s with
        promises := Function.update s.promises p (settled (s.promises p) o origin s.clock)
        eventModule := m
        clock := s.clock + 1}) := by
  unfold settle at h
  split_ifs at h with hset
  · exact .inl ⟨hset, by simpa using h.symm⟩
  · refine .inr ⟨by simpa using hset, ?_⟩
    have hpend : ((setOutcome p o origin s).promises p).isPending = (s.promises p).isPending := by
      cases o <;> simp [setOutcome, State.setPromise]
    rcases startDispatch_cases h with ⟨hp, rfl⟩ | ⟨hp, n, hn, rfl⟩
    · rw [hpend] at hp
      refine ⟨s.eventModule, .inl ⟨.inl hp, rfl⟩, ?_⟩
      cases o <;> simp [setOutcome, State.setPromise, settled, hp]
    · rw [hpend] at hp
      refine ⟨s.eventModule.push n p, .inr ⟨hp, trivial, n, hn, rfl⟩, ?_⟩
      cases o <;> simp [setOutcome, enqueue, State.setPromise, settled]

/-! ## References are to what exists -/

/-- The promise and the handlers of a closure exist. -/
structure ValidClosure (promises storages : ℕ) (x : Closure) : Prop where
  promise : ∀ d, x.promise = some d → d < promises
  handlerFor : ∀ o h, x.handlerFor o = some h → Valid promises storages h
  chosen : ∀ h, x.chosen = some h → Valid promises storages h
  onResolve : ∀ h, x.onResolve = some h → Valid promises storages h

structure WellFormed (s : State) : Prop where
  freshPromise : ∀ p, s.promiseCount ≤ p → s.promises p = {}
  freshClosure : ∀ c, s.closureCount ≤ c → s.closures c = {}
  freshStorage : ∀ st, s.storageCount ≤ st → s.storages st = {}
  closure : ∀ c, ValidClosure s.promiseCount s.storageCount (s.closures c)
  handlers : ∀ p, ∀ c ∈ (s.promises p).handlers, c < s.closureCount
  rest : ∀ c ∈ s.control.rest, c < s.closureCount
  queued : ∀ n p, s.eventModule.pendingPromise n = some p →
    p < s.promiseCount ∧ (s.promises p).outcome.isSome
  dispatched : ∀ p, s.control.dispatched = some p → p < s.promiseCount
  anys : ∀ a ∈ s.anys, a.ret < s.promiseCount
  calling : ∀ p o c d rest, s.control = .calling p o c d rest →
    (s.closures c).promise = some d ∧ ∃ f, Serving s c (.user f) p o

theorem Valid.mono {m n m' n' : ℕ} {h : Handler} (hv : Valid m n h) (hm : m ≤ m') (hn : n ≤ n') :
    Valid m' n' h := by
  cases h with
  | user f => trivial
  | any ret => exact Nat.lt_of_lt_of_le hv hm
  | join i st ret => exact ⟨Nat.lt_of_lt_of_le hv.1 hm, Nat.lt_of_lt_of_le hv.2 hn⟩

theorem ValidClosure.mono {m n m' n' : ℕ} {x : Closure} (hv : ValidClosure m n x) (hm : m ≤ m')
    (hn : n ≤ n') : ValidClosure m' n' x where
  promise d hd := Nat.lt_of_lt_of_le (hv.promise d hd) hm
  handlerFor o h hh := (hv.handlerFor o h hh).mono hm hn
  chosen h hh := (hv.chosen h hh).mono hm hn
  onResolve h hh := (hv.onResolve h hh).mono hm hn

theorem ValidClosure.hear {m n : ℕ} {x : Closure} (hv : ValidClosure m n x) (p : ObjRef)
    (o : Outcome) : ValidClosure m n (x.hear p o) where
  promise := hv.promise
  handlerFor o' h hh := by cases o' <;> simp [Closure.hear, Closure.handlerFor] at hh
  chosen h hh := hv.handlerFor o h hh
  onResolve := hv.onResolve

theorem fresh_update {A : Type} {f : ℕ → A} {b x : A} {n c : ℕ} (hf : ∀ p, n ≤ p → f p = b)
    (hc : c < n) : ∀ p, n ≤ p → Function.update f c x p = b := by
  intro p hp
  rw [Function.update_of_ne (by omega), hf p hp]

theorem fresh_next {A : Type} {f : ℕ → A} {b x : A} {n : ℕ} (hf : ∀ p, n ≤ p → f p = b) :
    ∀ p, n + 1 ≤ p → Function.update f n x p = b := by
  intro p hp
  rw [Function.update_of_ne (by omega), hf p (by omega)]

theorem WellFormed.lt_of_place {s : State} (hwf : WellFormed s) {c : ClosureId}
    (hplace : (s.closures c).place ≠ .detached) : c < s.closureCount := by
  by_contra hc
  exact hplace (by rw [hwf.freshClosure c (Nat.le_of_not_lt hc)])

theorem WellFormed.lt_of_onResolve {s : State} (hwf : WellFormed s) {c : ClosureId} {h : Handler}
    (hon : (s.closures c).onResolve = some h) : c < s.closureCount := by
  by_contra hc
  rw [hwf.freshClosure c (Nat.le_of_not_lt hc)] at hon
  cases hon

theorem WellFormed.lt_of_role {s : State} (hwf : WellFormed s) {p : ObjRef}
    (hrole : (s.promises p).role ≠ .plain) : p < s.promiseCount := by
  by_contra hp
  exact hrole (by rw [hwf.freshPromise p (Nat.le_of_not_lt hp)])

/-- The same dispatch goes on. -/
theorem WellFormed.setControl {s : State} (hwf : WellFormed s) {k : Control}
    (hrest : k.rest = s.control.rest) (hdisp : k.dispatched = s.control.dispatched)
    (hcalling : ∀ p o c d rest, k = .calling p o c d rest →
      (s.closures c).promise = some d ∧ ∃ f, Serving s c (.user f) p o) :
    WellFormed {s with control := k} :=
  {hwf with
    rest := fun c hc => hwf.rest c (hrest ▸ hc)
    dispatched := fun q hq => hwf.dispatched q (hdisp.symm.trans hq)
    calling := hcalling}

/-- A closure that is not running changes its place, and perhaps loses its promise. -/
theorem WellFormed.setClosure {s : State} (hwf : WellFormed s) {c : ClosureId}
    (hc : c < s.closureCount) {x : Closure}
    (hx : ValidClosure s.promiseCount s.storageCount x)
    (hrun : (s.closures c).place = .running → ∃ p o rest, s.control = .dispatching p o rest) :
    WellFormed {s with closures := Function.update s.closures c x} := by
  refine {hwf with freshClosure := fresh_update hwf.freshClosure hc, closure := ?_, calling := ?_}
  · exact (Function.forall_update_iff _ fun _ y => ValidClosure _ _ y).mpr
      ⟨hx, fun c' _ => hwf.closure c'⟩
  · intro p o c' d rest hctl
    obtain ⟨hd, f, hserve⟩ := hwf.calling p o c' d rest hctl
    have hne : c' ≠ c := by
      intro heq
      subst heq
      obtain ⟨p', o', rest', hctl'⟩ := hrun hserve.1
      cases hctl.symm.trans hctl'
    simp only [Serving, Function.update_of_ne hne]
    exact ⟨hd, f, hserve⟩

/-- A promise that exists changes, but stays settled if it is. -/
theorem WellFormed.setPromise {s : State} (hwf : WellFormed s) {p : ObjRef}
    (hp : p < s.promiseCount) {x : Promise} (hx : ∀ c ∈ x.handlers, c < s.closureCount)
    (hout : (s.promises p).outcome.isSome → x.outcome.isSome) :
    WellFormed {s with promises := Function.update s.promises p x} := by
  refine {hwf with
    freshPromise := fresh_update hwf.freshPromise hp, handlers := ?_, queued := ?_}
  · exact (Function.forall_update_iff _ fun _ (y : Promise) => ∀ c ∈ y.handlers, c < _).mpr
      ⟨hx, fun q _ => hwf.handlers q⟩
  · intro n q hq
    obtain ⟨hlt, hset⟩ := hwf.queued n q hq
    refine ⟨hlt, ?_⟩
    by_cases hqp : q = p
    · subst hqp
      simpa using hout hset
    · simpa [Function.update_of_ne hqp] using hset

/-- The queue may have grown by one promise. -/
theorem Woken.queued {s : State} {p : ObjRef} {needed : Prop} {m : EventModule}
    (hm : Woken s p needed m) {k : ℕ} {q : ObjRef} (hq : m.pendingPromise k = some q) :
    s.eventModule.pendingPromise k = some q ∨ (q = p ∧ needed) := by
  rcases hm with ⟨-, rfl⟩ | ⟨-, hneed, n, hn, rfl⟩
  · exact .inl hq
  · simp only [EventModule.push] at hq
    split_ifs at hq with hold
    · exact .inl hq
    · by_cases hk : k = n
      · subst hk
        simp only [Function.update_self, Option.some.injEq] at hq
        exact .inr ⟨hq.symm, hneed⟩
      · rw [Function.update_of_ne hk] at hq
        exact .inl hq

theorem WellFormed.woken {s : State} (hwf : WellFormed s) {p : ObjRef} (hp : p < s.promiseCount)
    {t : State} {needed : Prop} {m : EventModule} (hm : Woken t p needed m)
    (ht : t.eventModule = s.eventModule) (hset : needed → (s.promises p).outcome.isSome) :
    WellFormed {s with eventModule := m} := by
  refine {hwf with queued := ?_}
  intro k q hq
  rcases hm.queued hq with hold | ⟨rfl, hneed⟩
  · rw [ht] at hold
    exact hwf.queued k q hold
  · exact ⟨hp, hset hneed⟩

theorem WellFormed.addHandler {s s' : State} (hwf : WellFormed s) {p : ObjRef} {c : ClosureId}
    (hp : p < s.promiseCount) (hc : c < s.closureCount) (hplace : (s.closures c).place ≠ .running)
    (hrun : diPromiseAddHandler p c s = .ok s') : WellFormed s' := by
  obtain ⟨m, hm, rfl⟩ := addHandler_eq hrun
  have hclos := (hwf.woken hp hm rfl id).setClosure (c := c)
    (x := {s.closures c with place := .waiting p}) hc {hwf.closure c with}
    (fun h => absurd h hplace)
  apply hclos.setPromise hp (x := listened (s.promises p) c)
  · intro c' hc'
    rcases List.mem_append.mp hc' with hold | hnew
    · exact hwf.handlers p c' hold
    · rw [List.mem_singleton.mp hnew]
      exact hc
  · exact id

theorem WellFormed.hear {s : State} (hwf : WellFormed s) {p : ObjRef} {o : Outcome}
    {c : ClosureId} {rest : List ClosureId}
    (hctl : s.control = .dispatching p (some o) (c :: rest)) :
    WellFormed (EventPromise.hear p o c rest s) := by
  have hp : p < s.promiseCount := hwf.dispatched p (by simp [hctl, Control.dispatched])
  have hrest : ∀ c' ∈ c :: rest, c' < s.closureCount := by
    intro c' hc'
    apply hwf.rest
    rw [hctl]
    exact hc'
  have hprom := hwf.setPromise hp (x := {s.promises p with
    called := (s.promises p).called ++ [(c, o)]}) (hwf.handlers p) id
  have hclos := hprom.setClosure (c := c) (hrest c (by simp)) ((hwf.closure c).hear p o)
    fun _ => ⟨p, some o, c :: rest, hctl⟩
  refine {hclos with rest := ?_, dispatched := ?_, calling := ?_}
  · exact fun c' hc' => hrest c' (List.mem_cons_of_mem c hc')
  · intro q hq
    cases hq
    exact hp
  · intro p' o' c' d rest' hctl'
    cases hctl'

theorem WellFormed.takeHandlers {s : State} (hwf : WellFormed s) {p : ObjRef} {o : Outcome}
    (hp : p < s.promiseCount) (n : ℕ) : WellFormed (takeHandlers p o n s) := by
  have hpop : WellFormed {s with eventModule := s.eventModule.pop n} := by
    refine {hwf with queued := ?_}
    intro k q hq
    by_cases hk : k = n
    · simp [EventModule.pop, hk] at hq
    · exact hwf.queued k q (by simpa [EventModule.pop, hk] using hq)
  have hprom := hpop.setPromise hp (x := {s.promises p with handlers := []}) (by simp) id
  refine {hprom with
    freshClosure := ?_, closure := ?_, rest := hwf.handlers p, dispatched := ?_, calling := nofun}
  · intro c hc
    have hold : c ∉ (s.promises p).handlers :=
      fun hmem => Nat.not_lt.mpr hc (hwf.handlers p c hmem)
    simpa [PromiseSteps.takeHandlers, hold] using hwf.freshClosure c hc
  · intro c
    dsimp only [PromiseSteps.takeHandlers]
    split_ifs
    · exact {hwf.closure c with}
    · exact hwf.closure c
  · intro q hq
    cases hq
    exact hp

/-- A new promise is not in the queue. -/
theorem WellFormed.queued_next {s : State} (hwf : WellFormed s) {x : Promise} :
    ∀ n p, s.eventModule.pendingPromise n = some p → p < s.promiseCount + 1 ∧
      (Function.update s.promises s.promiseCount x p).outcome.isSome := by
  intro n p hp
  obtain ⟨hlt, hset⟩ := hwf.queued n p hp
  rw [Function.update_of_ne (Nat.ne_of_lt hlt)]
  exact ⟨Nat.lt_succ_of_lt hlt, hset⟩

theorem WellFormed.derive {s : State} (hwf : WellFormed s) {p : ObjRef}
    {res rej : Option Handler}
    (hvalid : ∀ h, res = some h ∨ rej = some h → Valid s.promiseCount s.storageCount h) :
    WellFormed (derive p res rej s) := by
  have hnew : ∀ h, res = some h ∨ rej = some h → Valid (s.promiseCount + 1) s.storageCount h :=
    fun h hh => (hvalid h hh).mono (Nat.le_succ _) le_rfl
  refine {hwf with
    freshPromise := fresh_next hwf.freshPromise, freshClosure := fresh_next hwf.freshClosure,
    closure := ?_, handlers := ?_, rest := ?_, queued := ?_, dispatched := ?_,
    anys := fun a ha => Nat.lt_succ_of_lt (hwf.anys a ha), calling := ?_}
  · refine (Function.forall_update_iff _ fun _ y => ValidClosure _ _ y).mpr
      ⟨?_, fun c _ => (hwf.closure c).mono (Nat.le_succ _) le_rfl⟩
    constructor
    · intro d hd
      cases hd
      exact Nat.lt_succ_self _
    · intro o h hh
      cases o with
      | resolved v => exact hnew h (.inl hh)
      | rejected e => exact hnew h (.inr hh)
    · simp
    · exact fun h hh => hnew h (.inl hh)
  · refine (Function.forall_update_iff _ fun _ (y : Promise) => ∀ c ∈ y.handlers, c < _).mpr
      ⟨by simp, fun q _ c hc => Nat.lt_succ_of_lt (hwf.handlers q c hc)⟩
  · exact fun c hc => Nat.lt_succ_of_lt (hwf.rest c hc)
  · exact hwf.queued_next
  · exact fun q hq => Nat.lt_succ_of_lt (hwf.dispatched q hq)
  · intro p' o c d rest hctl
    obtain ⟨hd, f, hserve⟩ := hwf.calling p' o c d rest hctl
    have hlt := hwf.lt_of_place (c := c) (by simp [hserve.1])
    have hsame : (PromiseSteps.derive p res rej s).closures c = s.closures c :=
      Function.update_of_ne (Nat.ne_of_lt hlt) _ _
    simp only [Serving, hsame]
    exact ⟨hd, f, hserve⟩

theorem WellFormed.settle {s : State} (hwf : WellFormed s) {p : ObjRef} {o : Outcome}
    {origin : Origin} (hp : p < s.promiseCount) (hnone : (s.promises p).outcome = none)
    {m : EventModule} (hm : Woken s p True m) : WellFormed {s with
      promises := Function.update s.promises p (settled (s.promises p) o origin s.clock)
      eventModule := m
      clock := s.clock + 1} := by
  have hprom := hwf.setPromise hp (x := settled (s.promises p) o origin s.clock) (hwf.handlers p)
    (by simp [hnone])
  exact {hprom.woken hp hm rfl (by simp [outcome_settled hnone]) with}

theorem Move.wellFormed {r : Rules} {s s' : State} (hmove : Move r s s') (hwf : WellFormed s) :
    WellFormed s' := by
  cases hmove with
  | newPromise role hrole =>
      refine {hwf with
        freshPromise := fresh_next hwf.freshPromise, closure := ?_, handlers := ?_, queued := ?_,
        dispatched := ?_, anys := fun a ha => Nat.lt_succ_of_lt (hwf.anys a ha)}
      · exact fun c => (hwf.closure c).mono (Nat.le_succ _) le_rfl
      · exact (Function.forall_update_iff _ fun _ (y : Promise) => ∀ c ∈ y.handlers, c < _).mpr
          ⟨by simp, fun q _ => hwf.handlers q⟩
      · exact hwf.queued_next
      · exact fun p hp => Nat.lt_succ_of_lt (hwf.dispatched p hp)
  | derive p res rej hp hvalid hres hrej => exact hwf.derive hvalid
  | register p c hp hc hplace hsource hat hduring hr hrun =>
      exact hwf.addHandler hp hc (by simp [hplace]) hrun
  | follow q c hq hplace hreply hr hrun =>
      exact hwf.addHandler hq (hwf.lt_of_place (by simp [hplace])) (by simp [hplace]) hrun
  | settle p o origin hp hby hrun =>
      rcases settle_eq hrun with ⟨-, rfl⟩ | ⟨hnone, m, hm, rfl⟩
      · exact hwf
      · exact hwf.settle hp hnone hm
  | hear p o c rest hctl hother => exact hwf.hear hctl
  | hearJoin p o c rest i st ret left hat hi hleft =>
      have hnew := hwf.hear hat.1
      have hst := ((hwf.closure c).handlerFor o _ hat.2).2
      exact {hnew with freshStorage := fresh_update hwf.freshStorage hst}
  | call p o c d rest f hctl hserve hd =>
      refine hwf.setControl (by rw [hctl]; rfl) (by rw [hctl]; rfl) ?_
      intro p o c d rest heq
      cases heq
      exact ⟨hd, f, hserve⟩
  | resume p o c d rest hctl =>
      exact hwf.setControl (by rw [hctl]; rfl) (by rw [hctl]; rfl) nofun
  | reply c x p o rest hctl hplace hserved hx hfail =>
      exact hwf.setClosure (hwf.lt_of_place (by simp [hplace])) {hwf.closure c with}
        fun _ => ⟨p, some o, rest, hctl⟩
  | finish c d o hd hv ho =>
      have hplace : (s.closures c).place ≠ .detached ∧ (s.closures c).place ≠ .running := by
        rcases hv with ⟨hpl, -⟩ | ⟨hpl, -⟩ <;> simp [hpl]
      exact hwf.setClosure (hwf.lt_of_place hplace.1) {hwf.closure c with promise := by simp}
        fun h => absurd h hplace.2
  | drop c hplace hreply hfail =>
      exact hwf.setClosure (hwf.lt_of_place (by simp [hplace])) {hwf.closure c with}
        fun h => by simp [hplace] at h
  | pop n p o hctl hn hp ho hr => exact hwf.takeHandlers (hwf.queued n p hp).1 n
  | endDispatch p o hctl =>
      have hp := hwf.dispatched p (by rw [hctl]; rfl)
      have hprom := hwf.setPromise hp (x := {s.promises p with
        isPending := false, dispatches := (s.promises p).dispatches + 1}) (hwf.handlers p) id
      exact {hprom with rest := nofun, dispatched := nofun, calling := nofun}
  | startIdle hctl => exact {hwf with rest := nofun, dispatched := nofun, calling := nofun}
  | exitIdle hctl hn => exact {hwf with rest := nofun, dispatched := nofun, calling := nofun}
  | newStorage =>
      refine {hwf with freshStorage := fresh_next hwf.freshStorage, closure := ?_}
      exact fun c => (hwf.closure c).mono le_rfl (Nat.le_succ _)
  | openStorage st ps ret first hst hnew hret hc honly hne =>
      exact {hwf with freshStorage := fresh_update hwf.freshStorage hst}
  | recordAny ret ps first hret hnew hc honly =>
      refine {hwf with anys := ?_}
      intro a ha
      rcases List.mem_cons.mp ha with rfl | hold
      · exact hwf.lt_of_role (by simp [hret])
      · exact hwf.anys a hold

theorem wellFormed_init : WellFormed {} := by
  refine ⟨fun _ _ => rfl, fun _ _ => rfl, fun _ _ => rfl, fun c => ?_, nofun, nofun, nofun,
    nofun, nofun, nofun⟩
  exact ⟨nofun, fun o => by cases o <;> nofun, nofun, nofun⟩

theorem Moves.wellFormed {r : Rules} {s s' : State} (hmoves : Moves r s s') (hwf : WellFormed s) :
    WellFormed s' := by
  induction hmoves with
  | refl => exact hwf
  | tail _ hmove ih => exact hmove.wellFormed ih

end Deai.PromiseSteps
