import Deai.Signal
import Mathlib.Tactic

/-!
# What a step of the signal machine can do

A step registers a handler, deletes one, finishes a deletion, or moves an emission on.
Runs are restricted by a predicate on the actions, and the source may change by itself.
-/
namespace Deai.SignalRuns
open Value Signal Relation

section
variable {Name World Error : Type}

/-- Nothing changes but references and options of handles. -/
structure Quiet (s s' : State Name World) : Prop where
  world : s'.world = s.world
  signals : s'.signals = s.signals
  signalCount : s'.signalCount = s.signalCount
  stack : s'.stack = s.stack
  handleCount : s'.handleCount = s.handleCount
  weakSignal : ∀ k, (s'.handles k).weakSignal = (s.handles k).weakSignal
  weakHandler : ∀ k, (s'.handles k).weakHandler = (s.handles k).weakHandler
  ended : ∀ k, (s'.handles k).ended = (s.handles k).ended

/-- The handles that a call of `stop` leaves ended. -/
def endHandle (k : Option HandleId) (s : State Name World) : State Name World :=
  match k with
  | none => s
  | some k => s.setHandle k fun y => {y with ended := true}

/-- The member of the handler `h` is deleted. -/
def deleteHandler (x : SignalId) (h : ObjRef) (s : State Name World) : State Name World :=
  {s.setSignal x fun y => {y with handlers := y.handlers.erase h} with
    stack := .removal x :: s.stack.map (Frame.noteStop x h)}

/-- The handle `k` is one for the handler `h` of the signal object `x`. -/
def For (s : State Name World) (x : SignalId) (h : ObjRef) (k : HandleId) : Prop :=
  k < s.handleCount ∧ (s.handles k).weakSignal = x ∧ (s.handles k).weakHandler = h

/-- The handler that an action adds, with its signal object. -/
def addsTo (S : Source Name World Error) (s : State Name World) :
    Action Name → Option (SignalId × ObjRef)
  | .listen n h => (S.member s.world n).map (·, h)
  | .add x h => some (x, h)
  | _ => none

/-- The handler that `stop` asks its signal object to remove. -/
def stops (S : Source Name World Error) (s : State Name World) (k : HandleId) :
    Option (SignalId × ObjRef) :=
  if signalAlive S (s.handles k).weakSignal s then
    some ((s.handles k).weakSignal, (s.handles k).weakHandler)
  else none

/-- The handler that an action asks its signal object to remove. -/
def removesFrom (S : Source Name World Error) (s : State Name World) :
    Action Name → Option (SignalId × ObjRef)
  | .stop k => stops S s k
  | .drop k => if (s.handles k).stopOnDrop then stops S s k else none
  | .remove x h => some (x, h)
  | _ => none

/-- The handle that an action stops. -/
def endsHandle (s : State Name World) : Action Name → Option HandleId
  | .stop k => some k
  | .drop k => if (s.handles k).stopOnDrop then some k else none
  | _ => none

/-- All that a step can do. -/
inductive Effect [DecidableEq Name] (S : Source Name World Error) (s : State Name World) :
    Action Name → State Name World → Prop where
  | quiet {a : Action Name} {s' : State Name World} (h : Quiet s s')
      (hheld : ∀ x ∈ s'.held, x ∈ s.held ∨ ∃ n, S.member s.world n = some x) : Effect S s a s'
  | listenOld (n : Name) (h : ObjRef) (x : SignalId) (hx : S.member s.world n = some x)
      (halive : S.alive s.world) :
      Effect S s (.listen n h) (newListenHandle x h (diSignalAddHandler x h s))
  | listenNew (n : Name) (h : ObjRef) (w : World) (hx : S.member s.world n = none)
      (hw : S.set n s.signalCount s.world = .ok w) (halive : S.alive s.world) :
      Effect S s (.listen n h) (newListenHandle s.signalCount h
        (diSignalAddHandler s.signalCount h (newSignal n {s with world := w})))
  | added (x : SignalId) (h : ObjRef) (hx : x ∈ s.held) :
      Effect S s (.add x h) (diSignalAddHandler x h s)
  | deleted {a : Action Name} {t : State Name World} (x : SignalId) (h : ObjRef)
      (hmem : h ∈ (s.signals x).handlers) (halive : signalAlive S x s)
      (ha : removesFrom S s a = some (x, h))
      (hk : endsHandle s a = none ∧ a = .remove x h ∨ ∃ k, endsHandle s a = some k ∧ For s x h k)
      (ht : Quiet s t) (hheld : t.held = s.held) :
      Effect S s a (endHandle (endsHandle s a) (deleteHandler x h t))
  | missed {a : Action Name} {t : State Name World} (k : HandleId) (hk : k < s.handleCount)
      (ha : endsHandle s a = some k)
      (hmem : signalAlive S (s.handles k).weakSignal s →
        (s.handles k).weakHandler ∉ (s.signals (s.handles k).weakSignal).handlers)
      (ht : Quiet s t) (hheld : t.held = s.held) : Effect S s a (endHandle (some k) t)
  | finished {s' : State Name World} (x : SignalId) (stack : List Frame)
      (hstack : s.stack = .removal x :: stack)
      (hend : Signal.endRemoval S x {s with stack := stack} = .ok s') :
      Effect S s .endRemoval s'
  | emitted (n : Name) (x : SignalId) (hx : S.member s.world n = some x)
      (hcount : ((s.signals x).handlers.length : ℤ) = (s.signals x).nhandlers)
      (halive : S.alive s.world) :
      Effect S s (.emit n) {s with stack := .emission ⟨x, (s.signals x).handlers, false,
        (s.signals x).handlers, activeHandles n s, [], []⟩ :: s.stack}
  | called (e : Emission) (h : ObjRef) (rest : List ObjRef) (stack : List Frame)
      (hstack : s.stack = .emission e :: stack) (hrest : e.rest = h :: rest)
      (hrun : e.running = false) :
      Effect S s .callNext {s with stack := .emission (e.call h rest) :: stack}
  | returned (e : Emission) (stack : List Frame) (hstack : s.stack = .emission e :: stack)
      (hrun : e.running) :
      Effect S s .handlerReturns {s with stack := .emission {e with running := false} :: stack}
  | closed (e : Emission) (stack : List Frame) (hstack : s.stack = .emission e :: stack)
      (hrest : e.rest = []) (hrun : e.running = false) :
      Effect S s .endEmission {s with stack := stack}

theorem Quiet.refl (s : State Name World) : Quiet s s :=
  ⟨rfl, rfl, rfl, rfl, rfl, fun _ => rfl, fun _ => rfl, fun _ => rfl⟩

/-- A field of a handle changes that says nothing about its registration. -/
theorem Quiet.setHandle (s : State Name World) (k : HandleId) {f : ListenHandle → ListenHandle}
    (hsig : ∀ y, (f y).weakSignal = y.weakSignal) (hhan : ∀ y, (f y).weakHandler = y.weakHandler)
    (hend : ∀ y, (f y).ended = y.ended) : Quiet s (s.setHandle k f) := by
  have hfield : ∀ {A : Type} (g : ListenHandle → A), (∀ y, g (f y) = g y) → ∀ k',
      g ((s.setHandle k f).handles k') = g (s.handles k') := by
    intro A g hg k'
    by_cases hk : k' = k
    · subst hk
      simp [State.setHandle, hg]
    · simp [State.setHandle, Function.update_of_ne hk]
  exact ⟨rfl, rfl, rfl, rfl, rfl, hfield _ hsig, hfield _ hhan, hfield _ hend⟩

variable {S : Source Name World Error} {s s' : State Name World}

/-- `stop`, on a state `t` that differs from `s` in nothing that it looks at. -/
theorem stop_effect [DecidableEq Name] {a : Action Name} {t : State Name World} {k : HandleId}
    (hk : k < s.handleCount) (ha : removesFrom S s a = stops S s k)
    (hend : endsHandle s a = some k) (ht : Quiet s t) (hheld : t.held = s.held) :
    Effect S s a (diListenHandleStop S k t) := by
  have halive : signalAlive S (t.handles k).weakSignal t =
      signalAlive S (s.handles k).weakSignal s := by
    simp only [signalAlive, ht.world, ht.signals, ht.stack, ht.weakSignal, hheld]
  unfold diListenHandleStop diSignalRemoveHandler
  dsimp only
  split_ifs with hal hmem
  · rw [halive] at hal
    have hdel := Effect.deleted (S := S) (a := a) (t := t) (s.handles k).weakSignal
      (s.handles k).weakHandler (by rwa [← ht.signals, ← ht.weakSignal, ← ht.weakHandler]) hal
      (by rw [ha, stops, if_pos hal]) (.inr ⟨k, hend, hk, rfl, rfl⟩) ht hheld
    rw [hend, ← ht.weakSignal, ← ht.weakHandler] at hdel
    exact hdel
  · refine .missed (t := t) k hk hend (fun _ => ?_) ht hheld
    rw [← ht.weakSignal, ← ht.weakHandler, ← ht.signals]
    exact hmem
  · exact .missed (t := t) k hk hend (fun hal' => absurd (halive.trans hal') hal) ht hheld

/-- The emission on top of the stack calls its next handler. -/
theorem callNext_cases [DecidableEq Name] (h : Step S s .callNext s') :
    ∃ e f rest stack, s.stack = .emission e :: stack ∧ e.rest = f :: rest ∧ e.running = false ∧
      s' = {s with stack := .emission (e.call f rest) :: stack} := by
  unfold Step at h
  cases hst : s.stack with
  | nil => simp [exec, hst] at h
  | cons g stack =>
      cases g with
      | removal x => simp [exec, hst] at h
      | emission e =>
          simp only [exec, hst] at h
          split at h
          · rename_i f rest hrun hrest
            cases h
            exact ⟨e, f, rest, stack, rfl, hrest, hrun, rfl⟩
          · cases h

theorem step_effect [DecidableEq Name] {a : Action Name} (h : Step S s a s') : Effect S s a s' := by
  unfold Step at h
  cases a with
  | listen n f =>
      simp only [exec, Option.ite_none_right_eq_some, Option.some.injEq] at h
      obtain ⟨halive, h⟩ := h
      unfold diListenTo at h
      split at h
      · rename_i x hx
        cases h
        exact .listenOld n f x hx halive
      · rename_i hx
        split at h
        · cases h
        · rename_i w hw
          cases h
          exact .listenNew n f w hx hw halive
  | stop k =>
      simp only [exec, Option.ite_none_right_eq_some, Option.some.injEq, Except.ok.injEq] at h
      obtain ⟨hk, rfl⟩ := h
      simp only [hasHandle, Bool.and_eq_true, decide_eq_true_eq] at hk
      exact stop_effect hk.1 rfl rfl (.refl s) rfl
  | autoStop k b =>
      simp only [exec, Option.ite_none_right_eq_some, Option.some.injEq, Except.ok.injEq] at h
      obtain ⟨hk, rfl⟩ := h
      exact .quiet (.setHandle s k (fun _ => rfl) (fun _ => rfl) fun _ => rfl) fun _ => .inl
  | drop k =>
      simp only [exec, Option.ite_none_right_eq_some, Option.some.injEq, Except.ok.injEq] at h
      obtain ⟨hk, rfl⟩ := h
      simp only [hasHandle, Bool.and_eq_true, decide_eq_true_eq] at hk
      have hq : Quiet s (s.setHandle k fun y => {y with dropped := true}) :=
        .setHandle s k (fun _ => rfl) (fun _ => rfl) fun _ => rfl
      unfold diListenHandleDtor
      dsimp only
      split_ifs with hstop
      · exact stop_effect hk.1 (if_pos hstop) (if_pos hstop) hq rfl
      · exact .quiet hq fun _ => .inl
  | hold n =>
      simp only [exec, Option.map_eq_some_iff, Except.ok.injEq] at h
      obtain ⟨x, hx, rfl⟩ := h
      refine .quiet ⟨rfl, rfl, rfl, rfl, rfl, fun _ => rfl, fun _ => rfl, fun _ => rfl⟩ ?_
      intro y hy
      rcases List.mem_cons.mp hy with rfl | hy
      · exact .inr ⟨n, hx⟩
      · exact .inl hy
  | release x =>
      simp only [exec, Option.some.injEq, Except.ok.injEq] at h
      subst h
      exact .quiet ⟨rfl, rfl, rfl, rfl, rfl, fun _ => rfl, fun _ => rfl, fun _ => rfl⟩
        fun y hy => .inl (List.mem_of_mem_erase hy)
  | add x f =>
      simp only [exec, Option.ite_none_right_eq_some, Option.some.injEq, Except.ok.injEq] at h
      obtain ⟨hx, rfl⟩ := h
      exact .added x f hx
  | remove x f =>
      simp only [exec, Option.ite_none_right_eq_some, Option.some.injEq, Except.ok.injEq] at h
      obtain ⟨hx, rfl⟩ := h
      unfold diSignalRemoveHandler
      split_ifs with hmem
      · have halive : signalAlive S x s := by simp [signalAlive, hx]
        exact .deleted (a := .remove x f) x f hmem halive rfl (.inl ⟨rfl, rfl⟩) (.refl s) rfl
      · exact .quiet (.refl s) fun _ => .inl
  | emit n =>
      simp only [exec, Option.ite_none_right_eq_some, Option.some.injEq] at h
      obtain ⟨halive, h⟩ := h
      unfold diEmitn at h
      split at h
      · cases h
        exact .quiet (.refl s) fun _ => .inl
      · rename_i x hx
        dsimp only at h
        split_ifs at h with hcount
        cases h
        exact .emitted n x hx hcount halive
  | callNext =>
      obtain ⟨e, f, rest, stack, hstack, hrest, hrun, rfl⟩ := callNext_cases h
      exact .called e f rest stack hstack hrest hrun
  | handlerReturns =>
      cases hst : s.stack with
      | nil => simp [exec, hst] at h
      | cons f stack =>
          cases f with
          | removal x => simp [exec, hst] at h
          | emission e =>
              simp only [exec, hst, Option.ite_none_right_eq_some, Option.some.injEq,
                Except.ok.injEq] at h
              obtain ⟨hrun, rfl⟩ := h
              exact .returned e stack hst hrun
  | endEmission =>
      cases hst : s.stack with
      | nil => simp [exec, hst] at h
      | cons f stack =>
          cases f with
          | removal x => simp [exec, hst] at h
          | emission e =>
              simp only [exec, hst, Option.ite_none_right_eq_some, Option.some.injEq,
                Except.ok.injEq] at h
              obtain ⟨⟨hrun, hrest⟩, rfl⟩ := h
              exact .closed e stack hst hrest hrun
  | endRemoval =>
      cases hst : s.stack with
      | nil => simp [exec, hst] at h
      | cons f stack =>
          cases f with
          | emission e => simp [exec, hst] at h
          | removal x =>
              simp only [exec, hst, Option.some.injEq] at h
              exact .finished x stack hst h

theorem endRemoval_cases {x : SignalId} (h : Signal.endRemoval S x s = .ok s') :
    (s' = s.setSignal x (fun y => {y with nhandlers := y.nhandlers - 1}) ∧
      ¬ ((s.signals x).nhandlers = 1 ∧ S.alive s.world)) ∨
    ∃ w, S.delete (s.signals x).signalName s.world = .ok w ∧ (s.signals x).nhandlers = 1 ∧
      S.alive s.world ∧
      s' = {s.setSignal x (fun y => {y with nhandlers := y.nhandlers - 1}) with world := w} := by
  unfold Signal.endRemoval at h
  simp only [State.setSignal, Function.update_self] at h
  split_ifs at h with hzero
  · split at h
    · cases h
    · rename_i w hw
      cases h
      exact .inr ⟨w, hw, by omega, hzero.2, rfl⟩
  · cases h
    exact .inl ⟨rfl, fun hone => hzero ⟨by omega, hone.2⟩⟩

/-- What a step does to the source: it may call the setter, when the source does not hold the
signal, or the deleter, when the last handler has gone. -/
inductive Hook (S : Source Name World Error) (s : State Name World) :
    Action Name → World → Prop where
  | same {a : Action Name} {w : World} (hw : w = s.world) : Hook S s a w
  | set {w : World} (n : Name) (h : ObjRef) (halive : S.alive s.world)
      (hn : S.member s.world n = none) (hw : S.set n s.signalCount s.world = .ok w) :
      Hook S s (.listen n h) w
  | delete {w : World} (x : SignalId) (stack : List Frame) (hstack : s.stack = .removal x :: stack)
      (halive : S.alive s.world) (hone : (s.signals x).nhandlers = 1)
      (hw : S.delete (s.signals x).signalName s.world = .ok w) : Hook S s .endRemoval w

theorem step_world [DecidableEq Name] {a : Action Name} (h : Step S s a s') :
    Hook S s a s'.world := by
  cases step_effect h with
  | quiet hq hheld => exact .same hq.world
  | listenOld n f x hx halive => exact .same rfl
  | listenNew n f w hx hw halive => exact .set n f halive hx hw
  | added x f hx => exact .same rfl
  | deleted x f hmem halive ha hk ht hheld =>
      apply Hook.same
      rw [← ht.world]
      cases endsHandle s a <;> rfl
  | missed k hk ha hmem ht hheld => exact .same ht.world
  | finished x stack hstack hend =>
      rcases endRemoval_cases hend with ⟨rfl, -⟩ | ⟨w, hw, hone, halive, rfl⟩
      · exact .same rfl
      · exact .delete x stack hstack halive hone hw
  | emitted n x hx hcount halive => exact .same rfl
  | called e f rest stack hstack hrest hrun => exact .same rfl
  | returned e stack hstack hrun => exact .same rfl
  | closed e stack hstack hrest hrun => exact .same rfl

theorem diEmitn_world [DecidableEq Name] {n : Name} (h : diEmitn S n s = .ok s') :
    s'.world = s.world := by
  unfold diEmitn at h
  split at h
  · cases h
    rfl
  · dsimp only at h
    split_ifs at h
    cases h
    rfl

/-- All that can fail. -/
inductive Fails (S : Source Name World Error) (s : State Name World) :
    Action Name → Failure Error → Prop where
  | handlerCount (n : Name) (x : SignalId) (hx : S.member s.world n = some x)
      (hcount : ((s.signals x).handlers.length : ℤ) ≠ (s.signals x).nhandlers) :
      Fails S s (.emit n) .handlerCount
  | set (n : Name) (h : ObjRef) (e : Error) (halive : S.alive s.world)
      (hx : S.member s.world n = none) (he : S.set n s.signalCount s.world = .error e) :
      Fails S s (.listen n h) (.source e)
  | delete (x : SignalId) (stack : List Frame) (e : Error) (hstack : s.stack = .removal x :: stack)
      (halive : S.alive s.world) (hone : (s.signals x).nhandlers = 1)
      (he : S.delete (s.signals x).signalName s.world = .error e) :
      Fails S s .endRemoval (.source e)

theorem exec_fails [DecidableEq Name] {a : Action Name} {f : Failure Error}
    (h : exec S a s = some (.error f)) : Fails S s a f := by
  cases a with
  | emit n =>
      simp only [exec, Option.ite_none_right_eq_some, Option.some.injEq] at h
      obtain ⟨-, h⟩ := h
      unfold diEmitn at h
      split at h
      · cases h
      · rename_i x hx
        dsimp only at h
        split_ifs at h with hcount
        cases h
        exact .handlerCount n x hx hcount
  | listen n f =>
      simp only [exec, Option.ite_none_right_eq_some, Option.some.injEq] at h
      obtain ⟨halive, h⟩ := h
      unfold diListenTo at h
      split at h
      · cases h
      · rename_i hx
        split at h
        · rename_i e he
          cases h
          exact .set n f e halive hx he
        · cases h
  | endRemoval =>
      cases hst : s.stack with
      | nil => simp [exec, hst] at h
      | cons g stack =>
          cases g with
          | emission e => simp [exec, hst] at h
          | removal x =>
              simp only [exec, hst, Option.some.injEq, Signal.endRemoval, State.setSignal,
                Function.update_self] at h
              split_ifs at h with hzero
              split at h
              · rename_i e he
                cases h
                exact .delete x stack e hst hzero.2 (by omega) he
              · cases h
  | callNext =>
      cases hst : s.stack with
      | nil => simp [exec, hst] at h
      | cons g stack =>
          cases g with
          | removal x => simp [exec, hst] at h
          | emission e =>
              simp only [exec, hst] at h
              split at h <;> cases h
  | handlerReturns =>
      cases hst : s.stack with
      | nil => simp [exec, hst] at h
      | cons g stack => cases g <;> simp [exec, hst] at h
  | endEmission =>
      cases hst : s.stack with
      | nil => simp [exec, hst] at h
      | cons g stack => cases g <;> simp [exec, hst] at h
  | hold n => simp [exec] at h
  | stop k => simp [exec] at h
  | autoStop k b => simp [exec] at h
  | drop k => simp [exec] at h
  | release x => simp [exec] at h
  | add x f => simp [exec] at h
  | remove x f => simp [exec] at h

/-! ## Runs -/

/-- What is asked of a source: the setter stores the signal object or does nothing to the
members, and the deleter deletes the member. -/
structure Lawful (S : Source Name World Error) : Prop where
  set : ∀ {n x w w'}, S.member w n = none → S.set n x w = .ok w' →
    (S.member w' n = some x ∨ S.member w' n = none) ∧ ∀ m, m ≠ n → S.member w' m = S.member w m
  delete : ∀ {n w w'}, S.delete n w = .ok w' →
    S.member w' n = none ∧ ∀ m, m ≠ n → S.member w' m = S.member w m

/-- A step of user code that `P` allows, or of the source by itself. -/
inductive Move [DecidableEq Name] (S : Source Name World Error)
    (P : State Name World → Action Name → Prop) (Env : State Name World → World → Prop)
    (s : State Name World) : State Name World → Prop where
  | act {s' : State Name World} (a : Action Name) (ha : P s a) (hstep : Step S s a s') :
      Move S P Env s s'
  | env (w : World) (hw : Env s w) : Move S P Env s {s with world := w}

/-- By itself the source only loses members. -/
structure Fading (S : Source Name World Error) (Env : State Name World → World → Prop) : Prop where
  member : ∀ {s w}, Env s w → ∀ n, S.member w n = S.member s.world n ∨ S.member w n = none
  alive : ∀ {s w}, Env s w → S.alive w → S.alive s.world

/-- The setter stores the signal object, and by itself the source keeps its members until
it dies. -/
structure Storing (S : Source Name World Error) (Env : State Name World → World → Prop) : Prop where
  set : ∀ {n x w w'}, S.member w n = none → S.set n x w = .ok w' → S.member w' n = some x
  keep : ∀ {s w}, Env s w → S.alive w → ∀ n, S.member w n = S.member s.world n

/-- No handler is added to a signal object that has it already. -/
def Fresh (S : Source Name World Error) (s : State Name World) (a : Action Name) : Prop :=
  ∀ p ∈ addsTo S s a, p.2 ∉ (s.signals p.1).handlers

instance (s : State Name World) (a : Action Name) : Decidable (Fresh S s a) :=
  inferInstanceAs (Decidable (∀ p ∈ addsTo S s a, p.2 ∉ (s.signals p.1).handlers))

/-! ## Runs given by their actions -/

section Perform
variable [DecidableEq Name]

/-- The state after an action; an action that cannot be taken does nothing. -/
def next (S : Source Name World Error) (s : State Name World) (a : Action Name) :
    State Name World :=
  match exec S a s with
  | some (.ok s') => s'
  | _ => s

def perform (S : Source Name World Error) (s : State Name World) (l : List (Action Name)) :
    State Name World :=
  l.foldl (next S) s

/-- Every action of the list is one that `P` allows. -/
def Allowed (S : Source Name World Error) (P : State Name World → Action Name → Prop) :
    State Name World → List (Action Name) → Prop
  | _, [] => True
  | s, a :: l => P s a ∧ Allowed S P (next S s a) l

instance decidableAllowed (S : Source Name World Error) (P : State Name World → Action Name → Prop)
    [∀ s a, Decidable (P s a)] : ∀ s l, Decidable (Allowed S P s l)
  | _, [] => .isTrue trivial
  | s, a :: l =>
      have := decidableAllowed S P (next S s a) l
      inferInstanceAs (Decidable (P s a ∧ Allowed S P (next S s a) l))

theorem reaches_perform {P : State Name World → Action Name → Prop}
    {Env : State Name World → World → Prop} (l : List (Action Name)) (h : Allowed S P s l) :
    ReflTransGen (Move S P Env) s (perform S s l) := by
  induction l generalizing s with
  | nil => exact .refl
  | cons a l ih =>
      refine .trans ?_ (ih h.2)
      unfold next
      split
      · rename_i s' hs'
        exact .single (.act a h.1 hs')
      · exact .refl

/-- A relation that has every step has every list of actions. -/
theorem performs {R : State Name World → State Name World → Prop}
    (hR : ∀ s a s', Step S s a s' → R s s') (s : State Name World) (l : List (Action Name)) :
    ReflTransGen R s (perform S s l) := by
  induction l generalizing s with
  | nil => exact .refl
  | cons a l ih =>
      refine .trans ?_ (ih (next S s a))
      unfold next
      split
      · rename_i s' hs'
        exact .single (hR s a s' hs')
      · exact .refl

end Perform

end

/-! ## The source without setters -/

section Plain
variable {Name : Type} [DecidableEq Name]

/-- The object may die at any moment. -/
def PlainDies (s : State Name (PlainObject Name)) (w : PlainObject Name) : Prop :=
  w = s.world.die

theorem plain_lawful : Lawful (plain Name) where
  set := by
    intro n x w w' hn hw
    cases hw
    exact ⟨.inl (Function.update_self ..), fun m hm => Function.update_of_ne hm ..⟩
  delete := by
    intro n w w' hw
    cases hw
    exact ⟨Function.update_self .., fun m hm => Function.update_of_ne hm ..⟩

theorem plainDies_fading : Fading (plain Name) PlainDies where
  member := by
    intro s w hw n
    subst hw
    exact .inr rfl
  alive := by
    intro s w hw halive
    subst hw
    cases halive

theorem plainDies_storing : Storing (plain Name) PlainDies where
  set := by
    intro n x w w' hn hw
    cases hw
    exact Function.update_self ..
  keep := by
    intro s w hw halive
    subst hw
    cases halive

end Plain

end Deai.SignalRuns
