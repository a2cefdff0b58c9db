import Deai.PromiseHandlers

/-!
# The life of a closure

A closure of `di_promise_then_inner` waits for its source, strips itself of its
handlers when it is called, and runs the one for the outcome. When that handler
returns a promise, the closure waits for this promise, now without handlers. The
place of a closure and what it has heard and done so far determine each other; this
is the invariant on which the value of a derived promise rests.
-/
namespace Deai.PromiseChain
open Value EventPromise PromiseSteps PromiseRuns PromiseCalls PromiseQueue PromiseHandlers Relation

/-- The handler a closure was given for an outcome. -/
def given (x : Closure) : Outcome → Option Handler
  | .resolved _ => x.onResolve
  | .rejected _ => x.onReject

/-- The promise a closure waits for, or has waited for last. -/
def awaits (x : Closure) : ObjRef :=
  match x.replies with
  | [.promise q] => q
  | _ => x.source

/-- Nothing has happened to the closure. -/
structure Fresh (x : Closure) : Prop where
  heard : x.heard = []
  runs : x.runs = 0
  replies : x.replies = []
  resolve : x.resolve = x.onResolve
  reject : x.reject = x.onReject

/-- The closure has heard from its source and called the handler `h`. -/
structure Answered (x : Closure) (o : Outcome) (h : Handler) : Prop where
  heard : x.heard = [(x.source, o)]
  given : given x o = some h
  chosen : x.chosen = some h
  runs : x.runs = 1
  resolve : x.resolve = none
  reject : x.reject = none

/-- The closure follows the promise `q` that its handler has returned. -/
def Followed (x : Closure) (q : ObjRef) : Prop :=
  (∃ o h, Answered x o h) ∧ x.replies = [.promise q]

/-- The closure has no handler for what it has heard last. -/
inductive Passed (x : Closure) : Prop where
  | source (o : Outcome) (hheard : x.heard = [(x.source, o)]) (hgiven : given x o = none)
      (hruns : x.runs = 0) (hreplies : x.replies = [])
  | followed (o : Outcome) (h : Handler) (q : ObjRef) (o' : Outcome)
      (hheard : x.heard = [(x.source, o), (q, o')]) (hgiven : given x o = some h)
      (hruns : x.runs = 1) (hreplies : x.replies = [.promise q])

/-- What has happened to a closure, by its place. -/
def Tale (x : Closure) : Prop :=
  match x.place with
  | .detached => Fresh x
  | .waiting p => p = awaits x ∧ (Fresh x ∨ Followed x p)
  | .taken => Fresh x ∨ Followed x (awaits x)
  | .running => (∃ o h, Answered x o h) ∧ x.replies = []
  | .passing => Passed x
  | .replied => (∃ o h, Answered x o h) ∧ ∃ y, x.replies = [y]
  | .finished => Passed x ∨ (∃ o h, Answered x o h) ∧
      ((∃ e, x.replies = [.threw e]) ∨ ∃ v, x.replies = [.value v])
  | .dropped => (∃ o h, Answered x o h) ∧ x.replies = [.failed]

/-- Closures and the lists that hold them agree. -/
structure Chain (s : State) : Prop where
  tale : ∀ c, c < s.closureCount → Tale (s.closures c)
  taken : ∀ c, c ∈ s.control.rest ↔ (s.closures c).place = .taken
  restNodup : s.control.rest.Nodup
  awaited : ∀ c, (s.closures c).place = .taken →
    s.control.dispatched = some (awaits (s.closures c))
  waiting : ∀ p c, c ∈ (s.promises p).handlers ↔ (s.closures c).place = .waiting p
  handlersNodup : ∀ p, (s.promises p).handlers.Nodup

theorem chain_init : Chain {} :=
  ⟨nofun, fun _ => ⟨nofun, nofun⟩, .nil, nofun, fun _ _ => ⟨nofun, nofun⟩, fun _ => .nil⟩

/-! ## Turns of one closure -/

theorem Fresh.of_place {x : Closure} (h : Fresh x) (pl : Place) : Fresh {x with place := pl} :=
  ⟨h.heard, h.runs, h.replies, h.resolve, h.reject⟩

theorem Answered.of_place {x : Closure} {o : Outcome} {h : Handler} (ha : Answered x o h)
    (pl : Place) : Answered {x with place := pl} o h :=
  ⟨ha.heard, ha.given, ha.chosen, ha.runs, ha.resolve, ha.reject⟩

theorem Followed.of_place {x : Closure} {q : ObjRef} (h : Followed x q) (pl : Place) :
    Followed {x with place := pl} q := by
  obtain ⟨⟨o, f, ha⟩, hreplies⟩ := h
  exact ⟨⟨o, f, ha.of_place pl⟩, hreplies⟩

theorem Fresh.awaits {x : Closure} (h : Fresh x) : awaits x = x.source := by
  simp [PromiseChain.awaits, h.replies]

theorem Fresh.handlerFor {x : Closure} (h : Fresh x) (o : Outcome) :
    x.handlerFor o = given x o := by
  cases o with
  | resolved v => exact h.resolve
  | rejected e => exact h.reject

theorem Answered.handlerFor {x : Closure} {o : Outcome} {h : Handler} (ha : Answered x o h)
    (o' : Outcome) : x.handlerFor o' = none := by
  cases o' with
  | resolved v => exact ha.resolve
  | rejected e => exact ha.reject

theorem tale_taken {x : Closure} (hplace : x.place = .taken) (h : Tale x) :
    Fresh x ∨ Followed x (awaits x) := by
  simpa [Tale, hplace] using h

theorem tale_running {x : Closure} (hplace : x.place = .running) (h : Tale x) :
    (∃ o h, Answered x o h) ∧ x.replies = [] := by
  simpa [Tale, hplace] using h

theorem tale_replied {x : Closure} (hplace : x.place = .replied) (h : Tale x) :
    (∃ o h, Answered x o h) ∧ ∃ y, x.replies = [y] := by
  simpa [Tale, hplace] using h

/-- A closure hears from its source first. -/
theorem tale_heard {x : Closure} (h : Tale x) :
    x.heard = [] ∨ ∃ o l, x.heard = (x.source, o) :: l := by
  have hanswered : (∃ o f, Answered x o f) → ∃ o l, x.heard = (x.source, o) :: l := by
    intro ha
    obtain ⟨o, f, ha⟩ := ha
    exact ⟨o, [], ha.heard⟩
  have hpassed : Passed x → ∃ o l, x.heard = (x.source, o) :: l := by
    intro hp
    cases hp with
    | source o hheard hgiven hruns hreplies => exact ⟨o, [], hheard⟩
    | followed o f q o' hheard hgiven hruns hreplies => exact ⟨o, [(q, o')], hheard⟩
  unfold Tale at h
  split at h
  · exact .inl h.heard
  · exact h.2.elim (fun hf => .inl hf.heard) fun hf => .inr (hanswered hf.1)
  · exact h.elim (fun hf => .inl hf.heard) fun hf => .inr (hanswered hf.1)
  · exact .inr (hanswered h.1)
  · exact .inr (hpassed h)
  · exact .inr (hanswered h.1)
  · exact .inr (h.elim hpassed fun hf => hanswered hf.1)
  · exact .inr (hanswered h.1)

theorem given_hear (x : Closure) (p : ObjRef) (o o' : Outcome) :
    given (x.hear p o) o' = given x o' := by
  cases o' <;> rfl

/-- A closure from the array is called with the outcome of the promise it waited for. -/
theorem Tale.hear {x : Closure} (hplace : x.place = .taken) (h : Tale x) (o : Outcome) :
    Tale (x.hear (awaits x) o) := by
  unfold Tale
  rcases tale_taken hplace h with hfresh | ⟨⟨o₀, h₀, ha⟩, hreplies⟩
  · have hheard : (x.hear (awaits x) o).heard = [(x.source, o)] := by
      simp [Closure.hear, hfresh.heard, hfresh.awaits]
    have hgiven : given (x.hear (awaits x) o) o = x.handlerFor o := by
      rw [given_hear, hfresh.handlerFor]
    cases hh : x.handlerFor o with
    | none =>
        have hpl : (x.hear (awaits x) o).place = .passing := by simp [Closure.hear, hh]
        rw [hpl]
        exact .source o hheard (hgiven.trans hh) (by simp [Closure.hear, hfresh.runs, hh])
          hfresh.replies
    | some f =>
        have hpl : (x.hear (awaits x) o).place = .running := by simp [Closure.hear, hh]
        rw [hpl]
        exact ⟨⟨o, f, hheard, hgiven.trans hh, hh, by simp [Closure.hear, hfresh.runs, hh], rfl,
          rfl⟩, hfresh.replies⟩
  · have hh := ha.handlerFor o
    have hpl : (x.hear (awaits x) o).place = .passing := by simp [Closure.hear, hh]
    rw [hpl]
    refine .followed o₀ h₀ (awaits x) o ?_ ?_ ?_ hreplies
    · simp [Closure.hear, ha.heard]
    · rw [given_hear]
      exact ha.given
    · simp [Closure.hear, ha.runs, hh]

/-- A closure that has an outcome to pass on is done. -/
theorem Tale.finish {x : Closure} {o : Outcome} (hv : Verdict x o) (h : Tale x) :
    Tale {x with promise := none, place := .finished} := by
  rcases hv with ⟨hplace, -⟩ | ⟨hplace, hlast⟩
  · have hpassed : Passed x := by simpa [Tale, hplace] using h
    refine .inl ?_
    cases hpassed with
    | source o hheard hgiven hruns hreplies => exact .source o hheard hgiven hruns hreplies
    | followed o f q o' hheard hgiven hruns hreplies =>
        exact .followed o f q o' hheard hgiven hruns hreplies
  · obtain ⟨⟨o', f, ha⟩, y, hy⟩ := tale_replied hplace h
    refine .inr ⟨⟨o', f, ha.heard, ha.given, ha.chosen, ha.runs, ha.resolve, ha.reject⟩, ?_⟩
    rw [hy] at hlast
    rcases hlast with ⟨e, he, -⟩ | ⟨v, hv, -⟩
    · cases he
      exact .inl ⟨e, hy⟩
    · cases hv
      exact .inr ⟨v, hy⟩

/-! ## Turns of the machine -/

/-- A closure that is in no list changes and stays in none. -/
theorem Chain.setClosure {s : State} (h : Chain s) {c : ClosureId} {x : Closure}
    (hold : (s.closures c).place ≠ .taken ∧ ∀ p, (s.closures c).place ≠ .waiting p)
    (hnew : x.place ≠ .taken ∧ ∀ p, x.place ≠ .waiting p) (hx : Tale x) :
    Chain {s with closures := Function.update s.closures c x} := by
  have htaken : ∀ c', (Function.update s.closures c x c').place = .taken ↔
      (s.closures c').place = .taken := by
    intro c'
    by_cases hc : c' = c
    · subst hc
      simp [hold.1, hnew.1]
    · rw [Function.update_of_ne hc]
  refine ⟨?_, fun c' => (h.taken c').trans (htaken c').symm, h.restNodup, ?_, ?_, h.handlersNodup⟩
  · intro c' hc'
    by_cases hc : c' = c
    · subst hc
      simpa using hx
    · simpa [Function.update_of_ne hc] using h.tale c' hc'
  · intro c' hc'
    have hne : c' ≠ c := by
      intro heq
      subst heq
      exact hold.1 ((htaken c').mp hc')
    simp only [Function.update_of_ne hne] at hc' ⊢
    exact h.awaited c' hc'
  · intro p c'
    rw [h.waiting p c']
    by_cases hc : c' = c
    · subst hc
      simp [hold.2 p, hnew.2 p]
    · simp [Function.update_of_ne hc]

/-- A closure that is in no list is added to the handlers of the promise it waits for. -/
theorem Chain.addHandler {s s' : State} (h : Chain s) {p : ObjRef} {c : ClosureId}
    (hold : (s.closures c).place ≠ .taken ∧ ∀ q, (s.closures c).place ≠ .waiting q)
    (hx : p = awaits (s.closures c) ∧ (Fresh (s.closures c) ∨ Followed (s.closures c) p))
    (hrun : diPromiseAddHandler p c s = .ok s') : Chain s' := by
  obtain ⟨m, -, rfl⟩ := addHandler_eq hrun
  have hnot : ∀ q, c ∉ (s.promises q).handlers := fun q hmem => hold.2 q ((h.waiting q c).mp hmem)
  have hhandlers : ∀ q c', c' ∈ (Function.update s.promises p (listened (s.promises p) c) q).handlers ↔
      c' ∈ (s.promises q).handlers ∨ (c' = c ∧ q = p) := by
    intro q c'
    by_cases hq : q = p
    · subst hq
      simp [listened]
    · simp [hq]
  refine ⟨?_, ?_, h.restNodup, ?_, ?_, ?_⟩
  · intro c' hc'
    by_cases hc : c' = c
    · subst hc
      simp only [Function.update_self]
      exact ⟨hx.1, hx.2.imp (fun hf => hf.of_place _) (fun hf => hf.of_place _)⟩
    · simpa [Function.update_of_ne hc] using h.tale c' hc'
  · intro c'
    by_cases hc : c' = c
    · subst hc
      simp [h.taken c', hold.1]
    · simp [h.taken c', Function.update_of_ne hc]
  · intro c' hc'
    by_cases hc : c' = c
    · subst hc
      simp at hc'
    · simp only [Function.update_of_ne hc] at hc' ⊢
      exact h.awaited c' hc'
  · intro q c'
    simp only [hhandlers]
    by_cases hc : c' = c
    · subst hc
      simp [hnot q, eq_comm]
    · simp [h.waiting q c', hc]
  · intro q
    by_cases hq : q = p
    · subst hq
      simp only [Function.update_self, listened]
      exact List.nodup_append.mpr ⟨h.handlersNodup q, List.nodup_singleton c, by
        intro a ha b hb heq
        rw [List.mem_singleton.mp hb] at heq
        exact hnot q (heq ▸ ha)⟩
    · simpa [Function.update_of_ne hq] using h.handlersNodup q

theorem handlers_update {s : State} {p : ObjRef} {x : Promise}
    (hx : x.handlers = (s.promises p).handlers) (q : ObjRef) :
    (Function.update s.promises p x q).handlers = (s.promises q).handlers := by
  by_cases hq : q = p
  · subst hq
    simpa using hx
  · rw [Function.update_of_ne hq]

/-- The chain looks at the closures, the lists that hold them and the dispatch. -/
theorem Chain.congr {s s' : State} (h : Chain s) (hclosures : s'.closures = s.closures)
    (hcount : s'.closureCount = s.closureCount) (hrest : s'.control.rest = s.control.rest)
    (hdisp : s'.control.dispatched = s.control.dispatched)
    (hhandlers : ∀ p, (s'.promises p).handlers = (s.promises p).handlers) : Chain s' := by
  refine ⟨?_, ?_, ?_, ?_, ?_, ?_⟩
  · rw [hclosures, hcount]
    exact h.tale
  · rw [hclosures, hrest]
    exact h.taken
  · rw [hrest]
    exact h.restNodup
  · rw [hclosures, hdisp]
    exact h.awaited
  · simp only [hclosures, hhandlers]
    exact h.waiting
  · simp only [hhandlers]
    exact h.handlersNodup

theorem Chain.hear {s : State} (h : Chain s) (hwf : WellFormed s) {p : ObjRef} {o : Outcome}
    {c : ClosureId} {rest : List ClosureId}
    (hctl : s.control = .dispatching p (some o) (c :: rest)) : Chain (hear p o c rest s) := by
  have hrest : s.control.rest = c :: rest := by rw [hctl]; rfl
  have hnodup := h.restNodup
  rw [hrest, List.nodup_cons] at hnodup
  have hplace : (s.closures c).place = .taken := (h.taken c).mp (by simp [hrest])
  have hp : awaits (s.closures c) = p := by
    have hawait := h.awaited c hplace
    rw [hctl] at hawait
    exact (Option.some.inj hawait).symm
  have hlt := hwf.lt_of_place (c := c) (by simp [hplace])
  have hself := hear_self p o c rest s
  have hothers : ∀ c', c' ≠ c → (EventPromise.hear p o c rest s).closures c' = s.closures c' :=
    fun c' hne => Function.update_of_ne hne _ _
  have hhandlers : ∀ q, ((EventPromise.hear p o c rest s).promises q).handlers =
      (s.promises q).handlers :=
    (Function.forall_update_iff _ fun q (y : Promise) =>
      y.handlers = (s.promises q).handlers).mpr ⟨rfl, fun _ _ => rfl⟩
  have hnot : ((s.closures c).hear p o).place ≠ .taken ∧
      ∀ q, ((s.closures c).hear p o).place ≠ .waiting q := by
    cases hh : (s.closures c).handlerFor o <;> simp [Closure.hear, hh]
  refine ⟨?_, ?_, hnodup.2, ?_, ?_, ?_⟩
  · intro c' hc'
    by_cases hc : c' = c
    · subst hc
      rw [hself, ← hp]
      exact (h.tale c' hc').hear hplace o
    · rw [hothers c' hc]
      exact h.tale c' hc'
  · intro c'
    change c' ∈ rest ↔ _
    by_cases hc : c' = c
    · subst hc
      rw [hself]
      simp [hnodup.1, hnot.1]
    · rw [hothers c' hc, ← h.taken c', hrest]
      simp [hc]
  · intro c' hc'
    have hc : c' ≠ c := by
      intro heq
      subst heq
      rw [hself] at hc'
      exact hnot.1 hc'
    rw [hothers c' hc] at hc' ⊢
    have hawait := h.awaited c' hc'
    rw [hctl] at hawait
    exact hawait
  · intro q c'
    rw [hhandlers]
    by_cases hc : c' = c
    · subst hc
      rw [hself, h.waiting q c', hplace]
      simp [hnot.2 q]
    · rw [hothers c' hc]
      exact h.waiting q c'
  · intro q
    rw [hhandlers]
    exact h.handlersNodup q

/-- Only the closures of a dispatch are taken. -/
theorem Chain.not_taken {s : State} (h : Chain s) (hrest : s.control.rest = []) (c : ClosureId) :
    (s.closures c).place ≠ .taken := by
  intro hc
  have hmem := (h.taken c).mpr hc
  rw [hrest] at hmem
  cases hmem

/-- The handlers of `p` are taken out of it. -/
theorem Chain.takeHandlers {s : State} (h : Chain s) (hwf : WellFormed s)
    (hctl : s.control = .idle) (p : ObjRef) (o : Outcome) (n : ℕ) : Chain (takeHandlers p o n s) := by
  have hnone := h.not_taken (by rw [hctl]; rfl)
  have hin : ∀ c, c ∈ (s.promises p).handlers →
      (PromiseSteps.takeHandlers p o n s).closures c = {s.closures c with place := .taken} :=
    fun c hc => if_pos hc
  have hout : ∀ c, c ∉ (s.promises p).handlers →
      (PromiseSteps.takeHandlers p o n s).closures c = s.closures c :=
    fun c hc => if_neg hc
  have htale : ∀ c, c ∈ (s.promises p).handlers →
      p = awaits (s.closures c) ∧ (Fresh (s.closures c) ∨ Followed (s.closures c) p) := by
    intro c hmem
    have hplace := (h.waiting p c).mp hmem
    have hx := h.tale c (hwf.handlers p c hmem)
    simpa [Tale, hplace] using hx
  refine ⟨?_, ?_, h.handlersNodup p, ?_, ?_, ?_⟩
  · intro c hc
    by_cases hmem : c ∈ (s.promises p).handlers
    · rw [hin c hmem]
      obtain ⟨hp, hx⟩ := htale c hmem
      exact hx.imp (fun hf => hf.of_place _) (fun hf => (hp ▸ hf).of_place _)
    · rw [hout c hmem]
      exact h.tale c hc
  · intro c
    change c ∈ (s.promises p).handlers ↔ _
    by_cases hmem : c ∈ (s.promises p).handlers
    · simp [hin c hmem, hmem]
    · simp [hout c hmem, hmem, hnone c]
  · intro c hc
    by_cases hmem : c ∈ (s.promises p).handlers
    · rw [hin c hmem]
      exact congrArg some (htale c hmem).1
    · rw [hout c hmem] at hc
      exact absurd hc (hnone c)
  · intro q c
    by_cases hq : q = p
    · subst hq
      have hempty : ((PromiseSteps.takeHandlers q o n s).promises q).handlers = [] := by
        simp [PromiseSteps.takeHandlers]
      rw [hempty]
      by_cases hmem : c ∈ (s.promises q).handlers
      · simp [hin c hmem]
      · simp [hout c hmem, ← h.waiting q c, hmem]
    · have hsame : ((PromiseSteps.takeHandlers p o n s).promises q) = s.promises q :=
        Function.update_of_ne hq _ _
      rw [hsame, h.waiting q c]
      by_cases hmem : c ∈ (s.promises p).handlers
      · rw [hin c hmem, (h.waiting p c).mp hmem]
        simp [Ne.symm hq]
      · rw [hout c hmem]
  · exact (Function.forall_update_iff _ fun _ (y : Promise) => y.handlers.Nodup).mpr
      ⟨.nil, fun q _ => h.handlersNodup q⟩

/-- A new closure is in no list yet. -/
theorem Chain.derive {s : State} (h : Chain s) (hwf : WellFormed s) {p : ObjRef}
    (hp : p < s.promiseCount) (res rej : Option Handler) : Chain (derive p res rej s) := by
  have hself := derive_closure p res rej s hp
  have hothers : ∀ c, c ≠ s.closureCount →
      (PromiseSteps.derive p res rej s).closures c = s.closures c :=
    fun c hne => Function.update_of_ne hne _ _
  have hhandlers : ∀ q, ((PromiseSteps.derive p res rej s).promises q).handlers =
      (s.promises q).handlers := by
    apply handlers_update
    rw [hwf.freshPromise s.promiseCount le_rfl]
  refine ⟨?_, ?_, h.restNodup, ?_, ?_, ?_⟩
  · intro c hc
    by_cases hne : c = s.closureCount
    · subst hne
      rw [hself]
      exact ⟨rfl, rfl, rfl, rfl, rfl⟩
    · rw [hothers c hne]
      exact h.tale c (Nat.lt_of_le_of_ne (Nat.le_of_lt_succ hc) hne)
  · intro c
    by_cases hne : c = s.closureCount
    · subst hne
      rw [hself]
      exact ⟨fun hmem => absurd (hwf.rest _ hmem) (Nat.lt_irrefl _), nofun⟩
    · rw [hothers c hne]
      exact h.taken c
  · intro c hc
    by_cases hne : c = s.closureCount
    · subst hne
      rw [hself] at hc
      cases hc
    · rw [hothers c hne] at hc ⊢
      exact h.awaited c hc
  · intro q c
    rw [hhandlers]
    by_cases hne : c = s.closureCount
    · subst hne
      rw [hself]
      exact ⟨fun hmem => absurd (hwf.handlers q _ hmem) (Nat.lt_irrefl _), nofun⟩
    · rw [hothers c hne]
      exact h.waiting q c
  · intro q
    rw [hhandlers]
    exact h.handlersNodup q

theorem Chain.move {r : Rules} {s s' : State} (hwf : WellFormed s) (h : Chain s)
    (hmove : Move r s s') : Chain s' := by
  cases hmove with
  | newPromise role hrole =>
      refine h.congr rfl rfl rfl rfl (handlers_update ?_)
      rw [hwf.freshPromise s.promiseCount le_rfl]
  | derive p res rej hp hvalid hres hrej => exact h.derive hwf hp res rej
  | register p c hp hc hplace hsource hat hduring hr hrun =>
      have hfresh : Fresh (s.closures c) := by
        have hx := h.tale c hc
        simpa [Tale, hplace] using hx
      exact h.addHandler (by simp [hplace]) ⟨by rw [hfresh.awaits, hsource], .inl hfresh⟩ hrun
  | follow q c hq hplace hreply hr hrun =>
      obtain ⟨hans, y, hy⟩ :=
        tale_replied hplace (h.tale c (hwf.lt_of_place (by simp [hplace])))
      have hyq : y = .promise q := by simpa [hy] using hreply
      subst hyq
      exact h.addHandler (by simp [hplace]) ⟨by simp [awaits, hy], .inr ⟨hans, hy⟩⟩ hrun
  | settle p o origin hp hby hrun =>
      rcases settle_eq hrun with ⟨-, rfl⟩ | ⟨-, m, -, rfl⟩
      · exact h
      · exact h.congr rfl rfl rfl rfl (handlers_update rfl)
  | hear p o c rest hctl hother => exact h.hear hwf hctl
  | hearJoin p o c rest i st ret left hat hi hleft =>
      exact (h.hear hwf hat.1).congr rfl rfl rfl rfl fun _ => rfl
  | call p o c d rest f hctl hserve hd =>
      exact h.congr rfl rfl (by rw [hctl]; rfl) (by rw [hctl]; rfl) fun _ => rfl
  | resume p o c d rest hctl =>
      exact h.congr rfl rfl (by rw [hctl]; rfl) (by rw [hctl]; rfl) fun _ => rfl
  | reply c x p o rest hctl hplace hserved hx hfail =>
      obtain ⟨⟨o', f, ha⟩, hreplies⟩ :=
        tale_running hplace (h.tale c (hwf.lt_of_place (by simp [hplace])))
      refine h.setClosure (by simp [hplace]) (by simp) ⟨⟨o', f, ?_⟩, x, by simp [hreplies]⟩
      exact ⟨ha.heard, ha.given, ha.chosen, ha.runs, ha.resolve, ha.reject⟩
  | finish c d o hd hv ho =>
      have hnot : (s.closures c).place ≠ .taken ∧ ∀ p, (s.closures c).place ≠ .waiting p := by
        rcases hv with ⟨hpl, -⟩ | ⟨hpl, -⟩ <;> simp [hpl]
      have hlt := hwf.lt_of_place (c := c) (by rcases hv with ⟨hpl, -⟩ | ⟨hpl, -⟩ <;> simp [hpl])
      exact h.setClosure hnot (by simp) (Tale.finish hv (h.tale c hlt))
  | drop c hplace hreply hfail =>
      obtain ⟨⟨o', f, ha⟩, y, hy⟩ :=
        tale_replied hplace (h.tale c (hwf.lt_of_place (by simp [hplace])))
      have hyf : y = .failed := by simpa [hy] using hreply
      subst hyf
      exact h.setClosure (by simp [hplace]) (by simp) ⟨⟨o', f, ha.of_place _⟩, hy⟩
  | pop n p o hctl hn hp ho hr => exact h.takeHandlers hwf hctl p o n
  | endDispatch p o hctl =>
      have hnone := h.not_taken (by rw [hctl]; rfl)
      have hhandlers : ∀ q, ((endDispatch p s).promises q).handlers = (s.promises q).handlers :=
        handlers_update rfl
      refine ⟨h.tale, fun c => ⟨nofun, fun hc => absurd hc (hnone c)⟩, .nil,
        fun c hc => absurd hc (hnone c), ?_, ?_⟩
      · intro q c
        rw [hhandlers]
        exact h.waiting q c
      · intro q
        rw [hhandlers]
        exact h.handlersNodup q
  | startIdle hctl =>
      exact h.congr rfl rfl (by rw [hctl]; rfl) (by rw [hctl]; rfl) fun _ => rfl
  | exitIdle hctl hn =>
      exact h.congr rfl rfl (by rw [hctl]; rfl) (by rw [hctl]; rfl) fun _ => rfl
  | newStorage => exact h.congr rfl rfl rfl rfl fun _ => rfl
  | openStorage st ps ret first hst hnew hret hc honly hne =>
      exact h.congr rfl rfl rfl rfl fun _ => rfl
  | recordAny ret ps first hret hnew hc honly => exact h.congr rfl rfl rfl rfl fun _ => rfl

end Deai.PromiseChain
