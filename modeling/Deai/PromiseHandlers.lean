import Deai.PromiseQueue

/-!
# No handler is lost or called twice

Every handler that was added to a promise is among those that were called, those
of the array that is being dispatched, or those that still wait in `___handlers`.
A settled promise with waiting handlers carries `is_pending`, as long as no handler
is added to a promise while that promise is being dispatched:
`di_promise_start_dispatch` does not queue a promise that carries `is_pending`, and
`di_promise_dispatch` deletes the flag after the last handler of its own array.
-/
namespace Deai.PromiseHandlers
open Value EventPromise PromiseSteps PromiseRuns PromiseCalls PromiseQueue Relation

/-- The dispatch that is going on: the promise, its outcome and the handlers that
have not been called. -/
def current : Control → Option (ObjRef × Option Outcome × List ClosureId)
  | .dispatching p o rest => some (p, o, rest)
  | .calling p o _ _ rest => some (p, some o, rest)
  | _ => none

theorem dispatched_eq (k : Control) : k.dispatched = (current k).map (·.1) := by
  cases k <;> rfl

/-! ## What a move does to the promises -/

/-- A promise as it is created. -/
structure Blank (x : Promise) : Prop where
  outcome : x.outcome = none
  settledBy : x.settledBy = none
  handlers : x.handlers = []
  isPending : x.isPending = false
  added : x.added = []
  called : x.called = []
  dispatches : x.dispatches = 0

inductive Change (r : Rules) (s s' : State) : Prop where
  | same (hprom : s'.promises = s.promises) (hcur : current s'.control = current s.control)
      (hclock : s'.clock = s.clock)
  | created (x : Promise) (hx : Blank x)
      (hprom : s'.promises = Function.update s.promises s.promiseCount x)
      (hcur : current s'.control = current s.control) (hclock : s'.clock = s.clock)
  | listened (p : ObjRef) (c : ClosureId) (hr : r.attach s.control.dispatched p)
      (hprom : s'.promises = Function.update s.promises p (listened (s.promises p) c))
      (hcur : current s'.control = current s.control) (hclock : s'.clock = s.clock)
  | settled (p : ObjRef) (o : Outcome) (origin : Origin) (hnone : (s.promises p).outcome = none)
      (hby : Settles s p o origin)
      (hprom : s'.promises = Function.update s.promises p
        (settled (s.promises p) o origin s.clock))
      (hcur : current s'.control = current s.control) (hclock : s'.clock = s.clock + 1)
  | heard (p : ObjRef) (o : Outcome) (c : ClosureId) (rest : List ClosureId)
      (hold : current s.control = some (p, some o, c :: rest))
      (hprom : s'.promises = Function.update s.promises p {s.promises p with
        called := (s.promises p).called ++ [(c, o)]})
      (hcur : current s'.control = some (p, some o, rest)) (hclock : s'.clock = s.clock)
  | taken (p : ObjRef) (o : Outcome) (n : ℕ) (hpop : r.pop s)
      (hn : s.eventModule.pendingCount = some (n + 1))
      (hp : s.eventModule.pendingPromise n = some p) (ho : (s.promises p).outcome = some o)
      (hold : current s.control = none)
      (hprom : s'.promises = Function.update s.promises p {s.promises p with handlers := []})
      (hcur : current s'.control = some (p, some o, (s.promises p).handlers))
      (hclock : s'.clock = s.clock)
  | ended (p : ObjRef) (o : Option Outcome) (hold : current s.control = some (p, o, []))
      (hprom : s'.promises = Function.update s.promises p {s.promises p with
        isPending := false, dispatches := (s.promises p).dispatches + 1})
      (hcur : current s'.control = none) (hclock : s'.clock = s.clock)

theorem move_change {r : Rules} {s s' : State} (hmove : Move r s s') : Change r s s' := by
  cases hmove with
  | newPromise role hrole => exact .created _ ⟨rfl, rfl, rfl, rfl, rfl, rfl, rfl⟩ rfl rfl rfl
  | derive p res rej hp hvalid hres hrej =>
      exact .created _ ⟨rfl, rfl, rfl, rfl, rfl, rfl, rfl⟩ rfl rfl rfl
  | register p c hp hc hplace hsource hat hduring hr hrun =>
      obtain ⟨m, -, rfl⟩ := addHandler_eq hrun
      exact .listened p c hr rfl rfl rfl
  | follow q c hq hplace hreply hr hrun =>
      obtain ⟨m, -, rfl⟩ := addHandler_eq hrun
      exact .listened q c hr rfl rfl rfl
  | settle p o origin hp hby hrun =>
      rcases settle_eq hrun with ⟨-, rfl⟩ | ⟨hnone, m, -, rfl⟩
      · exact .same rfl rfl rfl
      · exact .settled p o origin hnone hby rfl rfl rfl
  | hear p o c rest hctl hother =>
      exact .heard p o c rest (by rw [hctl]; rfl) rfl rfl rfl
  | hearJoin p o c rest i st ret left hat hi hleft =>
      exact .heard p o c rest (by rw [hat.1]; rfl) rfl rfl rfl
  | call p o c d rest f hctl hserve hd => exact .same rfl (by rw [hctl]; rfl) rfl
  | resume p o c d rest hctl => exact .same rfl (by rw [hctl]; rfl) rfl
  | reply c x p o rest hctl hplace hserved hx hfail => exact .same rfl rfl rfl
  | finish c d o hd hv ho => exact .same rfl rfl rfl
  | drop c hplace hreply hfail => exact .same rfl rfl rfl
  | pop n p o hctl hn hp ho hr => exact .taken p o n hr hn hp ho (by rw [hctl]; rfl) rfl rfl rfl
  | endDispatch p o hctl => exact .ended p o (by rw [hctl]; rfl) rfl rfl rfl
  | startIdle hctl => exact .same rfl (by rw [hctl]; rfl) rfl
  | exitIdle hctl hn => exact .same rfl (by rw [hctl]; rfl) rfl
  | newStorage => exact .same rfl rfl rfl
  | openStorage st ps ret first hst hnew hret hc honly hne => exact .same rfl rfl rfl
  | recordAny ret ps first hret hnew hc honly => exact .same rfl rfl rfl

/-! ## The ledger of handlers -/

/-- The handlers of `p` that are in the array being dispatched. -/
def inflight (k : Control) (p : ObjRef) : List ClosureId :=
  match current k with
  | some (q, _, rest) => if q = p then rest else []
  | none => []

theorem inflight_congr {k k' : Control} (h : current k' = current k) (p : ObjRef) :
    inflight k' p = inflight k p := by
  unfold inflight
  rw [h]

theorem inflight_some {k : Control} {p : ObjRef} {o : Option Outcome} {rest : List ClosureId}
    (h : current k = some (p, o, rest)) (q : ObjRef) :
    inflight k q = if p = q then rest else [] := by
  unfold inflight
  rw [h]

theorem inflight_none {k : Control} (h : current k = none) (p : ObjRef) : inflight k p = [] := by
  unfold inflight
  rw [h]

theorem inflight_nil {k : Control} {p : ObjRef} (h : k.dispatched ≠ some p) :
    inflight k p = [] := by
  cases hcur : current k with
  | none => exact inflight_none hcur p
  | some d =>
      obtain ⟨q, o, rest⟩ := d
      have hq : q ≠ p := by
        intro heq
        apply h
        rw [dispatched_eq, hcur, heq]
        rfl
      rw [inflight_some hcur, if_neg hq]

/-- Every handler added to a promise is one that was called, one of the array being
dispatched, or one that waits; and it was called with the outcome of the promise. -/
structure Ledger (s : State) : Prop where
  split : ∀ p, (s.promises p).added = (s.promises p).called.map Prod.fst ++
    inflight s.control p ++ (s.promises p).handlers
  told : ∀ p, ∀ e ∈ (s.promises p).called, (s.promises p).outcome = some e.2
  outcome : ∀ p o rest, current s.control = some (p, o, rest) →
    o.isSome ∧ (s.promises p).outcome = o

theorem ledger_init : Ledger {} := ⟨fun _ => rfl, nofun, nofun⟩

/-- A promise other than the one that has changed. -/
theorem Ledger.split_ne {s s' : State} (h : Ledger s) {p q : ObjRef} {x : Promise} (hq : q ≠ p)
    (hprom : s'.promises = Function.update s.promises p x)
    (hin : inflight s'.control q = inflight s.control q) :
    (s'.promises q).added = (s'.promises q).called.map Prod.fst ++ inflight s'.control q ++
      (s'.promises q).handlers := by
  rw [hprom, Function.update_of_ne hq, hin]
  exact h.split q

theorem Ledger.told_update {s s' : State} (h : Ledger s) {p : ObjRef} {x : Promise}
    (hprom : s'.promises = Function.update s.promises p x)
    (hx : ∀ e ∈ x.called, x.outcome = some e.2) :
    ∀ q, ∀ e ∈ (s'.promises q).called, (s'.promises q).outcome = some e.2 := by
  rw [hprom]
  exact (Function.forall_update_iff _ fun _ (y : Promise) =>
    ∀ e ∈ y.called, y.outcome = some e.2).mpr ⟨hx, fun q _ => h.told q⟩

theorem Ledger.move {r : Rules} {s s' : State} (hwf : WellFormed s) (h : Ledger s)
    (hmove : Move r s s') : Ledger s' := by
  cases move_change hmove with
  | same hprom hcur hclock =>
      refine ⟨fun q => ?_, ?_, ?_⟩
      · rw [hprom, inflight_congr hcur]
        exact h.split q
      · rw [hprom]
        exact h.told
      · rw [hprom, hcur]
        exact h.outcome
  | created x hx hprom hcur hclock =>
      have hout : s.control.dispatched ≠ some s.promiseCount :=
        fun heq => Nat.lt_irrefl _ (hwf.dispatched _ heq)
      refine ⟨fun q => ?_, h.told_update hprom (by simp [hx.called]), ?_⟩
      · by_cases hq : q = s.promiseCount
        · rw [hq, hprom, Function.update_self, inflight_congr hcur, inflight_nil hout]
          simp [hx.added, hx.called, hx.handlers]
        · exact h.split_ne hq hprom (inflight_congr hcur q)
      · intro p o rest hp
        rw [hcur] at hp
        have hne : p ≠ s.promiseCount := by
          intro heq
          apply hout
          rw [dispatched_eq, hp, heq]
          rfl
        rw [hprom, Function.update_of_ne hne]
        exact h.outcome p o rest hp
  | listened p c hr hprom hcur hclock =>
      refine ⟨fun q => ?_, h.told_update hprom (h.told p), ?_⟩
      · by_cases hq : q = p
        · rw [hq, hprom, Function.update_self, inflight_congr hcur]
          simp only [listened]
          rw [h.split p]
          simp only [List.append_assoc]
        · exact h.split_ne hq hprom (inflight_congr hcur q)
      · intro q o rest hq
        rw [hcur] at hq
        obtain ⟨hsome, hout⟩ := h.outcome q o rest hq
        refine ⟨hsome, ?_⟩
        rw [hprom]
        by_cases hqp : q = p
        · rw [hqp, Function.update_self, outcome_listened, ← hqp, hout]
        · rw [Function.update_of_ne hqp, hout]
  | settled p o origin hnone hby hprom hcur hclock =>
      have hcalled : (s.promises p).called = [] := by
        apply List.eq_nil_iff_forall_not_mem.mpr
        intro e he
        have htold := h.told p e he
        rw [hnone] at htold
        cases htold
      refine ⟨fun q => ?_, h.told_update hprom (by simp [settled, hcalled]), ?_⟩
      · by_cases hq : q = p
        · rw [hq, hprom, Function.update_self, inflight_congr hcur]
          exact h.split p
        · exact h.split_ne hq hprom (inflight_congr hcur q)
      · intro q o' rest hq
        rw [hcur] at hq
        obtain ⟨hsome, hout⟩ := h.outcome q o' rest hq
        have hqp : q ≠ p := by
          intro heq
          rw [heq, hnone] at hout
          rw [← hout] at hsome
          cases hsome
        rw [hprom, Function.update_of_ne hqp]
        exact ⟨hsome, hout⟩
  | heard p o c rest hold hprom hcur hclock =>
      have hout := (h.outcome p (some o) _ hold).2
      refine ⟨fun q => ?_, h.told_update hprom ?_, ?_⟩
      · by_cases hq : q = p
        · rw [hq, hprom, Function.update_self, inflight_some hcur, if_pos rfl]
          have hsplit := h.split p
          rw [inflight_some hold, if_pos rfl] at hsplit
          simp [hsplit]
        · apply h.split_ne hq hprom
          rw [inflight_some hcur, inflight_some hold, if_neg (Ne.symm hq), if_neg (Ne.symm hq)]
      · intro e he
        rcases List.mem_append.mp he with hin | hlast
        · exact h.told p e hin
        · rw [List.mem_singleton.mp hlast]
          exact hout
      · intro q o' rest' hq
        rw [hcur] at hq
        cases hq
        rw [hprom, Function.update_self]
        exact ⟨rfl, hout⟩
  | taken p o n hpop hn hp ho hold hprom hcur hclock =>
      refine ⟨fun q => ?_, h.told_update hprom (h.told p), ?_⟩
      · by_cases hq : q = p
        · rw [hq, hprom, Function.update_self, inflight_some hcur, if_pos rfl]
          have hsplit := h.split p
          rw [inflight_none hold] at hsplit
          simp [hsplit]
        · apply h.split_ne hq hprom
          rw [inflight_some hcur, inflight_none hold, if_neg (Ne.symm hq)]
      · intro q o' rest' hq
        rw [hcur] at hq
        cases hq
        rw [hprom, Function.update_self]
        exact ⟨rfl, ho⟩
  | ended p o hold hprom hcur hclock =>
      refine ⟨fun q => ?_, h.told_update hprom (h.told p), ?_⟩
      · by_cases hq : q = p
        · rw [hq, hprom, Function.update_self, inflight_none hcur]
          have hsplit := h.split p
          rw [inflight_some hold, if_pos rfl] at hsplit
          exact hsplit
        · apply h.split_ne hq hprom
          rw [inflight_none hcur, inflight_some hold, if_neg (Ne.symm hq)]
      · intro q o' rest' hq
        rw [hcur] at hq
        cases hq

/-! ## Waiting handlers are announced -/

/-- No handler is added to the promise that is being dispatched. -/
def noReentry : Rules where
  attach cur p := cur ≠ some p
  fail := True
  pop _ := True

structure Announced (s : State) : Prop where
  pending : ∀ p, (s.promises p).outcome.isSome → (s.promises p).handlers ≠ [] →
    (s.promises p).isPending
  empty : ∀ p, s.control.dispatched = some p → (s.promises p).handlers = []

theorem announced_init : Announced {} := ⟨nofun, nofun⟩

theorem Announced.pending_update {s s' : State} (h : Announced s) {p : ObjRef} {x : Promise}
    (hprom : s'.promises = Function.update s.promises p x)
    (hx : x.outcome.isSome → x.handlers ≠ [] → x.isPending) :
    ∀ q, (s'.promises q).outcome.isSome → (s'.promises q).handlers ≠ [] →
      (s'.promises q).isPending := by
  rw [hprom]
  exact (Function.forall_update_iff _ fun _ (y : Promise) =>
    y.outcome.isSome → y.handlers ≠ [] → y.isPending).mpr ⟨hx, fun q _ => h.pending q⟩

/-- The promise being dispatched is none that has got a handler. -/
theorem Announced.empty_update {s s' : State} (h : Announced s) {p : ObjRef} {x : Promise}
    (hprom : s'.promises = Function.update s.promises p x)
    (hx : s.control.dispatched = some p → x.handlers = [])
    (hdisp : s'.control.dispatched = s.control.dispatched) :
    ∀ q, s'.control.dispatched = some q → (s'.promises q).handlers = [] := by
  intro q hq
  rw [hdisp] at hq
  rw [hprom]
  by_cases hqp : q = p
  · subst hqp
    rw [Function.update_self]
    exact hx hq
  · rw [Function.update_of_ne hqp]
    exact h.empty q hq

theorem Announced.move {r : Rules} (hr : ∀ cur p, r.attach cur p → cur ≠ some p) {s s' : State}
    (h : Announced s) (hmove : Move r s s') : Announced s' := by
  have hdisp : current s'.control = current s.control →
      s'.control.dispatched = s.control.dispatched := by
    intro hcur
    rw [dispatched_eq, dispatched_eq, hcur]
  cases move_change hmove with
  | same hprom hcur hclock =>
      refine ⟨?_, ?_⟩
      · rw [hprom]
        exact h.pending
      · rw [hprom, hdisp hcur]
        exact h.empty
  | created x hx hprom hcur hclock =>
      refine ⟨h.pending_update hprom (by simp [hx.outcome]), ?_⟩
      exact h.empty_update hprom (fun _ => hx.handlers) (hdisp hcur)
  | listened p c hattach hprom hcur hclock =>
      refine ⟨h.pending_update hprom ?_, ?_⟩
      · intro hout _
        rw [outcome_listened] at hout
        simp [listened, hout]
      · exact h.empty_update hprom (fun heq => absurd heq (hr _ p hattach)) (hdisp hcur)
  | settled p o origin hnone hby hprom hcur hclock =>
      exact ⟨h.pending_update hprom fun _ _ => rfl,
        h.empty_update hprom (h.empty p) (hdisp hcur)⟩
  | heard p o c rest hold hprom hcur hclock =>
      refine ⟨h.pending_update hprom (h.pending p), h.empty_update hprom (h.empty p) ?_⟩
      rw [dispatched_eq, dispatched_eq, hcur, hold]
      rfl
  | taken p o n hpop hn hp ho hold hprom hcur hclock =>
      refine ⟨h.pending_update hprom fun _ hne => absurd rfl hne, ?_⟩
      intro q hq
      rw [dispatched_eq, hcur] at hq
      cases hq
      rw [hprom, Function.update_self]
  | ended p o hold hprom hcur hclock =>
      have hempty : (s.promises p).handlers = [] := by
        apply h.empty
        rw [dispatched_eq, hold]
        rfl
      refine ⟨h.pending_update hprom fun _ hne => absurd hempty hne, ?_⟩
      intro q hq
      rw [dispatched_eq, hcur] at hq
      cases hq

/-! ## The guarantee -/

/-- When `di_idle_cb` returns, the handlers of a settled promise have been called, each
as often as it was added and with the outcome; no call of the API calls a handler;
and outside of a dispatch a settled promise with handlers is in the queue once. -/
structure NoHandlerLost (s : State) : Prop where
  onReturn : ∀ a s', Step s a s' → s.control ≠ .outside → s'.control = .outside →
    ∀ p o, (s'.promises p).outcome = some o →
      (s'.promises p).called = (s'.promises p).added.map fun c => (c, o)
  notInCalls : ∀ a s', a.isCall → Step s a s' →
    ∀ p, (s'.promises p).called = (s.promises p).called
  queued : s.control.dispatched = none → ∀ p, (s.promises p).outcome.isSome →
    (s.promises p).handlers ≠ [] → ∃! k, s.eventModule.pendingPromise k = some p

/-- Where nothing is dispatched and nothing waits, every handler has been called. -/
theorem Ledger.called_eq {s : State} (h : Ledger s) {p : ObjRef} {o : Outcome}
    (hcur : current s.control = none) (hempty : (s.promises p).handlers = [])
    (ho : (s.promises p).outcome = some o) :
    (s.promises p).called = (s.promises p).added.map fun c => (c, o) := by
  have hsplit := h.split p
  rw [inflight_none hcur, hempty, List.append_nil, List.append_nil] at hsplit
  have hpair : ∀ e ∈ (s.promises p).called, (e.1, o) = e := by
    intro e he
    have htold := h.told p e he
    rw [ho, Option.some.injEq] at htold
    rw [htold]
  rw [hsplit, List.map_map]
  exact ((List.map_congr_left hpair).trans (List.map_id _)).symm

theorem no_handler_lost {s : State} (hrun : Run noReentry {} s) : NoHandlerLost s := by
  have hqueue := run_queueInvariant hrun
  have hledger : Ledger s := hrun.invariant ledger_init fun _ _ hwf h hmove => h.move hwf hmove
  have hann : Announced s :=
    hrun.invariant announced_init fun _ _ _ h hmove => h.move (fun _ _ => id) hmove
  refine ⟨?_, fun a s' hcall hstep => call_called hrun.wellFormed hcall hstep, ?_⟩
  · intro a s' hstep hin hout p o ho
    obtain ⟨hctl, hn, rfl⟩ := return_cases hrun.wellFormed hstep hin hout
    apply hledger.called_eq (by rw [hctl]; rfl) _ ho
    by_contra hne
    have hpend := hann.pending p (by rw [show (s.promises p).outcome = some o from ho]; rfl) hne
    rcases hqueue.covered p hpend with ⟨k, hk⟩ | hd
    · obtain ⟨n, hn', hkeys⟩ := hqueue.keys
      have hlt := (hkeys k).mp (by simp [hk])
      rw [Option.some.inj (hn'.symm.trans hn)] at hlt
      exact Nat.not_lt_zero k hlt
    · rw [hctl] at hd
      cases hd
  · intro hnone p hset hne
    rcases hqueue.covered p (hann.pending p hset hne) with ⟨k, hk⟩ | hd
    · exact ⟨k, hk, fun j hj => hqueue.distinct j k p hj hk⟩
    · rw [hnone] at hd
      cases hd

/-- The test for `noReentry`. -/
def entersAgain (s : State) (a : Action) : Bool :=
  (attachedTo s a).any fun p => s.control.dispatched == some p

theorem allowed_noReentry (s : State) (a : Action) (h : (!entersAgain s a) = true) :
    Allowed noReentry s a := by
  refine ⟨fun p hp heq => ?_, fun _ => trivial, fun _ => trivial⟩
  simp only [entersAgain, Bool.not_eq_true', List.any_eq_false, beq_iff_eq] at h
  exact h p hp heq

/-- A promise with two handlers is resolved and dispatched; the first handler adds a
handler to the promise it has derived. -/
def chained : List Action :=
  [.newPromise, .then 0 7, .catch 0 8, .resolve 0 .nil, .startIdle, .idleLoop, .callNext,
    .then 1 9, .handlerReturns (.returned (.int 3)), .callNext, .endDispatch, .idleLoop,
    .endDispatch, .idleLoop, .callNext, .handlerReturns (.threw 5), .endDispatch, .idleLoop,
    .endDispatch]

theorem no_handler_lost_chained :
    ∃ s, runWith (fun s a => !entersAgain s a) chained {} = some s ∧ NoHandlerLost s ∧
      s.control = .idle ∧ s.eventModule.pendingCount = some 0 := by
  refine ⟨_, rfl, ?_, rfl, rfl⟩
  exact no_handler_lost (run_of_runWith allowed_noReentry (l := chained) rfl)

/-- A handler of the promise 0 calls `then` on the promise 0. -/
def reentered : List Action :=
  [.newPromise, .then 0 7, .resolve 0 .nil, .startIdle, .idleLoop, .callNext, .then 0 8,
    .handlerReturns (.returned .nil), .endDispatch, .idleLoop, .endDispatch]

/-- The handler added during the dispatch has not been called when `di_idle_cb` returns. -/
theorem handler_lost_reentered :
    ∃ s, runAll reentered {} = some s ∧ Run .all {} s ∧ ¬ NoHandlerLost s := by
  refine ⟨_, rfl, run_of_runAll (l := reentered) rfl, fun h => ?_⟩
  have hcalled := h.onReturn .idleLoop _ rfl nofun rfl 0 (.resolved .nil) rfl
  cases congrArg List.length hcalled

end Deai.PromiseHandlers
