import Deai.PromiseCalls

/-!
# The queue of pending promises

The queue is a stack of numbered members of the event module with a separate
counter. Each promise in it carries `is_pending`, and so does the one promise that
is being dispatched, which has left the queue.
-/
namespace Deai.PromiseQueue
open Value EventPromise PromiseSteps PromiseRuns PromiseCalls Relation

structure QueueInvariant (s : State) : Prop where
  keys : ∃ n, s.eventModule.pendingCount = some n ∧
    ∀ k, (s.eventModule.pendingPromise k).isSome ↔ k < n
  distinct : ∀ j k p, s.eventModule.pendingPromise j = some p →
    s.eventModule.pendingPromise k = some p → j = k
  pending : ∀ k p, s.eventModule.pendingPromise k = some p → (s.promises p).isPending
  covered : ∀ p, (s.promises p).isPending →
    (∃ k, s.eventModule.pendingPromise k = some p) ∨ s.control.dispatched = some p
  dispatched : ∀ p, s.control.dispatched = some p →
    (s.promises p).isPending ∧ ∀ k, s.eventModule.pendingPromise k ≠ some p
  rooted : ∀ n, s.eventModule.pendingCount = some (n + 1) → s.eventModule.anonymousRoot
  awake : s.control = .outside → ∀ n, s.eventModule.pendingCount = some (n + 1) →
    s.eventModule.idleActive
  attached : ∀ p, p < s.promiseCount → (s.promises p).weakEventModule

theorem queueInvariant_init : QueueInvariant {} :=
  ⟨⟨0, rfl, by simp⟩, nofun, nofun, nofun, nofun, nofun, nofun, nofun⟩

/-- The invariant only looks at the event module, the flags and the dispatch. -/
theorem QueueInvariant.congr {s s' : State} (h : QueueInvariant s)
    (hmodule : s'.eventModule = s.eventModule)
    (hdisp : s'.control.dispatched = s.control.dispatched)
    (hout : s'.control = .outside → s.control = .outside)
    (hflag : ∀ p, (s'.promises p).isPending = (s.promises p).isPending)
    (hweak : ∀ p, (s'.promises p).weakEventModule = (s.promises p).weakEventModule)
    (hcount : s'.promiseCount = s.promiseCount) : QueueInvariant s' where
  keys := by rw [hmodule]; exact h.keys
  distinct := by rw [hmodule]; exact h.distinct
  pending := by simpa only [hmodule, hflag] using h.pending
  covered := by simpa only [hmodule, hflag, hdisp] using h.covered
  dispatched := by simpa only [hmodule, hflag, hdisp] using h.dispatched
  rooted := by rw [hmodule]; exact h.rooted
  awake hctl := by rw [hmodule]; exact h.awake (hout hctl)
  attached := by simpa only [hweak, hcount] using h.attached

/-- A new promise is not pending. -/
theorem QueueInvariant.grow {s s' : State} (h : QueueInvariant s) (hwf : WellFormed s)
    (hmodule : s'.eventModule = s.eventModule) (hctl : s'.control = s.control)
    (hold : ∀ p, p < s.promiseCount → s'.promises p = s.promises p)
    (hnew : (s'.promises s.promiseCount).isPending = false ∧
      (s'.promises s.promiseCount).weakEventModule)
    (hcount : s'.promiseCount = s.promiseCount + 1)
    (hfresh : ∀ p, s'.promiseCount ≤ p → s'.promises p = {}) : QueueInvariant s' where
  keys := by rw [hmodule]; exact h.keys
  distinct := by rw [hmodule]; exact h.distinct
  pending k p hp := by
    rw [hmodule] at hp
    rw [hold p (hwf.queued k p hp).1]
    exact h.pending k p hp
  covered p hp := by
    rw [hmodule, hctl]
    have hlt : p < s.promiseCount := by
      by_contra hge
      rcases Nat.lt_or_eq_of_le (Nat.le_of_not_lt hge) with hgt | heq
      · rw [hfresh p (by rw [hcount]; exact hgt)] at hp
        cases hp
      · rw [← heq, hnew.1] at hp
        cases hp
    rw [hold p hlt] at hp
    exact h.covered p hp
  dispatched p hp := by
    rw [hctl] at hp
    rw [hmodule, hold p (hwf.dispatched p hp)]
    exact h.dispatched p hp
  rooted := by rw [hmodule]; exact h.rooted
  awake := by rw [hmodule, hctl]; exact h.awake
  attached p hp := by
    rcases Nat.lt_succ_iff_lt_or_eq.mp (hcount ▸ hp) with hlt | heq
    · rw [hold p hlt]
      exact h.attached p hlt
    · rw [heq]
      exact hnew.2

theorem push_pendingPromise {m : EventModule} {n : ℕ} (hnone : m.pendingPromise n = none)
    (p : ObjRef) :
    (m.push n p).pendingPromise = Function.update m.pendingPromise n (some p) := by
  simp [EventModule.push, hnone]

/-- A promise without `is_pending` goes to the top of the stack. -/
theorem QueueInvariant.push {s : State} (h : QueueInvariant s) {p : ObjRef} {n : ℕ}
    (hnot : (s.promises p).isPending = false) (hn : s.eventModule.pendingCount = some n)
    {x : Promise} (hflag : x.isPending) (hweak : x.weakEventModule = (s.promises p).weakEventModule) :
    QueueInvariant {s with
      promises := Function.update s.promises p x, eventModule := s.eventModule.push n p} := by
  obtain ⟨n', hn', hkeys⟩ := h.keys
  have hnn : n' = n := Option.some.inj (hn'.symm.trans hn)
  subst hnn
  have hnone : s.eventModule.pendingPromise n' = none := by
    have hkey := hkeys n'
    rw [Option.isSome_iff_ne_none] at hkey
    by_contra hsome
    exact Nat.lt_irrefl _ (hkey.mp hsome)
  have hqueue := push_pendingPromise hnone p
  have hout : ∀ k, s.eventModule.pendingPromise k ≠ some p := by
    intro k hk
    have hflag' := h.pending k p hk
    rw [hnot] at hflag'
    cases hflag'
  have hdisp : s.control.dispatched ≠ some p := by
    intro hp
    have hflag' := (h.dispatched p hp).1
    rw [hnot] at hflag'
    cases hflag'
  refine ⟨⟨n' + 1, rfl, ?_⟩, ?_, ?_, ?_, ?_, ?_, fun _ _ _ => rfl, ?_⟩
  · intro k
    rw [hqueue]
    by_cases hk : k = n'
    · simp [hk]
    · rw [Function.update_of_ne hk, hkeys k]
      omega
  · intro j k q hj hk
    rw [hqueue] at hj hk
    by_cases hjn : j = n' <;> by_cases hkn : k = n'
    · rw [hjn, hkn]
    · subst hjn
      rw [Function.update_self, Option.some.injEq] at hj
      rw [Function.update_of_ne hkn, ← hj] at hk
      exact absurd hk (hout k)
    · subst hkn
      rw [Function.update_self, Option.some.injEq] at hk
      rw [Function.update_of_ne hjn, ← hk] at hj
      exact absurd hj (hout j)
    · rw [Function.update_of_ne hjn] at hj
      rw [Function.update_of_ne hkn] at hk
      exact h.distinct j k q hj hk
  · intro k q hk
    by_cases hq : q = p
    · simpa [hq] using hflag
    · rw [hqueue] at hk
      by_cases hkn : k = n'
      · subst hkn
        rw [Function.update_self, Option.some.injEq] at hk
        exact absurd hk.symm hq
      · rw [Function.update_of_ne hkn] at hk
        simpa [Function.update_of_ne hq] using h.pending k q hk
  · intro q hq
    rw [hqueue]
    by_cases hqp : q = p
    · exact .inl ⟨n', by simp [hqp]⟩
    · simp only [Function.update_of_ne hqp] at hq
      rcases h.covered q hq with ⟨k, hk⟩ | hd
      · have hkn : k ≠ n' := by
          intro heq
          rw [heq, hnone] at hk
          cases hk
        exact .inl ⟨k, by rw [Function.update_of_ne hkn, hk]⟩
      · exact .inr hd
  · intro q hq
    have hqp : q ≠ p := fun heq => hdisp (heq ▸ hq)
    obtain ⟨hflag', hoff⟩ := h.dispatched q hq
    refine ⟨by simpa [Function.update_of_ne hqp] using hflag', fun k => ?_⟩
    rw [hqueue]
    by_cases hkn : k = n'
    · simpa [hkn] using Ne.symm hqp
    · rw [Function.update_of_ne hkn]
      exact hoff k
  · intro k hk
    cases n' with
    | zero => simp [EventModule.push]
    | succ n' => simp [EventModule.push, h.rooted n' hn]
  · intro q hq
    by_cases hqp : q = p
    · subst hqp
      simpa [hweak] using h.attached q hq
    · simpa [Function.update_of_ne hqp] using h.attached q hq

/-- `di_promise_start_dispatch` for `p`, where the promises have changed in `p` only. -/
theorem QueueInvariant.woken {s : State} (h : QueueInvariant s) {p : ObjRef} {needed : Prop}
    {m : EventModule} (hm : Woken s p needed m) {x : Promise}
    (hflag : x.isPending ↔ (s.promises p).isPending ∨ needed)
    (hweak : x.weakEventModule = (s.promises p).weakEventModule) :
    QueueInvariant {s with promises := Function.update s.promises p x, eventModule := m} := by
  rcases hm with ⟨hsame, rfl⟩ | ⟨hnot, hneed, n, hn, rfl⟩
  · have hflag' : x.isPending = (s.promises p).isPending := by
      rw [Bool.eq_iff_iff, hflag]
      tauto
    refine h.congr rfl rfl id ?_ ?_ rfl
    · exact (Function.forall_update_iff _ fun q (y : Promise) =>
        y.isPending = (s.promises q).isPending).mpr ⟨hflag', fun _ _ => rfl⟩
    · exact (Function.forall_update_iff _ fun q (y : Promise) =>
        y.weakEventModule = (s.promises q).weakEventModule).mpr ⟨hweak, fun _ _ => rfl⟩
  · exact h.push hnot hn (hflag.mpr (.inr hneed)) hweak

theorem QueueInvariant.addHandler {s s' : State} (h : QueueInvariant s) {p : ObjRef}
    {c : ClosureId} (hrun : diPromiseAddHandler p c s = .ok s') : QueueInvariant s' := by
  obtain ⟨m, hm, rfl⟩ := addHandler_eq hrun
  have hnew := h.woken hm (x := listened (s.promises p) c) (by simp [listened]) rfl
  exact hnew.congr rfl rfl id (fun _ => rfl) (fun _ => rfl) rfl

/-- The top of the stack is dispatched. -/
theorem QueueInvariant.pop {s : State} (h : QueueInvariant s) {p : ObjRef} {o : Outcome}
    {n : ℕ} (hctl : s.control = .idle) (hn : s.eventModule.pendingCount = some (n + 1))
    (hp : s.eventModule.pendingPromise n = some p) : QueueInvariant (takeHandlers p o n s) := by
  have hflag : ∀ q, ((takeHandlers p o n s).promises q).isPending = (s.promises q).isPending :=
    (Function.forall_update_iff _ fun q (y : Promise) =>
      y.isPending = (s.promises q).isPending).mpr ⟨rfl, fun _ _ => rfl⟩
  have hweak : ∀ q, ((takeHandlers p o n s).promises q).weakEventModule =
      (s.promises q).weakEventModule :=
    (Function.forall_update_iff _ fun q (y : Promise) =>
      y.weakEventModule = (s.promises q).weakEventModule).mpr ⟨rfl, fun _ _ => rfl⟩
  have hqueue : (takeHandlers p o n s).eventModule.pendingPromise =
      Function.update s.eventModule.pendingPromise n none := rfl
  have hothers : ∀ k q, (takeHandlers p o n s).eventModule.pendingPromise k = some q →
      k ≠ n ∧ s.eventModule.pendingPromise k = some q := by
    intro k q hk
    rw [hqueue] at hk
    by_cases hkn : k = n
    · simp [hkn] at hk
    · rw [Function.update_of_ne hkn] at hk
      exact ⟨hkn, hk⟩
  obtain ⟨n', hn', hkeys⟩ := h.keys
  have hnn : n' = n + 1 := Option.some.inj (hn'.symm.trans hn)
  subst hnn
  refine ⟨⟨n, rfl, ?_⟩, ?_, ?_, ?_, ?_, ?_, nofun, ?_⟩
  · intro k
    rw [hqueue]
    by_cases hk : k = n
    · simp [hk]
    · rw [Function.update_of_ne hk, hkeys k]
      omega
  · exact fun j k q hj hk => h.distinct j k q (hothers j q hj).2 (hothers k q hk).2
  · intro k q hk
    rw [hflag]
    exact h.pending k q (hothers k q hk).2
  · intro q hq
    rw [hflag] at hq
    rcases h.covered q hq with ⟨k, hk⟩ | hd
    · by_cases hkn : k = n
      · rw [hkn, hp] at hk
        exact .inr hk
      · exact .inl ⟨k, by rw [hqueue, Function.update_of_ne hkn, hk]⟩
    · rw [hctl] at hd
      cases hd
  · intro q hq
    cases hq
    refine ⟨(hflag p).trans (h.pending n p hp), fun k hk => ?_⟩
    obtain ⟨hkn, hk'⟩ := hothers k p hk
    exact hkn (h.distinct k n p hk' hp)
  · exact fun k _ => h.rooted n hn
  · intro q hq
    rw [hweak]
    exact h.attached q hq

/-- The promise that was dispatched loses its flag. -/
theorem QueueInvariant.endDispatch {s : State} (h : QueueInvariant s) {p : ObjRef}
    (hp : s.control.dispatched = some p) : QueueInvariant (endDispatch p s) := by
  obtain ⟨-, hoff⟩ := h.dispatched p hp
  have hother : ∀ q, q ≠ p → (EventPromise.endDispatch p s).promises q = s.promises q :=
    fun q hq => Function.update_of_ne hq _ _
  have hself : ((EventPromise.endDispatch p s).promises p).isPending = false := by
    simp [EventPromise.endDispatch, State.setPromise]
  refine ⟨h.keys, h.distinct, ?_, ?_, fun q hq => (by cases hq), h.rooted, by rintro ⟨⟩, ?_⟩
  · intro k q hk
    have hqp : q ≠ p := fun heq => hoff k (heq ▸ hk)
    rw [hother q hqp]
    exact h.pending k q hk
  · intro q hq
    have hqp : q ≠ p := by
      intro heq
      rw [heq, hself] at hq
      cases hq
    rw [hother q hqp] at hq
    rcases h.covered q hq with hk | hd
    · exact .inl hk
    · exact absurd (Option.some.inj (hd.symm.trans hp)) hqp
  · intro q hq
    by_cases hqp : q = p
    · subst hqp
      simpa [EventPromise.endDispatch, State.setPromise] using h.attached q hq
    · rw [hother q hqp]
      exact h.attached q hq

/-- A promise changes, but not its flag. -/
theorem QueueInvariant.setPromise {s : State} (h : QueueInvariant s) {p : ObjRef} {x : Promise}
    (hflag : x.isPending = (s.promises p).isPending)
    (hweak : x.weakEventModule = (s.promises p).weakEventModule) :
    QueueInvariant {s with promises := Function.update s.promises p x} := by
  refine h.congr rfl rfl id ?_ ?_ rfl
  · exact (Function.forall_update_iff _ fun q (y : Promise) =>
      y.isPending = (s.promises q).isPending).mpr ⟨hflag, fun _ _ => rfl⟩
  · exact (Function.forall_update_iff _ fun q (y : Promise) =>
      y.weakEventModule = (s.promises q).weakEventModule).mpr ⟨hweak, fun _ _ => rfl⟩

theorem QueueInvariant.hear {s : State} (h : QueueInvariant s) {p : ObjRef} {o : Outcome}
    {c : ClosureId} {rest : List ClosureId}
    (hctl : s.control = .dispatching p (some o) (c :: rest)) :
    QueueInvariant (hear p o c rest s) := by
  have hprom := h.setPromise (p := p) (x := {s.promises p with
    called := (s.promises p).called ++ [(c, o)]}) rfl rfl
  refine hprom.congr rfl ?_ nofun (fun _ => rfl) (fun _ => rfl) rfl
  change _ = s.control.dispatched
  rw [hctl]
  rfl

theorem QueueInvariant.move {r : Rules} {s s' : State} (hwf : WellFormed s)
    (h : QueueInvariant s) (hmove : Move r s s') : QueueInvariant s' := by
  have hwf' := hmove.wellFormed hwf
  have hrefl : ∀ {t : State}, t.eventModule = s.eventModule → t.control = s.control →
      t.promises = s.promises → t.promiseCount = s.promiseCount → QueueInvariant t := by
    intro t hmodule hctl hprom hcount
    exact h.congr hmodule (by rw [hctl]) (by rw [hctl]; exact id) (by simp [hprom])
      (by simp [hprom]) hcount
  cases hmove with
  | newPromise role hrole =>
      refine h.grow hwf rfl rfl ?_ ?_ rfl hwf'.freshPromise
      · exact fun p hp => Function.update_of_ne (Nat.ne_of_lt hp) _ _
      · simp [diNewPromise, State.setPromise]
  | derive p res rej hp hvalid hres hrej =>
      refine h.grow hwf rfl rfl ?_ ?_ rfl hwf'.freshPromise
      · exact fun p hp => Function.update_of_ne (Nat.ne_of_lt hp) _ _
      · simp [derive, newClosure, State.setClosure, diNewPromise, State.setPromise]
  | register p c hp hc hplace hsource hat hduring hr hrun => exact h.addHandler hrun
  | follow q c hq hplace hreply hr hrun => exact h.addHandler hrun
  | settle p o origin hp hby hrun =>
      rcases settle_eq hrun with ⟨-, rfl⟩ | ⟨hnone, m, hm, rfl⟩
      · exact h
      · have hnew := h.woken hm (x := settled (s.promises p) o origin s.clock)
          (by simp [settled]) rfl
        exact hnew.congr rfl rfl id (fun _ => rfl) (fun _ => rfl) rfl
  | hear p o c rest hctl hother => exact h.hear hctl
  | hearJoin p o c rest i st ret left hat hi hleft =>
      exact (h.hear hat.1).congr rfl rfl id (fun _ => rfl) (fun _ => rfl) rfl
  | call p o c d rest f hctl hserve hd =>
      exact h.congr rfl (by rw [hctl]; rfl) (by rintro ⟨⟩) (fun _ => rfl) (fun _ => rfl) rfl
  | resume p o c d rest hctl =>
      exact h.congr rfl (by rw [hctl]; rfl) (by rintro ⟨⟩) (fun _ => rfl) (fun _ => rfl) rfl
  | reply c x p o rest hctl hplace hserved hx hfail => exact hrefl rfl rfl rfl rfl
  | finish c d o hd hv ho => exact hrefl rfl rfl rfl rfl
  | drop c hplace hreply hfail => exact hrefl rfl rfl rfl rfl
  | pop n p o hctl hn hp ho hr => exact h.pop hctl hn hp
  | endDispatch p o hctl => exact h.endDispatch (by rw [hctl]; rfl)
  | startIdle hctl =>
      exact ⟨h.keys, h.distinct, h.pending, fun p hp => (h.covered p hp).imp_right
        (by rw [hctl]; rintro ⟨⟩), fun q hq => (by cases hq), h.rooted, by rintro ⟨⟩, h.attached⟩
  | exitIdle hctl hn =>
      refine ⟨h.keys, h.distinct, h.pending, fun p hp => (h.covered p hp).imp_right
        (by rw [hctl]; rintro ⟨⟩), fun q hq => (by cases hq), ?_, ?_, h.attached⟩
      · intro n hn'
        cases hn.symm.trans hn'
      · intro _ n hn'
        cases hn.symm.trans hn'
  | newStorage => exact hrefl rfl rfl rfl rfl
  | openStorage st ps ret first hst hnew hret hc honly hne => exact hrefl rfl rfl rfl rfl
  | recordAny ret ps first hret hnew hc honly => exact hrefl rfl rfl rfl rfl

theorem run_queueInvariant {r : Rules} {s : State} (hrun : Run r {} s) : QueueInvariant s :=
  hrun.invariant queueInvariant_init fun _ _ hwf h hmove => h.move hwf hmove

theorem moves_queueInvariant {r : Rules} {s : State} (h : Moves r {} s) : QueueInvariant s :=
  moves_invariant queueInvariant_init (fun _ _ hwf h hmove => h.move hwf hmove) h

/-- The checks of `di_idle_cb` and `di_promise_start_dispatch`. -/
def queueChecks : List Check := [.weakEventModule, .pendingCount, .pendingPromise]

theorem QueueInvariant.not_fails {s : State} (h : QueueInvariant s) {e : Check}
    (he : e ∈ queueChecks) : ¬ Fails s e := by
  obtain ⟨n, hn, hkeys⟩ := h.keys
  simp only [queueChecks, List.mem_cons, List.not_mem_nil, or_false] at he
  rcases he with rfl | rfl | rfl
  · intro hfail
    obtain ⟨p, hp, hweak⟩ := hfail
    simp [h.attached p hp] at hweak
  · intro hfail
    cases hn.symm.trans hfail
  · intro hfail
    obtain ⟨-, k, hk, hnone⟩ := hfail
    have hkn : k < n := by
      rw [Option.some.inj (hn.symm.trans hk)]
      exact Nat.lt_succ_self k
    have hsome := (hkeys k).mpr hkn
    simp [hnone] at hsome

/-- `di_idle_cb` returns only when it finds the queue empty. -/
theorem return_cases {a : Action} {s s' : State} (hwf : WellFormed s)
    (hstep : Step s a s') (hin : s.control ≠ .outside) (hout : s'.control = .outside) :
    s.control = .idle ∧ s.eventModule.pendingCount = some 0 ∧ s' = exitIdle s := by
  cases ha : a.isCall with
  | true => exact absurd ((call_frame ha hstep).control.symm.trans hout) hin
  | false =>
      cases a with
      | startIdle => exact absurd (exec_startIdle hstep).1 hin
      | idleLoop =>
          obtain ⟨hctl, hrun⟩ := exec_idleLoop hstep
          rcases idleLoop_cases hwf hrun.symm with ⟨hn, rfl⟩ | ⟨n, p, o, rfl⟩
          · exact ⟨hctl, hn, rfl⟩
          · cases hout
      | callNext =>
          obtain ⟨p, o, c, rest, -, hrun⟩ := exec_callNext hstep
          obtain ⟨-, -, -, ⟨-, hctl⟩ | ⟨-, d, hctl⟩⟩ := diPromiseHandlerClosure_touches hrun.symm
          · cases hctl.symm.trans hout
          · cases hctl.symm.trans hout
      | handlerReturns x =>
          obtain ⟨p, o, c, d, rest, -, hrun⟩ := exec_handlerReturns hstep
          cases (settleReply_touches hrun.symm).1.control.symm.trans hout
      | endDispatch =>
          obtain ⟨p, o, -, hrun⟩ := exec_endDispatch hstep
          cases hrun
          cases hout
      | _ => cases ha

/-- In every state of every run the queue is what its counter says, the checks of
the two functions that use it hold, and `di_idle_cb` leaves it empty. -/
theorem pending_queue_invariant {s : State} (hrun : Run .all {} s) :
    QueueInvariant s ∧ (∀ a e, e ∈ queueChecks → exec a s ≠ some (.error e)) ∧
      ∀ a s', Step s a s' → s.control ≠ .outside → s'.control = .outside →
        s'.eventModule.pendingCount = some 0 := by
  refine ⟨run_queueInvariant hrun, ?_, ?_⟩
  · intro a e he hexec
    obtain ⟨t, hmoves, hfail⟩ := hrun.fails (allowed_all s a) hexec
    exact (moves_queueInvariant hmoves).not_fails he hfail
  · intro a s' hstep hin hout
    obtain ⟨-, hn, rfl⟩ := return_cases hrun.wellFormed hstep hin hout
    exact hn

/-- Two promises are settled, and the handler of the second rejects a third one. -/
def pushWhilePopping : List Action :=
  [.newPromise, .newPromise, .newPromise, .then 1 7, .resolve 0 .nil, .resolve 1 .nil, .startIdle,
    .idleLoop, .callNext, .reject 2 8]

theorem pending_queue_invariant_pushWhilePopping :
    ∃ s, runAll pushWhilePopping {} = some s ∧ s.eventModule.pendingCount = some 2 ∧
      s.control.dispatched = some 1 ∧ QueueInvariant s := by
  refine ⟨_, rfl, rfl, rfl, ?_⟩
  exact (pending_queue_invariant (run_of_runAll (l := pushWhilePopping) rfl)).1

end Deai.PromiseQueue
