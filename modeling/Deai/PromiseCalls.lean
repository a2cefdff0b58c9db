import Deai.PromiseRuns
import Deai.Fallible

/-!
# Calls and closures at rest

A call of the API does not call a handler, and changes no closure that is there.
Between two steps every closure is at rest: it waits for a promise, or is in the
array that is being dispatched, or has come to its end, except the one whose user
handler is running.
-/
namespace Deai.PromiseCalls
open Fallible Value EventPromise PromiseSteps PromiseRuns Relation

section Except
variable {A B : Type}

theorem map_eq_ok {x : Except Check A} {f : A → B} {b : B} (h : x.map f = .ok b) :
    ∃ a, x = .ok a ∧ f a = b := by
  cases x with
  | error e => cases h
  | ok a => exact ⟨a, rfl, Except.ok.inj h⟩

end Except

/-- What a call leaves as it was, and the closures it has made. -/
structure CallFrame (s s' : State) : Prop where
  control : s'.control = s.control
  promiseCount : s.promiseCount ≤ s'.promiseCount
  called : ∀ p, (s'.promises p).called = (s.promises p).called ∨
    (s.promiseCount ≤ p ∧ (s'.promises p).called = [])
  closureCount : s.closureCount ≤ s'.closureCount
  old : ∀ c, c < s.closureCount → s'.closures c = s.closures c
  new : ∀ c, s.closureCount ≤ c → c < s'.closureCount → ∃ p, (s'.closures c).place = .waiting p

theorem CallFrame.refl (s : State) : CallFrame s s :=
  ⟨rfl, le_rfl, fun _ => .inl rfl, le_rfl, fun _ _ => rfl, fun _ hle hlt =>
    absurd hlt (Nat.not_lt.mpr hle)⟩

theorem CallFrame.trans {s t s' : State} (hfirst : CallFrame s t) (hrest : CallFrame t s') :
    CallFrame s s' where
  control := hrest.control.trans hfirst.control
  promiseCount := hfirst.promiseCount.trans hrest.promiseCount
  called p := by
    rcases hrest.called p with hsame | ⟨hle, hnil⟩
    · rw [hsame]
      exact hfirst.called p
    · exact .inr ⟨hfirst.promiseCount.trans hle, hnil⟩
  closureCount := hfirst.closureCount.trans hrest.closureCount
  old c hc := by
    rw [hrest.old c (Nat.lt_of_lt_of_le hc hfirst.closureCount), hfirst.old c hc]
  new c hle hlt := by
    by_cases hc : c < t.closureCount
    · rw [hrest.old c hc]
      exact hfirst.new c hle hc
    · exact hrest.new c (Nat.le_of_not_lt hc) hlt

/-- Only promises change, and none of them has called a handler meanwhile. -/
theorem CallFrame.of_promises {s s' : State} (hctl : s'.control = s.control)
    (hcount : s.promiseCount ≤ s'.promiseCount) (hclosures : s'.closures = s.closures)
    (hclosureCount : s'.closureCount = s.closureCount)
    (hcalled : ∀ p, (s'.promises p).called = (s.promises p).called ∨
      (s.promiseCount ≤ p ∧ (s'.promises p).called = [])) : CallFrame s s' :=
  ⟨hctl, hcount, hcalled, le_of_eq hclosureCount.symm, fun c _ => by rw [hclosures],
    fun c hle hlt => absurd hlt (Nat.not_lt.mpr (hclosureCount ▸ hle))⟩

theorem newPromise_frame (role : Role) (s : State) : CallFrame s (diNewPromise role s).2 := by
  refine .of_promises rfl (Nat.le_succ _) rfl rfl fun p => ?_
  by_cases hp : p = s.promiseCount
  · exact .inr ⟨le_of_eq hp.symm, by simp [diNewPromise, State.setPromise, hp]⟩
  · exact .inl (by simp [diNewPromise, State.setPromise, hp])

theorem settle_callFrame {p : ObjRef} {o : Outcome} {origin : Origin} {s s' : State}
    (h : settle p o origin s = .ok s') : CallFrame s s' := by
  rcases settle_eq h with ⟨-, rfl⟩ | ⟨-, m, -, rfl⟩
  · exact .refl _
  · refine .of_promises rfl le_rfl rfl rfl fun q => .inl ?_
    by_cases hq : q = p
    · simp [hq, settled]
    · simp [Function.update_of_ne hq]

theorem thenInner_frame {p : ObjRef} {res rej : Option Handler} {s : State}
    {y : ObjRef × State} (hp : p < s.promiseCount)
    (h : diPromiseThenInner p res rej s = .ok y) : CallFrame s y.2 := by
  rw [thenInner_eq] at h
  obtain ⟨t, hadd, rfl⟩ := map_eq_ok h
  obtain ⟨m, -, rfl⟩ := addHandler_eq hadd
  refine ⟨rfl, Nat.le_succ _, ?_, Nat.le_succ _, ?_, ?_⟩
  · intro q
    by_cases hqp : q = p
    · subst hqp
      exact .inl (by simp [listened, derive_promise _ _ hp])
    · simp only [Function.update_of_ne hqp]
      exact (newPromise_frame (.derived s.closureCount) s).called q
  · intro c hc
    have hne : c ≠ s.closureCount := Nat.ne_of_lt hc
    simp only [Function.update_of_ne hne]
    exact Function.update_of_ne hne _ _
  · intro c hle hlt
    have hc : c = s.closureCount := Nat.le_antisymm (Nat.le_of_lt_succ hlt) hle
    subst hc
    exact ⟨p, by simp⟩

theorem thenAll_frame {h : ℕ → Handler} {ps : List ObjRef} {i : ℕ} {s s' : State}
    (hps : ∀ p ∈ ps, p < s.promiseCount) (hrun : thenAll h i ps s = .ok s') : CallFrame s s' := by
  induction ps generalizing i s with
  | nil =>
      cases hrun
      exact .refl _
  | cons p ps ih =>
      obtain ⟨y, hthen, hrest⟩ := bind_eq_ok hrun
      have hone := thenInner_frame (hps p (by simp)) hthen
      refine hone.trans (ih ?_ hrest)
      exact fun q hq => Nat.lt_of_lt_of_le (hps q (by simp [hq])) hone.promiseCount

theorem diReadyPromise_frame {v : DiValue} {s : State} {y : ObjRef × State}
    (h : diReadyPromise v s = .ok y) : CallFrame s y.2 := by
  obtain ⟨t, hsettle, hy⟩ := bind_eq_ok h
  cases hy
  exact (newPromise_frame .plain s).trans (settle_callFrame hsettle)

theorem diAnyPromise_frame {ps : List ObjRef} {s : State} {y : ObjRef × State}
    (hps : ∀ p ∈ ps, p < s.promiseCount) (h : diAnyPromise ps s = .ok y) : CallFrame s y.2 := by
  obtain ⟨t, hall, hy⟩ := bind_eq_ok h
  cases hy
  rw [anyInputs_eq s.promiseCount ps 0] at hall
  have hframe := thenAll_frame (fun p hp => Nat.lt_succ_of_lt (hps p hp)) hall
  exact {(newPromise_frame .any s).trans hframe with}

theorem diJoinPromises_frame {ps : List ObjRef} {s : State} {y : ObjRef × State}
    (hps : ∀ p ∈ ps, p < s.promiseCount) (h : diJoinPromises ps s = .ok y) :
    CallFrame s y.2 := by
  cases ps with
  | nil => exact diReadyPromise_frame h
  | cons p ps =>
      rw [diJoinPromises_cons] at h
      obtain ⟨t, hall, hy⟩ := bind_eq_ok h
      cases hy
      have hstart : CallFrame s (joinStart s) := {newPromise_frame (.join s.storageCount) s with}
      have hframe := thenAll_frame (fun q hq => Nat.lt_succ_of_lt (hps q hq)) hall
      exact {hstart.trans hframe with}

/-- A call of the API. -/
theorem call_frame {a : Action} {s s' : State} (hcall : a.isCall) (hstep : Step s a s') :
    CallFrame s s' := by
  cases a with
  | newPromise =>
      cases hstep
      exact newPromise_frame .plain s
  | «then» p f | «catch» p f | «finally» p f =>
      simp only [Step, exec, Option.ite_none_right_eq_some, Option.some.injEq] at hstep
      obtain ⟨y, hy, rfl⟩ := map_eq_ok hstep.2
      exact thenInner_frame hstep.1 hy
  | resolve p v | reject p e =>
      simp only [Step, exec, Option.ite_none_right_eq_some, Option.some.injEq] at hstep
      exact settle_callFrame hstep.2
  | joinPromises ps =>
      simp only [Step, exec, Option.ite_none_right_eq_some, Option.some.injEq] at hstep
      obtain ⟨y, hy, rfl⟩ := map_eq_ok hstep.2
      exact diJoinPromises_frame hstep.1 hy
  | anyPromise ps =>
      simp only [Step, exec, Option.ite_none_right_eq_some, Option.some.injEq] at hstep
      obtain ⟨y, hy, rfl⟩ := map_eq_ok hstep.2
      exact diAnyPromise_frame hstep.1 hy
  | readyPromise v =>
      obtain ⟨y, hy, rfl⟩ := map_eq_ok (Option.some.inj hstep)
      exact diReadyPromise_frame hy
  | _ => cases hcall

/-- No call calls a handler. -/
theorem call_called {a : Action} {s s' : State} (hwf : WellFormed s) (hcall : a.isCall)
    (hstep : Step s a s') (p : ObjRef) : (s'.promises p).called = (s.promises p).called := by
  rcases (call_frame hcall hstep).called p with hsame | ⟨hle, hnil⟩
  · exact hsame
  · rw [hnil, hwf.freshPromise p hle]

/-! ## Closures at rest -/

def Rested (x : Closure) : Prop :=
  (∃ p, x.place = .waiting p) ∨ x.place = .taken ∨ x.place = .finished ∨ x.place = .dropped

/-- Every closure is at rest, except the one whose user handler is running. -/
def AtRest (s : State) : Prop :=
  ∀ c, c < s.closureCount → Rested (s.closures c) ∨
    ((s.closures c).place = .running ∧ ∃ p o d rest, s.control = .calling p o c d rest)

/-- A closure has been worked on, and only this one. -/
structure Touches (c : ClosureId) (s s' : State) : Prop where
  control : s'.control = s.control
  closureCount : s'.closureCount = s.closureCount
  others : ∀ c', c' ≠ c → s'.closures c' = s.closures c'
  storageCount : s'.storageCount = s.storageCount

theorem Touches.setClosure (c : ClosureId) (f : Closure → Closure) (s : State) :
    Touches c s (s.setClosure c f) :=
  ⟨rfl, rfl, fun _ hne => Function.update_of_ne hne _ _, rfl⟩

theorem Touches.trans {c : ClosureId} {s t s' : State} (hfirst : Touches c s t)
    (hrest : Touches c t s') : Touches c s s' :=
  ⟨hrest.control.trans hfirst.control, hrest.closureCount.trans hfirst.closureCount,
    fun c' hne => (hrest.others c' hne).trans (hfirst.others c' hne),
    hrest.storageCount.trans hfirst.storageCount⟩

theorem settle_touches {p : ObjRef} {o : Outcome} {origin : Origin} {s s' : State}
    (c : ClosureId) (h : settle p o origin s = .ok s') : Touches c s s' := by
  rcases settle_eq h with ⟨-, rfl⟩ | ⟨-, m, -, rfl⟩ <;>
    exact ⟨rfl, rfl, fun _ _ => rfl, rfl⟩

theorem settle_finish_touches {c : ClosureId} {d : ObjRef} {o : Outcome} {s s' : State}
    (h : (settle d o (.closure c) s >>= fun s => .ok (finish c s)) = .ok s') :
    Touches c s s' ∧ Rested (s'.closures c) := by
  obtain ⟨t, hsettle, ht⟩ := bind_eq_ok h
  cases ht
  refine ⟨(settle_touches c hsettle).trans (.setClosure c _ t), .inr (.inr (.inl ?_))⟩
  simp [finish, State.setClosure]

theorem settleReply_touches {c : ClosureId} {d : ObjRef} {x : Reply} {s s' : State}
    (h : settleReply c d x s = .ok s') : Touches c s s' ∧ Rested (s'.closures c) := by
  have hfirst : Touches c s (replied c x s) := .setClosure c _ s
  cases x with
  | value v | threw e =>
      obtain ⟨htouch, hrested⟩ := settle_finish_touches h
      exact ⟨hfirst.trans htouch, hrested⟩
  | failed =>
      cases h
      refine ⟨hfirst.trans (.setClosure c _ _), .inr (.inr (.inr ?_))⟩
      simp [State.setClosure]
  | promise q =>
      obtain ⟨m, -, rfl⟩ := addHandler_eq h
      exact ⟨⟨rfl, rfl, fun c' hne => by simp [Function.update_of_ne hne, State.setClosure], rfl⟩,
        .inl ⟨q, by simp⟩⟩

theorem diPromiseJoinHandler_touches {i : ℕ} {st : StorageId} {ret : ObjRef} {v : DiValue}
    {s s' : State} (c : ClosureId) (h : diPromiseJoinHandler i st ret v s = .ok s') :
    Touches c s s' := by
  unfold diPromiseJoinHandler at h
  dsimp only at h
  split_ifs at h
  split at h
  · cases h
  · split_ifs at h
    · split at h
      · cases h
      · split at h
        · cases h
        · exact {settle_touches c h with}
    · cases h
      exact ⟨rfl, rfl, fun _ _ => rfl, rfl⟩

/-- After `di_promise_handler_closure` the closure is at rest or its user handler runs. -/
theorem diPromiseHandlerClosure_touches {p : ObjRef} {o : Outcome} {c : ClosureId}
    {rest : List ClosureId} {s s' : State} (h : diPromiseHandlerClosure p o c rest s = .ok s') :
    s'.closureCount = s.closureCount ∧ s'.storageCount = s.storageCount ∧
      (∀ c', c' ≠ c → s'.closures c' = s.closures c') ∧
      ((Rested (s'.closures c) ∧ s'.control = .dispatching p (some o) rest) ∨
        ((s'.closures c).place = .running ∧ ∃ d, s'.control = .calling p o c d rest)) := by
  have hhear : ∀ c', c' ≠ c → (hear p o c rest s).closures c' = s.closures c' :=
    fun c' hne => Function.update_of_ne hne _ _
  have hdone : ∀ {t : State}, Touches c (hear p o c rest s) t → Rested (t.closures c) →
      t.closureCount = s.closureCount ∧ t.storageCount = s.storageCount ∧
      (∀ c', c' ≠ c → t.closures c' = s.closures c') ∧
      ((Rested (t.closures c) ∧ t.control = .dispatching p (some o) rest) ∨
        ((t.closures c).place = .running ∧ ∃ d, t.control = .calling p o c d rest)) := by
    intro t htouch hrested
    exact ⟨htouch.closureCount, htouch.storageCount,
      fun c' hne => (htouch.others c' hne).trans (hhear c' hne), .inl ⟨hrested, htouch.control⟩⟩
  cases hd : (s.closures c).promise with
  | none =>
      simp only [diPromiseHandlerClosure, hd] at h
      cases h
  | some d =>
      cases hh : (s.closures c).handlerFor o with
      | none =>
          simp only [diPromiseHandlerClosure, hd, hh] at h
          obtain ⟨htouch, hrested⟩ := settle_finish_touches h
          exact hdone htouch hrested
      | some handler =>
          cases handler with
          | user f =>
              simp only [diPromiseHandlerClosure, hd, hh] at h
              cases h
              exact ⟨rfl, rfl, hhear, .inr ⟨(hear_serving p rest hh).1, d, rfl⟩⟩
          | any ret =>
              simp only [diPromiseHandlerClosure, hd, hh] at h
              obtain ⟨t, hserve, hreply⟩ := bind_eq_ok h
              obtain ⟨htouch, hrested⟩ := settleReply_touches hreply
              exact hdone ((settle_touches c hserve).trans htouch) hrested
          | join i st ret =>
              simp only [diPromiseHandlerClosure, hd, hh] at h
              obtain ⟨t, hserve, hreply⟩ := bind_eq_ok h
              obtain ⟨htouch, hrested⟩ := settleReply_touches hreply
              exact hdone ((diPromiseJoinHandler_touches c hserve).trans htouch) hrested

theorem AtRest.call {s s' : State} (h : AtRest s) (hframe : CallFrame s s') : AtRest s' := by
  intro c hc
  rw [hframe.control]
  by_cases hold : c < s.closureCount
  · rw [hframe.old c hold]
    exact h c hold
  · obtain ⟨p, hp⟩ := hframe.new c (Nat.le_of_not_lt hold) hc
    exact .inl (.inl ⟨p, hp⟩)

/-- Control moves on while no user handler is running. -/
theorem AtRest.rested {s : State} (h : AtRest s)
    (hctl : ∀ p o c d rest, s.control ≠ .calling p o c d rest) {c : ClosureId}
    (hc : c < s.closureCount) : Rested (s.closures c) := by
  rcases h c hc with hrested | ⟨-, p, o, d, rest, hcalling⟩
  · exact hrested
  · exact absurd hcalling (hctl p o c d rest)

theorem takeHandlers_rested {s : State} {p : ObjRef} {o : Outcome} {n : ℕ} {c : ClosureId}
    (h : Rested (s.closures c)) : Rested ((takeHandlers p o n s).closures c) := by
  by_cases hmem : c ∈ (s.promises p).handlers
  · exact .inr (.inl (by simp [takeHandlers, hmem]))
  · simpa [takeHandlers, hmem] using h

theorem idleLoop_cases {s s' : State} (hwf : WellFormed s) (h : idleLoop s = .ok s') :
    (s.eventModule.pendingCount = some 0 ∧ s' = exitIdle s) ∨
      ∃ n p o, s' = takeHandlers p o n s := by
  unfold idleLoop at h
  split at h
  · cases h
  · rename_i hn
    cases h
    exact .inl ⟨hn, rfl⟩
  · rename_i n hn
    split at h
    · cases h
    · rename_i p hp
      obtain ⟨o, ho⟩ := Option.isSome_iff_exists.mp (hwf.queued n p hp).2
      cases h
      exact .inr ⟨n, p, o, startHandlers_eq ho n⟩

theorem AtRest.step {a : Action} {s s' : State} (hwf : WellFormed s) (h : AtRest s)
    (hstep : Step s a s') : AtRest s' := by
  cases ha : a.isCall with
  | true => exact h.call (call_frame ha hstep)
  | false =>
      cases a with
      | startIdle =>
          obtain ⟨hctl, hrun⟩ := exec_startIdle hstep
          cases hrun
          exact fun c hc => .inl (h.rested (by simp [hctl]) hc)
      | idleLoop =>
          obtain ⟨hctl, hrun⟩ := exec_idleLoop hstep
          rcases idleLoop_cases hwf hrun.symm with ⟨-, rfl⟩ | ⟨n, p, o, rfl⟩
          · exact fun c hc => .inl (h.rested (by simp [hctl]) hc)
          · exact fun c hc => .inl (takeHandlers_rested (h.rested (by simp [hctl]) hc))
      | callNext =>
          obtain ⟨p, o, c, rest, hctl, hrun⟩ := exec_callNext hstep
          obtain ⟨hcount, -, hothers, hself⟩ := diPromiseHandlerClosure_touches hrun.symm
          intro c' hc'
          by_cases hne : c' = c
          · subst hne
            rcases hself with ⟨hrested, -⟩ | ⟨hplace, d, hctl'⟩
            · exact .inl hrested
            · exact .inr ⟨hplace, p, o, d, rest, hctl'⟩
          · rw [hothers c' hne]
            exact .inl (h.rested (by simp [hctl]) (hcount ▸ hc'))
      | handlerReturns x =>
          obtain ⟨p, o, c, d, rest, hctl, hrun⟩ := exec_handlerReturns hstep
          obtain ⟨htouch, hrested⟩ := settleReply_touches hrun.symm
          intro c' hc'
          by_cases hne : c' = c
          · subst hne
            exact .inl hrested
          · rw [htouch.others c' hne]
            rcases h c' (htouch.closureCount ▸ hc') with hrest | ⟨-, p', o', d', rest', hctl'⟩
            · exact .inl hrest
            · rw [hctl] at hctl'
              cases hctl'
              exact absurd rfl hne
      | endDispatch =>
          obtain ⟨p, o, hctl, hrun⟩ := exec_endDispatch hstep
          cases hrun
          exact fun c hc => .inl (h.rested (by simp [hctl]) hc)
      | _ => cases ha

theorem run_atRest {r : Rules} {s : State} (hrun : Run r {} s) : AtRest s := by
  induction hrun with
  | refl => exact fun c hc => absurd hc (Nat.not_lt_zero c)
  | tail hrun hstep ih =>
      obtain ⟨a, -, hexec⟩ := hstep
      exact ih.step (Run.wellFormed hrun) hexec

end Deai.PromiseCalls
