import Deai.PromiseSteps

/-!
# Steps and runs of the promise machine as moves

Every step of the machine is a sequence of moves, and where a `DI_CHECK` fails, a
sequence of moves leads to a state in which it is known what is wrong.
-/
namespace Deai.PromiseRuns
open Value EventPromise PromiseSteps Relation

/-- What is wrong when a check fails. -/
def Fails (s : State) : Check → Prop
  | .weakEventModule => ∃ p, p < s.promiseCount ∧ (s.promises p).weakEventModule = false
  | .pendingCount => s.eventModule.pendingCount = none
  | .pendingPromise => s.control = .idle ∧ ∃ n, s.eventModule.pendingCount = some (n + 1) ∧
      s.eventModule.pendingPromise n = none
  | .closurePromise => ∃ p o c rest, s.control = .dispatching p (some o) (c :: rest) ∧
      (s.closures c).promise = none
  | .joinIndex => ∃ c p o rest i st ret, AtJoin s c p o rest i st ret ∧
      ((s.storages st).items i).isSome
  | .joinLeft => ∃ c p o rest i st ret, AtJoin s c p o rest i st ret ∧
      (s.storages st).left = none
  | .joinTotal => ∃ c p o rest i st ret, AtJoin s c p o rest i st ret ∧
      (s.storages st).left = some 1 ∧ (s.storages st).total = none
  | .joinItem => ∃ c p o rest i st ret total v, AtJoin s c p o rest i st ret ∧
      (s.storages st).items i = none ∧ (s.storages st).left = some 1 ∧
      (s.storages st).total = some total ∧
      collect (Function.update (s.storages st).items i (some v)) total = none

/-- What a computation of the model does, as moves. -/
def Leads (r : Rules) (s : State) {A : Type} (final : A → State) : Except Check A → Prop
  | .ok a => Moves r s (final a)
  | .error e => ∃ s', Moves r s s' ∧ Fails s' e

section Leads
variable {r : Rules} {s s' : State} {A B : Type} {g : A → State} {g' : B → State}

theorem Leads.bind {x : Except Check A} {f : A → Except Check B} (hx : Leads r s g x)
    (hf : ∀ a, x = .ok a → Moves r s (g a) → Leads r (g a) g' (f a)) :
    Leads r s g' (x >>= f) := by
  cases x with
  | error e => exact hx
  | ok a =>
      have hfa := hf a rfl hx
      change Leads r s g' (f a)
      cases hfx : f a with
      | error e =>
          rw [hfx] at hfa
          obtain ⟨t, ht, hfail⟩ := hfa
          exact ⟨t, hx.trans ht, hfail⟩
      | ok b =>
          rw [hfx] at hfa
          exact hx.trans hfa

theorem Leads.after {x : Except Check A} (hmove : Move r s s') (hx : Leads r s' g x) :
    Leads r s g x := by
  cases x with
  | error e =>
      obtain ⟨t, ht, hfail⟩ := hx
      exact ⟨t, ht.head hmove, hfail⟩
  | ok a => exact ReflTransGen.head hmove hx

theorem Leads.one (hmove : Move r s s') : Leads r s id (.ok s') :=
  ReflTransGen.single hmove

theorem Leads.map {x : Except Check A} {f : A → B} (hx : Leads r s g x)
    (hf : ∀ a, g' (f a) = g a) : Leads r s g' (x.map f) := by
  cases x with
  | error e => exact hx
  | ok a =>
      change Moves r s (g' (f a))
      rw [hf]
      exact hx

end Leads

/-! ## The functions that fill the queue -/

theorem startDispatch_fails {p : ObjRef} {s : State} {e : Check}
    (h : diPromiseStartDispatch p s = .error e) :
    (e = .weakEventModule ∧ (s.promises p).weakEventModule = false) ∨
      (e = .pendingCount ∧ s.eventModule.pendingCount = none) := by
  unfold diPromiseStartDispatch at h
  split_ifs at h with hpend hweak
  · cases h
    exact .inl ⟨rfl, hweak⟩
  · split at h
    · rename_i hn
      cases h
      exact .inr ⟨rfl, hn⟩
    · cases h

theorem addHandler_fails {p : ObjRef} {c : ClosureId} {s : State} {e : Check}
    (h : diPromiseAddHandler p c s = .error e) (hp : p < s.promiseCount) : Fails s e := by
  unfold diPromiseAddHandler at h
  dsimp only at h
  split_ifs at h
  rcases startDispatch_fails h with ⟨rfl, hweak⟩ | ⟨rfl, hn⟩
  · refine ⟨p, hp, ?_⟩
    simpa [attach, State.setPromise, State.setClosure] using hweak
  · exact hn

theorem settle_fails {p : ObjRef} {o : Outcome} {origin : Origin} {s : State} {e : Check}
    (h : settle p o origin s = .error e) (hp : p < s.promiseCount) : Fails s e := by
  unfold settle at h
  split_ifs at h
  rcases startDispatch_fails h with ⟨rfl, hweak⟩ | ⟨rfl, hn⟩
  · refine ⟨p, hp, ?_⟩
    cases o <;> simpa [setOutcome, State.setPromise] using hweak
  · exact hn

theorem settle_leads {r : Rules} {p : ObjRef} {o : Outcome} {origin : Origin} {s : State}
    (hp : p < s.promiseCount) (hby : Settles s p o origin) :
    Leads r s id (settle p o origin s) := by
  cases hrun : settle p o origin s with
  | ok s' => exact .one (.settle p o origin hp hby hrun)
  | error e => exact ⟨s, .refl, settle_fails hrun hp⟩

/-! ## Registration -/

theorem thenInner_eq (p : ObjRef) (res rej : Option Handler) (s : State) :
    diPromiseThenInner p res rej s =
      (diPromiseAddHandler p s.closureCount (derive p res rej s)).map (s.promiseCount, ·) := by
  change (diPromiseAddHandler p s.closureCount (derive p res rej s) >>= _) = _
  cases diPromiseAddHandler p s.closureCount (derive p res rej s) <;> rfl

/-- The closure that `di_promise_then_inner` makes. -/
theorem derive_closure (p : ObjRef) (res rej : Option Handler) (s : State) (hp : p < s.promiseCount) :
    (derive p res rej s).closures s.closureCount =
      { promise := some s.promiseCount, resolve := res, reject := rej, source := p,
        target := s.promiseCount, onResolve := res, onReject := rej,
        bornAt := (s.promises p).dispatches, bornDuring := s.control.dispatched == some p } := by
  have hne : p ≠ s.promiseCount := Nat.ne_of_lt hp
  simp [derive, newClosure, diNewPromise, State.setClosure, State.setPromise, hne]

theorem derive_promise {p : ObjRef} (res rej : Option Handler) {s : State} {q : ObjRef}
    (hq : q < s.promiseCount) : (derive p res rej s).promises q = s.promises q :=
  Function.update_of_ne (Nat.ne_of_lt hq) _ _

theorem thenInner_leads {r : Rules} {p : ObjRef} {res rej : Option Handler} {s : State}
    (hp : p < s.promiseCount)
    (hvalid : ∀ h, res = some h ∨ rej = some h → Valid s.promiseCount s.storageCount h)
    (hres : ∀ h, res = some h → Registrable s h) (hrej : ∀ h, rej = some h → ∃ f, h = .user f)
    (hr : r.attach s.control.dispatched p) :
    Leads r s Prod.snd (diPromiseThenInner p res rej s) := by
  rw [thenInner_eq]
  refine Leads.map (g := id) ?_ fun _ => rfl
  apply Leads.after (.derive p res rej hp hvalid hres hrej)
  have hp' : p < (derive p res rej s).promiseCount := Nat.lt_succ_of_lt hp
  have hc := derive_closure p res rej s hp
  cases hrun : diPromiseAddHandler p s.closureCount (derive p res rej s) with
  | error e => exact ⟨_, .refl, addHandler_fails hrun hp'⟩
  | ok s' =>
      apply Leads.one
      refine .register p s.closureCount hp' (Nat.lt_succ_self _) ?_ ?_ ?_ ?_ hr hrun
      · rw [hc]
      · rw [hc]
      · rw [hc, derive_promise res rej hp]
      · rw [hc]
        rfl

/-- What a sequence of registrations has done: `ps` are the promises, and the `k`th
handler is `h (i + k)`. -/
structure Listening (s s' : State) (ps : List ObjRef) (h : ℕ → Handler) (i : ℕ) : Prop where
  promiseCount : s.promiseCount ≤ s'.promiseCount
  role : ∀ p, p < s.promiseCount → (s'.promises p).role = (s.promises p).role
  storages : s'.storages = s.storages
  storageCount : s'.storageCount = s.storageCount
  anys : s'.anys = s.anys
  control : s'.control = s.control
  closureCount : s'.closureCount = s.closureCount + ps.length
  old : ∀ c, c < s.closureCount → s'.closures c = s.closures c
  new : ∀ k (hk : k < ps.length), Waits (s'.closures (s.closureCount + k)) ps[k] (h (i + k))

theorem Listening.nil (s : State) (h : ℕ → Handler) (i : ℕ) : Listening s s [] h i :=
  ⟨le_rfl, fun _ _ => rfl, rfl, rfl, rfl, rfl, rfl, fun _ _ => rfl, nofun⟩

/-- One registration and the rest of them. -/
theorem Listening.cons {s t s' : State} {p : ObjRef} {ps : List ObjRef} {h : ℕ → Handler}
    {i : ℕ} (hone : Listening s t [p] h i) (hrest : Listening t s' ps h (i + 1)) :
    Listening s s' (p :: ps) h i where
  promiseCount := hone.promiseCount.trans hrest.promiseCount
  role q hq := by
    rw [hrest.role q (Nat.lt_of_lt_of_le hq hone.promiseCount), hone.role q hq]
  storages := by rw [hrest.storages, hone.storages]
  storageCount := by rw [hrest.storageCount, hone.storageCount]
  anys := by rw [hrest.anys, hone.anys]
  control := by rw [hrest.control, hone.control]
  closureCount := by
    rw [hrest.closureCount, hone.closureCount]
    simp only [List.length_cons, List.length_nil]
    omega
  old c hc := by
    have hcount := hone.closureCount
    rw [hrest.old c (by simp only [hcount]; omega), hone.old c hc]
  new k hk := by
    have hcount : t.closureCount = s.closureCount + 1 := hone.closureCount
    cases k with
    | zero =>
        rw [hrest.old _ (by omega)]
        exact hone.new 0 (by simp)
    | succ k =>
        have hnew := hrest.new k (by simpa using hk)
        rw [hcount] at hnew
        simpa only [List.getElem_cons_succ, Nat.add_assoc, Nat.add_comm 1 k] using hnew

theorem then_listening {p : ObjRef} {h : ℕ → Handler} {i : ℕ} {s : State} {d : ObjRef}
    {s' : State} (hp : p < s.promiseCount) (hrun : diPromiseThen p (h i) s = .ok (d, s')) :
    Listening s s' [p] h i := by
  rw [diPromiseThen, thenInner_eq] at hrun
  cases hadd : diPromiseAddHandler p s.closureCount (derive p (some (h i)) none s) with
  | error e =>
      rw [hadd] at hrun
      cases hrun
  | ok t =>
      rw [hadd] at hrun
      cases hrun
      obtain ⟨m, -, rfl⟩ := addHandler_eq hadd
      refine ⟨Nat.le_succ _, ?_, rfl, rfl, rfl, rfl, rfl, ?_, ?_⟩
      · intro q hq
        by_cases hqp : q = p
        · subst hqp
          simp [listened, derive_promise _ _ hp]
        · simp [Function.update_of_ne hqp, derive_promise _ _ hq]
      · intro c hc
        have hne : c ≠ s.closureCount := Nat.ne_of_lt hc
        simp only [Function.update_of_ne hne]
        exact Function.update_of_ne hne _ _
      · intro k hk
        have hk0 : k = 0 := by simpa using hk
        subst hk0
        simp only [Nat.add_zero, Function.update_self, derive_closure p _ _ s hp]
        exact ⟨rfl, rfl, rfl, rfl, rfl⟩

/-- The loops of `di_join_promises` and `di_any_promise`. -/
def thenAll (h : ℕ → Handler) : ℕ → List ObjRef → State → Except Check State
  | _, [], s => .ok s
  | i, p :: ps, s => do
      let (_, s) ← diPromiseThen p (h i) s
      thenAll h (i + 1) ps s

theorem joinInputs_eq (st : StorageId) (ret : ObjRef) (ps : List ObjRef) (i : ℕ) (s : State) :
    joinInputs st ret i ps s = thenAll (fun k => .join k st ret) i ps s := by
  induction ps generalizing i s with
  | nil => rfl
  | cons p ps ih => simp only [joinInputs, thenAll, ih]

theorem anyInputs_eq (ret : ObjRef) (ps : List ObjRef) (i : ℕ) (s : State) :
    anyInputs ret ps s = thenAll (fun _ => .any ret) i ps s := by
  induction ps generalizing i s with
  | nil => rfl
  | cons p ps ih => simp only [anyInputs, thenAll, ih (i + 1)]

theorem thenAll_listening {h : ℕ → Handler} {ps : List ObjRef} {i : ℕ} {s s' : State}
    (hps : ∀ p ∈ ps, p < s.promiseCount) (hrun : thenAll h i ps s = .ok s') :
    Listening s s' ps h i := by
  induction ps generalizing i s with
  | nil =>
      cases hrun
      exact .nil _ h i
  | cons p ps ih =>
      cases hthen : diPromiseThen p (h i) s with
      | error e =>
          rw [thenAll, hthen] at hrun
          cases hrun
      | ok dt =>
          rw [thenAll, hthen] at hrun
          have hone := then_listening (hps p (by simp)) hthen
          refine hone.cons (ih ?_ hrun)
          intro q hq
          exact Nat.lt_of_lt_of_le (hps q (by simp [hq])) hone.promiseCount

/-- A handler stays registrable while other handlers are registered. -/
theorem registrable_listening {s s' : State} {ps : List ObjRef} {h : ℕ → Handler} {i : ℕ}
    {x : Handler} (hx : Registrable s x) (hv : Valid s.promiseCount s.storageCount x)
    (hl : Listening s s' ps h i) : Registrable s' x := by
  cases x with
  | user f => trivial
  | any ret => exact ⟨by rw [hl.role ret hv, hx.1], by rw [hl.anys]; exact hx.2⟩
  | join k st ret => exact ⟨by rw [hl.role ret hv.1, hx.1], by rw [hl.storages]; exact hx.2⟩

theorem thenAll_leads {r : Rules} {h : ℕ → Handler} {ps : List ObjRef} {i : ℕ} {s : State}
    (hps : ∀ p ∈ ps, p < s.promiseCount) (hreg : ∀ k, Registrable s (h k))
    (hvalid : ∀ k, Valid s.promiseCount s.storageCount (h k))
    (hr : ∀ p ∈ ps, r.attach s.control.dispatched p) : Leads r s id (thenAll h i ps s) := by
  induction ps generalizing i s with
  | nil => exact .refl
  | cons p ps ih =>
      have hp := hps p (by simp)
      apply Leads.bind (g := Prod.snd)
      · exact thenInner_leads hp (by simpa using hvalid i) (by simpa using hreg i) nofun
          (hr p (by simp))
      · intro dt hthen _
        have hl := then_listening hp hthen
        apply ih
        · exact fun q hq => Nat.lt_of_lt_of_le (hps q (by simp [hq])) hl.promiseCount
        · exact fun k => registrable_listening (hreg k) (hvalid k) hl
        · exact fun k => (hvalid k).mono hl.promiseCount (le_of_eq hl.storageCount.symm)
        · intro q hq
          rw [hl.control]
          exact hr q (by simp [hq])

theorem newPromise_role (role : Role) (s : State) :
    ((diNewPromise role s).2.promises s.promiseCount).role = role := by
  simp [diNewPromise, State.setPromise]

theorem diReadyPromise_leads {r : Rules} (v : DiValue) (s : State) :
    Leads r s Prod.snd (diReadyPromise v s) := by
  apply Leads.after (.newPromise .plain nofun)
  apply Leads.bind (g := id)
  · exact settle_leads (Nat.lt_succ_self _) trivial
  · exact fun _ _ _ => .refl

theorem diAnyPromise_leads {r : Rules} {ps : List ObjRef} {s : State} (hwf : WellFormed s)
    (hps : ∀ p ∈ ps, p < s.promiseCount) (hr : ∀ p ∈ ps, r.attach s.control.dispatched p) :
    Leads r s Prod.snd (diAnyPromise ps s) := by
  have hnew : ∀ a ∈ s.anys, a.ret ≠ s.promiseCount := fun a ha => Nat.ne_of_lt (hwf.anys a ha)
  have hps' : ∀ p ∈ ps, p < (diNewPromise .any s).2.promiseCount :=
    fun p hp => Nat.lt_succ_of_lt (hps p hp)
  apply Leads.after (.newPromise .any nofun)
  apply Leads.bind (g := id)
  · rw [anyInputs_eq s.promiseCount ps 0]
    exact thenAll_leads hps' (fun _ => ⟨newPromise_role .any s, hnew⟩)
      (fun _ => Nat.lt_succ_self s.promiseCount) hr
  · intro t ht _
    rw [anyInputs_eq s.promiseCount ps 0] at ht
    have hl := thenAll_listening hps' ht
    apply ReflTransGen.single
    apply Move.recordAny
    · rw [id_eq, hl.role _ (Nat.lt_succ_self s.promiseCount), newPromise_role]
    · rw [id_eq, hl.anys]
      exact hnew
    · exact ⟨hl.closureCount, hl.new⟩
    · intro c hc
      by_contra hlt
      have hold := hl.old c (Nat.lt_of_not_le hlt)
      rw [id_eq, hold] at hc
      exact Nat.lt_irrefl _ ((hwf.closure c).onResolve _ hc)

/-- The state in which the loop of `di_join_promises` starts. -/
def joinStart (s : State) : State := (newStorage (diNewPromise (.join s.storageCount) s).2).2

theorem joinStart_role (s : State) :
    ((joinStart s).promises s.promiseCount).role = .join s.storageCount :=
  newPromise_role _ s

theorem joinStart_total (s : State) :
    ((joinStart s).storages s.storageCount).total = none := by
  change (Function.update s.storages s.storageCount {} s.storageCount).total = none
  rw [Function.update_self]

theorem diJoinPromises_cons (p : ObjRef) (ps : List ObjRef) (s : State) :
    diJoinPromises (p :: ps) s =
      thenAll (fun k => .join k s.storageCount s.promiseCount) 0 (p :: ps) (joinStart s) >>=
        fun t => .ok (s.promiseCount, t.setStorage s.storageCount fun x =>
          x.opened (p :: ps) s.promiseCount s.closureCount) := by
  rw [← joinInputs_eq]
  rfl

theorem diJoinPromises_leads {r : Rules} {ps : List ObjRef} {s : State} (hwf : WellFormed s)
    (hps : ∀ p ∈ ps, p < s.promiseCount) (hr : ∀ p ∈ ps, r.attach s.control.dispatched p) :
    Leads r s Prod.snd (diJoinPromises ps s) := by
  cases ps with
  | nil =>
      apply Leads.after (.newPromise .plain nofun)
      apply Leads.bind (g := id)
      · exact settle_leads (Nat.lt_succ_self _) trivial
      · exact fun _ _ _ => .refl
  | cons p ps =>
      have hps' : ∀ q ∈ p :: ps, q < (joinStart s).promiseCount :=
        fun q hq => Nat.lt_succ_of_lt (hps q hq)
      have hret : s.promiseCount < (joinStart s).promiseCount := Nat.lt_succ_self s.promiseCount
      have hst : s.storageCount < (joinStart s).storageCount := Nat.lt_succ_self s.storageCount
      rw [diJoinPromises_cons]
      apply Leads.after (.newPromise (.join s.storageCount) nofun)
      apply Leads.after (show Move r _ (joinStart s) from .newStorage)
      apply Leads.bind (g := id)
      · exact thenAll_leads hps' (fun _ => ⟨joinStart_role s, joinStart_total s⟩)
          (fun _ => ⟨hret, hst⟩) hr
      · intro t ht _
        have hl := thenAll_listening hps' ht
        apply ReflTransGen.single
        apply Move.openStorage
        · rw [id_eq, hl.storageCount]
          exact hst
        · rw [id_eq, hl.storages]
          exact joinStart_total s
        · rw [id_eq, hl.role _ hret]
          exact joinStart_role s
        · refine ⟨hl.closureCount, fun k hk => ?_⟩
          have hnew := hl.new k hk
          rw [Nat.zero_add] at hnew
          exact hnew
        · intro c i ret' hc
          by_contra hlt
          have hold := hl.old c (Nat.lt_of_not_le hlt)
          rw [id_eq, hold] at hc
          exact Nat.lt_irrefl _ ((hwf.closure c).onResolve _ hc).2
        · exact List.cons_ne_nil p ps

/-! ## Closures -/

/-- What settling a promise leaves as it is. -/
theorem settle_frame {p : ObjRef} {o : Outcome} {origin : Origin} {s s' : State}
    (h : settle p o origin s = .ok s') :
    s'.closures = s.closures ∧ s'.control = s.control ∧ s'.promiseCount = s.promiseCount ∧
      s'.storages = s.storages := by
  rcases settle_eq h with ⟨-, rfl⟩ | ⟨-, m, -, rfl⟩ <;> exact ⟨rfl, rfl, rfl, rfl⟩

theorem settle_outcome {p : ObjRef} {o : Outcome} {origin : Origin} {s s' : State}
    (h : settle p o origin s = .ok s') : (s'.promises p).outcome.isSome := by
  rcases settle_eq h with ⟨hset, rfl⟩ | ⟨hnone, m, -, rfl⟩
  · exact hset
  · simp [outcome_settled hnone]

/-- The closure `c` settles its promise `d` and is done. -/
theorem settle_finish_leads {r : Rules} {s : State} {c : ClosureId} {d : ObjRef} {o : Outcome}
    (hp : d < s.promiseCount) (hd : (s.closures c).promise = some d)
    (hv : Verdict (s.closures c) o) :
    Leads r s id (settle d o (.closure c) s >>= fun s => .ok (finish c s)) := by
  have hby : Settles s d o (.closure c) := ⟨hd, hv⟩
  apply Leads.bind (g := id) (settle_leads hp hby)
  intro t ht _
  have hclos := (settle_frame ht).1
  apply Leads.one
  apply Move.finish c d o
  · rw [id_eq, hclos]
    exact hd
  · rw [id_eq, hclos]
    exact hv
  · exact settle_outcome ht

theorem replied_self (c : ClosureId) (x : Reply) (s : State) :
    (replied c x s).closures c = {s.closures c with
      replies := (s.closures c).replies ++ [x], place := .replied} := by
  simp [replied, State.setClosure]

theorem settleReply_leads {r : Rules} {s : State} {c : ClosureId} {d : ObjRef} {x : Reply}
    {p : ObjRef} {o : Outcome} {rest : List ClosureId}
    (hctl : s.control = .dispatching p (some o) rest) (hplace : (s.closures c).place = .running)
    (hp : d < s.promiseCount) (hd : (s.closures c).promise = some d)
    (hserved : ∀ h, (s.closures c).chosen = some h → Served s h)
    (hx : ∀ q, x = .promise q → q < s.promiseCount ∧ r.attach (some p) q)
    (hfail : x = .failed → r.fail) : Leads r s id (settleReply c d x s) := by
  apply Leads.after (.reply c x p o rest hctl hplace hserved (fun q hq => (hx q hq).1) hfail)
  have hd' : ((replied c x s).closures c).promise = some d := by rw [replied_self, hd]
  have hplace' : ((replied c x s).closures c).place = .replied := by rw [replied_self]
  have hlast : ((replied c x s).closures c).replies.getLast? = some x := by simp [replied_self]
  cases x with
  | value v =>
      change Leads r (replied c (.value v) s) id
        (settle d (.resolved v) (.closure c) (replied c (.value v) s) >>= _)
      exact settle_finish_leads hp hd' (.inr ⟨hplace', .inr ⟨v, hlast, rfl⟩⟩)
  | threw e =>
      change Leads r (replied c (.threw e) s) id
        (settle d (.rejected e) (.closure c) (replied c (.threw e) s) >>= _)
      exact settle_finish_leads hp hd' (.inr ⟨hplace', .inl ⟨e, hlast, rfl⟩⟩)
  | failed => exact .one (.drop c hplace' hlast (hfail rfl))
  | promise q =>
      obtain ⟨hq, hr⟩ := hx q rfl
      have hdisp : (replied c (.promise q) s).control.dispatched = some p := by
        change s.control.dispatched = some p
        rw [hctl]
        rfl
      change Leads r (replied c (.promise q) s) id
        (diPromiseAddHandler q c (replied c (.promise q) s))
      cases hrun : diPromiseAddHandler q c (replied c (.promise q) s) with
      | error e => exact ⟨_, .refl, addHandler_fails hrun hq⟩
      | ok s' => exact .one (.follow q c hq hplace' hlast (hdisp ▸ hr) hrun)

/-- The closure once it has been called. -/
theorem hear_self (p : ObjRef) (o : Outcome) (c : ClosureId) (rest : List ClosureId) (s : State) :
    (hear p o c rest s).closures c = (s.closures c).hear p o := by
  simp [EventPromise.hear, State.setClosure, State.setPromise]

theorem hear_serving {s : State} {o : Outcome} {c : ClosureId} {h : Handler} (p : ObjRef)
    (rest : List ClosureId) (hh : (s.closures c).handlerFor o = some h) :
    Serving (hear p o c rest s) c h p o := by
  simp [Serving, hear_self, Closure.hear, hh]

/-- The built-in handler has settled the promise `ret`, and the closure goes on. -/
theorem serve_leads {r : Rules} {s : State} {c : ClosureId} {d : ObjRef} {h : Handler}
    {p : ObjRef} {o : Outcome} {rest : List ClosureId} {ret : ObjRef} {v : DiValue}
    {origin : Origin} (hctl : s.control = .dispatching p (some o) rest)
    (hserve : Serving s c h p o) (hp : d < s.promiseCount)
    (hd : (s.closures c).promise = some d) (hret : ret < s.promiseCount)
    (hby : Settles s ret (.resolved v) origin)
    (hserved : ∀ t : State, (t.promises ret).outcome.isSome → Served t h) :
    Leads r s id (settle ret (.resolved v) origin s >>= settleReply c d (.value .nil)) := by
  apply Leads.bind (g := id) (settle_leads hret hby)
  intro t ht _
  obtain ⟨hclos, hcontrol, hcount, -⟩ := settle_frame ht
  refine settleReply_leads (hcontrol.trans hctl) ?_ ?_ ?_ ?_ nofun nofun
  · rw [id_eq, hclos]
    exact hserve.1
  · rw [id_eq, hcount]
    exact hp
  · rw [id_eq, hclos]
    exact hd
  · intro h' hh'
    rw [id_eq, hclos, hserve.2.1] at hh'
    cases hh'
    exact hserved t (settle_outcome ht)

/-- The state after `di_promise_join_handler` has stored its result. -/
def stored (p : ObjRef) (o : Outcome) (c : ClosureId) (rest : List ClosureId) (i : ℕ)
    (st : StorageId) (left : ℤ) (s : State) : State :=
  (hear p o c rest s).setStorage st fun x => x.store i (variantArg o.value) left

theorem stored_self (p : ObjRef) (o : Outcome) (c : ClosureId) (rest : List ClosureId) (i : ℕ)
    (st : StorageId) (left : ℤ) (s : State) :
    (stored p o c rest i st left s).storages st =
      (s.storages st).store i (variantArg o.value) left := by
  simp [stored, State.setStorage, EventPromise.hear, State.setClosure, State.setPromise]

theorem join_leads {r : Rules} {s : State} {p : ObjRef} {o : Outcome} {c : ClosureId}
    {rest : List ClosureId} {i : ℕ} {st : StorageId} {ret d : ObjRef}
    (hat : AtJoin s c p o rest i st ret) (hp : d < s.promiseCount) (hret : ret < s.promiseCount)
    (hd : (s.closures c).promise = some d) :
    Leads r s id (diPromiseJoinHandler i st ret (variantArg o.value) (hear p o c rest s) >>=
      settleReply c d (.value .nil)) := by
  have hserve := hear_serving p rest hat.2
  have hd' : ((hear p o c rest s).closures c).promise = some d := by
    rw [hear_self]
    exact hd
  have hstorage : (hear p o c rest s).storages = s.storages := rfl
  unfold diPromiseJoinHandler
  simp only [hstorage]
  split_ifs with hitem
  · exact ⟨s, .refl, c, p, o, rest, i, st, ret, hat, hitem⟩
  · have hitem' : (s.storages st).items i = none := by simpa using hitem
    cases hleft : (s.storages st).left with
    | none => exact ⟨s, .refl, c, p, o, rest, i, st, ret, hat, hleft⟩
    | some left =>
        change Leads r s id ((if left - 1 = 0 then _ else .ok (stored p o c rest i st (left - 1) s)) >>= _)
        have hmove : Move r s (stored p o c rest i st (left - 1) s) :=
          .hearJoin p o c rest i st ret left hat hitem' hleft
        have hserve' : Serving (stored p o c rest i st (left - 1) s) c (.join i st ret) p o := hserve
        have hself := stored_self p o c rest i st (left - 1) s
        split_ifs with hzero
        · have hone : left = 1 := by omega
          have hzero' : ((stored p o c rest i st (left - 1) s).storages st).left = some 0 := by
            rw [hself, hone]
            rfl
          cases htotal : (s.storages st).total with
          | none =>
              refine ⟨s, .refl, c, p, o, rest, i, st, ret, hat, ?_, htotal⟩
              rw [hleft, hone]
          | some total =>
              have htotal' : ((stored p o c rest i st (left - 1) s).storages st).total = some total := by
                rw [hself]
                exact htotal
              have hstored : ((hear p o c rest s).setStorage st fun x => x.store i (variantArg o.value)
                  (left - 1)) = stored p o c rest i st (left - 1) s := rfl
              simp only [hstored]
              cases hvs : collect ((stored p o c rest i st (left - 1) s).storages st).items total with
              | none =>
                  rw [hself] at hvs
                  refine ⟨s, .refl, c, p, o, rest, i, st, ret, total, _, hat, hitem', ?_, htotal, hvs⟩
                  rw [hleft, hone]
              | some vs =>
                  apply Leads.after hmove
                  have hby : Settles (stored p o c rest i st (left - 1) s) ret
                      (.resolved (.tuple vs)) (.join st) :=
                    ⟨c, i, p, o, total, vs, hserve', hzero', htotal', hvs, rfl⟩
                  exact serve_leads rfl hserve' hp hd' hret hby fun t ht _ => ht
        · apply Leads.after hmove
          change Leads r _ id
            (settleReply c d (.value .nil) (stored p o c rest i st (left - 1) s))
          refine settleReply_leads rfl hserve'.1 hp hd' ?_ (fun q hq => by cases hq)
            (by rintro ⟨⟩)
          intro h' hh'
          rw [hserve'.2.1] at hh'
          cases hh'
          intro habs
          rw [hself] at habs
          exact absurd (Option.some.inj habs) hzero

theorem diPromiseHandlerClosure_leads {r : Rules} {s : State} {p : ObjRef} {o : Outcome}
    {c : ClosureId} {rest : List ClosureId} (hwf : WellFormed s)
    (hctl : s.control = .dispatching p (some o) (c :: rest)) :
    Leads r s id (diPromiseHandlerClosure p o c rest s) := by
  cases hd : (s.closures c).promise with
  | none =>
      simp only [diPromiseHandlerClosure, hd]
      exact ⟨s, .refl, p, o, c, rest, hctl, hd⟩
  | some d =>
      have hp : d < s.promiseCount := (hwf.closure c).promise d hd
      have hd' : ((hear p o c rest s).closures c).promise = some d := by
        rw [hear_self]
        exact hd
      cases hh : (s.closures c).handlerFor o with
      | none =>
          simp only [diPromiseHandlerClosure, hd, hh]
          apply Leads.after (.hear p o c rest hctl (by simp [hh]))
          refine settle_finish_leads (s := hear p o c rest s) hp hd' (.inl ⟨?_, p, ?_⟩)
          · simp [hear_self, Closure.hear, hh]
          · simp [hear_self, Closure.hear]
      | some h =>
          have hserve := hear_serving p rest hh
          have hv := (hwf.closure c).handlerFor o h hh
          cases h with
          | user f =>
              simp only [diPromiseHandlerClosure, hd, hh]
              apply Leads.after (.hear p o c rest hctl (by simp [hh]))
              exact .one (.call p o c d rest f rfl hserve hd')
          | any ret =>
              simp only [diPromiseHandlerClosure, hd, hh]
              apply Leads.after (.hear p o c rest hctl (by simp [hh]))
              have hby : Settles (hear p o c rest s) ret (.resolved (variantArg o.value)) .any :=
                ⟨c, p, o, hserve, rfl, rfl⟩
              exact serve_leads rfl hserve hp hd' hv hby fun t ht => ht
          | join i st ret =>
              simp only [diPromiseHandlerClosure, hd, hh]
              exact join_leads ⟨hctl, hh⟩ hp hv.1 hd

/-! ## Steps -/

/-- The promises an action adds a handler to. -/
def attachedTo (s : State) : Action → List ObjRef
  | .then p _ | .catch p _ | .finally p _ => [p]
  | .joinPromises ps | .anyPromise ps => ps
  | .handlerReturns x =>
      match classify s x with
      | .promise q => [q]
      | _ => []
  | _ => []

/-- The rules allow an action. -/
structure Allowed (r : Rules) (s : State) (a : Action) : Prop where
  attach : ∀ p ∈ attachedTo s a, r.attach s.control.dispatched p
  fail : a = .handlerReturns .failed → r.fail
  pop : a = .idleLoop → r.pop s

theorem classify_promise {s : State} {x : Return} {q : ObjRef} (h : classify s x = .promise q) :
    q < s.promiseCount := by
  unfold classify at h
  split at h
  · split_ifs at h with hq
    cases h
    exact hq
  all_goals cases h

theorem classify_failed {s : State} {x : Return} (h : classify s x = .failed) : x = .failed := by
  unfold classify at h
  split at h
  · split_ifs at h
  all_goals first | rfl | cases h

theorem handlerReturns_leads {r : Rules} {s : State} {p : ObjRef} {o : Outcome} {c : ClosureId}
    {d : ObjRef} {rest : List ClosureId} {x : Return} (hwf : WellFormed s)
    (hctl : s.control = .calling p o c d rest) (hok : Allowed r s (.handlerReturns x)) :
    Leads r s id (handlerReturns p o c d rest x s) := by
  obtain ⟨hd, f, hplace, hchosen, -⟩ := hwf.calling p o c d rest hctl
  apply Leads.after (.resume p o c d rest hctl)
  refine settleReply_leads (s := {s with control := .dispatching p (some o) rest}) rfl hplace
    ((hwf.closure c).promise d hd) hd ?_ ?_ ?_
  · intro h hh
    rw [hchosen] at hh
    cases hh
    trivial
  · intro q hq
    have hr := hok.attach q (by simp [attachedTo, hq])
    rw [hctl] at hr
    exact ⟨classify_promise hq, hr⟩
  · intro hx
    exact hok.fail (by rw [classify_failed hx])

theorem startHandlers_eq {s : State} {p : ObjRef} {o : Outcome}
    (ho : (s.promises p).outcome = some o) (n : ℕ) :
    startHandlers p {s with eventModule := s.eventModule.pop n} = takeHandlers p o n s := by
  simp [startHandlers, takeHandlers, ho, State.setPromise]

theorem idleLoop_leads {r : Rules} {s : State} (hwf : WellFormed s) (hctl : s.control = .idle)
    (hr : r.pop s) : Leads r s id (idleLoop s) := by
  unfold idleLoop
  split
  · rename_i hn
    exact ⟨s, .refl, hn⟩
  · rename_i hn
    exact .one (.exitIdle hctl hn)
  · rename_i n hn
    cases hp : s.eventModule.pendingPromise n with
    | none => exact ⟨s, .refl, hctl, n, hn, hp⟩
    | some p =>
        obtain ⟨o, ho⟩ := Option.isSome_iff_exists.mp (hwf.queued n p hp).2
        simp only [startHandlers_eq ho n]
        exact .one (.pop n p o hctl hn hp ho hr)

/-- A registration with handlers of user code. -/
theorem userThen_leads {r : Rules} {s : State} {p : ObjRef} {res rej : Option Handler}
    (hp : p < s.promiseCount) (hres : ∀ h, res = some h → ∃ f, h = .user f)
    (hrej : ∀ h, rej = some h → ∃ f, h = .user f) (hr : r.attach s.control.dispatched p) :
    Leads r s id ((diPromiseThenInner p res rej s).map (·.2)) := by
  refine Leads.map (thenInner_leads hp ?_ ?_ hrej hr) fun _ => rfl
  · intro h hh
    obtain ⟨f, rfl⟩ := hh.elim (hres h) (hrej h)
    trivial
  · intro h hh
    obtain ⟨f, rfl⟩ := hres h hh
    trivial

theorem some_user {f : ObjRef} : ∀ h, some (Handler.user f) = some h → ∃ g, h = .user g := by
  intro h hh
  exact ⟨f, (Option.some.inj hh).symm⟩

theorem exec_startIdle {s : State} {x : Except Check State} (h : exec .startIdle s = some x) :
    s.control = .outside ∧ x = .ok (startIdle s) := by
  obtain ⟨_, _, _, _, _, _, _, control, _, _⟩ := s
  cases control with
  | outside => exact ⟨rfl, (Option.some.inj (Option.ite_none_right_eq_some.mp h).2).symm⟩
  | _ => cases h

theorem exec_idleLoop {s : State} {x : Except Check State} (h : exec .idleLoop s = some x) :
    s.control = .idle ∧ x = idleLoop s := by
  obtain ⟨_, _, _, _, _, _, _, control, _, _⟩ := s
  cases control with
  | idle => exact ⟨rfl, (Option.some.inj h).symm⟩
  | _ => cases h

theorem exec_handlerReturns {s : State} {r : Return} {x : Except Check State}
    (h : exec (.handlerReturns r) s = some x) :
    ∃ p o c d rest, s.control = .calling p o c d rest ∧ x = handlerReturns p o c d rest r s := by
  obtain ⟨_, _, _, _, _, _, _, control, _, _⟩ := s
  cases control with
  | calling p o c d rest => exact ⟨p, o, c, d, rest, rfl, (Option.some.inj h).symm⟩
  | _ => cases h

theorem exec_callNext {s : State} {x : Except Check State} (h : exec .callNext s = some x) :
    ∃ p o c rest, s.control = .dispatching p (some o) (c :: rest) ∧
      x = diPromiseHandlerClosure p o c rest s := by
  obtain ⟨_, _, _, _, _, _, _, control, _, _⟩ := s
  cases control with
  | dispatching p o cs =>
      match o, cs with
      | some o, c :: rest => exact ⟨p, o, c, rest, rfl, (Option.some.inj h).symm⟩
      | some o, [] => cases h
      | none, _ => cases h
  | _ => cases h

theorem exec_endDispatch {s : State} {x : Except Check State} (h : exec .endDispatch s = some x) :
    ∃ p o, s.control = .dispatching p o [] ∧ x = .ok (endDispatch p s) := by
  obtain ⟨_, _, _, _, _, _, _, control, _, _⟩ := s
  cases control with
  | dispatching p o cs =>
      cases cs with
      | nil => exact ⟨p, o, rfl, (Option.some.inj h).symm⟩
      | cons c rest => cases h
  | _ => cases h

/-- A step does the moves of its action, up to a check that fails. -/
theorem exec_leads {r : Rules} {s : State} {a : Action} {x : Except Check State}
    (hwf : WellFormed s) (hexec : exec a s = some x) (hok : Allowed r s a) : Leads r s id x := by
  cases a with
  | newPromise =>
      cases hexec
      exact .one (.newPromise .plain nofun)
  | «then» p f =>
      simp only [exec, Option.ite_none_right_eq_some, Option.some.injEq] at hexec
      obtain ⟨hp, rfl⟩ := hexec
      exact userThen_leads hp some_user nofun (hok.attach p (by simp [attachedTo]))
  | «catch» p f =>
      simp only [exec, Option.ite_none_right_eq_some, Option.some.injEq] at hexec
      obtain ⟨hp, rfl⟩ := hexec
      exact userThen_leads hp nofun some_user (hok.attach p (by simp [attachedTo]))
  | «finally» p f =>
      simp only [exec, Option.ite_none_right_eq_some, Option.some.injEq] at hexec
      obtain ⟨hp, rfl⟩ := hexec
      exact userThen_leads hp some_user some_user (hok.attach p (by simp [attachedTo]))
  | resolve p v =>
      simp only [exec, Option.ite_none_right_eq_some, Option.some.injEq] at hexec
      obtain ⟨hp, rfl⟩ := hexec
      exact settle_leads hp trivial
  | reject p e =>
      simp only [exec, Option.ite_none_right_eq_some, Option.some.injEq] at hexec
      obtain ⟨hp, rfl⟩ := hexec
      exact settle_leads hp trivial
  | joinPromises ps =>
      simp only [exec, Option.ite_none_right_eq_some, Option.some.injEq] at hexec
      obtain ⟨hps, rfl⟩ := hexec
      exact (diJoinPromises_leads hwf hps hok.attach).map fun _ => rfl
  | anyPromise ps =>
      simp only [exec, Option.ite_none_right_eq_some, Option.some.injEq] at hexec
      obtain ⟨hps, rfl⟩ := hexec
      exact (diAnyPromise_leads hwf hps hok.attach).map fun _ => rfl
  | readyPromise v =>
      cases hexec
      exact (diReadyPromise_leads v s).map fun _ => rfl
  | startIdle =>
      obtain ⟨hctl, rfl⟩ := exec_startIdle hexec
      exact .one (.startIdle hctl)
  | idleLoop =>
      obtain ⟨hctl, rfl⟩ := exec_idleLoop hexec
      exact idleLoop_leads hwf hctl (hok.pop rfl)
  | callNext =>
      obtain ⟨p, o, c, rest, hctl, rfl⟩ := exec_callNext hexec
      exact diPromiseHandlerClosure_leads hwf hctl
  | handlerReturns ret =>
      obtain ⟨p, o, c, d, rest, hctl, rfl⟩ := exec_handlerReturns hexec
      exact handlerReturns_leads hwf hctl hok
  | endDispatch =>
      obtain ⟨p, o, hctl, rfl⟩ := exec_endDispatch hexec
      exact .one (.endDispatch p o hctl)

/-! ## Runs -/

/-- A run all of whose steps the rules allow. -/
def Run (r : Rules) : State → State → Prop :=
  ReflTransGen fun s s' => ∃ a, Allowed r s a ∧ Step s a s'

theorem allowed_all (s : State) (a : Action) : Allowed .all s a :=
  ⟨fun _ _ => trivial, fun _ => trivial, fun _ => trivial⟩

theorem Run.moves {r : Rules} {s s' : State} (hrun : Run r s s') (hwf : WellFormed s) :
    Moves r s s' := by
  induction hrun with
  | refl => exact .refl
  | tail _ hstep ih =>
      obtain ⟨a, hok, hexec⟩ := hstep
      exact ih.trans (exec_leads (ih.wellFormed hwf) hexec hok)

theorem Run.wellFormed {r : Rules} {s : State} (hrun : Run r {} s) : WellFormed s :=
  (hrun.moves wellFormed_init).wellFormed wellFormed_init

/-- What holds at first and is kept by every move holds after every sequence of
moves. -/
theorem moves_invariant {r : Rules} {P : State → Prop} (hinit : P {})
    (hmove : ∀ s s', WellFormed s → P s → Move r s s' → P s') {s : State} (h : Moves r {} s) :
    P s := by
  induction h with
  | refl => exact hinit
  | tail hmoves hnext ih => exact hmove _ _ (Moves.wellFormed hmoves wellFormed_init) ih hnext

theorem Run.invariant {r : Rules} {P : State → Prop} (hinit : P {})
    (hmove : ∀ s s', WellFormed s → P s → Move r s s' → P s') {s : State} (h : Run r {} s) :
    P s := moves_invariant hinit hmove (h.moves wellFormed_init)

/-- A check that fails in a run shows a state in which something is wrong. -/
theorem Run.fails {r : Rules} {s : State} {a : Action} {e : Check} (hrun : Run r {} s)
    (hok : Allowed r s a) (hexec : exec a s = some (.error e)) :
    ∃ s', Moves r {} s' ∧ Fails s' e := by
  have hmoves := hrun.moves wellFormed_init
  obtain ⟨s', hmore, hfail⟩ := exec_leads (hmoves.wellFormed wellFormed_init) hexec hok
  exact ⟨s', hmoves.trans hmore, hfail⟩

/-- The state after a list of actions, each of which passes the test `ok`. -/
def runWith (ok : State → Action → Bool) : List Action → State → Option State
  | [], s => some s
  | a :: as, s =>
      if ok s a then
        match exec a s with
        | some (.ok s') => runWith ok as s'
        | _ => none
      else none

def runAll : List Action → State → Option State := runWith fun _ _ => true

theorem run_of_runWith {r : Rules} {ok : State → Action → Bool}
    (hok : ∀ s a, ok s a → Allowed r s a) {l : List Action} {s s' : State}
    (h : runWith ok l s = some s') : Run r s s' := by
  induction l generalizing s with
  | nil =>
      cases h
      exact .refl
  | cons a as ih =>
      unfold runWith at h
      split_ifs at h with ha
      split at h
      · rename_i t ht
        exact .head ⟨a, hok s a ha, ht⟩ (ih h)
      · cases h

theorem run_of_runAll {l : List Action} {s s' : State} (h : runAll l s = some s') :
    Run .all s s' := run_of_runWith (fun s a _ => allowed_all s a) h

end Deai.PromiseRuns
