import Deai.PromiseChain

/-!
# What a move does to one promise and to one closure

A settled promise stays as it was settled, and a closure goes from one place to the
next. What it was born with stays.
-/
namespace Deai.PromiseTurns
open Value EventPromise PromiseSteps PromiseRuns PromiseCalls PromiseQueue PromiseHandlers
  PromiseChain Relation

/-! ## What stays -/

/-- A settled promise stays as it was settled. -/
structure Persists (x y : Promise) : Prop where
  outcome : ∀ o, x.outcome = some o → y.outcome = some o
  settledBy : x.outcome.isSome → y.settledBy = x.settledBy
  settledAt : x.outcome.isSome → y.settledAt = x.settledAt
  called : ∀ e ∈ x.called, e ∈ y.called

theorem Persists.refl (x : Promise) : Persists x x :=
  ⟨fun _ => id, fun _ => rfl, fun _ => rfl, fun _ => id⟩

theorem Persists.trans {x y z : Promise} (h : Persists x y) (h' : Persists y z) : Persists x z where
  outcome o ho := h'.outcome o (h.outcome o ho)
  settledBy hx := by
    obtain ⟨o, ho⟩ := Option.isSome_iff_exists.mp hx
    rw [h'.settledBy (by rw [h.outcome o ho]; rfl), h.settledBy hx]
  settledAt hx := by
    obtain ⟨o, ho⟩ := Option.isSome_iff_exists.mp hx
    rw [h'.settledAt (by rw [h.outcome o ho]; rfl), h.settledAt hx]
  called e he := h'.called e (h.called e he)

theorem persists_update {s s' : State} {p : ObjRef} {x : Promise}
    (hprom : s'.promises = Function.update s.promises p x) (hx : Persists (s.promises p) x)
    (q : ObjRef) : Persists (s.promises q) (s'.promises q) := by
  rw [hprom]
  by_cases hq : q = p
  · subst hq
    simpa using hx
  · rw [Function.update_of_ne hq]
    exact .refl _

theorem move_persists {r : Rules} {s s' : State} (hwf : WellFormed s) (hmove : Move r s s')
    (q : ObjRef) : Persists (s.promises q) (s'.promises q) := by
  cases move_change hmove with
  | same hprom hcur hclock =>
      rw [hprom]
      exact .refl _
  | created x hx hprom hcur hclock =>
      refine persists_update hprom ?_ q
      rw [hwf.freshPromise s.promiseCount le_rfl]
      exact ⟨nofun, nofun, nofun, nofun⟩
  | listened p c hr hprom hcur hclock =>
      exact persists_update hprom ⟨fun _ => id, fun _ => rfl, fun _ => rfl, fun _ => id⟩ q
  | settled p o origin hnone hby hprom hcur hclock =>
      refine persists_update hprom ⟨?_, ?_, ?_, fun _ => id⟩ q
      all_goals
        rw [hnone]
        nofun
  | heard p o c rest hold hprom hcur hclock =>
      exact persists_update hprom ⟨fun _ => id, fun _ => rfl, fun _ => rfl,
        fun e he => List.mem_append_left _ he⟩ q
  | taken p o n hpop hn hp ho hold hprom hcur hclock =>
      exact persists_update hprom ⟨fun _ => id, fun _ => rfl, fun _ => rfl, fun _ => id⟩ q
  | ended p o hold hprom hcur hclock =>
      exact persists_update hprom ⟨fun _ => id, fun _ => rfl, fun _ => rfl, fun _ => id⟩ q

theorem moves_persist {r : Rules} {s s' : State} (hwf : WellFormed s) (hmoves : Moves r s s')
    (q : ObjRef) : Persists (s.promises q) (s'.promises q) := by
  induction hmoves with
  | refl => exact .refl _
  | tail hmoves hmove ih =>
      exact ih.trans (move_persists (Moves.wellFormed hmoves hwf) hmove q)

/-- Settled promises were settled in the past, by someone. -/
def Dated (s : State) : Prop :=
  ∀ p, (s.promises p).outcome.isSome →
    (s.promises p).settledAt < s.clock ∧ (s.promises p).settledBy.isSome

theorem Dated.update {s s' : State} (h : Dated s) {p : ObjRef} {x : Promise}
    (hprom : s'.promises = Function.update s.promises p x) (hclock : s.clock ≤ s'.clock)
    (hx : x.outcome.isSome → x.settledAt < s'.clock ∧ x.settledBy.isSome) : Dated s' := by
  intro q hq
  rw [hprom] at hq ⊢
  by_cases hqp : q = p
  · subst hqp
    rw [Function.update_self] at hq ⊢
    exact hx hq
  · rw [Function.update_of_ne hqp] at hq ⊢
    exact ⟨Nat.lt_of_lt_of_le (h q hq).1 hclock, (h q hq).2⟩

theorem Dated.move {r : Rules} {s s' : State} (h : Dated s) (hmove : Move r s s') : Dated s' := by
  cases move_change hmove with
  | same hprom hcur hclock =>
      intro q hq
      rw [hprom] at hq ⊢
      rw [hclock]
      exact h q hq
  | created x hx hprom hcur hclock =>
      exact h.update hprom (le_of_eq hclock.symm) (by rw [hx.outcome]; nofun)
  | listened p c hr hprom hcur hclock =>
      exact h.update hprom (le_of_eq hclock.symm) (hclock ▸ h p)
  | settled p o origin hnone hby hprom hcur hclock =>
      exact h.update hprom (by omega) fun _ => ⟨hclock ▸ Nat.lt_succ_self s.clock, rfl⟩
  | heard p o c rest hold hprom hcur hclock =>
      exact h.update hprom (le_of_eq hclock.symm) (hclock ▸ h p)
  | taken p o n hpop hn hp ho hold hprom hcur hclock =>
      exact h.update hprom (le_of_eq hclock.symm) (hclock ▸ h p)
  | ended p o hold hprom hcur hclock =>
      exact h.update hprom (le_of_eq hclock.symm) (hclock ▸ h p)

/-! ## What a move does to one closure -/

/-- The next value of the closure `c`, in the state `s'`. -/
inductive Turn (s s' : State) (c : ClosureId) : Closure → Prop where
  | same : Turn s s' c (s.closures c)
  | placed (pl : Place) (hold : (s.closures c).place ≠ .finished)
      (hnot : ∀ o, ¬ Verdict (s.closures c) o) (hpl : pl ≠ .finished) (hnew : pl ≠ .detached)
      (hrun : (s.closures c).place ≠ .running) : Turn s s' c {s.closures c with place := pl}
  | heard (p : ObjRef) (o : Outcome) (rest : List ClosureId)
      (hctl : s.control = .dispatching p (some o) (c :: rest))
      (hcalled : (c, o) ∈ (s'.promises p).called)
      (hstored : ∀ i st ret, (s.closures c).handlerFor o = some (.join i st ret) →
        s'.storages st ≠ s.storages st) : Turn s s' c ((s.closures c).hear p o)
  | replied (x : Reply) (hplace : (s.closures c).place = .running)
      (hserved : ∀ h, (s.closures c).chosen = some h → Served s h) :
      Turn s s' c {s.closures c with replies := (s.closures c).replies ++ [x], place := .replied}
  | finished (d : ObjRef) (o : Outcome) (hd : (s.closures c).promise = some d)
      (hv : Verdict (s.closures c) o) (ho : (s.promises d).outcome.isSome) :
      Turn s s' c {s.closures c with promise := none, place := .finished}

theorem turn_update {s s' : State} {c : ClosureId} {x : Closure} (hx : Turn s s' c x)
    (c' : ClosureId) : Turn s s' c' (Function.update s.closures c x c') := by
  by_cases hc : c' = c
  · subst hc
    simpa using hx
  · rw [Function.update_of_ne hc]
    exact .same

theorem not_verdict {x : Closure} (h : x.place ≠ .passing) (h' : x.place ≠ .replied)
    (o : Outcome) : ¬ Verdict x o := by
  intro hv
  rcases hv with ⟨hpl, -⟩ | ⟨hpl, -⟩
  · exact h hpl
  · exact h' hpl

theorem not_verdict_of_reply {x : Closure} {y : Reply} (hplace : x.place = .replied)
    (hlast : x.replies.getLast? = some y) (hy : ∀ e, y ≠ .threw e) (hy' : ∀ v, y ≠ .value v)
    (o : Outcome) : ¬ Verdict x o := by
  intro hv
  rcases hv with ⟨hpl, -⟩ | ⟨-, ⟨e, he, -⟩ | ⟨v, hv, -⟩⟩
  · cases hplace.symm.trans hpl
  · exact hy e (Option.some.inj (hlast.symm.trans he))
  · exact hy' v (Option.some.inj (hlast.symm.trans hv))

theorem called_hear (p : ObjRef) (o : Outcome) (c : ClosureId) (rest : List ClosureId)
    (s : State) : (c, o) ∈ ((hear p o c rest s).promises p).called := by
  simp [EventPromise.hear, State.setClosure, State.setPromise]

theorem move_turn {r : Rules} {s s' : State} (hchain : Chain s) (hmove : Move r s s')
    {c : ClosureId} (hc : c < s.closureCount) : Turn s s' c (s'.closures c) := by
  cases hmove with
  | derive p res rej hp hvalid hres hrej =>
      have hsame : (derive p res rej s).closures c = s.closures c :=
        Function.update_of_ne (Nat.ne_of_lt hc) _ _
      rw [hsame]
      exact .same
  | register p c' hp hc' hplace hsource hat hduring hr hrun =>
      obtain ⟨m, -, rfl⟩ := addHandler_eq hrun
      exact turn_update (.placed (.waiting p) (by simp [hplace])
        (not_verdict (by simp [hplace]) (by simp [hplace])) (by rintro ⟨⟩) (by rintro ⟨⟩)
        (by simp [hplace])) c
  | follow q c' hq hplace hreply hr hrun =>
      obtain ⟨m, -, rfl⟩ := addHandler_eq hrun
      exact turn_update (.placed (.waiting q) (by simp [hplace])
        (not_verdict_of_reply hplace hreply (fun e he => by cases he) fun v hv => by cases hv)
        (by rintro ⟨⟩) (by rintro ⟨⟩) (by simp [hplace])) c
  | settle p o origin hp hby hrun =>
      rw [(settle_frame hrun).1]
      exact .same
  | hear p o c' rest hctl hother =>
      exact turn_update (.heard p o rest hctl (called_hear p o c' rest s)
        fun i st ret hh => absurd hh (hother i st ret)) c
  | hearJoin p o c' rest i st ret left hat hi hleft =>
      refine turn_update (.heard p o rest hat.1 ?_ ?_) c
      · exact called_hear p o c' rest s
      · intro i' st' ret' hh hsame
        cases hat.2.symm.trans hh
        have hitem := congrArg (·.items i) hsame
        simp [State.setStorage, Storage.store, hi] at hitem
  | reply c' x p o rest hctl hplace hserved hx hfail => exact turn_update (.replied x hplace hserved) c
  | finish c' d o hd hv ho => exact turn_update (.finished d o hd hv ho) c
  | drop c' hplace hreply hfail =>
      exact turn_update (.placed .dropped (by simp [hplace])
        (not_verdict_of_reply hplace hreply (fun e he => by cases he) fun v hv => by cases hv)
        (by rintro ⟨⟩) (by rintro ⟨⟩) (by simp [hplace])) c
  | pop n p o hctl hn hp ho hr =>
      by_cases hmem : c ∈ (s.promises p).handlers
      · have hplace := (hchain.waiting p c).mp hmem
        have hself : (takeHandlers p o n s).closures c = {s.closures c with place := .taken} :=
          if_pos hmem
        rw [hself]
        exact .placed .taken (by simp [hplace])
          (not_verdict (by simp [hplace]) (by simp [hplace])) (by rintro ⟨⟩) (by rintro ⟨⟩)
          (by simp [hplace])
      · have hself : (takeHandlers p o n s).closures c = s.closures c := if_neg hmem
        rw [hself]
        exact .same
  | _ => exact .same

/-- A closure comes into the array when its promise leaves the queue. -/
theorem move_taken {r : Rules} {s s' : State} (hmove : Move r s s') {c : ClosureId}
    (hc : (s'.closures c).place = .taken) : (s.closures c).place = .taken ∨
      ∃ n p o, r.pop s ∧ s.eventModule.pendingCount = some (n + 1) ∧
        s.eventModule.pendingPromise n = some p ∧ c ∈ (s.promises p).handlers ∧
        s' = takeHandlers p o n s := by
  have hupdate : ∀ {c' : ClosureId} {x : Closure}, (Function.update s.closures c' x c).place =
      .taken → x.place ≠ .taken → (s.closures c).place = .taken := by
    intro c' x hplace hx
    by_cases hcc : c = c'
    · subst hcc
      rw [Function.update_self] at hplace
      exact absurd hplace hx
    · rwa [Function.update_of_ne hcc] at hplace
  have hhear : ∀ (x : Closure) (p : ObjRef) (o : Outcome), (x.hear p o).place ≠ .taken := by
    intro x p o
    cases hh : x.handlerFor o <;> simp [Closure.hear, hh]
  cases hmove with
  | derive p res rej hp hvalid hres hrej => exact .inl (hupdate hc (by rintro ⟨⟩))
  | register p c' hp hc' hplace hsource hat hduring hr hrun =>
      obtain ⟨m, -, rfl⟩ := addHandler_eq hrun
      exact .inl (hupdate hc (by rintro ⟨⟩))
  | follow q c' hq hplace hreply hr hrun =>
      obtain ⟨m, -, rfl⟩ := addHandler_eq hrun
      exact .inl (hupdate hc (by rintro ⟨⟩))
  | settle p o origin hp hby hrun =>
      rw [(settle_frame hrun).1] at hc
      exact .inl hc
  | hear p o c' rest hctl hother => exact .inl (hupdate hc (hhear _ p o))
  | hearJoin p o c' rest i st ret left hat hi hleft => exact .inl (hupdate hc (hhear _ p o))
  | reply c' x p o rest hctl hplace hserved hx hfail => exact .inl (hupdate hc (by rintro ⟨⟩))
  | finish c' d o hd hv ho => exact .inl (hupdate hc (by rintro ⟨⟩))
  | drop c' hplace hreply hfail => exact .inl (hupdate hc (by rintro ⟨⟩))
  | pop n p o hctl hn hp ho hr =>
      by_cases hmem : c ∈ (s.promises p).handlers
      · exact .inr ⟨n, p, o, hr, hn, hp, hmem, rfl⟩
      · have hself : (takeHandlers p o n s).closures c = s.closures c := if_neg hmem
        rw [hself] at hc
        exact .inl hc
  | _ => exact .inl hc

/-- What a closure has heard stays, and only a closure of the array hears more. -/
theorem move_heard {r : Rules} {s s' : State} (hchain : Chain s) (hmove : Move r s s')
    {c : ClosureId} (hc : c < s.closureCount) :
    (s'.closures c).heard = (s.closures c).heard ∨ ((s.closures c).place = .taken ∧
      ∃ e, (s'.closures c).heard = (s.closures c).heard ++ [e]) := by
  have hturn := move_turn hchain hmove hc
  generalize s'.closures c = x at hturn ⊢
  cases hturn with
  | same | placed | replied | finished => exact .inl rfl
  | heard p o rest hctl hcalled =>
      exact .inr ⟨(hchain.taken c).mp (by simp [hctl, Control.rest]), (p, o), rfl⟩

/-- What a closure is born with. -/
structure SameBirth (x y : Closure) : Prop where
  source : y.source = x.source
  target : y.target = x.target
  onResolve : y.onResolve = x.onResolve
  onReject : y.onReject = x.onReject
  bornAt : y.bornAt = x.bornAt
  bornDuring : y.bornDuring = x.bornDuring

theorem Turn.sameBirth {s s' : State} {c : ClosureId} {x : Closure} (h : Turn s s' c x) :
    SameBirth (s.closures c) x := by
  cases h <;> exact ⟨rfl, rfl, rfl, rfl, rfl, rfl⟩

theorem SameBirth.given {x y : Closure} (h : SameBirth x y) (o : Outcome) :
    given y o = given x o := by
  cases o with
  | resolved v => exact h.onResolve
  | rejected e => exact h.onReject

/-- Only `derive` makes closures. -/
theorem move_birth {r : Rules} {s s' : State} (hmove : Move r s s') {c : ClosureId}
    (hge : s.closureCount ≤ c) (hlt : c < s'.closureCount) :
    ∃ p res rej, p < s.promiseCount ∧ (∀ h, res = some h → Registrable s h) ∧
      (∀ h, rej = some h → ∃ f, h = .user f) ∧ s' = derive p res rej s ∧ c = s.closureCount := by
  have hno : s'.closureCount = s.closureCount → False := by
    intro hcount
    rw [hcount] at hlt
    exact Nat.lt_irrefl _ (Nat.lt_of_lt_of_le hlt hge)
  cases hmove with
  | derive p res rej hp hvalid hres hrej =>
      exact ⟨p, res, rej, hp, hres, hrej, rfl, Nat.le_antisymm (Nat.le_of_lt_succ hlt) hge⟩
  | register p c' hp hc' hplace hsource hat hduring hr hrun =>
      obtain ⟨m, -, rfl⟩ := addHandler_eq hrun
      exact absurd rfl hno
  | follow q c' hq hplace hreply hr hrun =>
      obtain ⟨m, -, rfl⟩ := addHandler_eq hrun
      exact absurd rfl hno
  | settle p o origin hp hby hrun =>
      rcases settle_eq hrun with ⟨-, rfl⟩ | ⟨-, m, -, rfl⟩
      · exact absurd rfl hno
      · exact absurd rfl hno
  | _ => exact absurd rfl hno

theorem role_update {f : ObjRef → Promise} {p : ObjRef} {x : Promise} (hx : x.role = (f p).role)
    (q : ObjRef) : (Function.update f p x q).role = (f q).role := by
  by_cases hq : q = p
  · subst hq
    simpa using hx
  · rw [Function.update_of_ne hq]

/-- A promise keeps the role it was created with, and is a derived one only if
`derive` has made it. -/
theorem move_role_cases {r : Rules} {s s' : State} (hmove : Move r s s') :
    (∀ q, (s'.promises q).role = (s.promises q).role) ∨
    (∃ x : Promise, (∀ c, x.role ≠ .derived c) ∧
      s'.promises = Function.update s.promises s.promiseCount x) ∨
    ∃ p res rej, p < s.promiseCount ∧ s' = derive p res rej s := by
  cases hmove with
  | newPromise role hrole => exact .inr (.inl ⟨_, hrole, rfl⟩)
  | derive p res rej hp hvalid hres hrej => exact .inr (.inr ⟨p, res, rej, hp, rfl⟩)
  | register p c hp hc hplace hsource hat hduring hr hrun =>
      obtain ⟨m, -, rfl⟩ := addHandler_eq hrun
      exact .inl (role_update rfl)
  | follow q c hq hplace hreply hr hrun =>
      obtain ⟨m, -, rfl⟩ := addHandler_eq hrun
      exact .inl (role_update rfl)
  | settle p o origin hp hby hrun =>
      rcases settle_eq hrun with ⟨-, rfl⟩ | ⟨-, m, -, rfl⟩
      · exact .inl fun _ => rfl
      · exact .inl (role_update rfl)
  | hear p o c rest hctl hother => exact .inl (role_update rfl)
  | hearJoin p o c rest i st ret left hat hi hleft => exact .inl (role_update rfl)
  | pop n p o hctl hn hp ho hr => exact .inl (role_update rfl)
  | endDispatch p o hctl => exact .inl (role_update rfl)
  | _ => exact .inl fun _ => rfl

theorem derive_role (p : ObjRef) (res rej : Option Handler) (s : State) :
    ((derive p res rej s).promises s.promiseCount).role = .derived s.closureCount :=
  newPromise_role _ s

theorem move_role {r : Rules} {s s' : State} (hmove : Move r s s') {q : ObjRef}
    (hq : q < s.promiseCount) : (s'.promises q).role = (s.promises q).role := by
  have hne : q ≠ s.promiseCount := Nat.ne_of_lt hq
  rcases move_role_cases hmove with hsame | ⟨x, -, hprom⟩ | ⟨p, res, rej, -, rfl⟩
  · exact hsame q
  · rw [hprom, Function.update_of_ne hne]
  · rw [derive_promise res rej hq]

theorem move_newRole {r : Rules} {s s' : State} (hwf : WellFormed s) (hmove : Move r s s')
    {q : ObjRef} {c : ClosureId} (hq : s.promiseCount ≤ q)
    (hrole : (s'.promises q).role = .derived c) :
    ∃ p res rej, p < s.promiseCount ∧ s' = derive p res rej s ∧ q = s.promiseCount ∧
      c = s.closureCount := by
  have hplain : (s.promises q).role = .plain := by rw [hwf.freshPromise q hq]
  rcases move_role_cases hmove with hsame | ⟨x, hx, hprom⟩ | ⟨p, res, rej, hp, rfl⟩
  · rw [hsame, hplain] at hrole
    cases hrole
  · by_cases heq : q = s.promiseCount
    · rw [hprom, heq, Function.update_self] at hrole
      exact absurd hrole (hx c)
    · rw [hprom, Function.update_of_ne heq, hplain] at hrole
      cases hrole
  · by_cases heq : q = s.promiseCount
    · subst heq
      rw [derive_role] at hrole
      cases hrole
      exact ⟨p, res, rej, hp, rfl, rfl, rfl⟩
    · have hsame : (derive p res rej s).promises q = s.promises q :=
        Function.update_of_ne heq _ _
      rw [hsame, hplain] at hrole
      cases hrole

theorem move_counts {r : Rules} {s s' : State} (hmove : Move r s s') :
    s.closureCount ≤ s'.closureCount ∧ s.promiseCount ≤ s'.promiseCount := by
  cases hmove with
  | newPromise role hrole => exact ⟨le_rfl, Nat.le_succ _⟩
  | derive p res rej hp hvalid hres hrej => exact ⟨Nat.le_succ _, Nat.le_succ _⟩
  | register p c hp hc hplace hsource hat hduring hr hrun =>
      obtain ⟨m, -, rfl⟩ := addHandler_eq hrun
      exact ⟨le_rfl, le_rfl⟩
  | follow q c hq hplace hreply hr hrun =>
      obtain ⟨m, -, rfl⟩ := addHandler_eq hrun
      exact ⟨le_rfl, le_rfl⟩
  | settle p o origin hp hby hrun =>
      rcases settle_eq hrun with ⟨-, rfl⟩ | ⟨-, m, -, rfl⟩ <;> exact ⟨le_rfl, le_rfl⟩
  | _ => exact ⟨le_rfl, le_rfl⟩

theorem outcome_update {f : ObjRef → Promise} {p : ObjRef} {x : Promise}
    (hx : x.outcome = (f p).outcome) (q : ObjRef) :
    (Function.update f p x q).outcome = (f q).outcome := by
  by_cases hq : q = p
  · subst hq
    simpa using hx
  · rw [Function.update_of_ne hq]

/-- A promise becomes settled in one way only. -/
theorem move_settles {r : Rules} {s s' : State} (hwf : WellFormed s) (hmove : Move r s s')
    {d : ObjRef} {o : Outcome} (hnone : (s.promises d).outcome = none)
    (hsome : (s'.promises d).outcome = some o) :
    ∃ origin m, d < s.promiseCount ∧ Settles s d o origin ∧ s' = {s with
      promises := Function.update s.promises d (settled (s.promises d) o origin s.clock)
      eventModule := m
      clock := s.clock + 1} := by
  have hno : (s'.promises d).outcome = (s.promises d).outcome → False := by
    intro heq
    rw [hsome, hnone] at heq
    cases heq
  have hupdate : ∀ {p : ObjRef} {x : Promise}, s'.promises = Function.update s.promises p x →
      x.outcome = (s.promises p).outcome → False := by
    intro p x hprom hx
    apply hno
    rw [hprom]
    exact outcome_update hx d
  cases hmove with
  | settle p o' origin hp hby hrun =>
      rcases settle_eq hrun with ⟨-, rfl⟩ | ⟨hpnone, m, hm, rfl⟩
      · exact absurd rfl hno
      · by_cases hdp : d = p
        · subst hdp
          simp only [Function.update_self, outcome_settled hpnone, Option.some.injEq] at hsome
          subst hsome
          exact ⟨origin, m, hp, hby, rfl⟩
        · exact (hno (congrArg Promise.outcome (Function.update_of_ne hdp _ _))).elim
  | newPromise role hrole =>
      exact (hupdate rfl (by rw [hwf.freshPromise _ le_rfl]; rfl)).elim
  | derive p res rej hp hvalid hres hrej =>
      exact (hupdate rfl (by rw [hwf.freshPromise _ le_rfl]; rfl)).elim
  | register p c hp hc hplace hsource hat hduring hr hrun =>
      obtain ⟨m, -, rfl⟩ := addHandler_eq hrun
      exact (hupdate rfl rfl).elim
  | follow q c hq hplace hreply hr hrun =>
      obtain ⟨m, -, rfl⟩ := addHandler_eq hrun
      exact (hupdate rfl rfl).elim
  | hear p o' c rest hctl hother => exact (hupdate rfl rfl).elim
  | hearJoin p o' c rest i st ret left hat hi hleft => exact (hupdate rfl rfl).elim
  | pop n p o' hctl hn hp ho hr => exact (hupdate rfl rfl).elim
  | endDispatch p o' hctl => exact (hupdate rfl rfl).elim
  | _ => exact absurd rfl hno

/-- What has settled a promise after a move has settled it before, or it does so in the move. -/
theorem move_settledBy {r : Rules} {s s' : State} (hwf : WellFormed s) (hmove : Move r s s')
    {d : ObjRef} {o : Outcome} {origin : Origin} (ho : (s'.promises d).outcome = some o)
    (hby : (s'.promises d).settledBy = some origin) :
    (s.promises d).outcome = some o ∧ (s.promises d).settledBy = some origin ∨
      (s.promises d).outcome = none ∧ d < s.promiseCount ∧ Settles s d o origin ∧
        ∃ m, s' = {s with
          promises := Function.update s.promises d (settled (s.promises d) o origin s.clock)
          eventModule := m
          clock := s.clock + 1} := by
  cases hold : (s.promises d).outcome with
  | some o₀ =>
      have hpersist := move_persists hwf hmove d
      have hsame := hpersist.outcome o₀ hold
      rw [hpersist.settledBy (by rw [hold]; rfl)] at hby
      exact .inl ⟨hsame.symm.trans ho, hby⟩
  | none =>
      obtain ⟨origin', m, hlt, hset, rfl⟩ := move_settles hwf hmove hold ho
      simp only [Function.update_self, settledBy_settled, Option.some.injEq] at hby
      subst hby
      exact .inr ⟨rfl, hlt, hset, m, rfl⟩

end Deai.PromiseTurns
