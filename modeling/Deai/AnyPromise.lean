import Deai.DerivedPromise

/-!
# The promise that `any_promise` returns

Each input has a handler that resolves the returned promise, and the first handler
to be called wins. The handlers are called in the order in which the promises leave
the queue, which is last in, first out; so the value is that of the input resolved
first only if no input leaves the queue before one that was resolved earlier.
-/
namespace Deai.AnyPromise
open Value EventPromise PromiseSteps PromiseRuns PromiseCalls PromiseQueue PromiseHandlers
  PromiseChain PromiseTurns DerivedPromise Relation

/-- No input of the call `a` was resolved before `q`, and the value of `q` is not itself
a variant. -/
structure First (s : State) (a : AnyCall) (q : ObjRef) (v : DiValue) : Prop where
  plain : ∀ w, v ≠ .variant w
  le : ∀ q' ∈ a.inputs, ∀ v', (s.promises q').outcome = some (.resolved v') →
    (s.promises q).settledAt ≤ (s.promises q').settledAt

/-- A promise leaves the queue only when it is the first of the resolved inputs of every
call that has it as an input and is not settled. -/
def firstFirst : Rules where
  attach _ _ := True
  fail := True
  pop s := ∀ n p, s.eventModule.pendingCount = some (n + 1) →
    s.eventModule.pendingPromise n = some p → ∀ a ∈ s.anys, p ∈ a.inputs →
    (s.promises a.ret).outcome = none → ∀ v, (s.promises p).outcome = some (.resolved v) →
    First s a p v

theorem First.move {r : Rules} {s s' : State} (hwf : WellFormed s) (hdated : Dated s)
    (hmove : Move r s s') {a : AnyCall} {q : ObjRef} {v : DiValue}
    (hq : (s.promises q).outcome = some (.resolved v)) (h : First s a q v) : First s' a q v := by
  refine ⟨h.plain, ?_⟩
  intro q' hq' v' hv'
  have hsome : (s.promises q).outcome.isSome := by rw [hq]; rfl
  rw [(move_persists hwf hmove q).settledAt hsome]
  cases ho : (s.promises q').outcome with
  | some o =>
      have hsame := (move_persists hwf hmove q').outcome o ho
      rw [hv', Option.some.injEq] at hsame
      rw [(move_persists hwf hmove q').settledAt (by rw [ho]; rfl)]
      exact h.le q' hq' v' (by rw [ho, hsame])
  | none =>
      obtain ⟨origin, m, -, -, rfl⟩ := move_settles hwf hmove ho hv'
      simp only [Function.update_self, settledAt_settled]
      exact Nat.le_of_lt (hdated q hsome).1

/-! ## Clients that are about to be called -/

/-- The closure is in the array that is dispatched, or has been called. -/
def Busy (x : Closure) : Prop := x.place = .taken ∨ x.heard ≠ []

theorem move_busy {r : Rules} {s s' : State} (hchain : Chain s) (hmove : Move r s s')
    {c : ClosureId} (hc : c < s.closureCount) (hbusy : Busy (s'.closures c)) :
    Busy (s.closures c) ∨ ∃ n p, r.pop s ∧ s.eventModule.pendingCount = some (n + 1) ∧
      s.eventModule.pendingPromise n = some p ∧ (s.closures c).place = .waiting p := by
  rcases hbusy with htaken | hheard
  · rcases move_taken hmove htaken with hold | ⟨n, p, o, hr, hn, hp, hmem, -⟩
    · exact .inl (.inl hold)
    · exact .inr ⟨n, p, hr, hn, hp, (hchain.waiting p c).mp hmem⟩
  · rcases move_heard hchain hmove hc with hsame | ⟨htaken, -⟩
    · rw [hsame] at hheard
      exact .inl (.inr hheard)
    · exact .inl (.inl htaken)

/-- The source of a busy closure has been settled. -/
theorem Busy.source {s : State} (h : History s) {c : ClosureId} (hc : c < s.closureCount)
    (hbusy : Busy (s.closures c)) : (s.promises (s.closures c).source).outcome.isSome := by
  have hheard : (s.closures c).heard ≠ [] →
      (s.promises (s.closures c).source).outcome.isSome := by
    intro hne
    rcases tale_heard (h.chain.tale c hc) with hnil | ⟨o, l, hcons⟩
    · exact absurd hnil hne
    · have hmem : ((s.closures c).source, o) ∈ (s.closures c).heard := by simp [hcons]
      rw [h.heard_outcome hmem]
      rfl
  rcases hbusy with htaken | hne
  · rcases tale_taken htaken (h.chain.tale c hc) with hfresh | ⟨⟨o, f, ha⟩, -⟩
    · have hdisp := h.chain.awaited c htaken
      rw [hfresh.awaits, dispatched_eq] at hdisp
      obtain ⟨⟨p, o, rest⟩, hcur, hp⟩ := Option.map_eq_some_iff.mp hdisp
      cases hp
      obtain ⟨hsome, hout⟩ := h.ledger.outcome _ o rest hcur
      rw [hout]
      exact hsome
    · exact hheard (by rw [ha.heard]; nofun)
  · exact hheard hne

/-! ## The calls of `any_promise` -/

theorem move_anys {r : Rules} {s s' : State} (hmove : Move r s s') :
    s'.anys = s.anys ∨ ∃ ret ps first, (s.promises ret).role = .any ∧
      Clients s first ps (fun _ => .any ret) ∧
      (∀ c, (s.closures c).onResolve = some (.any ret) → first ≤ c) ∧
      s' = {s with anys := ⟨ret, ps, first⟩ :: s.anys} := by
  cases hmove with
  | register p c hp hc hplace hsource hat hduring hr hrun =>
      obtain ⟨m, -, rfl⟩ := addHandler_eq hrun
      exact .inl rfl
  | follow q c hq hplace hreply hr hrun =>
      obtain ⟨m, -, rfl⟩ := addHandler_eq hrun
      exact .inl rfl
  | settle p o origin hp hby hrun =>
      rcases settle_eq hrun with ⟨-, rfl⟩ | ⟨-, m, -, rfl⟩
      · exact .inl rfl
      · exact .inl rfl
  | recordAny ret ps first hret hnew hc honly =>
      exact .inr ⟨ret, ps, first, hret, hc, honly, rfl⟩
  | _ => exact .inl rfl

/-- A closure with a handler of `any_promise` is a client of the call. -/
theorem Clients.eq {s : State} (hwf : WellFormed s) {ret : ObjRef} {ps : List ObjRef}
    {first c : ClosureId} (hclients : Clients s first ps fun _ => .any ret)
    (honly : ∀ c, (s.closures c).onResolve = some (.any ret) → first ≤ c)
    (hc : (s.closures c).onResolve = some (.any ret)) :
    (s.closures c).source ∈ ps ∧ ¬ Busy (s.closures c) := by
  have hle := honly c hc
  have hlt := hwf.lt_of_onResolve hc
  rw [hclients.1] at hlt
  obtain ⟨i, rfl⟩ := Nat.exists_eq_add_of_le hle
  have hi : i < ps.length := Nat.lt_of_add_lt_add_left hlt
  have hwaits := hclients.2 i hi
  refine ⟨?_, ?_⟩
  · rw [hwaits.source]
    exact List.getElem_mem hi
  · intro hbusy
    rcases hbusy with htaken | hheard
    · rw [hwaits.place] at htaken
      cases htaken
    · exact hheard hwaits.heard

structure AnyCalls (s : State) : Prop where
  role : ∀ a ∈ s.anys, (s.promises a.ret).role = .any
  client : ∀ a ∈ s.anys, ∀ c, (s.closures c).onResolve = some (.any a.ret) →
    (s.closures c).source ∈ a.inputs
  heard : ∀ p, (s.promises p).outcome.isSome → (s.promises p).settledBy = some .any →
    ∃ c, (s.closures c).onResolve = some (.any p) ∧ (s.closures c).heard ≠ []
  first : ∀ a ∈ s.anys, (s.promises a.ret).outcome = none →
    ∀ c, (s.closures c).onResolve = some (.any a.ret) → Busy (s.closures c) →
    ∀ v, (s.promises (s.closures c).source).outcome = some (.resolved v) →
      First s a (s.closures c).source v
  result : ∀ a ∈ s.anys, ∀ o, (s.promises a.ret).outcome = some o →
    (s.promises a.ret).settledBy = some .any → ∃ q ∈ a.inputs, ∃ v,
      (s.promises q).outcome = some (.resolved v) ∧ o = .resolved v ∧ First s a q v

theorem anyCalls_init : AnyCalls {} := ⟨nofun, nofun, nofun, nofun, nofun⟩

/-- A handler of `any_promise` is on every closure from its birth. -/
theorem move_onResolve {r : Rules} {s s' : State} (hwf : WellFormed s) (hchain : Chain s)
    (hmove : Move r s s') {c : ClosureId} {ret : ObjRef}
    (hc : (s'.closures c).onResolve = some (.any ret)) :
    (c < s.closureCount ∧ (s.closures c).onResolve = some (.any ret) ∧
      (s'.closures c).source = (s.closures c).source) ∨
    (¬ Busy (s'.closures c) ∧ s'.anys = s.anys ∧ ∀ a ∈ s.anys, a.ret ≠ ret) := by
  by_cases hlt : c < s.closureCount
  · have hbirth := (move_turn hchain hmove hlt).sameBirth
    rw [hbirth.onResolve] at hc
    exact .inl ⟨hlt, hc, hbirth.source⟩
  · by_cases hlt' : c < s'.closureCount
    · obtain ⟨p, res, rej, hp, hres, -, rfl, rfl⟩ := move_birth hmove (Nat.le_of_not_lt hlt) hlt'
      rw [derive_closure p res rej s hp] at hc ⊢
      exact .inr ⟨fun hbusy => hbusy.elim nofun (absurd rfl), rfl, (hres _ hc).2⟩
    · rw [(hmove.wellFormed hwf).freshClosure c (Nat.le_of_not_lt hlt')] at hc
      cases hc

theorem variantArg_plain {v : DiValue} (h : ∀ w, v ≠ .variant w) : variantArg v = v := by
  cases v with
  | variant w => exact absurd rfl (h w)
  | _ => rfl

/-- The handler of `any_promise` that is running answers a resolved input. -/
theorem serving_any {s : State} (hwf : WellFormed s) (h : History s) {c : ClosureId}
    {ret q : ObjRef} {o : Outcome} (hserve : Serving s c (.any ret) q o) :
    (s.closures c).onResolve = some (.any ret) ∧ (s.closures c).source = q ∧
      (s.closures c).heard ≠ [] ∧
      ∃ v, o = .resolved v ∧ (s.promises q).outcome = some (.resolved v) := by
  obtain ⟨hc, hsource, hgiven, hheard⟩ := h.serving hwf hserve
  obtain ⟨⟨v, rfl⟩, hon⟩ := h.builtin hc hgiven nofun
  refine ⟨hon, hsource, by rw [hheard]; nofun, v, rfl, ?_⟩
  exact h.heard_outcome (c := c) (e := (q, .resolved v)) (by simp [hheard])

theorem AnyCalls.heard_move {r : Rules} {s s' : State} (hwf : WellFormed s) (h : History s)
    (hcalls : AnyCalls s) (hmove : Move r s s') {p : ObjRef}
    (hp : (s'.promises p).outcome.isSome) (hby : (s'.promises p).settledBy = some .any) :
    ∃ c, (s'.closures c).onResolve = some (.any p) ∧ (s'.closures c).heard ≠ [] := by
  have hkeep : ∀ c, (s.closures c).onResolve = some (.any p) → (s.closures c).heard ≠ [] →
      (s'.closures c).onResolve = some (.any p) ∧ (s'.closures c).heard ≠ [] := by
    intro c hon hheard
    have hc := hwf.lt_of_onResolve hon
    rw [(move_turn h.chain hmove hc).sameBirth.onResolve]
    refine ⟨hon, ?_⟩
    rcases move_heard h.chain hmove hc with hsame | ⟨-, e, happ⟩
    · rwa [hsame]
    · simp [happ]
  obtain ⟨o, ho'⟩ := Option.isSome_iff_exists.mp hp
  rcases move_settledBy hwf hmove ho' hby with ⟨ho, hby⟩ | ⟨-, -, ⟨c, q, o', hserve, -⟩, -⟩
  · obtain ⟨c, hon, hheard⟩ := hcalls.heard p (by rw [ho]; rfl) hby
    exact ⟨c, hkeep c hon hheard⟩
  · obtain ⟨hon, -, hheard, -⟩ := serving_any hwf h hserve
    exact ⟨c, hkeep c hon hheard⟩

/-- A client becomes busy when its source is the first of the resolved inputs. -/
theorem AnyCalls.first_move {s s' : State} (hwf : WellFormed s) (h : History s)
    (hcalls : AnyCalls s) (hmove : Move firstFirst s s') {a : AnyCall} (ha : a ∈ s.anys)
    (hnone : (s.promises a.ret).outcome = none) {c : ClosureId} (hc : c < s.closureCount)
    (hon : (s.closures c).onResolve = some (.any a.ret)) (hbusy : Busy (s'.closures c))
    {v : DiValue} (hv : (s'.promises (s.closures c).source).outcome = some (.resolved v)) :
    First s' a (s.closures c).source v := by
  have hback : (s.promises (s.closures c).source).outcome.isSome →
      (s.promises (s.closures c).source).outcome = some (.resolved v) := by
    intro hsome
    obtain ⟨o, ho⟩ := Option.isSome_iff_exists.mp hsome
    have hsame := (move_persists hwf hmove _).outcome o ho
    rw [hv, Option.some.injEq] at hsame
    rw [ho, hsame]
  have hold : Busy (s.closures c) → First s' a (s.closures c).source v := by
    intro hb
    have hv' := hback (hb.source h hc)
    exact (hcalls.first a ha hnone c hon hb v hv').move hwf h.dated hmove hv'
  rcases move_busy h.chain hmove hc hbusy with hb | ⟨n, p, hr, hn, hp, hplace⟩
  · exact hold hb
  · have htale := h.chain.tale c hc
    simp only [Tale, hplace] at htale
    obtain ⟨hawaits, hfresh | ⟨⟨o, f, hans⟩, -⟩⟩ := htale
    · rw [hfresh.awaits] at hawaits
      subst hawaits
      have hv' := hback (hwf.queued n _ hp).2
      exact (hr n _ hn hp a ha (hcalls.client a ha c hon) hnone v hv').move hwf h.dated hmove hv'
    · exact hold (.inr (by rw [hans.heard]; rintro ⟨⟩))

theorem AnyCalls.result_move {s s' : State} (hwf : WellFormed s) (h : History s)
    (hcalls : AnyCalls s) (hmove : Move firstFirst s s') {a : AnyCall} (ha : a ∈ s.anys)
    {o : Outcome} (ho' : (s'.promises a.ret).outcome = some o)
    (hby : (s'.promises a.ret).settledBy = some .any) : ∃ q ∈ a.inputs, ∃ v,
      (s'.promises q).outcome = some (.resolved v) ∧ o = .resolved v ∧ First s' a q v := by
  rcases move_settledBy hwf hmove ho' hby with ⟨ho, hby⟩ |
    ⟨ho, -, ⟨c, q, o', hserve, -, heq⟩, -⟩
  · obtain ⟨q, hq, v, hv, heq, hfirst⟩ := hcalls.result a ha o ho hby
    exact ⟨q, hq, v, (move_persists hwf hmove q).outcome _ hv, heq,
      hfirst.move hwf h.dated hmove hv⟩
  · obtain ⟨hon, rfl, hheard, v, rfl, hv⟩ := serving_any hwf h hserve
    have hfirst := hcalls.first a ha ho c hon (.inr hheard) v hv
    refine ⟨_, hcalls.client a ha c hon, v, (move_persists hwf hmove _).outcome _ hv, ?_,
      hfirst.move hwf h.dated hmove hv⟩
    rw [heq, Outcome.value, variantArg_plain hfirst.plain]

theorem AnyCalls.move {s s' : State} (hwf : WellFormed s) (h : History s) (hcalls : AnyCalls s)
    (hmove : Move firstFirst s s') : AnyCalls s' := by
  have hrole : ∀ p, (s.promises p).role = .any → (s'.promises p).role = .any := by
    intro p hp
    rw [move_role hmove (hwf.lt_of_role (by simp [hp])), hp]
  have hnone : ∀ p, (s'.promises p).outcome = none → (s.promises p).outcome = none := by
    intro p hp
    cases ho : (s.promises p).outcome with
    | none => rfl
    | some o =>
        rw [(move_persists hwf hmove p).outcome o ho] at hp
        cases hp
  rcases move_anys hmove with hsame | ⟨ret, ps, first, hret, hclients, honly, hs'⟩
  · refine ⟨?_, ?_, fun p => hcalls.heard_move hwf h hmove, ?_, ?_⟩
    all_goals
      rw [hsame]
    · exact fun a ha => hrole a.ret (hcalls.role a ha)
    · intro a ha c hc
      rcases move_onResolve hwf h.chain hmove hc with ⟨-, hon, hsource⟩ | ⟨-, -, hnew⟩
      · rw [hsource]
        exact hcalls.client a ha c hon
      · exact absurd rfl (hnew a ha)
    · intro a ha hout c hc hbusy v hv
      rcases move_onResolve hwf h.chain hmove hc with ⟨hlt, hon, hsource⟩ | ⟨hnot, -⟩
      · rw [hsource] at hv ⊢
        exact hcalls.first_move hwf h hmove ha (hnone _ hout) hlt hon hbusy hv
      · exact absurd hbusy hnot
    · exact fun a ha o ho hby => hcalls.result_move hwf h hmove ha ho hby
  · subst hs'
    refine ⟨?_, ?_, hcalls.heard, ?_, ?_⟩
    all_goals
      intro a ha
      rcases List.mem_cons.mp ha with rfl | hold
    · exact hret
    · exact hcalls.role a hold
    · exact fun c hc => (Clients.eq hwf hclients honly hc).1
    · exact hcalls.client a hold
    · exact fun _ c hc hbusy => absurd hbusy (Clients.eq hwf hclients honly hc).2
    · intro hout c hc hbusy v hv
      exact {hcalls.first a hold hout c hc hbusy v hv with}
    · intro o ho hby
      obtain ⟨c, hc, hheard⟩ := hcalls.heard ret (by rw [show _ = some o from ho]; rfl) hby
      exact absurd (.inr hheard) (Clients.eq hwf hclients honly hc).2
    · intro o ho hby
      obtain ⟨q, hq, v, hv, heq, hfirst⟩ := hcalls.result a hold o ho hby
      exact ⟨q, hq, v, hv, heq, {hfirst with}⟩

/-! ## The value -/

/-- `o` is the value of the input of `a` on which `resolve` was called first. -/
def FirstValue (s : State) (a : AnyCall) (o : Outcome) : Prop :=
  ∃ q ∈ a.inputs, ∃ v, (s.promises q).outcome = some (.resolved v) ∧ o = .resolved v ∧
    ∀ q' ∈ a.inputs, ∀ v', (s.promises q').outcome = some (.resolved v') →
      (s.promises q).settledAt ≤ (s.promises q').settledAt

/-- The promise that a call of `any_promise` returned stays as it is once it is settled;
and unless user code has settled it, it is resolved with the value of the input that was
resolved first. -/
theorem any_promise_first {s : State} (hrun : Run firstFirst {} s) {a : AnyCall}
    (ha : a ∈ s.anys) {o : Outcome} (ho : (s.promises a.ret).outcome = some o) :
    (∀ s', Run .all s s' → (s'.promises a.ret).outcome = some o) ∧
    ((s.promises a.ret).settledBy ≠ some .direct → FirstValue s a o) := by
  have hboth : History s ∧ AnyCalls s := by
    refine hrun.invariant (P := fun s => History s ∧ AnyCalls s)
      ⟨history_init, anyCalls_init⟩ ?_
    exact fun _ _ hwf h hmove => ⟨h.1.move hwf hmove, h.2.move hwf h.1 hmove⟩
  obtain ⟨h, hcalls⟩ := hboth
  refine ⟨?_, ?_⟩
  · intro s' hmore
    exact (moves_persist hrun.wellFormed (hmore.moves hrun.wellFormed) a.ret).outcome o ho
  · intro hdirect
    have hsome : (s.promises a.ret).outcome.isSome := by rw [ho]; rfl
    obtain ⟨origin, horigin⟩ := Option.isSome_iff_exists.mp (h.dated a.ret hsome).2
    have hfits := h.derivation.origin a.ret origin hsome horigin
    rw [hcalls.role a ha] at hfits
    cases origin with
    | direct => exact absurd horigin hdirect
    | closure c => cases hfits
    | join st => cases hfits
    | any =>
        obtain ⟨q, hq, v, hv, heq, hfirst⟩ := hcalls.result a ha o ho horigin
        exact ⟨q, hq, v, hv, heq, hfirst.le⟩

/-- The test for `First`. -/
def isFirst (s : State) (a : AnyCall) (p : ObjRef) : Bool :=
  match (s.promises p).outcome with
  | some (.resolved (.variant _)) => false
  | some (.resolved _) => a.inputs.all fun q =>
      match (s.promises q).outcome with
      | some (.resolved _) => (s.promises p).settledAt ≤ (s.promises q).settledAt
      | _ => true
  | _ => true

/-- The test for `firstFirst`. -/
def takesFirst (s : State) (act : Action) : Bool :=
  match act, s.eventModule.pendingCount with
  | .idleLoop, some (n + 1) => s.anys.all fun a => a.inputs.all fun p =>
      s.eventModule.pendingPromise n != some p || (s.promises a.ret).outcome.isSome ||
        isFirst s a p
  | _, _ => true

theorem first_of_isFirst {s : State} {a : AnyCall} {p : ObjRef} {v : DiValue}
    (h : isFirst s a p) (hv : (s.promises p).outcome = some (.resolved v)) : First s a p v := by
  unfold isFirst at h
  rw [hv] at h
  split at h
  · cases h
  · rename_i hplain heq
    cases heq
    refine ⟨fun w hw => hplain w (by rw [hw]), ?_⟩
    intro q hq v' hv'
    have hle := List.all_eq_true.mp h q hq
    rw [hv'] at hle
    simpa using hle
  · rename_i hno
    exact absurd rfl (hno v)

theorem allowed_firstFirst (s : State) (act : Action) (h : takesFirst s act) :
    Allowed firstFirst s act := by
  refine ⟨fun _ _ => trivial, fun _ => trivial, ?_⟩
  intro hact n p hn hp a ha hin hnone v hv
  subst hact
  simp only [takesFirst, hn, List.all_eq_true] at h
  have htest := h a ha p hin
  simp only [hp, hnone, bne_self_eq_false, Option.isSome_none, Bool.or_self, Bool.false_or]
    at htest
  exact first_of_isFirst htest hv

/-- The inputs 0 and 1 are resolved in turn, each before an idle callback. -/
def oneByOne : List Action :=
  [.newPromise, .newPromise, .anyPromise [1, 0], .resolve 0 (.int 1), .startIdle, .idleLoop,
    .callNext, .resolve 1 (.int 2), .endDispatch, .idleLoop, .callNext]

theorem any_promise_first_oneByOne :
    ∃ s, runWith takesFirst oneByOne {} = some s ∧
      (s.promises 2).outcome = some (.resolved (.int 1)) ∧
      FirstValue s ⟨2, [1, 0], 0⟩ (.resolved (.int 1)) := by
  refine ⟨_, rfl, rfl, ?_⟩
  have hrun : Run firstFirst {} _ := run_of_runWith allowed_firstFirst (l := oneByOne) rfl
  exact (any_promise_first hrun (a := ⟨2, [1, 0], 0⟩) (List.mem_cons_self ..) rfl).2 nofun

/-- The inputs 0 and 1 are resolved in turn before one idle callback. -/
def bothBefore : List Action :=
  [.newPromise, .newPromise, .anyPromise [0, 1], .resolve 0 (.int 1), .resolve 1 (.int 2),
    .startIdle, .idleLoop, .callNext]

/-- The promise 1 leaves the queue before the promise 0, and its value wins. -/
theorem any_promise_last :
    ∃ s, runAll bothBefore {} = some s ∧ ⟨2, [0, 1], 0⟩ ∈ s.anys ∧
      (s.promises 2).outcome = some (.resolved (.int 2)) ∧
      (s.promises 2).settledBy = some .any ∧
      ¬ FirstValue s ⟨2, [0, 1], 0⟩ (.resolved (.int 2)) := by
  refine ⟨_, rfl, List.mem_cons_self .., rfl, rfl, ?_⟩
  intro h
  obtain ⟨q, hq, v, hv, heq, hle⟩ := h
  cases heq
  have hle0 := hle 0 (List.mem_cons_self ..) (.int 1) rfl
  rcases List.mem_cons.mp hq with rfl | hq
  · cases hv
  · cases List.mem_singleton.mp hq
    exact absurd hle0 (by decide)

end Deai.AnyPromise
