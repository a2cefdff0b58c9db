import Deai.DerivedPromise

/-!
# The promise that `join_promises` returns

The storage object of a call counts down the results that are missing. Its handlers
are registered before the counters are set, and none of them runs in between.
-/
namespace Deai.JoinPromises
open Fallible Value EventPromise PromiseSteps PromiseRuns PromiseCalls PromiseQueue PromiseHandlers
  PromiseChain PromiseTurns DerivedPromise Relation

/-! ## The storage object of one call -/

/-- The inputs without a result. -/
def missing (x : Storage) : Finset ℕ :=
  {i ∈ Finset.range x.inputs.length | (x.items i).isNone}

theorem mem_missing {x : Storage} {i : ℕ} :
    i ∈ missing x ↔ i < x.inputs.length ∧ x.items i = none := by
  simp [missing]

theorem missing_store {x : Storage} {i : ℕ} (v : DiValue) (left : ℤ) :
    missing (x.store i v left) = (missing x).erase i := by
  ext j
  rw [Finset.mem_erase, mem_missing, mem_missing]
  by_cases hj : j = i
  · simp [Storage.store, hj]
  · simp [Storage.store, hj]

/-- The result that a client has been called with. -/
def said (x : Closure) : Option DiValue :=
  match x.heard.head? with
  | some (_, .resolved v) => some (variantArg v)
  | _ => none

/-- The closure was made for the input `p`. -/
structure IsClient (x : Closure) (p : ObjRef) (h : Handler) : Prop where
  source : x.source = p
  onResolve : x.onResolve = some h
  onReject : x.onReject = none
  place : x.place ≠ .detached

structure JoinCall (s : State) (st : StorageId) (x : Storage) : Prop where
  total : x.total = some (x.inputs.length : ℤ)
  nonempty : x.inputs ≠ []
  role : (s.promises x.ret).role = .join st
  client : ∀ i (hi : i < x.inputs.length),
    IsClient (s.closures (x.firstClient + i)) x.inputs[i] (.join i st x.ret)
  only : ∀ c i ret, (s.closures c).onResolve = some (.join i st ret) →
    i < x.inputs.length ∧ c = x.firstClient + i ∧ ret = x.ret
  item : ∀ i, i < x.inputs.length → x.items i = said (s.closures (x.firstClient + i))
  left : x.left = some ((missing x).card : ℤ)
  done : missing x = ∅ → (s.promises x.ret).outcome.isSome ∨
    ∃ c i, (s.closures c).place = .running ∧ (s.closures c).chosen = some (.join i st x.ret)
  value : ∀ o, (s.promises x.ret).outcome = some o →
    (s.promises x.ret).settledBy = some (.join st) → missing x = ∅ ∧
      ∃ vs, collect x.items x.inputs.length = some vs ∧ o = .resolved (.tuple vs)

/-- The storage object of a call that is still registering its handlers. -/
structure Unopened (s : State) (st : StorageId) (x : Storage) : Prop where
  left : x.left = none
  items : ∀ i, x.items i = none
  settledBy : ∀ p, (s.promises p).outcome.isSome → (s.promises p).settledBy ≠ some (.join st)

def Joins (s : State) : Prop :=
  ∀ st, (((s.storages st).total = none ∧ Unopened s st (s.storages st)) ∨
    JoinCall s st (s.storages st))

theorem joins_init : Joins {} :=
  fun _ => .inl ⟨rfl, rfl, fun _ => rfl, nofun⟩

/-- What a move does to a storage object. -/
theorem move_storage {r : Rules} {s s' : State} (hwf : WellFormed s) (hmove : Move r s s')
    (st : StorageId) : s'.storages st = s.storages st ∨
      (∃ c p o rest i ret left, AtJoin s c p o rest i st ret ∧ (s.storages st).items i = none ∧
        (s.storages st).left = some left ∧ s' = (hear p o c rest s).setStorage st fun x =>
          x.store i (variantArg o.value) (left - 1)) ∨
      ∃ ps ret first, (s.storages st).total = none ∧ (s.promises ret).role = .join st ∧
        Clients s first ps (fun i => .join i st ret) ∧
        (∀ c i ret', (s.closures c).onResolve = some (.join i st ret') → first ≤ c) ∧ ps ≠ [] ∧
        s' = s.setStorage st fun x => x.opened ps ret first := by
  cases hmove with
  | register p c hp hc hplace hsource hat hduring hr hrun =>
      obtain ⟨m, -, rfl⟩ := addHandler_eq hrun
      exact .inl rfl
  | follow q c hq hplace hreply hr hrun =>
      obtain ⟨m, -, rfl⟩ := addHandler_eq hrun
      exact .inl rfl
  | settle p o origin hp hby hrun =>
      rcases settle_eq hrun with ⟨-, rfl⟩ | ⟨-, m, -, rfl⟩
      · exact .inl rfl
      · exact .inl rfl
  | hearJoin p o c rest i st' ret left hat hi hleft =>
      by_cases hst : st = st'
      · subst hst
        exact .inr (.inl ⟨c, p, o, rest, i, ret, left, hat, hi, hleft, rfl⟩)
      · exact .inl (Function.update_of_ne hst _ _)
  | newStorage =>
      by_cases hst : st = s.storageCount
      · refine .inl ?_
        rw [hst, hwf.freshStorage _ le_rfl]
        exact Function.update_self ..
      · exact .inl (Function.update_of_ne hst _ _)
  | openStorage st' ps ret first hst' hnew hret hc honly hne =>
      by_cases hst : st = st'
      · subst hst
        exact .inr (.inr ⟨ps, ret, first, hnew, hret, hc, honly, hne, rfl⟩)
      · exact .inl (Function.update_of_ne hst _ _)
  | _ => exact .inl rfl

/-- What a client has said changes only with the storage object. -/
theorem move_said {r : Rules} {s s' : State} (hchain : Chain s) (hmove : Move r s s')
    {c : ClosureId} {i : ℕ} {st : StorageId} {ret : ObjRef} (hc : c < s.closureCount)
    (hon : (s.closures c).onResolve = some (.join i st ret))
    (hst : s'.storages st = s.storages st) : said (s'.closures c) = said (s.closures c) := by
  have hturn := move_turn hchain hmove hc
  generalize s'.closures c = x at hturn ⊢
  cases hturn with
  | same | placed | replied | finished => rfl
  | heard p o rest hctl hcalled hstored =>
      have htaken := (hchain.taken c).mp (by simp [hctl, Control.rest])
      rcases tale_taken htaken (hchain.tale c hc) with hfresh | ⟨⟨o', f, ha⟩, -⟩
      · cases o with
        | rejected e => simp [said, Closure.hear, hfresh.heard]
        | resolved v =>
            have hh : (s.closures c).handlerFor (.resolved v) = some (.join i st ret) :=
              hfresh.resolve.trans hon
            exact absurd hst (hstored i st ret hh)
      · simp [said, Closure.hear, ha.heard]

theorem IsClient.move {r : Rules} {s s' : State} (hchain : Chain s) (hmove : Move r s s')
    {c : ClosureId} {p : ObjRef} {h : Handler} (hc : c < s.closureCount)
    (hclient : IsClient (s.closures c) p h) : IsClient (s'.closures c) p h := by
  have hturn := move_turn hchain hmove hc
  have hbirth := hturn.sameBirth
  refine ⟨hbirth.source.trans hclient.source, hbirth.onResolve.trans hclient.onResolve,
    hbirth.onReject.trans hclient.onReject, ?_⟩
  generalize s'.closures c = x at hturn ⊢
  cases hturn with
  | same => exact hclient.place
  | placed pl hold hnot hpl hnew hrun => exact hnew
  | heard p o rest hctl hcalled hstored =>
      cases hh : (s.closures c).handlerFor o <;> simp [Closure.hear, hh]
  | replied | finished => rintro ⟨⟩

/-- A handler of `join_promises` is on every closure from its birth. -/
theorem move_onResolve {r : Rules} {s s' : State} (hwf : WellFormed s) (hchain : Chain s)
    (hmove : Move r s s') {c : ClosureId} {i : ℕ} {st : StorageId} {ret : ObjRef}
    (hc : (s'.closures c).onResolve = some (.join i st ret)) :
    (s.closures c).onResolve = some (.join i st ret) ∨ (s.storages st).total = none := by
  by_cases hlt : c < s.closureCount
  · rw [(move_turn hchain hmove hlt).sameBirth.onResolve] at hc
    exact .inl hc
  · have hlt' := (hmove.wellFormed hwf).lt_of_onResolve hc
    obtain ⟨p, res, rej, hp, hres, -, rfl, rfl⟩ := move_birth hmove (Nat.le_of_not_lt hlt) hlt'
    rw [derive_closure p res rej s hp] at hc
    exact .inr (hres _ hc).2

/-- The handler that is about to be called is that of an input with no result. -/
theorem JoinCall.at_join {s : State} {st : StorageId} (hwf : WellFormed s) (h : History s)
    (hcall : JoinCall s st (s.storages st)) {c : ClosureId} {p : ObjRef} {o : Outcome}
    {rest : List ClosureId} {i : ℕ} {ret : ObjRef} (hat : AtJoin s c p o rest i st ret) :
    (i < (s.storages st).inputs.length ∧ c = (s.storages st).firstClient + i ∧
      ret = (s.storages st).ret) ∧ (s.closures c).heard = [] ∧ ∃ v, o = .resolved v := by
  have htaken := (h.chain.taken c).mp (by simp [hat.1, Control.rest])
  have hc := hwf.lt_of_place (c := c) (by simp [htaken])
  rcases tale_taken htaken (h.chain.tale c hc) with hfresh | ⟨⟨o', f, ha⟩, -⟩
  · have hgiven := (hfresh.handlerFor o).symm.trans hat.2
    obtain ⟨hv, hon⟩ := h.builtin hc hgiven (fun f hf => by cases hf)
    exact ⟨hcall.only c i ret hon, hfresh.heard, hv⟩
  · rw [AtJoin, ha.handlerFor o] at hat
    cases hat.2

theorem JoinCall.done_move {r : Rules} {s s' : State} {st : StorageId} (hwf : WellFormed s)
    (h : History s) (hcall : JoinCall s st (s.storages st)) (hmove : Move r s s')
    (hempty : missing (s.storages st) = ∅) :
    (s'.promises (s.storages st).ret).outcome.isSome ∨ ∃ c i,
      (s'.closures c).place = .running ∧
      (s'.closures c).chosen = some (.join i st (s.storages st).ret) := by
  have hkeep : (s.promises (s.storages st).ret).outcome.isSome →
      (s'.promises (s.storages st).ret).outcome.isSome := by
    intro hsome
    obtain ⟨o, ho⟩ := Option.isSome_iff_exists.mp hsome
    rw [(move_persists hwf hmove _).outcome o ho]
    rfl
  rcases hcall.done hempty with hsome | ⟨c, i, hplace, hchosen⟩
  · exact .inl (hkeep hsome)
  · have hturn := move_turn h.chain hmove (hwf.lt_of_place (c := c) (by simp [hplace]))
    by_cases hsame : s'.closures c = s.closures c
    · exact .inr ⟨c, i, by rw [hsame, hplace], by rw [hsame, hchosen]⟩
    · refine .inl (hkeep ?_)
      generalize s'.closures c = x at hturn hsame
      cases hturn with
      | same => exact absurd rfl hsame
      | placed pl hold hnot hpl hnew hrun => exact absurd hplace hrun
      | heard p o rest hctl hcalled hstored =>
          have htaken := (h.chain.taken c).mp (by simp [hctl, Control.rest])
          cases hplace.symm.trans htaken
      | replied y hrunning hserved =>
          -- the handler has come back: with nothing missing it has resolved the promise
          apply hserved _ hchosen
          rw [hcall.left, hempty]
          rfl
      | finished d o hd hv ho =>
          rcases verdict_place hv with hpl | hpl
          · cases hplace.symm.trans hpl
          · cases hplace.symm.trans hpl

theorem JoinCall.value_move {r : Rules} {s s' : State} {st : StorageId} (hwf : WellFormed s)
    (hcall : JoinCall s st (s.storages st)) (hmove : Move r s s') {o : Outcome}
    (ho' : (s'.promises (s.storages st).ret).outcome = some o)
    (hby : (s'.promises (s.storages st).ret).settledBy = some (.join st)) :
    missing (s.storages st) = ∅ ∧ ∃ vs,
      collect (s.storages st).items (s.storages st).inputs.length = some vs ∧
      o = .resolved (.tuple vs) := by
  rcases move_settledBy hwf hmove ho' hby with ⟨ho, hby⟩ | ⟨-, -, hset, -⟩
  · exact hcall.value o ho hby
  · obtain ⟨c, i, q, o', total, vs, hserve, hleft, htotal, hvs, heq⟩ := hset
    rw [hcall.left, Option.some.injEq, Nat.cast_eq_zero, Finset.card_eq_zero] at hleft
    rw [hcall.total, Option.some.injEq] at htotal
    subst htotal
    exact ⟨hleft, vs, hvs, heq⟩

/-- The storage object of the call is as it was. -/
theorem JoinCall.same {r : Rules} {s s' : State} {st : StorageId} (hwf : WellFormed s)
    (h : History s) (hcall : JoinCall s st (s.storages st)) (hmove : Move r s s')
    (hsame : s'.storages st = s.storages st) : JoinCall s' st (s.storages st) where
  total := hcall.total
  nonempty := hcall.nonempty
  role := by
    rw [move_role hmove (hwf.lt_of_role (by simp [hcall.role])), hcall.role]
  client i hi := (hcall.client i hi).move h.chain hmove
    (hwf.lt_of_onResolve (hcall.client i hi).onResolve)
  only c i ret hc := by
    rcases move_onResolve hwf h.chain hmove hc with hold | hnone
    · exact hcall.only c i ret hold
    · rw [hcall.total] at hnone
      cases hnone
  item i hi := by
    have hon := (hcall.client i hi).onResolve
    rw [move_said h.chain hmove (hwf.lt_of_onResolve hon) hon hsame]
    exact hcall.item i hi
  left := hcall.left
  done := hcall.done_move hwf h hmove
  value _ ho hby := hcall.value_move hwf hmove ho hby

theorem hear_promise (p : ObjRef) (o : Outcome) (c : ClosureId) (rest : List ClosureId) (s : State)
    (q : ObjRef) : ((hear p o c rest s).promises q).outcome = (s.promises q).outcome ∧
      ((hear p o c rest s).promises q).settledBy = (s.promises q).settledBy := by
  by_cases hq : q = p
  · subst hq
    simp [EventPromise.hear, State.setClosure, State.setPromise, Promise.outcome]
  · simp [EventPromise.hear, State.setClosure, State.setPromise, Function.update_of_ne hq]

/-- One more result is stored. -/
theorem JoinCall.store {r : Rules} {s : State} {st : StorageId} (hwf : WellFormed s)
    (h : History s) (hcall : JoinCall s st (s.storages st)) {c : ClosureId} {p : ObjRef}
    {o : Outcome} {rest : List ClosureId} {i : ℕ} {ret : ObjRef} {left : ℤ}
    (hat : AtJoin s c p o rest i st ret) (hi : (s.storages st).items i = none)
    (hleft : (s.storages st).left = some left) {s' : State}
    (hs' : s' = (hear p o c rest s).setStorage st fun x =>
      x.store i (variantArg o.value) (left - 1))
    (hmove : Move r s s') : JoinCall s' st (s'.storages st) := by
  obtain ⟨⟨hlt, rfl, rfl⟩, hheard, v, rfl⟩ := hcall.at_join hwf h hat
  have hx : s'.storages st =
      (s.storages st).store i (variantArg v) (left - 1) := by
    rw [hs']
    exact Function.update_self ..
  have hself : s'.closures ((s.storages st).firstClient + i) =
      (s.closures ((s.storages st).firstClient + i)).hear p (.resolved v) := by
    rw [hs']
    exact hear_self p (.resolved v) _ rest s
  have hother : ∀ c, c ≠ (s.storages st).firstClient + i → s'.closures c = s.closures c := by
    intro c hc
    rw [hs']
    exact Function.update_of_ne hc _ _
  have hmem : i ∈ missing (s.storages st) := mem_missing.mpr ⟨hlt, hi⟩
  rw [hx]
  refine ⟨hcall.total, hcall.nonempty, ?_, ?_, ?_, ?_, ?_, ?_, ?_⟩
  · have hret := hwf.lt_of_role (p := (s.storages st).ret) (by simp [hcall.role])
    exact (move_role hmove hret).trans hcall.role
  · exact fun j hj => (hcall.client j hj).move h.chain hmove
      (hwf.lt_of_onResolve (hcall.client j hj).onResolve)
  · intro c' j ret' hc'
    rcases move_onResolve hwf h.chain hmove hc' with hold | hnone
    · exact hcall.only c' j ret' hold
    · rw [hcall.total] at hnone
      cases hnone
  · intro j hj
    by_cases hji : j = i
    · subst hji
      change Function.update (s.storages st).items j (some (variantArg v)) j =
        said (s'.closures ((s.storages st).firstClient + j))
      rw [hself, Function.update_self]
      simp [said, Closure.hear, hheard]
    · change Function.update (s.storages st).items i (some (variantArg v)) j =
        said (s'.closures ((s.storages st).firstClient + j))
      rw [Function.update_of_ne hji, hother _ fun heq => hji (Nat.add_left_cancel heq)]
      exact hcall.item j hj
  · have hcard := hcall.left
    rw [hleft, Option.some.injEq] at hcard
    have hpos : 0 < (missing (s.storages st)).card := Finset.card_pos.mpr ⟨i, hmem⟩
    rw [missing_store, Finset.card_erase_of_mem hmem, Nat.cast_sub hpos, ← hcard]
    rfl
  · intro _
    refine .inr ⟨(s.storages st).firstClient + i, i, ?_, ?_⟩
    · rw [hself]
      simp [Closure.hear, hat.2]
    · rw [hself]
      exact hat.2
  · intro o ho hby
    have hsame := hear_promise p (.resolved v) ((s.storages st).firstClient + i) rest s
      (s.storages st).ret
    rw [hs'] at ho hby
    obtain ⟨hempty, -⟩ := hcall.value o (hsame.1.symm.trans ho) (hsame.2.symm.trans hby)
    rw [hempty] at hmem
    cases hmem

/-- The handlers have all been registered, and none of them has been called. -/
theorem Unopened.opened {s : State} {st : StorageId} (hwf : WellFormed s)
    (hun : Unopened s st (s.storages st)) {ps : List ObjRef} {ret : ObjRef} {first : ClosureId}
    (hret : (s.promises ret).role = .join st)
    (hclients : Clients s first ps fun i => .join i st ret)
    (honly : ∀ c i ret', (s.closures c).onResolve = some (.join i st ret') → first ≤ c)
    (hne : ps ≠ []) : JoinCall s st ((s.storages st).opened ps ret first) := by
  have hmissing : missing ((s.storages st).opened ps ret first) = Finset.range ps.length := by
    ext i
    simp [mem_missing, Storage.opened, hun.items]
  refine ⟨rfl, hne, hret, ?_, ?_, ?_, ?_, ?_, ?_⟩
  · intro i hi
    have hwaits := hclients.2 i hi
    have hattached : (s.closures (first + i)).place ≠ .detached := by rw [hwaits.place]; nofun
    exact ⟨hwaits.source, hwaits.onResolve, hwaits.onReject, hattached⟩
  · intro c i ret' hc
    have hlt := hwf.lt_of_onResolve hc
    rw [hclients.1] at hlt
    obtain ⟨k, rfl⟩ := Nat.exists_eq_add_of_le (honly c i ret' hc)
    have hk : k < ps.length := Nat.lt_of_add_lt_add_left hlt
    rw [(hclients.2 k hk).onResolve] at hc
    cases hc
    exact ⟨hk, rfl, rfl⟩
  · intro i hi
    change (s.storages st).items i = said (s.closures (first + i))
    rw [hun.items i, said, (hclients.2 i hi).heard]
    rfl
  · rw [hmissing, Finset.card_range]
    rfl
  · intro hempty
    rw [hmissing, Finset.range_eq_empty_iff, List.length_eq_zero_iff] at hempty
    exact absurd hempty hne
  · intro o ho hby
    exact absurd hby (hun.settledBy ret (by rw [show (s.promises ret).outcome = _ from ho]; rfl))

theorem Unopened.same {r : Rules} {s s' : State} {st : StorageId} (hwf : WellFormed s)
    (htotal : (s.storages st).total = none) (hun : Unopened s st (s.storages st))
    (hmove : Move r s s') : Unopened s' st (s.storages st) := by
  refine ⟨hun.left, hun.items, ?_⟩
  intro p hp hby
  obtain ⟨o, ho'⟩ := Option.isSome_iff_exists.mp hp
  rcases move_settledBy hwf hmove ho' hby with ⟨ho, hby⟩ | ⟨-, -, hset, -⟩
  · exact hun.settledBy p (by rw [ho]; rfl) hby
  · obtain ⟨c, i, q, o', total, vs, -, -, hsome, -⟩ := hset
    rw [htotal] at hsome
    cases hsome

theorem Joins.move {r : Rules} {s s' : State} (hwf : WellFormed s) (h : History s)
    (hjoins : Joins s) (hmove : Move r s s') : Joins s' := by
  intro st
  rcases move_storage hwf hmove st with hsame | ⟨c, p, o, rest, i, ret, left, hat, hi, hleft, hs'⟩ |
    ⟨ps, ret, first, hnew, hret, hclients, honly, hne, rfl⟩
  · rw [hsame]
    rcases hjoins st with ⟨htotal, hun⟩ | hcall
    · exact .inl ⟨htotal, hun.same hwf htotal hmove⟩
    · exact .inr (hcall.same hwf h hmove hsame)
  · rcases hjoins st with ⟨-, hun⟩ | hcall
    · rw [hun.left] at hleft
      cases hleft
    · exact .inr (hcall.store hwf h hat hi hleft hs' hmove)
  · rcases hjoins st with ⟨-, hun⟩ | hcall
    · have hopen := hun.opened hwf hret hclients honly hne
      have hx : (s.setStorage st fun x => x.opened ps ret first).storages st =
          (s.storages st).opened ps ret first := Function.update_self ..
      rw [hx]
      exact .inr {hopen with}
    · rw [hcall.total] at hnew
      cases hnew

/-! ## A dispatch reaches every handler that was there before it -/

/-- A closure that has not been called. -/
def Expecting (x : Closure) : Prop :=
  ((∃ p, x.place = .waiting p) ∨ x.place = .taken) ∧ x.heard = []

structure Prompt (s : State) : Prop where
  during : ∀ c p, (s.closures c).place = .waiting p → (s.closures c).heard = [] →
    s.control.dispatched = some p → (s.closures c).bornDuring = true
  current : ∀ c, Expecting (s.closures c) → (s.closures c).bornDuring = false →
    (s.promises (s.closures c).source).dispatches = (s.closures c).bornAt

theorem prompt_init : Prompt {} := ⟨nofun, fun _ hc => hc.1.elim nofun nofun⟩

/-- Closures that have not been called, the counts of dispatches and the promise under
dispatch stay. -/
theorem Prompt.frame {s s' : State} (h : Prompt s)
    (hclosures : ∀ c, Expecting (s'.closures c) → s'.closures c = s.closures c)
    (hpromises : ∀ p, (s'.promises p).dispatches = (s.promises p).dispatches)
    (hctl : ∀ p, s'.control.dispatched = some p → s.control.dispatched = some p) : Prompt s' := by
  refine ⟨?_, ?_⟩
  · intro c p hplace hheard hdisp
    have hsame := hclosures c ⟨.inl ⟨p, hplace⟩, hheard⟩
    rw [hsame] at hplace hheard ⊢
    exact h.during c p hplace hheard (hctl p hdisp)
  · intro c hc hborn
    rw [hpromises, hclosures c hc] at *
    exact h.current c hc hborn

theorem dispatches_update {f : ObjRef → Promise} {p : ObjRef} {x : Promise}
    (hx : x.dispatches = (f p).dispatches) (q : ObjRef) :
    (Function.update f p x q).dispatches = (f q).dispatches := by
  by_cases hq : q = p
  · subst hq
    simpa using hx
  · rw [Function.update_of_ne hq]

/-- The closure that has changed is not one that waits to be called. -/
theorem expecting_update {f : ClosureId → Closure} {c : ClosureId} {x : Closure}
    (hx : ¬ Expecting x) (c' : ClosureId) (hc' : Expecting (Function.update f c x c')) :
    Function.update f c x c' = f c' := by
  by_cases hcc : c' = c
  · subst hcc
    rw [Function.update_self] at hc'
    exact absurd hc' hx
  · exact Function.update_of_ne hcc _ _

theorem Prompt.register {s : State} (h : Prompt s) {p : ObjRef} {c : ClosureId} {m : EventModule}
    (hsource : (s.closures c).source = p)
    (hat : (s.closures c).bornAt = (s.promises p).dispatches)
    (hduring : (s.closures c).bornDuring = (s.control.dispatched == some p)) : Prompt {s with
      promises := Function.update s.promises p (listened (s.promises p) c)
      closures := Function.update s.closures c {s.closures c with place := .waiting p}
      eventModule := m} := by
  have hdisp := dispatches_update (f := s.promises) (p := p) (x := listened (s.promises p) c) rfl
  refine ⟨?_, ?_⟩
  · intro c' p' hplace hheard hctl
    by_cases hcc : c' = c
    · subst hcc
      simp only [Function.update_self] at hplace ⊢
      cases hplace
      rw [hduring, show s.control.dispatched = some p from hctl]
      exact beq_self_eq_true _
    · simp only [Function.update_of_ne hcc] at hplace hheard ⊢
      exact h.during c' p' hplace hheard hctl
  · intro c' hc' hborn
    dsimp only at hc' hborn ⊢
    rw [hdisp]
    by_cases hcc : c' = c
    · subst hcc
      simp only [Function.update_self]
      rw [hsource, hat]
    · rw [Function.update_of_ne hcc] at hc' hborn ⊢
      exact h.current c' hc' hborn

theorem Prompt.takeHandlers {s : State} (h : Prompt s) (hchain : Chain s) {p : ObjRef}
    {o : Outcome} {n : ℕ} : Prompt (takeHandlers p o n s) := by
  have hold : ∀ c, c ∉ (s.promises p).handlers →
      (PromiseSteps.takeHandlers p o n s).closures c = s.closures c := fun c hc => if_neg hc
  have htaken : ∀ c, c ∈ (s.promises p).handlers →
      (PromiseSteps.takeHandlers p o n s).closures c = {s.closures c with place := .taken} :=
    fun c hc => if_pos hc
  refine ⟨?_, ?_⟩
  · intro c q hplace hheard hdisp
    cases hdisp
    by_cases hmem : c ∈ (s.promises p).handlers
    · rw [htaken c hmem] at hplace
      cases hplace
    · rw [hold c hmem] at hplace
      exact absurd ((hchain.waiting p c).mpr hplace) hmem
  · intro c hc hborn
    have hdisp : ∀ q, ((PromiseSteps.takeHandlers p o n s).promises q).dispatches =
        (s.promises q).dispatches := dispatches_update rfl
    rw [hdisp]
    by_cases hmem : c ∈ (s.promises p).handlers
    · rw [htaken c hmem] at hc hborn ⊢
      exact h.current c ⟨.inl ⟨p, (hchain.waiting p c).mp hmem⟩, hc.2⟩ hborn
    · rw [hold c hmem] at hc hborn ⊢
      exact h.current c hc hborn

/-- At the end of a dispatch every closure that was there before it has been called. -/
theorem Prompt.endDispatch {s : State} (h : Prompt s) (hwf : WellFormed s) (hchain : Chain s)
    {p : ObjRef} {o : Option Outcome} (hctl : s.control = .dispatching p o []) :
    Prompt (endDispatch p s) := by
  have hdisp : s.control.dispatched = some p := by rw [hctl]; rfl
  refine ⟨nofun, fun c => ?_⟩
  change Expecting (s.closures c) → (s.closures c).bornDuring = false → _
  intro hc hborn
  have hne : (s.closures c).source ≠ p := by
    intro hsource
    rcases hc.1 with ⟨q, hplace⟩ | hplace
    · have htale := hchain.tale c (hwf.lt_of_place (by simp [hplace]))
      simp only [Tale, hplace] at htale
      rcases htale with ⟨hawaits, hfresh | ⟨⟨o', f, ha⟩, -⟩⟩
      · rw [hfresh.awaits, hsource] at hawaits
        subst hawaits
        rw [h.during c q hplace hc.2 hdisp] at hborn
        cases hborn
      · cases ha.heard.symm.trans hc.2
    · have hmem := (hchain.taken c).mpr hplace
      rw [hctl] at hmem
      cases hmem
  change ((Function.update s.promises p _) (s.closures c).source).dispatches = _
  rw [Function.update_of_ne hne]
  exact h.current c hc hborn

theorem hear_expecting (x : Closure) (p : ObjRef) (o : Outcome) : ¬ Expecting (x.hear p o) := by
  intro hx
  have hheard := hx.2
  simp [Closure.hear] at hheard

theorem Prompt.move {r : Rules} {s s' : State} (h : Prompt s) (hwf : WellFormed s)
    (hchain : Chain s) (hmove : Move r s s') : Prompt s' := by
  have hsame : ∀ c, Expecting (s.closures c) → s.closures c = s.closures c := fun _ _ => rfl
  have hnew : ∀ (x : Promise), x.dispatches = 0 → ∀ q,
      (Function.update s.promises s.promiseCount x q).dispatches = (s.promises q).dispatches := by
    intro x hx
    exact dispatches_update (by rw [hx, hwf.freshPromise _ le_rfl])
  have hdone : ∀ {x : Closure}, (∀ p, x.place ≠ .waiting p) → x.place ≠ .taken →
      ¬ Expecting x := by
    intro x hwaiting htaken hx
    rcases hx.1 with ⟨p, hp⟩ | hp
    · exact hwaiting p hp
    · exact htaken hp
  cases hmove with
  | newPromise role hrole => exact h.frame hsame (hnew _ rfl) fun _ => id
  | derive p res rej hp hvalid hres hrej =>
      exact h.frame (expecting_update (hdone nofun nofun)) (hnew _ rfl) fun _ => id
  | register p c hp hc hplace hsource hat hduring hr hrun =>
      obtain ⟨m, -, rfl⟩ := addHandler_eq hrun
      exact h.register hsource hat hduring
  | follow q c hq hplace hreply hr hrun =>
      obtain ⟨m, -, rfl⟩ := addHandler_eq hrun
      have hc := hwf.lt_of_place (c := c) (by simp [hplace])
      obtain ⟨⟨o, f, ha⟩, -⟩ := tale_replied hplace (hchain.tale c hc)
      refine h.frame (expecting_update ?_) (dispatches_update rfl) fun _ => id
      exact fun hx => nomatch ha.heard.symm.trans hx.2
  | settle p o origin hp hby hrun =>
      rcases settle_eq hrun with ⟨-, rfl⟩ | ⟨-, m, -, rfl⟩
      · exact h
      · exact h.frame hsame (dispatches_update rfl) fun _ => id
  | hear p o c rest hctl hother =>
      refine h.frame (expecting_update (hear_expecting _ p o)) (dispatches_update rfl) ?_
      intro q hq
      rw [hctl]
      exact hq
  | hearJoin p o c rest i st ret left hat hi hleft =>
      refine h.frame (expecting_update (hear_expecting _ p o)) (dispatches_update rfl) ?_
      intro q hq
      rw [hat.1]
      exact hq
  | call p o c d rest f hctl hserve hd =>
      refine h.frame hsame (fun _ => rfl) ?_
      intro q hq
      rw [hctl]
      exact hq
  | resume p o c d rest hctl =>
      refine h.frame hsame (fun _ => rfl) ?_
      intro q hq
      rw [hctl]
      exact hq
  | reply c x p o rest hctl hplace hserved hx hfail =>
      exact h.frame (expecting_update (hdone nofun nofun)) (fun _ => rfl) fun _ => id
  | finish c d o hd hv ho =>
      exact h.frame (expecting_update (hdone nofun nofun)) (fun _ => rfl) fun _ => id
  | drop c hplace hreply hfail =>
      exact h.frame (expecting_update (hdone nofun nofun)) (fun _ => rfl) fun _ => id
  | pop n p o hctl hn hp ho hr => exact h.takeHandlers hchain
  | endDispatch p o hctl => exact h.endDispatch hwf hchain hctl
  | startIdle hctl => exact h.frame hsame (fun _ => rfl) nofun
  | exitIdle hctl hn => exact h.frame hsame (fun _ => rfl) nofun
  | newStorage => exact h.frame hsame (fun _ => rfl) fun _ => id
  | openStorage st ps ret first hst hnew hret hc honly hne =>
      exact h.frame hsame (fun _ => rfl) fun _ => id
  | recordAny ret ps first hret hnew hc honly => exact h.frame hsame (fun _ => rfl) fun _ => id

/-! ## Between two steps every storage object is open -/

theorem move_total {r : Rules} {s s' : State} (hwf : WellFormed s) (hmove : Move r s s')
    {st : StorageId} (htotal : (s.storages st).total.isSome) :
    (s'.storages st).total.isSome := by
  rcases move_storage hwf hmove st with hsame | ⟨c, p, o, rest, i, ret, left, -, -, -, rfl⟩ |
    ⟨ps, ret, first, hnew, -⟩
  · rwa [hsame]
  · simpa [State.setStorage, Storage.store, EventPromise.hear, State.setClosure,
      State.setPromise] using htotal
  · rw [hnew] at htotal
    cases htotal

theorem moves_total {r : Rules} {s s' : State} (hwf : WellFormed s) (hmoves : Moves r s s')
    {st : StorageId} (htotal : (s.storages st).total.isSome) :
    (s'.storages st).total.isSome := by
  induction hmoves with
  | refl => exact htotal
  | tail hmoves hmove ih => exact move_total (Moves.wellFormed hmoves hwf) hmove ih

theorem thenInner_storageCount {p : ObjRef} {res rej : Option Handler} {s : State}
    {y : ObjRef × State} (h : diPromiseThenInner p res rej s = .ok y) :
    y.2.storageCount = s.storageCount := by
  rw [thenInner_eq] at h
  obtain ⟨t, hadd, rfl⟩ := map_eq_ok h
  obtain ⟨m, -, rfl⟩ := addHandler_eq hadd
  rfl

theorem settle_storageCount {p : ObjRef} {o : Outcome} {origin : Origin} {s s' : State}
    (h : settle p o origin s = .ok s') : s'.storageCount = s.storageCount :=
  (settle_touches 0 h).storageCount

theorem diReadyPromise_storageCount {v : DiValue} {s : State} {y : ObjRef × State}
    (h : diReadyPromise v s = .ok y) : y.2.storageCount = s.storageCount := by
  obtain ⟨t, hsettle, hy⟩ := bind_eq_ok h
  cases hy
  have hcount := settle_storageCount hsettle
  exact hcount

/-- `di_join_promises` opens the storage object that it has made. -/
theorem diJoinPromises_storage {p : ObjRef} {ps : List ObjRef} {s : State} {y : ObjRef × State}
    (hps : ∀ q ∈ p :: ps, q < s.promiseCount) (h : diJoinPromises (p :: ps) s = .ok y) :
    y.1 = s.promiseCount ∧ y.2.storageCount = s.storageCount + 1 ∧
      y.2.storages s.storageCount = Storage.opened {} (p :: ps) s.promiseCount s.closureCount := by
  rw [diJoinPromises_cons] at h
  obtain ⟨t, hall, hy⟩ := bind_eq_ok h
  have hl := thenAll_listening (fun q hq => Nat.lt_succ_of_lt (hps q hq)) hall
  cases hy
  refine ⟨rfl, hl.storageCount, ?_⟩
  simp only [State.setStorage, Function.update_self]
  rw [hl.storages]
  change (Function.update s.storages s.storageCount {} s.storageCount).opened _ _ _ = _
  rw [Function.update_self]

/-- Only `join_promises` makes a storage object. -/
theorem step_storageCount {a : Action} {s s' : State} (hwf : WellFormed s) (hstep : Step s a s') :
    s'.storageCount = s.storageCount ∨ (s'.storageCount = s.storageCount + 1 ∧
      (s'.storages s.storageCount).total.isSome) := by
  cases a with
  | newPromise =>
      cases hstep
      exact .inl rfl
  | «then» p f | «catch» p f | «finally» p f =>
      simp only [Step, exec, Option.ite_none_right_eq_some, Option.some.injEq] at hstep
      obtain ⟨y, hy, rfl⟩ := map_eq_ok hstep.2
      exact .inl (thenInner_storageCount hy)
  | resolve p v | reject p e =>
      simp only [Step, exec, Option.ite_none_right_eq_some, Option.some.injEq] at hstep
      exact .inl (settle_storageCount hstep.2)
  | joinPromises ps =>
      simp only [Step, exec, Option.ite_none_right_eq_some, Option.some.injEq] at hstep
      obtain ⟨y, hy, rfl⟩ := map_eq_ok hstep.2
      cases ps with
      | nil => exact .inl (diReadyPromise_storageCount hy)
      | cons p ps =>
          obtain ⟨-, hcount, hopen⟩ := diJoinPromises_storage hstep.1 hy
          exact .inr ⟨hcount, by rw [hopen]; rfl⟩
  | anyPromise ps =>
      simp only [Step, exec, Option.ite_none_right_eq_some, Option.some.injEq] at hstep
      obtain ⟨y, hy, rfl⟩ := map_eq_ok hstep.2
      obtain ⟨t, hall, hy⟩ := bind_eq_ok hy
      cases hy
      rw [anyInputs_eq s.promiseCount ps 0] at hall
      have hl := thenAll_listening (fun q hq => Nat.lt_succ_of_lt (hstep.1 q hq)) hall
      exact .inl hl.storageCount
  | readyPromise v =>
      obtain ⟨y, hy, rfl⟩ := map_eq_ok (Option.some.inj hstep)
      exact .inl (diReadyPromise_storageCount hy)
  | startIdle =>
      obtain ⟨-, hrun⟩ := exec_startIdle hstep
      cases hrun
      exact .inl rfl
  | idleLoop =>
      obtain ⟨-, hrun⟩ := exec_idleLoop hstep
      rcases idleLoop_cases hwf hrun.symm with ⟨-, rfl⟩ | ⟨n, p, o, rfl⟩
      · exact .inl rfl
      · exact .inl rfl
  | callNext =>
      obtain ⟨p, o, c, rest, -, hrun⟩ := exec_callNext hstep
      exact .inl (diPromiseHandlerClosure_touches hrun.symm).2.1
  | handlerReturns x =>
      obtain ⟨p, o, c, d, rest, -, hrun⟩ := exec_handlerReturns hstep
      exact .inl (settleReply_touches hrun.symm).1.storageCount
  | endDispatch =>
      obtain ⟨p, o, -, hrun⟩ := exec_endDispatch hstep
      cases hrun
      exact .inl rfl

theorem run_opened {r : Rules} {s : State} (hrun : Run r {} s) :
    ∀ st, st < s.storageCount → (s.storages st).total.isSome := by
  induction hrun with
  | refl => exact fun st hst => absurd hst (Nat.not_lt_zero st)
  | tail hrun hstep ih =>
      obtain ⟨a, hok, hexec⟩ := hstep
      have hwf := Run.wellFormed hrun
      have hkeep : ∀ st, _ → _ := fun st => @moves_total _ _ _ hwf (exec_leads hwf hexec hok) st
      intro st hst
      rcases step_storageCount hwf hexec with hcount | ⟨hcount, hopen⟩
      · exact hkeep st (ih st (hcount ▸ hst))
      · rw [hcount] at hst
        rcases Nat.lt_succ_iff_lt_or_eq.mp hst with hlt | rfl
        · exact hkeep st (ih st hlt)
        · exact hopen

/-! ## The checks of the handler -/

/-- The `DI_CHECK`s of `di_promise_join_handler`. -/
def joinChecks : List Check := [.joinIndex, .joinLeft, .joinTotal, .joinItem]

theorem mapM_eq_some {A B : Type} {f : A → Option B} {l : List A} {vs : List B} :
    l.mapM f = some vs ↔ l.map f = vs.map some := by
  induction l generalizing vs with
  | nil => cases vs <;> simp
  | cons a l ih =>
      cases ha : f a with
      | none => cases vs <;> simp [List.mapM_cons, ha]
      | some b =>
          cases vs with
          | nil => simp [List.mapM_cons, ha, Option.bind_eq_some_iff]
          | cons b' vs => simp [List.mapM_cons, ha, ← ih, Option.bind_eq_some_iff, and_comm]

theorem collect_eq_some {items : ℕ → Option DiValue} {n : ℕ} {vs : List DiValue} :
    collect items n = some vs ↔ (List.range n).map items = vs.map some :=
  mapM_eq_some

theorem collect_isSome {items : ℕ → Option DiValue} {n : ℕ}
    (h : ∀ i, i < n → (items i).isSome) : (collect items n).isSome := by
  have hall : ∀ i ∈ List.range n, (items i).isSome := by simpa using h
  have hvs : (List.range n).map items =
      ((List.range n).pmap (fun i hi => (items i).get hi) hall).map some := by
    simp [List.map_pmap, List.pmap_eq_map]
  rw [collect_eq_some.mpr hvs]
  rfl

/-- The computation fails none of these checks. -/
def Quiet {A : Type} (x : Except Check A) : Prop := ∀ e ∈ joinChecks, x ≠ .error e

theorem Quiet.ok {A : Type} (a : A) : Quiet (.ok a) := nofun

theorem Quiet.bind {A B : Type} {x : Except Check A} {f : A → Except Check B} (hx : Quiet x)
    (hf : ∀ a, Quiet (f a)) : Quiet (x >>= f) := by
  cases x with
  | error e => exact fun e' he' heq => hx e' he' (by cases heq; rfl)
  | ok a => exact hf a

theorem Quiet.map {A B : Type} {x : Except Check A} {f : A → B} (hx : Quiet x) :
    Quiet (x.map f) := by
  cases x with
  | error e => exact fun e' he' heq => hx e' he' (by cases heq; rfl)
  | ok a => exact .ok _

theorem startDispatch_quiet (p : ObjRef) (s : State) : Quiet (diPromiseStartDispatch p s) := by
  intro e he h
  rcases startDispatch_fails h with ⟨rfl, -⟩ | ⟨rfl, -⟩
  · simp [joinChecks] at he
  · simp [joinChecks] at he

theorem settle_quiet (p : ObjRef) (o : Outcome) (origin : Origin) (s : State) :
    Quiet (settle p o origin s) := by
  unfold settle
  split_ifs
  · exact .ok _
  · exact startDispatch_quiet _ _

theorem addHandler_quiet (p : ObjRef) (c : ClosureId) (s : State) :
    Quiet (diPromiseAddHandler p c s) := by
  unfold diPromiseAddHandler
  dsimp only
  split_ifs
  · exact startDispatch_quiet _ _
  · exact .ok _

theorem thenInner_quiet (p : ObjRef) (res rej : Option Handler) (s : State) :
    Quiet (diPromiseThenInner p res rej s) := by
  rw [thenInner_eq]
  exact (addHandler_quiet _ _ _).map

theorem thenAll_quiet (h : ℕ → Handler) (ps : List ObjRef) (i : ℕ) (s : State) :
    Quiet (thenAll h i ps s) := by
  induction ps generalizing i s with
  | nil => exact .ok _
  | cons p ps ih => exact (thenInner_quiet _ _ _ _).bind fun y => ih _ _

theorem settleReply_quiet (c : ClosureId) (d : ObjRef) (x : Reply) (s : State) :
    Quiet (settleReply c d x s) := by
  cases x with
  | value v | threw e => exact (settle_quiet _ _ _ _).bind fun t => .ok _
  | promise q => exact addHandler_quiet _ _ _
  | failed => exact .ok _

theorem idleLoop_quiet (s : State) : Quiet (idleLoop s) := by
  intro e he h
  unfold idleLoop at h
  split at h
  · cases h
    simp [joinChecks] at he
  · cases h
  · split at h
    · cases h
      simp [joinChecks] at he
    · cases h

theorem diJoinPromises_quiet (ps : List ObjRef) (s : State) : Quiet (diJoinPromises ps s) := by
  cases ps with
  | nil => exact (settle_quiet _ _ _ _).bind fun t => .ok _
  | cons p ps =>
      rw [diJoinPromises_cons]
      exact (thenAll_quiet _ _ _ _).bind fun t => .ok _

theorem diAnyPromise_quiet (ps : List ObjRef) (s : State) : Quiet (diAnyPromise ps s) := by
  unfold diAnyPromise
  refine Quiet.bind ?_ fun t => .ok _
  rw [anyInputs_eq _ ps 0]
  exact thenAll_quiet _ _ _ _

theorem joinHandler_fails {c : ClosureId} {p : ObjRef} {o : Outcome} {rest : List ClosureId}
    {i : ℕ} {st : StorageId} {ret : ObjRef} {s : State} {e : Check}
    (hat : AtJoin s c p o rest i st ret) (he : e ∈ joinChecks)
    (h : diPromiseJoinHandler i st ret (variantArg o.value) (hear p o c rest s) = .error e) :
    Fails s e := by
  have hstorages : (hear p o c rest s).storages = s.storages := rfl
  unfold diPromiseJoinHandler at h
  dsimp only at h
  rw [hstorages] at h
  split_ifs at h with hitem
  · cases h
    exact ⟨c, p, o, rest, i, st, ret, hat, hitem⟩
  · split at h
    · rename_i hleft
      cases h
      exact ⟨c, p, o, rest, i, st, ret, hat, hleft⟩
    · rename_i left hleft
      split_ifs at h with hzero
      · have hone : (s.storages st).left = some 1 := by
          rw [hleft]
          congr 1
          omega
        split at h
        · rename_i htotal
          cases h
          exact ⟨c, p, o, rest, i, st, ret, hat, hone, htotal⟩
        · rename_i total htotal
          split at h
          · rename_i hvs
            cases h
            have hnone : (s.storages st).items i = none := by simpa using hitem
            refine ⟨c, p, o, rest, i, st, ret, total, variantArg o.value, hat, hnone, hone,
              htotal, ?_⟩
            simpa [State.setStorage, Storage.store, hstorages] using hvs
          · exact absurd h (settle_quiet _ _ _ _ e he)

/-- One of these checks fails only where the next handler is that of `join_promises`. -/
theorem exec_fails {a : Action} {s : State} {e : Check} (he : e ∈ joinChecks)
    (h : exec a s = some (.error e)) : Fails s e := by
  have hquiet : ∀ {A : Type} {x : Except Check A} {f : A → State}, Quiet x →
      x.map f = .error e → Fails s e := fun hx heq => absurd heq (hx.map e he)
  cases a with
  | newPromise => cases h
  | «then» p f | «catch» p f | «finally» p f =>
      simp only [exec, Option.ite_none_right_eq_some, Option.some.injEq] at h
      exact hquiet (thenInner_quiet _ _ _ _) h.2
  | resolve p v | reject p e =>
      simp only [exec, Option.ite_none_right_eq_some, Option.some.injEq] at h
      exact absurd h.2 (settle_quiet _ _ _ _ _ he)
  | joinPromises ps =>
      simp only [exec, Option.ite_none_right_eq_some, Option.some.injEq] at h
      exact hquiet (diJoinPromises_quiet _ _) h.2
  | anyPromise ps =>
      simp only [exec, Option.ite_none_right_eq_some, Option.some.injEq] at h
      exact hquiet (diAnyPromise_quiet _ _) h.2
  | readyPromise v =>
      exact hquiet ((settle_quiet _ _ _ _).bind fun t => .ok _) (Option.some.inj h)
  | startIdle =>
      obtain ⟨-, hrun⟩ := exec_startIdle h
      cases hrun
  | idleLoop =>
      obtain ⟨-, hrun⟩ := exec_idleLoop h
      exact absurd hrun.symm (idleLoop_quiet s e he)
  | handlerReturns x =>
      obtain ⟨p, o, c, d, rest, -, hrun⟩ := exec_handlerReturns h
      exact absurd hrun.symm (settleReply_quiet _ _ _ _ e he)
  | endDispatch =>
      obtain ⟨p, o, -, hrun⟩ := exec_endDispatch h
      cases hrun
  | callNext =>
      obtain ⟨p, o, c, rest, hctl, hrun⟩ := exec_callNext h
      cases hd : (s.closures c).promise with
      | none =>
          simp only [diPromiseHandlerClosure, hd] at hrun
          cases hrun
          simp [joinChecks] at he
      | some d =>
          cases hh : (s.closures c).handlerFor o with
          | none =>
              simp only [diPromiseHandlerClosure, hd, hh] at hrun
              exact absurd hrun.symm ((settle_quiet _ _ _ _).bind (fun t => .ok _) e he)
          | some f =>
              cases f with
              | user f =>
                  simp only [diPromiseHandlerClosure, hd, hh] at hrun
                  cases hrun
              | any ret =>
                  simp only [diPromiseHandlerClosure, hd, hh] at hrun
                  exact absurd hrun.symm
                    ((settle_quiet _ _ _ _).bind (fun t => settleReply_quiet _ _ _ _) e he)
              | join i st ret =>
                  simp only [diPromiseHandlerClosure, hd, hh] at hrun
                  cases hx : diPromiseJoinHandler i st ret (variantArg o.value)
                      (hear p o c rest s) with
                  | ok t =>
                      rw [hx] at hrun
                      exact absurd hrun.symm
                        ((Quiet.ok t).bind (fun t => settleReply_quiet _ _ _ _) e he)
                  | error e' =>
                      rw [hx] at hrun
                      cases hrun
                      exact joinHandler_fails ⟨hctl, hh⟩ he hx

/-- With the storage object open, no check of the handler fails. -/
theorem JoinCall.not_fails {s : State} (hwf : WellFormed s) (h : History s)
    (hcalls : ∀ st, st < s.storageCount → JoinCall s st (s.storages st)) {e : Check}
    (he : e ∈ joinChecks) : ¬ Fails s e := by
  have hcall : ∀ {c p o rest i st ret}, AtJoin s c p o rest i st ret →
      JoinCall s st (s.storages st) := by
    intro c p o rest i st ret hat
    exact hcalls st ((hwf.closure c).handlerFor o _ hat.2).2
  simp only [joinChecks, List.mem_cons, List.not_mem_nil, or_false] at he
  rcases he with rfl | rfl | rfl | rfl
  · rintro ⟨c, p, o, rest, i, st, ret, hat, hitem⟩
    obtain ⟨⟨hlt, rfl, -⟩, hheard, -⟩ := (hcall hat).at_join hwf h hat
    rw [(hcall hat).item i hlt, said, hheard] at hitem
    cases hitem
  · rintro ⟨c, p, o, rest, i, st, ret, hat, hleft⟩
    rw [(hcall hat).left] at hleft
    cases hleft
  · rintro ⟨c, p, o, rest, i, st, ret, hat, -, htotal⟩
    rw [(hcall hat).total] at htotal
    cases htotal
  · rintro ⟨c, p, o, rest, i, st, ret, total, v, hat, hitem, hone, htotal, hvs⟩
    obtain ⟨⟨hlt, -, -⟩, -, -⟩ := (hcall hat).at_join hwf h hat
    rw [(hcall hat).total, Option.some.injEq] at htotal
    subst htotal
    have hall : ∀ j, j < (s.storages st).inputs.length →
        (Function.update (s.storages st).items i (some v) j).isSome := by
      intro j hj
      by_cases hji : j = i
      · simp [hji]
      · rw [Function.update_of_ne hji]
        by_contra hnone
        have hj' : j ∈ missing (s.storages st) := mem_missing.mpr ⟨hj, by simpa using hnone⟩
        have hi' : i ∈ missing (s.storages st) := mem_missing.mpr ⟨hlt, hitem⟩
        have htwo := Finset.one_lt_card.mpr ⟨j, hj', i, hi', hji⟩
        rw [(hcall hat).left, Option.some.injEq] at hone
        omega
    have hsome := collect_isSome hall
    rw [hvs] at hsome
    cases hsome

/-! ## The result -/

/-- What holds of the promise that a call of `join_promises` returned, unless user code has
settled it. The `i`th handler is that of the closure `x.firstClient + i`. -/
structure Collected (s : State) (x : Storage) : Prop where
  settled : (s.promises x.ret).outcome.isSome ↔ ∀ i (hi : i < x.inputs.length),
    ∃ v, (x.inputs[i], .resolved v) ∈ (s.closures (x.firstClient + i)).heard
  reached : ∀ i (hi : i < x.inputs.length) v,
    (s.closures (x.firstClient + i)).bornDuring = false →
    (s.promises x.inputs[i]).outcome = some (.resolved v) →
    (s.closures (x.firstClient + i)).bornAt < (s.promises x.inputs[i]).dispatches →
    (x.inputs[i], .resolved v) ∈ (s.closures (x.firstClient + i)).heard
  value : ∀ o, (s.promises x.ret).outcome = some o → ∃ vs, o = .resolved (.tuple vs) ∧
    vs.length = x.inputs.length ∧ ∀ i (hi : i < x.inputs.length),
      ∃ v, (s.promises x.inputs[i]).outcome = some (.resolved v) ∧ vs[i]? = some (variantArg v)
  rejected : ∀ i (hi : i < x.inputs.length) e,
    (s.promises x.inputs[i]).outcome = some (.rejected e) → (s.promises x.ret).outcome = none

theorem tale_expecting {x : Closure} (h : Tale x) (hheard : x.heard = [])
    (hplace : x.place ≠ .detached) : Expecting x := by
  have hanswered : ∀ {o f}, ¬ Answered x o f := by
    intro o f ha
    cases ha.heard.symm.trans hheard
  have hpassed : ¬ Passed x := by
    intro hp
    cases hp with
    | source o hh hgiven hruns hreplies => cases hh.symm.trans hheard
    | followed o f q o' hh hgiven hruns hreplies => cases hh.symm.trans hheard
  cases hpl : x.place with
  | detached => exact absurd hpl hplace
  | waiting p => exact ⟨.inl ⟨p, hpl⟩, hheard⟩
  | taken => exact ⟨.inr hpl, hheard⟩
  | passing =>
      rw [Tale, hpl] at h
      exact absurd h hpassed
  | finished =>
      rw [Tale, hpl] at h
      rcases h with hp | ⟨⟨o, f, ha⟩, -⟩
      · exact absurd hp hpassed
      · exact absurd ha hanswered
  | running | replied | dropped =>
      rw [Tale, hpl] at h
      obtain ⟨⟨o, f, ha⟩, -⟩ := h
      exact absurd ha hanswered

section Result
variable {s : State} {st : StorageId}

/-- An input has called its handler when the result is stored. -/
theorem JoinCall.heard_iff (hwf : WellFormed s) (h : History s)
    (hcall : JoinCall s st (s.storages st)) {i : ℕ} (hi : i < (s.storages st).inputs.length)
    (v : DiValue) :
    ((s.storages st).inputs[i], .resolved v) ∈
        (s.closures ((s.storages st).firstClient + i)).heard ↔
      (s.storages st).items i = some (variantArg v) ∧
        (s.promises (s.storages st).inputs[i]).outcome = some (.resolved v) := by
  have hclient := hcall.client i hi
  have hc := hwf.lt_of_onResolve hclient.onResolve
  rw [hcall.item i hi]
  rcases tale_heard (h.chain.tale _ hc) with hnil | ⟨o, l, hcons⟩
  · rw [said, hnil]
    simp
  · have hmem : ((s.storages st).inputs[i], o) ∈
        (s.closures ((s.storages st).firstClient + i)).heard := by
      rw [hcons, hclient.source]
      simp
    have hout := h.heard_outcome hmem
    constructor
    · intro hv
      have hv' : o = .resolved v := Option.some.inj (hout.symm.trans (h.heard_outcome hv))
      refine ⟨?_, h.heard_outcome hv⟩
      rw [said, hcons, hv']
      rfl
    · intro hv
      have hv' := hv.2
      rw [hout, Option.some.injEq] at hv'
      rw [← hv']
      exact hmem

/-- With no result missing the promise is resolved, once the last handler is back. -/
theorem JoinCall.settled_of_heard (hwf : WellFormed s) (h : History s) (hrest : AtRest s)
    (hcall : JoinCall s st (s.storages st))
    (hheard : ∀ i (hi : i < (s.storages st).inputs.length), ∃ v,
      ((s.storages st).inputs[i], .resolved v) ∈
        (s.closures ((s.storages st).firstClient + i)).heard) :
    (s.promises (s.storages st).ret).outcome.isSome := by
  have hempty : missing (s.storages st) = ∅ := by
    apply Finset.eq_empty_of_forall_notMem
    intro i hi
    obtain ⟨hlt, hnone⟩ := mem_missing.mp hi
    obtain ⟨v, hv⟩ := hheard i hlt
    rw [((hcall.heard_iff hwf h hlt v).mp hv).1] at hnone
    cases hnone
  rcases hcall.done hempty with hsome | ⟨c, i, hplace, hchosen⟩
  · exact hsome
  · have hc := hwf.lt_of_place (c := c) (by simp [hplace])
    rcases hrest c hc with hrested | ⟨-, p, o, d, rest, hctl⟩
    · rcases hrested with ⟨p, hp⟩ | hp | hp | hp <;> cases hplace.symm.trans hp
    · obtain ⟨-, f, -, huser, -⟩ := hwf.calling p o c d rest hctl
      cases hchosen.symm.trans huser

theorem JoinCall.collected (hwf : WellFormed s) (h : History s) (hrest : AtRest s)
    (hprompt : Prompt s) (hcall : JoinCall s st (s.storages st))
    (hdirect : (s.promises (s.storages st).ret).settledBy ≠ some .direct) :
    Collected s (s.storages st) := by
  have hby : ∀ o, (s.promises (s.storages st).ret).outcome = some o →
      (s.promises (s.storages st).ret).settledBy = some (.join st) := by
    intro o ho
    have hsome : (s.promises (s.storages st).ret).outcome.isSome := by rw [ho]; rfl
    obtain ⟨origin, horigin⟩ := Option.isSome_iff_exists.mp (h.dated _ hsome).2
    have hfits := h.derivation.origin _ origin hsome horigin
    rw [hcall.role] at hfits
    cases origin with
    | direct => exact absurd horigin hdirect
    | closure c => cases hfits
    | any => cases hfits
    | join st' =>
        cases hfits
        exact horigin
  have hheard : ∀ o, (s.promises (s.storages st).ret).outcome = some o →
      ∀ i (hi : i < (s.storages st).inputs.length), ∃ v,
        (s.storages st).items i = some (variantArg v) ∧
        (s.promises (s.storages st).inputs[i]).outcome = some (.resolved v) := by
    intro o ho i hi
    obtain ⟨hempty, -⟩ := hcall.value o ho (hby o ho)
    have hitem : (s.storages st).items i ≠ none := by
      intro hnone
      have hmem : i ∈ missing (s.storages st) := mem_missing.mpr ⟨hi, hnone⟩
      rw [hempty] at hmem
      cases hmem
    have hclient := hcall.client i hi
    rcases tale_heard (h.chain.tale _ (hwf.lt_of_onResolve hclient.onResolve)) with
      hnil | ⟨o', l, hcons⟩
    · rw [hcall.item i hi, said, hnil] at hitem
      exact absurd rfl hitem
    · cases o' with
      | rejected e =>
          rw [hcall.item i hi, said, hcons] at hitem
          exact absurd rfl hitem
      | resolved v =>
          refine ⟨v, (hcall.heard_iff hwf h hi v).mp ?_⟩
          rw [hcons, hclient.source]
          exact List.mem_cons_self ..
  refine ⟨⟨?_, hcall.settled_of_heard hwf h hrest⟩, ?_, ?_, ?_⟩
  · intro hsome i hi
    obtain ⟨o, ho⟩ := Option.isSome_iff_exists.mp hsome
    obtain ⟨v, hv⟩ := hheard o ho i hi
    exact ⟨v, (hcall.heard_iff hwf h hi v).mpr hv⟩
  · intro i hi v hborn hv hlt
    have hclient := hcall.client i hi
    have htale := h.chain.tale _ (hwf.lt_of_onResolve hclient.onResolve)
    rcases tale_heard htale with hnil | ⟨o, l, hcons⟩
    · have hcurrent := hprompt.current _ (tale_expecting htale hnil hclient.place) hborn
      rw [hclient.source] at hcurrent
      omega
    · have hmem : ((s.storages st).inputs[i], o) ∈
          (s.closures ((s.storages st).firstClient + i)).heard := by
        rw [hcons, hclient.source]
        exact List.mem_cons_self ..
      have hout := h.heard_outcome hmem
      rw [hv, Option.some.injEq] at hout
      rw [hout]
      exact hmem
  · intro o ho
    obtain ⟨-, vs, hvs, heq⟩ := hcall.value o ho (hby o ho)
    have hmap := collect_eq_some.mp hvs
    refine ⟨vs, heq, ?_, ?_⟩
    · simpa using (congrArg List.length hmap).symm
    · intro i hi
      obtain ⟨v, hitem, hv⟩ := hheard o ho i hi
      refine ⟨v, hv, ?_⟩
      have hget := congrArg (·[i]?) hmap
      simp only [List.getElem?_map, List.getElem?_range hi, Option.map_some, hitem] at hget
      cases hvi : vs[i]? with
      | none =>
          rw [hvi] at hget
          cases hget
      | some w =>
          rw [hvi] at hget
          simpa using hget.symm
  · intro i hi e he
    cases ho : (s.promises (s.storages st).ret).outcome with
    | none => rfl
    | some o =>
        obtain ⟨v, -, hv⟩ := hheard o ho i hi
        cases he.symm.trans hv

end Result

/-- No check of `di_promise_join_handler` fails; and for every call of `join_promises` with
at least one input, the promise it returned stays as it is once it is settled, and is
settled as `Collected` says unless user code settles it. -/
theorem join_promises_collects {s : State} (hrun : Run .all {} s) :
    (∀ a e, exec a s = some (.error e) → e ∉ joinChecks) ∧
    ∀ st, st < s.storageCount →
      (∀ o, (s.promises (s.storages st).ret).outcome = some o → ∀ s', Run .all s s' →
        (s'.promises (s.storages st).ret).outcome = some o) ∧
      ((s.promises (s.storages st).ret).settledBy ≠ some .direct →
        Collected s (s.storages st)) := by
  have hall : History s ∧ Joins s ∧ Prompt s := by
    refine hrun.invariant (P := fun s => History s ∧ Joins s ∧ Prompt s)
      ⟨history_init, joins_init, prompt_init⟩ ?_
    intro t t' hwf h hmove
    exact ⟨h.1.move hwf hmove, h.2.1.move hwf h.1 hmove, h.2.2.move hwf h.1.chain hmove⟩
  obtain ⟨h, hjoins, hprompt⟩ := hall
  have hwf := hrun.wellFormed
  have hcalls : ∀ st, st < s.storageCount → JoinCall s st (s.storages st) := by
    intro st hst
    rcases hjoins st with ⟨hnone, -⟩ | hcall
    · have hopen := run_opened hrun st hst
      rw [hnone] at hopen
      cases hopen
    · exact hcall
  refine ⟨?_, ?_⟩
  · intro a e hexec he
    exact JoinCall.not_fails hwf h hcalls he (exec_fails he hexec)
  · intro st hst
    refine ⟨?_, (hcalls st hst).collected hwf h (run_atRest hrun) hprompt⟩
    intro o ho s' hmore
    exact (moves_persist hwf (hmore.moves hwf) _).outcome o ho

/-- The promise 0 is given twice and the promise 1 once. -/
def joined : List Action :=
  [.newPromise, .newPromise, .joinPromises [0, 1, 0], .resolve 1 (.int 2), .resolve 0 (.int 1),
    .startIdle, .idleLoop, .callNext, .callNext, .endDispatch, .idleLoop, .endDispatch, .idleLoop,
    .endDispatch, .idleLoop, .callNext]

theorem join_promises_collects_joined :
    ∃ s, runAll joined {} = some s ∧
      (s.promises 2).outcome = some (.resolved (.tuple [.int 1, .int 2, .int 1])) ∧
      Collected s (s.storages 0) := by
  refine ⟨_, rfl, rfl, ?_⟩
  have hrun : Run .all {} _ := run_of_runAll (l := joined) rfl
  exact ((join_promises_collects hrun).2 0 (by decide)).2 nofun

/-- The promise 0 is resolved with a value that is itself a variant. -/
def joinedVariant : List Action :=
  [.newPromise, .joinPromises [0], .resolve 0 (.variant (.int 5)), .startIdle, .idleLoop, .callNext]

/-- The tuple has the value inside the variant. -/
theorem join_promises_unwraps :
    ∃ s, runAll joinedVariant {} = some s ∧ (s.storages 0).inputs = [0] ∧
      (s.storages 0).ret = 1 ∧ (s.closures 0).bornDuring = false ∧
      (s.promises 1).settledBy = some (.join 0) ∧
      (s.promises 0).outcome = some (.resolved (.variant (.int 5))) ∧
      (s.promises 1).outcome ≠ some (.resolved (.tuple [.variant (.int 5)])) := by
  refine ⟨_, rfl, rfl, rfl, rfl, rfl, rfl, ?_⟩
  intro h
  cases h

end Deai.JoinPromises
