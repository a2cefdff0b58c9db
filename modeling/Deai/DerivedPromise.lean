import Deai.PromiseTurns

/-!
# The promises that `then`, `catch` and `finally` return

A derived promise is settled by its closure, once, with what the source and the
handler say, or with the outcome of the promise that the handler has returned.
-/
namespace Deai.DerivedPromise
open Value EventPromise PromiseSteps PromiseRuns PromiseCalls PromiseQueue PromiseHandlers
  PromiseChain PromiseTurns Relation

/-! ## Closures and the promises they are for -/

structure Registry (s : State) : Prop where
  role : ∀ d c, (s.promises d).role = .derived c →
    c < s.closureCount ∧ (s.closures c).target = d
  target : ∀ c, c < s.closureCount →
    (s.closures c).target < s.promiseCount ∧ (s.promises (s.closures c).target).role = .derived c
  any : ∀ c ret, c < s.closureCount → (s.closures c).onResolve = some (.any ret) →
    ret < s.promiseCount ∧ (s.promises ret).role = .any
  join : ∀ c i st ret, c < s.closureCount → (s.closures c).onResolve = some (.join i st ret) →
    ret < s.promiseCount ∧ (s.promises ret).role = .join st
  reject : ∀ c h, c < s.closureCount → (s.closures c).onReject = some h → ∃ f, h = .user f

theorem registry_init : Registry {} := ⟨nofun, nofun, nofun, nofun, nofun⟩

theorem Registry.move {r : Rules} {s s' : State} (hwf : WellFormed s) (hchain : Chain s)
    (h : Registry s) (hmove : Move r s s') : Registry s' := by
  obtain ⟨hclosures, hpromises⟩ := move_counts hmove
  have hbirth : ∀ c, c < s.closureCount → SameBirth (s.closures c) (s'.closures c) :=
    fun c hc => (move_turn hchain hmove hc).sameBirth
  have hrole : ∀ q, q < s.promiseCount →
      q < s'.promiseCount ∧ (s'.promises q).role = (s.promises q).role :=
    fun q hq => ⟨Nat.lt_of_lt_of_le hq hpromises, move_role hmove hq⟩
  refine ⟨?_, ?_, ?_, ?_, ?_⟩
  · intro d c hd
    by_cases hlt : d < s.promiseCount
    · rw [(hrole d hlt).2] at hd
      obtain ⟨hc, htarget⟩ := h.role d c hd
      exact ⟨Nat.lt_of_lt_of_le hc hclosures, (hbirth c hc).target.trans htarget⟩
    · obtain ⟨p, res, rej, hp, rfl, rfl, rfl⟩ :=
        move_newRole hwf hmove (Nat.le_of_not_lt hlt) hd
      rw [derive_closure p res rej s hp]
      exact ⟨Nat.lt_succ_self _, rfl⟩
  · intro c hc
    by_cases hlt : c < s.closureCount
    · obtain ⟨htarget, hrole'⟩ := h.target c hlt
      rw [(hbirth c hlt).target, (hrole _ htarget).2]
      exact ⟨(hrole _ htarget).1, hrole'⟩
    · obtain ⟨p, res, rej, hp, -, -, rfl, rfl⟩ := move_birth hmove (Nat.le_of_not_lt hlt) hc
      rw [derive_closure p res rej s hp]
      exact ⟨Nat.lt_succ_self _, derive_role p res rej s⟩
  · intro c ret hc hon
    by_cases hlt : c < s.closureCount
    · rw [(hbirth c hlt).onResolve] at hon
      obtain ⟨hret, hrole'⟩ := h.any c ret hlt hon
      exact ⟨(hrole ret hret).1, (hrole ret hret).2.trans hrole'⟩
    · obtain ⟨p, res, rej, hp, hres, -, rfl, rfl⟩ := move_birth hmove (Nat.le_of_not_lt hlt) hc
      rw [derive_closure p res rej s hp] at hon
      have hreg := (hres _ hon).1
      have hret := hwf.lt_of_role (p := ret) (by simp [hreg])
      exact ⟨(hrole ret hret).1, (hrole ret hret).2.trans hreg⟩
  · intro c i st ret hc hon
    by_cases hlt : c < s.closureCount
    · rw [(hbirth c hlt).onResolve] at hon
      obtain ⟨hret, hrole'⟩ := h.join c i st ret hlt hon
      exact ⟨(hrole ret hret).1, (hrole ret hret).2.trans hrole'⟩
    · obtain ⟨p, res, rej, hp, hres, -, rfl, rfl⟩ := move_birth hmove (Nat.le_of_not_lt hlt) hc
      rw [derive_closure p res rej s hp] at hon
      have hreg := (hres _ hon).1
      have hret := hwf.lt_of_role (p := ret) (by simp [hreg])
      exact ⟨(hrole ret hret).1, (hrole ret hret).2.trans hreg⟩
  · intro c f hc hon
    by_cases hlt : c < s.closureCount
    · rw [(hbirth c hlt).onReject] at hon
      exact h.reject c f hlt hon
    · obtain ⟨p, res, rej, hp, -, hrej, rfl, rfl⟩ := move_birth hmove (Nat.le_of_not_lt hlt) hc
      rw [derive_closure p res rej s hp] at hon
      exact hrej f hon

/-! ## What a closure settles its promise with -/

/-- The outcome for the promise of a closure, from what the closure has heard and what
its handler has answered. -/
inductive Result (x : Closure) : Outcome → Prop where
  | passed (o : Outcome) (hheard : x.heard = [(x.source, o)]) (hgiven : given x o = none) :
      Result x o
  | threw (o : Outcome) (h : Handler) (e : ObjRef) (hheard : x.heard = [(x.source, o)])
      (hgiven : given x o = some h) (hreplies : x.replies = [.threw e]) : Result x (.rejected e)
  | returned (o : Outcome) (h : Handler) (v : DiValue) (hheard : x.heard = [(x.source, o)])
      (hgiven : given x o = some h) (hreplies : x.replies = [.value v]) : Result x (.resolved v)
  | followed (o : Outcome) (h : Handler) (q : ObjRef) (o' : Outcome)
      (hheard : x.heard = [(x.source, o), (q, o')]) (hgiven : given x o = some h)
      (hreplies : x.replies = [.promise q]) : Result x o'

theorem verdict_result {x : Closure} {o : Outcome} (htale : Tale x) (hv : Verdict x o) :
    Result x o := by
  rcases hv with ⟨hplace, p, hlast⟩ | ⟨hplace, hlast⟩
  · have hpassed : Passed x := by simpa [Tale, hplace] using htale
    cases hpassed with
    | source o' hheard hgiven hruns hreplies =>
        rw [hheard] at hlast
        cases hlast
        exact .passed o hheard hgiven
    | followed o₀ f q o' hheard hgiven hruns hreplies =>
        rw [hheard] at hlast
        cases hlast
        exact .followed o₀ f p o hheard hgiven hreplies
  · obtain ⟨⟨o₀, f, ha⟩, y, hy⟩ := tale_replied hplace htale
    rw [hy] at hlast
    rcases hlast with ⟨e, he, rfl⟩ | ⟨v, hv, rfl⟩
    · cases he
      exact .threw o₀ f e ha.heard ha.given hy
    · cases hv
      exact .returned o₀ f v ha.heard ha.given hy

theorem Result.finish {x : Closure} {o : Outcome} (h : Result x o) :
    Result {x with promise := none, place := .finished} o := by
  cases h with
  | passed o hheard hgiven => exact .passed o hheard hgiven
  | threw o f e hheard hgiven hreplies => exact .threw o f e hheard hgiven hreplies
  | returned o f v hheard hgiven hreplies => exact .returned o f v hheard hgiven hreplies
  | followed o₀ f q _ hheard hgiven hreplies => exact .followed o₀ f q o hheard hgiven hreplies

/-- The closure `c` has settled the promise `d`, and will not change what it says. -/
structure SettledBy (s : State) (d : ObjRef) (o : Outcome) (c : ClosureId) : Prop where
  exists_ : c < s.closureCount
  target : (s.closures c).target = d
  result : Result (s.closures c) o
  done : Verdict (s.closures c) o ∨ (s.closures c).place = .finished
  before : ∀ e ∈ (s.closures c).heard, (s.promises e.1).settledAt < (s.promises d).settledAt

/-- Who may settle a promise of a role. -/
def Fits : Role → Origin → Prop
  | _, .direct => True
  | role, .closure c => role = .derived c
  | role, .any => role = .any
  | role, .join st => role = .join st

structure Derivation (s : State) : Prop where
  promise : ∀ c, c < s.closureCount → (s.closures c).place ≠ .finished →
    (s.closures c).promise = some (s.closures c).target
  finished : ∀ c, (s.closures c).place = .finished →
    (s.promises (s.closures c).target).outcome.isSome
  heard : ∀ c, ∀ e ∈ (s.closures c).heard, (c, e.2) ∈ (s.promises e.1).called
  origin : ∀ d origin, (s.promises d).outcome.isSome → (s.promises d).settledBy = some origin →
    Fits (s.promises d).role origin
  settled : ∀ d o c, (s.promises d).outcome = some o →
    (s.promises d).settledBy = some (.closure c) → SettledBy s d o c

theorem derivation_init : Derivation {} := ⟨nofun, nofun, nofun, nofun, nofun⟩

/-- All that is known about the past of a state. -/
structure History (s : State) : Prop where
  chain : Chain s
  ledger : Ledger s
  dated : Dated s
  registry : Registry s
  derivation : Derivation s

theorem history_init : History {} :=
  ⟨chain_init, ledger_init, nofun, registry_init, derivation_init⟩

theorem History.heard_outcome {s : State} (h : History s) {c : ClosureId} {e : ObjRef × Outcome}
    (he : e ∈ (s.closures c).heard) : (s.promises e.1).outcome = some e.2 :=
  h.ledger.told e.1 (c, e.2) (h.derivation.heard c e he)

theorem verdict_place {x : Closure} {o : Outcome} (hv : Verdict x o) :
    x.place = .passing ∨ x.place = .replied := by
  rcases hv with ⟨hplace, -⟩ | ⟨hplace, -⟩
  · exact .inl hplace
  · exact .inr hplace

/-- The handler that a closure is running is one it was given. -/
theorem History.serving {s : State} (h : History s) (hwf : WellFormed s) {c : ClosureId}
    {f : Handler} {p : ObjRef} {o : Outcome} (hserve : Serving s c f p o) :
    c < s.closureCount ∧ (s.closures c).source = p ∧ given (s.closures c) o = some f ∧
      (s.closures c).heard = [(p, o)] := by
  obtain ⟨hplace, hchosen, hlast⟩ := hserve
  have hc := hwf.lt_of_place (c := c) (by simp [hplace])
  obtain ⟨⟨o', f', ha⟩, -⟩ := tale_running hplace (h.chain.tale c hc)
  rw [ha.heard] at hlast
  cases hlast
  cases ha.chosen.symm.trans hchosen
  exact ⟨hc, rfl, ha.given, ha.heard⟩

/-- A built-in handler is one for resolved promises. -/
theorem History.builtin {s : State} (h : History s) {c : ClosureId} (hc : c < s.closureCount)
    {f : Handler} {o : Outcome} (hgiven : given (s.closures c) o = some f)
    (hf : ∀ g, f ≠ .user g) : (∃ v, o = .resolved v) ∧ (s.closures c).onResolve = some f := by
  cases o with
  | resolved v => exact ⟨⟨v, rfl⟩, hgiven⟩
  | rejected e =>
      obtain ⟨g, rfl⟩ := h.registry.reject c f hc hgiven
      exact absurd rfl (hf g)

theorem History.fits {s : State} (h : History s) (hwf : WellFormed s) {d : ObjRef} {o : Outcome}
    {origin : Origin} (hby : Settles s d o origin) : Fits (s.promises d).role origin := by
  cases origin with
  | direct => trivial
  | closure c =>
      obtain ⟨hd, hv⟩ := hby
      have hplace := verdict_place hv
      have hc := hwf.lt_of_place (c := c) (by rcases hplace with hpl | hpl <;> simp [hpl])
      have htarget := h.derivation.promise c hc (by rcases hplace with hpl | hpl <;> simp [hpl])
      rw [hd, Option.some.injEq] at htarget
      rw [htarget]
      exact (h.registry.target c hc).2
  | any =>
      obtain ⟨c, q, o', hserve, -⟩ := hby
      obtain ⟨hc, -, hgiven, -⟩ := h.serving hwf hserve
      exact (h.registry.any c d hc (h.builtin hc hgiven nofun).2).2
  | join st =>
      obtain ⟨c, i, q, o', total, vs, hserve, -⟩ := hby
      obtain ⟨hc, -, hgiven, -⟩ := h.serving hwf hserve
      exact (h.registry.join c i st d hc (h.builtin hc hgiven nofun).2).2

theorem SettledBy.move {r : Rules} {s s' : State} (hwf : WellFormed s) (h : History s)
    (hmove : Move r s s') {d : ObjRef} {o : Outcome} {c : ClosureId}
    (ho : (s.promises d).outcome = some o) (hs : SettledBy s d o c) : SettledBy s' d o c := by
  have hbirth := (move_turn h.chain hmove hs.exists_).sameBirth
  have hbefore : ∀ e ∈ (s.closures c).heard,
      (s'.promises e.1).settledAt < (s'.promises d).settledAt := by
    intro e he
    have hd := (move_persists hwf hmove d).settledAt (by rw [ho]; rfl)
    have hsrc := (move_persists hwf hmove e.1).settledAt (by rw [h.heard_outcome he]; rfl)
    rw [hd, hsrc]
    exact hs.before e he
  have hplace : (s.closures c).place = .passing ∨ (s.closures c).place = .replied ∨
      (s.closures c).place = .finished := by
    rcases hs.done with hv | hfin
    · rcases verdict_place hv with hpl | hpl
      · exact .inl hpl
      · exact .inr (.inl hpl)
    · exact .inr (.inr hfin)
  have hkeep : (s'.closures c).heard = (s.closures c).heard ∧ Result (s'.closures c) o ∧
      (Verdict (s'.closures c) o ∨ (s'.closures c).place = .finished) := by
    have hturn := move_turn h.chain hmove hs.exists_
    generalize s'.closures c = x at hturn ⊢
    cases hturn with
    | same => exact ⟨rfl, hs.result, hs.done⟩
    | placed pl hold hnot hpl =>
        rcases hs.done with hv | hfin
        · exact absurd hv (hnot o)
        · exact absurd hfin hold
    | heard p o' rest hctl hcalled =>
        have htaken := (h.chain.taken c).mp (by simp [hctl, Control.rest])
        simp [htaken] at hplace
    | replied y hrunning => simp [hrunning] at hplace
    | finished d' o' hd hv hout => exact ⟨rfl, hs.result.finish, .inr rfl⟩
  obtain ⟨hheard, hresult, hdone⟩ := hkeep
  refine ⟨Nat.lt_of_lt_of_le hs.exists_ (move_counts hmove).1, hbirth.target.trans hs.target,
    hresult, hdone, ?_⟩
  rw [hheard]
  exact hbefore

theorem Derivation.move {r : Rules} {s s' : State} (hwf : WellFormed s) (h : History s)
    (hmove : Move r s s') : Derivation s' := by
  have hwf' := hmove.wellFormed hwf
  have hold : ∀ c, ¬ c < s.closureCount → (s'.closures c).place = .detached ∧
      (s'.closures c).heard = [] := by
    intro c hc
    by_cases hlt : c < s'.closureCount
    · obtain ⟨p, res, rej, hp, -, -, rfl, rfl⟩ := move_birth hmove (Nat.le_of_not_lt hc) hlt
      rw [derive_closure p res rej s hp]
      exact ⟨rfl, rfl⟩
    · rw [hwf'.freshClosure c (Nat.le_of_not_lt hlt)]
      exact ⟨rfl, rfl⟩
  refine ⟨?_, ?_, ?_, ?_, ?_⟩
  · intro c hc hplace
    by_cases hlt : c < s.closureCount
    · have hturn := move_turn h.chain hmove hlt
      generalize s'.closures c = x at hturn hplace ⊢
      cases hturn with
      | same => exact h.derivation.promise c hlt hplace
      | placed pl hne hnot hpl => exact h.derivation.promise c hlt hne
      | heard p o rest hctl hcalled =>
          have htaken := (h.chain.taken c).mp (by simp [hctl, Control.rest])
          exact h.derivation.promise c hlt (by simp [htaken])
      | replied y hrunning => exact h.derivation.promise c hlt (by simp [hrunning])
      | finished d o hd hv hout => exact absurd rfl hplace
    · obtain ⟨p, res, rej, hp, -, -, rfl, rfl⟩ := move_birth hmove (Nat.le_of_not_lt hlt) hc
      rw [derive_closure p res rej s hp]
  · intro c hplace
    by_cases hlt : c < s.closureCount
    · have hturn := move_turn h.chain hmove hlt
      have hkeep : ∀ d, (s.promises d).outcome.isSome → (s'.promises d).outcome.isSome := by
        intro d hd
        obtain ⟨o, ho⟩ := Option.isSome_iff_exists.mp hd
        rw [(move_persists hwf hmove d).outcome o ho]
        rfl
      generalize s'.closures c = x at hturn hplace ⊢
      cases hturn with
      | same => exact hkeep _ (h.derivation.finished c hplace)
      | placed pl hne hnot hpl => exact absurd hplace hpl
      | heard p o rest hctl hcalled =>
          cases hh : (s.closures c).handlerFor o <;> simp [Closure.hear, hh] at hplace
      | replied y hrunning => cases hplace
      | finished d o hd hv hout =>
          have hne : (s.closures c).place ≠ .finished := by
            rcases verdict_place hv with hpl | hpl <;> simp [hpl]
          have htarget := h.derivation.promise c hlt hne
          rw [hd, Option.some.injEq] at htarget
          exact hkeep _ (htarget ▸ hout)
    · rw [(hold c hlt).1] at hplace
      cases hplace
  · intro c e he
    by_cases hlt : c < s.closureCount
    · have hturn := move_turn h.chain hmove hlt
      have hkeep : ∀ e ∈ (s.closures c).heard, (c, e.2) ∈ (s'.promises e.1).called :=
        fun e he => (move_persists hwf hmove e.1).called _ (h.derivation.heard c e he)
      generalize s'.closures c = x at hturn he
      cases hturn with
      | same | placed | replied | finished => exact hkeep e he
      | heard p o rest hctl hcalled =>
          rcases List.mem_append.mp he with hin | hlast
          · exact hkeep e hin
          · rw [List.mem_singleton.mp hlast]
            exact hcalled
    · rw [(hold c hlt).2] at he
      cases he
  · intro d origin hd hby
    obtain ⟨o, ho'⟩ := Option.isSome_iff_exists.mp hd
    rcases move_settledBy hwf hmove ho' hby with ⟨ho, hby⟩ | ⟨-, hlt, hset, -⟩
    · have hlt : d < s.promiseCount := by
        by_contra hge
        rw [hwf.freshPromise d (Nat.le_of_not_lt hge)] at ho
        cases ho
      rw [move_role hmove hlt]
      exact h.derivation.origin d origin (by rw [ho]; rfl) hby
    · rw [move_role hmove hlt]
      exact h.fits hwf hset
  · intro d o c ho' hby
    rcases move_settledBy hwf hmove ho' hby with ⟨ho, hby⟩ | ⟨ho, hlt, hset, m, rfl⟩
    · exact (h.derivation.settled d o c ho hby).move hwf h hmove ho
    · obtain ⟨hd, hv⟩ := hset
      have hplace := verdict_place hv
      have hc := hwf.lt_of_place (c := c) (by rcases hplace with hpl | hpl <;> simp [hpl])
      have htarget := h.derivation.promise c hc (by rcases hplace with hpl | hpl <;> simp [hpl])
      rw [hd, Option.some.injEq] at htarget
      refine ⟨hc, htarget.symm, verdict_result (h.chain.tale c hc) hv, .inl hv, ?_⟩
      intro e he
      have hout := h.heard_outcome he
      have hne : e.1 ≠ d := by
        intro heq
        rw [heq, ho] at hout
        cases hout
      simp only [Function.update_self, Function.update_of_ne hne, settledAt_settled]
      exact (h.dated e.1 (by rw [hout]; rfl)).1

theorem History.move {r : Rules} {s s' : State} (hwf : WellFormed s) (h : History s)
    (hmove : Move r s s') : History s' :=
  ⟨h.chain.move hwf hmove, h.ledger.move hwf hmove, h.dated.move hmove,
    h.registry.move hwf h.chain hmove, Derivation.move hwf h hmove⟩

theorem run_history {r : Rules} {s : State} (hrun : Run r {} s) : History s :=
  hrun.invariant history_init fun _ _ hwf h hmove => h.move hwf hmove

/-! ## The value of a derived promise -/

/-- What a promise derived from `x.source` is settled with, from the outcomes of the
promises and the answer of the handler. -/
inductive DerivedOutcome (s : State) (x : Closure) : Outcome → Prop where
  | passed (o : Outcome) (hs : (s.promises x.source).outcome = some o)
      (hgiven : given x o = none) : DerivedOutcome s x o
  | threw (o : Outcome) (h : Handler) (e : ObjRef) (hs : (s.promises x.source).outcome = some o)
      (hgiven : given x o = some h) (hreplies : x.replies = [.threw e]) :
      DerivedOutcome s x (.rejected e)
  | returned (o : Outcome) (h : Handler) (v : DiValue)
      (hs : (s.promises x.source).outcome = some o) (hgiven : given x o = some h)
      (hreplies : x.replies = [.value v]) : DerivedOutcome s x (.resolved v)
  | followed (o : Outcome) (h : Handler) (q : ObjRef) (o' : Outcome)
      (hs : (s.promises x.source).outcome = some o) (hgiven : given x o = some h)
      (hreplies : x.replies = [.promise q]) (hq : (s.promises q).outcome = some o')
      (hbefore : (s.promises q).settledAt < (s.promises x.target).settledAt) :
      DerivedOutcome s x o'

theorem tale_runs {x : Closure} (h : Tale x) : x.runs ≤ 1 := by
  have hanswered : (∃ o h, Answered x o h) → x.runs ≤ 1 := by
    intro ha
    obtain ⟨o, f, ha⟩ := ha
    exact le_of_eq ha.runs
  have hfresh : Fresh x → x.runs ≤ 1 := fun hf => by simp [hf.runs]
  have hpassed : Passed x → x.runs ≤ 1 := by
    intro hp
    cases hp with
    | source o hheard hgiven hruns hreplies => simp [hruns]
    | followed o f q o' hheard hgiven hruns hreplies => exact le_of_eq hruns
  unfold Tale at h
  split at h
  · exact hfresh h
  · exact h.2.elim hfresh fun hf => hanswered hf.1
  · exact h.elim hfresh fun hf => hanswered hf.1
  · exact hanswered h.1
  · exact hpassed h
  · exact hanswered h.1
  · exact h.elim hpassed fun hf => hanswered hf.1
  · exact hanswered h.1

/-- Every promise that the result speaks of was settled before. -/
theorem SettledBy.derived {s : State} (h : History s) {d : ObjRef} {c : ClosureId} {o : Outcome}
    (hset : SettledBy s d o c) : DerivedOutcome s (s.closures c) o := by
  have hheard : ∀ e ∈ (s.closures c).heard, (s.promises e.1).outcome = some e.2 :=
    fun e he => h.heard_outcome he
  have hbefore := hset.before
  rw [← hset.target] at hbefore
  cases hset.result with
  | passed _ hh hgiven => exact .passed o (hheard (_, o) (by simp [hh])) hgiven
  | threw o₀ f e hh hgiven hreplies =>
      exact .threw o₀ f e (hheard (_, o₀) (by simp [hh])) hgiven hreplies
  | returned o₀ f v hh hgiven hreplies =>
      exact .returned o₀ f v (hheard (_, o₀) (by simp [hh])) hgiven hreplies
  | followed o₀ f q _ hh hgiven hreplies =>
      exact .followed o₀ f q o (hheard (_, o₀) (by simp [hh])) hgiven hreplies
        (hheard (q, o) (by simp [hh])) (hbefore (q, o) (by simp [hh]))

theorem Result.heard_source {x : Closure} {o : Outcome} (hr : Result x o) :
    ∃ o₀, (x.source, o₀) ∈ x.heard := by
  cases hr with
  | passed _ hh hgiven => exact ⟨o, by simp [hh]⟩
  | threw o₀ f e hh hgiven hreplies => exact ⟨o₀, by simp [hh]⟩
  | returned o₀ f v hh hgiven hreplies => exact ⟨o₀, by simp [hh]⟩
  | followed o₀ f q _ hh hgiven hreplies => exact ⟨o₀, by simp [hh]⟩

/-- For every promise `d` derived by the closure `c`: its handler runs at most once; once
`d` is settled it stays as it is; and if it was not settled from outside, its source
had been settled and had called the closure, and `d` has the outcome that the source and
the handler give. -/
theorem derived_promise_outcome {s : State} (hrun : Run .all {} s) {d : ObjRef} {c : ClosureId}
    (hrole : (s.promises d).role = .derived c) :
    (s.closures c).target = d ∧ (s.closures c).runs ≤ 1 ∧
    (∀ o, (s.promises d).outcome = some o → ∀ s', Run .all s s' →
      (s'.promises d).outcome = some o ∧ (s'.promises d).settledBy = (s.promises d).settledBy) ∧
    ∀ o, (s.promises d).outcome = some o → (s.promises d).settledBy ≠ some .direct →
      (∃ o₀, (c, o₀) ∈ (s.promises (s.closures c).source).called) ∧
      (s.promises (s.closures c).source).settledAt < (s.promises d).settledAt ∧
      DerivedOutcome s (s.closures c) o := by
  have h := run_history hrun
  obtain ⟨hc, htarget⟩ := h.registry.role d c hrole
  refine ⟨htarget, tale_runs (h.chain.tale c hc), ?_, ?_⟩
  · intro o ho s' hmore
    have hpersist := moves_persist hrun.wellFormed (hmore.moves hrun.wellFormed) d
    exact ⟨hpersist.outcome o ho, hpersist.settledBy (by rw [ho]; rfl)⟩
  · intro o ho hdirect
    have hsome : (s.promises d).outcome.isSome := by rw [ho]; rfl
    obtain ⟨origin, horigin⟩ := Option.isSome_iff_exists.mp (h.dated d hsome).2
    have hfits := h.derivation.origin d origin hsome horigin
    rw [hrole] at hfits
    cases origin with
    | direct => exact absurd horigin hdirect
    | closure c' =>
        cases hfits
        have hset := h.derivation.settled d o c ho horigin
        obtain ⟨o₀, hsource⟩ := hset.result.heard_source
        exact ⟨⟨o₀, h.derivation.heard c _ hsource⟩, hset.before _ hsource, hset.derived h⟩
    | any => cases hfits
    | join st => cases hfits

/-- The handler of the promise 0 returns the promise 1, which is resolved later. -/
def following : List Action :=
  [.newPromise, .newPromise, .then 0 7, .resolve 0 .nil, .startIdle, .idleLoop, .callNext,
    .handlerReturns (.returned (.object 1)), .endDispatch, .resolve 1 (.int 5), .idleLoop, .callNext]

theorem derived_promise_outcome_following :
    ∃ s, runAll following {} = some s ∧ (s.promises 2).outcome = some (.resolved (.int 5)) ∧
      (s.closures 0).replies = [.promise 1] ∧
      DerivedOutcome s (s.closures 0) (.resolved (.int 5)) := by
  refine ⟨_, rfl, rfl, rfl, ?_⟩
  have hrun : Run .all {} _ := run_of_runAll (l := following) rfl
  exact ((derived_promise_outcome hrun (d := 2) (c := 0) rfl).2.2.2 _ rfl nofun).2.2

/-! ## No derived promise stays pending -/

/-- No handler is added to the promise that is being dispatched, and every handler can be
called. -/
def noReentryNoFailure : Rules where
  attach cur p := cur ≠ some p
  fail := False
  pop _ := True

theorem hear_place (x : Closure) (p : ObjRef) (o : Outcome) : (x.hear p o).place ≠ .dropped := by
  cases hh : x.handlerFor o <;> simp [Closure.hear, hh]

/-- A closure is dropped only when its handler could not be called. -/
theorem move_dropped {r : Rules} {s s' : State} (hmove : Move r s s') {c : ClosureId}
    (hc : (s'.closures c).place = .dropped) : (s.closures c).place = .dropped ∨ r.fail := by
  have hupdate : ∀ {c' : ClosureId} {x : Closure}, (Function.update s.closures c' x c).place =
      .dropped → x.place ≠ .dropped → (s.closures c).place = .dropped := by
    intro c' x hplace hx
    by_cases hcc : c = c'
    · subst hcc
      rw [Function.update_self] at hplace
      exact absurd hplace hx
    · rwa [Function.update_of_ne hcc] at hplace
  cases hmove with
  | derive p res rej hp hvalid hres hrej => exact .inl (hupdate hc nofun)
  | register p c' hp hc' hplace hsource hat hduring hr hrun =>
      obtain ⟨m, -, rfl⟩ := addHandler_eq hrun
      exact .inl (hupdate hc nofun)
  | follow q c' hq hplace hreply hr hrun =>
      obtain ⟨m, -, rfl⟩ := addHandler_eq hrun
      exact .inl (hupdate hc nofun)
  | settle p o origin hp hby hrun =>
      rw [(settle_frame hrun).1] at hc
      exact .inl hc
  | hear p o c' rest hctl hother => exact .inl (hupdate hc (hear_place _ p o))
  | hearJoin p o c' rest i st ret left hat hi hleft =>
      exact .inl (hupdate hc (hear_place _ p o))
  | reply c' x p o rest hctl hplace hserved hx hfail => exact .inl (hupdate hc nofun)
  | finish c' d o hd hv ho => exact .inl (hupdate hc nofun)
  | drop c' hplace hreply hfail => exact .inr hfail
  | pop n p o hctl hn hp ho hr =>
      by_cases hmem : c ∈ (s.promises p).handlers
      · have hself : (takeHandlers p o n s).closures c = {s.closures c with place := .taken} :=
          if_pos hmem
        rw [hself] at hc
        cases hc
      · have hself : (takeHandlers p o n s).closures c = s.closures c := if_neg hmem
        rw [hself] at hc
        exact .inl hc
  | _ => exact .inl hc

/-- When the queue has been drained, a promise derived from a settled source is settled,
unless its handler has returned a promise that is not. -/
theorem derived_promise_settles {s : State} (hrun : Run noReentryNoFailure {} s)
    (hidle : s.control.dispatched = none) (hn : s.eventModule.pendingCount = some 0)
    {d : ObjRef} {c : ClosureId} (hrole : (s.promises d).role = .derived c)
    (hsource : (s.promises (s.closures c).source).outcome.isSome) :
    (s.promises d).outcome.isSome ∨
      ∃ q, (s.closures c).replies = [.promise q] ∧ (s.promises q).outcome = none := by
  have h := run_history hrun
  have hqueue := run_queueInvariant hrun
  have hann : Announced s :=
    hrun.invariant announced_init fun _ _ _ h hmove => h.move (fun _ _ => id) hmove
  have hdropped : ∀ c, (s.closures c).place ≠ .dropped := by
    refine hrun.invariant (P := fun s => ∀ c, (s.closures c).place ≠ .dropped) nofun ?_
    intro t t' _ ht hmove c' hc'
    exact (move_dropped hmove hc').elim (ht c') id
  obtain ⟨hc, htarget⟩ := h.registry.role d c hrole
  have hunsettled : ∀ p, (s.closures c).place = .waiting p → (s.promises p).outcome = none := by
    intro p hplace
    by_contra hne
    have hmem := (h.chain.waiting p c).mpr hplace
    have hpend := hann.pending p (by simpa [Option.isSome_iff_ne_none] using hne)
      (List.ne_nil_of_mem hmem)
    rcases hqueue.covered p hpend with ⟨k, hk⟩ | hd
    · obtain ⟨n, hn', hkeys⟩ := hqueue.keys
      have hlt := (hkeys k).mp (by simp [hk])
      rw [Option.some.inj (hn'.symm.trans hn)] at hlt
      exact Nat.not_lt_zero k hlt
    · rw [hidle] at hd
      cases hd
  have hrested : Rested (s.closures c) := by
    apply (run_atRest hrun).rested _ hc
    intro p o c' d' rest hctl
    rw [hctl] at hidle
    cases hidle
  rcases hrested with ⟨p, hplace⟩ | hplace | hplace | hplace
  · have htale := h.chain.tale c hc
    have hpn := hunsettled p hplace
    simp only [Tale, hplace] at htale
    rcases htale with ⟨hp, hfresh | hfollow⟩
    · rw [hfresh.awaits] at hp
      rw [hp] at hpn
      rw [hpn] at hsource
      cases hsource
    · exact .inr ⟨p, hfollow.2, hpn⟩
  · have hmem := (h.chain.taken c).mpr hplace
    cases hctl : s.control with
    | outside => simp [hctl, Control.rest] at hmem
    | idle => simp [hctl, Control.rest] at hmem
    | dispatching p o rest => simp [hctl, Control.dispatched] at hidle
    | calling p o c' d' rest => simp [hctl, Control.dispatched] at hidle
  · rw [← htarget]
    exact .inl (h.derivation.finished c hplace)
  · exact absurd hplace (hdropped c)

/-- The test for `noReentryNoFailure`. -/
def allowedNoFailure (s : State) (a : Action) : Bool :=
  !entersAgain s a && match a with | .handlerReturns .failed => false | _ => true

theorem allowed_noReentryNoFailure (s : State) (a : Action) (h : allowedNoFailure s a) :
    Allowed noReentryNoFailure s a := by
  simp only [allowedNoFailure, Bool.and_eq_true] at h
  refine ⟨(allowed_noReentry s a h.1).attach, ?_, fun _ => trivial⟩
  intro ha
  subst ha
  exact absurd h.2 Bool.false_ne_true

/-- A chain of two handlers, the second of which returns a promise that is never settled. -/
def pendingTail : List Action :=
  [.newPromise, .newPromise, .then 0 7, .then 2 8, .resolve 0 .nil, .startIdle, .idleLoop,
    .callNext, .handlerReturns (.threw 4), .endDispatch, .idleLoop, .callNext, .endDispatch,
    .idleLoop, .endDispatch]

theorem derived_promise_settles_pendingTail :
    ∃ s, runWith allowedNoFailure pendingTail {} = some s ∧ s.control.dispatched = none ∧
      s.eventModule.pendingCount = some 0 ∧ ((s.promises 3).outcome.isSome ∨
        ∃ q, (s.closures 1).replies = [.promise q] ∧ (s.promises q).outcome = none) := by
  refine ⟨_, rfl, rfl, rfl, ?_⟩
  have hrun : Run noReentryNoFailure {} _ :=
    run_of_runWith allowed_noReentryNoFailure (l := pendingTail) rfl
  exact derived_promise_settles hrun rfl rfl (d := 3) (c := 1) rfl rfl

/-- The handler of the promise 0 does not accept the value. -/
def failingHandler : List Action :=
  [.newPromise, .then 0 7, .resolve 0 .nil, .startIdle, .idleLoop, .callNext,
    .handlerReturns .failed, .endDispatch, .idleLoop]

/-- The handler of the promise 0 returns the promise 0. -/
def returnsSource : List Action :=
  [.newPromise, .then 0 7, .resolve 0 .nil, .startIdle, .idleLoop, .callNext,
    .handlerReturns (.returned (.object 0)), .endDispatch, .idleLoop]

/-- After both runs `di_idle_cb` has returned, and the derived promise 1 is not settled. -/
theorem derived_promise_stuck :
    (∃ s, runAll failingHandler {} = some s ∧ s.control = .outside ∧
      s.eventModule.pendingCount = some 0 ∧ (s.promises 1).role = .derived 0 ∧
      (s.promises (s.closures 0).source).outcome.isSome ∧ ¬ ((s.promises 1).outcome.isSome ∨
        ∃ q, (s.closures 0).replies = [.promise q] ∧ (s.promises q).outcome = none)) ∧
    ∃ s, runAll returnsSource {} = some s ∧ s.control = .outside ∧
      s.eventModule.pendingCount = some 0 ∧ (s.promises 1).role = .derived 0 ∧
      (s.promises (s.closures 0).source).outcome.isSome ∧ ¬ ((s.promises 1).outcome.isSome ∨
        ∃ q, (s.closures 0).replies = [.promise q] ∧ (s.promises q).outcome = none) := by
  constructor
  · refine ⟨_, rfl, rfl, rfl, rfl, rfl, fun h => ?_⟩
    rcases h with hset | ⟨q, hq, -⟩
    · cases hset
    · cases hq
  · refine ⟨_, rfl, rfl, rfl, rfl, rfl, fun h => ?_⟩
    rcases h with hset | ⟨q, hq, hnone⟩
    · cases hset
    · cases hq
      cases hnone

end Deai.DerivedPromise
