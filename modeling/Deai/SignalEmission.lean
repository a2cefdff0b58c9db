import Deai.SignalCounts

/-!
# The handlers that an emission calls

An emission calls the handlers that it has copied at its start, whatever happens to them
before their turn.
-/
namespace Deai.SignalEmission
open Value Signal SignalRuns SignalCounts Relation

section
variable {Name World Error : Type} [DecidableEq Name] {S : Source Name World Error}
  {s s' : State Name World}

/-- Where the emissions of the next state come from. -/
inductive Continues (S : Source Name World Error) (s : State Name World) (a : Action Name) :
    Emission → Prop where
  | same (e : Emission) (he : .emission e ∈ s.stack) : Continues S s a e
  | stopped (e : Emission) (h : ObjRef) (he : .emission e ∈ s.stack)
      (ha : removesFrom S s a = some (e.signal, h)) (hh : h ∈ e.rest) :
      Continues S s a {e with stopped := h :: e.stopped}
  | new (n : Name) (x : SignalId) (ha : a = .emit n) (hx : S.member s.world n = some x)
      (halive : S.alive s.world) :
      Continues S s a ⟨x, (s.signals x).handlers, false, (s.signals x).handlers,
        activeHandles n s, [], []⟩
  | called (e : Emission) (h : ObjRef) (rest : List ObjRef) (he : .emission e ∈ s.stack)
      (hrest : e.rest = h :: rest) : Continues S s a (e.call h rest)
  | returned (e : Emission) (he : .emission e ∈ s.stack) :
      Continues S s a {e with running := false}

theorem noteStop_emission {x : SignalId} {h : ObjRef} {f : Frame} {e : Emission}
    (hf : f.noteStop x h = .emission e) :
    f = .emission e ∨ ∃ e₀, f = .emission e₀ ∧ e₀.signal = x ∧ h ∈ e₀.rest ∧
      e = {e₀ with stopped := h :: e₀.stopped} := by
  cases f with
  | removal y => cases hf
  | emission e₀ =>
      simp only [Frame.noteStop] at hf
      split_ifs at hf with hcond
      · cases hf
        exact .inr ⟨e₀, rfl, hcond.1, hcond.2, rfl⟩
      · exact .inl hf

theorem effect_continues {a : Action Name} (heff : Effect S s a s') {e : Emission}
    (he : .emission e ∈ s'.stack) : Continues S s a e := by
  cases heff with
  | quiet hq hheld => exact .same e (hq.stack ▸ he)
  | listenOld n f x hx halive => exact .same e he
  | listenNew n f w hx hw halive => exact .same e he
  | added x f hx => exact .same e he
  | deleted x f hmem halive ha hk ht hheld =>
      rename_i t
      have hstack : (endHandle (endsHandle s a) (deleteHandler x f t)).stack =
          .removal x :: s.stack.map (Frame.noteStop x f) := by
        rw [← ht.stack]
        cases endsHandle s a <;> rfl
      rw [hstack, List.mem_cons] at he
      rcases he with he | he
      · cases he
      · obtain ⟨g, hg, hge⟩ := List.mem_map.mp he
        rcases noteStop_emission hge with rfl | ⟨e₀, rfl, rfl, hmem₀, rfl⟩
        · exact .same e hg
        · exact .stopped e₀ f hg ha hmem₀
  | missed k hk ha hmem ht hheld => exact .same e (ht.stack ▸ he)
  | finished x stack hstack hend =>
      have hold : .emission e ∈ stack := by
        rcases endRemoval_cases hend with ⟨rfl, -⟩ | ⟨w, -, -, -, rfl⟩ <;> exact he
      exact .same e (by simp [hstack, hold])
  | emitted n x hx hcount halive =>
      rcases List.mem_cons.mp he with he | he
      · cases he
        exact .new n x rfl hx halive
      · exact .same e he
  | called e₀ f rest stack hstack hrest hrun =>
      rcases List.mem_cons.mp he with he | he
      · cases he
        exact .called e₀ f rest (by simp [hstack]) hrest
      · exact .same e (by simp [hstack, he])
  | returned e₀ stack hstack hrun =>
      rcases List.mem_cons.mp he with he | he
      · cases he
        exact .returned e₀ (by simp [hstack])
      · exact .same e (by simp [hstack, he])
  | closed e₀ stack hstack hrest hrun => exact .same e (by simp [hstack, he])

/-! ## The order of the calls -/

/-- The copied handlers, called or still to be called. -/
structure Emission.Ordered (e : Emission) : Prop where
  split : e.called.map Prod.fst ++ e.rest = e.snapshot
  nodup : e.snapshot.Nodup

theorem Emission.Ordered.continues (hc : Counts S s)
    (h : ∀ e, .emission e ∈ s.stack → Emission.Ordered e) {a : Action Name} {e : Emission}
    (he : Continues S s a e) : Emission.Ordered e := by
  cases he with
  | same _ he => exact h e he
  | stopped e₀ f he ha hh => exact ⟨(h e₀ he).split, (h e₀ he).nodup⟩
  | new n x ha hx halive => exact ⟨rfl, (hc.counted x (hc.member n x hx).1).nodup⟩
  | called e₀ f rest he hrest =>
      refine ⟨?_, (h e₀ he).nodup⟩
      have hsplit := (h e₀ he).split
      rw [hrest] at hsplit
      simpa [Emission.call] using hsplit
  | returned e₀ he => exact ⟨(h e₀ he).split, (h e₀ he).nodup⟩

/-- No handler is removed while an emission of its signal has still to call it. -/
def KeepsPending (S : Source Name World Error) (s : State Name World) (a : Action Name) : Prop :=
  ∀ p ∈ removesFrom S s a, ∀ f ∈ s.stack,
    match f with
    | .emission e => e.signal = p.1 → p.2 ∉ e.rest
    | .removal _ => True

/-- The emission has called no handler after it was stopped, and will not. -/
structure Emission.Faithful (e : Emission) : Prop where
  stopped : e.stopped = []
  called : ∀ p ∈ e.called, p.2 = true

theorem Emission.Faithful.continues {a : Action Name} (ha : KeepsPending S s a)
    (h : ∀ e, .emission e ∈ s.stack → Emission.Faithful e) {e : Emission}
    (he : Continues S s a e) : Emission.Faithful e := by
  cases he with
  | same _ he => exact h e he
  | stopped e₀ f he hrem hh => exact absurd hh (ha _ hrem _ he rfl)
  | new n x ha hx halive => exact ⟨rfl, nofun⟩
  | called e₀ f rest he hrest =>
      refine ⟨(h e₀ he).stopped, ?_⟩
      intro p hp
      rcases List.mem_append.mp hp with hp | hp
      · exact (h e₀ he).called p hp
      · rw [List.mem_singleton.mp hp]
        simp [(h e₀ he).stopped]
  | returned e₀ he => exact ⟨(h e₀ he).stopped, (h e₀ he).called⟩

/-! ## Runs -/

structure Patient (S : Source Name World Error) (s : State Name World) (a : Action Name) : Prop where
  fresh : Fresh S s a
  emits : EmitsOutside S s a
  keeps : KeepsPending S s a

instance (s : State Name World) (a : Action Name) : Decidable (KeepsPending S s a) :=
  have : ∀ (p : SignalId × ObjRef) (f : Frame), Decidable
      (match f with
      | .emission e => e.signal = p.1 → p.2 ∉ e.rest
      | .removal _ => True) := fun p f =>
    match f with
    | .emission e => inferInstanceAs (Decidable (e.signal = p.1 → p.2 ∉ e.rest))
    | .removal _ => .isTrue trivial
  inferInstanceAs (Decidable (∀ p ∈ removesFrom S s a, ∀ f ∈ s.stack, _))

instance (s : State Name World) (a : Action Name) : Decidable (Patient S s a) :=
  decidable_of_iff (Fresh S s a ∧ EmitsOutside S s a ∧ KeepsPending S s a)
    ⟨fun h => ⟨h.1, h.2.1, h.2.2⟩, fun h => ⟨h.fresh, h.emits, h.keeps⟩⟩

/-- An invariant of the emissions, from what it says about the next state. -/
theorem run_emissions {P : State Name World → Action Name → Prop}
    {Env : State Name World → World → Prop} {Q : Emission → Prop} {w : World}
    {signals : SignalId → SignalObject Name}
    (hstep : ∀ s a, ReflTransGen (Move S P Env) {world := w, signals := signals} s → P s a →
      (∀ e, .emission e ∈ s.stack → Q e) → ∀ e, Continues S s a e → Q e)
    (hrun : ReflTransGen (Move S P Env) {world := w, signals := signals} s) {e : Emission}
    (he : .emission e ∈ s.stack) : Q e := by
  induction hrun generalizing e with
  | refl => cases he
  | tail hpre hmove ih =>
      cases hmove with
      | act a ha hs => exact hstep _ a hpre ha (fun _ => ih) e (effect_continues (step_effect hs) he)
      | env w hw => exact ih he

/-- When a handler is not removed between the start of an emission and its turn, the emission
calls the handlers registered at its start, each once and in the order of registration, and
no other. -/
theorem emission_calls_registered {Env : State Name World → World → Prop} (hS : Lawful S)
    (hEnv : Fading S Env) {w : World} {signals : SignalId → SignalObject Name}
    (hw : ∀ n, S.member w n = none)
    (hrun : ReflTransGen (Move S (Patient S) Env) {world := w, signals := signals} s) :
    (∀ n x, S.alive s.world → S.member s.world n = some x → Patient S s (.emit n) →
      ∃ e, Step S s (.emit n) {s with stack := .emission e :: s.stack} ∧ e.signal = x ∧
        e.snapshot = (s.signals x).handlers ∧ e.called = []) ∧
    ∀ e, .emission e ∈ s.stack →
      e.called.map Prod.fst ++ e.rest = e.snapshot ∧ e.snapshot.Nodup ∧
        ∀ p ∈ e.called, p.2 = true := by
  have hcounts : ∀ {s}, ReflTransGen (Move S (Patient S) Env) {world := w, signals := signals} s →
      Counts S s := fun h => run_counts hS hEnv (fun _ _ ha => ha.fresh) (counts_init hw) h
  constructor
  · intro n x halive hx hemit
    exact ⟨_, (hcounts hrun).emit halive hx (hemit.emits x hx), rfl, rfl, rfl⟩
  · intro e he
    have hordered : Emission.Ordered e :=
      run_emissions (fun s a hpre _ h e he => Emission.Ordered.continues (hcounts hpre) h he) hrun he
    have hfaithful : Emission.Faithful e :=
      run_emissions (fun s a _ ha h e he => Emission.Faithful.continues ha.keeps h he) hrun he
    exact ⟨hordered.split, hordered.nodup, hfaithful.called⟩

end

/-- The first handler stops itself, registers another one and emits the signal again. -/
def stopsItself : List (Action ℕ) :=
  [.listen 0 5, .listen 0 6, .emit 0, .callNext, .stop 0, .endRemoval, .listen 0 7, .emit 0,
    .callNext, .handlerReturns, .callNext, .handlerReturns, .endEmission, .handlerReturns,
    .callNext]

theorem emission_calls_registered_stopsItself :
    ∃ e, .emission e ∈ (perform (plain ℕ) newObject stopsItself).stack ∧ e.snapshot = [5, 6] ∧
      e.called.map Prod.fst ++ e.rest = [5, 6] ∧ ∀ p ∈ e.called, p.2 = true := by
  have hrun : ReflTransGen (Move (plain ℕ) (Patient (plain ℕ)) PlainDies) newObject
      (perform (plain ℕ) newObject stopsItself) := reaches_perform _ (by decide)
  have hcalls := (emission_calls_registered plain_lawful plainDies_fading (fun _ => rfl) hrun).2
  refine ⟨_, List.mem_cons_self .., rfl, ?_⟩
  obtain ⟨hsplit, -, hcalled⟩ := hcalls _ (List.mem_cons_self ..)
  exact ⟨hsplit, hcalled⟩

/-- The first handler stops the handle of the second. -/
def stopsNext : List (Action ℕ) :=
  [.listen 0 5, .listen 0 6, .emit 0, .callNext, .stop 1, .endRemoval, .handlerReturns, .callNext]

/-- A handler is called after it has been stopped. -/
theorem emission_calls_stopped :
    ReflTransGen (Move (plain ℕ) (fun _ _ => True) PlainDies) newObject
      (perform (plain ℕ) newObject stopsNext) ∧
    6 ∉ ((perform (plain ℕ) newObject (stopsNext.take 7)).signals 0).handlers ∧
    ∃ e, (perform (plain ℕ) newObject stopsNext).stack = [.emission e] ∧ e.snapshot = [5, 6] ∧
      e.called = [(5, true), (6, false)] := by
  exact ⟨performs (fun _ a _ hstep => .act a trivial hstep) _ _, by decide, _, rfl, rfl, by decide⟩

end Deai.SignalEmission
