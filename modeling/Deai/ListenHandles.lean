import Deai.SignalEmission

/-!
# Listen handles

A handle only knows its signal object and its handler, so two handles are told apart by the
handler. As long as they are, the members of a signal object are the handlers of the
handles that have not been stopped, in the order of their registration.
-/
namespace Deai.ListenHandles
open Value Signal SignalRuns SignalCounts SignalEmission Relation

section
variable {Name World Error : Type} {S : Source Name World Error} {s s' : State Name World}

/-- The handles for the signal object `x` that have not been stopped. -/
def registered (s : State Name World) (x : SignalId) : List HandleId :=
  (List.range s.handleCount).filter fun k =>
    !(s.handles k).ended && (s.handles k).weakSignal == x

/-- The members of a signal object are the handlers of its handles. -/
def Matched (S : Source Name World Error) (s : State Name World) : Prop :=
  S.alive s.world → ∀ x, x < s.signalCount →
    (s.signals x).handlers = (registered s x).map fun k => (s.handles k).weakHandler

theorem mem_registered {x : SignalId} {k : HandleId} :
    k ∈ registered s x ↔ k < s.handleCount ∧ (s.handles k).ended = false ∧
      (s.handles k).weakSignal = x := by
  simp [registered]

theorem registered_congr {x : SignalId} (hcount : s'.handleCount = s.handleCount)
    (h : ∀ k, (s'.handles k).ended = (s.handles k).ended ∧
      (s'.handles k).weakSignal = (s.handles k).weakSignal) : registered s' x = registered s x := by
  unfold registered
  rw [hcount]
  refine List.filter_congr fun k _ => ?_
  rw [(h k).1, (h k).2]

theorem Matched.quiet (h : Matched S s) (hq : Quiet s s') : Matched S s' := by
  intro halive x hx
  rw [hq.world] at halive
  rw [hq.signalCount] at hx
  rw [hq.signals, h halive x hx, registered_congr hq.handleCount fun k =>
    ⟨hq.ended k, hq.weakSignal k⟩]
  exact List.map_congr_left fun k _ => (hq.weakHandler k).symm

theorem registered_newListenHandle (x y : SignalId) (f : ObjRef)
    (s : State Name World) :
    registered (newListenHandle x f s) y =
      registered s y ++ if y = x then [s.handleCount] else [] := by
  have hold : (List.range s.handleCount).filter (fun k =>
      !((newListenHandle x f s).handles k).ended &&
        ((newListenHandle x f s).handles k).weakSignal == y) = registered s y := by
    refine List.filter_congr fun k hk => ?_
    have hne : k ≠ s.handleCount := Nat.ne_of_lt (List.mem_range.mp hk)
    simp [newListenHandle, State.setHandle, Function.update_of_ne hne]
  unfold registered at hold ⊢
  rw [show (newListenHandle x f s).handleCount = s.handleCount + 1 from rfl, List.range_succ,
    List.filter_append, hold]
  congr 1
  by_cases hyx : y = x
  · subst hyx
    simp [newListenHandle, State.setHandle]
  · simp [newListenHandle, State.setHandle, hyx, Ne.symm hyx]

/-- The handlers of a signal object after a registration. -/
theorem map_newListenHandle (x y : SignalId) (f : ObjRef) (s : State Name World) :
    ((registered (newListenHandle x f s) y).map fun k =>
        ((newListenHandle x f s).handles k).weakHandler) =
      ((registered s y).map fun k => (s.handles k).weakHandler) ++ if y = x then [f] else [] := by
  rw [registered_newListenHandle, List.map_append]
  congr 1
  · refine List.map_congr_left fun k hk => ?_
    have hne : k ≠ s.handleCount := Nat.ne_of_lt (mem_registered.mp hk).1
    simp [newListenHandle, State.setHandle, Function.update_of_ne hne]
  · by_cases hyx : y = x
    · simp [hyx, newListenHandle, State.setHandle]
    · simp [hyx]

theorem map_erase_of_nodup {f : HandleId → ObjRef} {k : HandleId} {l : List HandleId}
    (hl : (l.map f).Nodup) (hk : k ∈ l) : (l.erase k).map f = (l.map f).erase (f k) := by
  induction l with
  | nil => cases hk
  | cons m l ih =>
      rw [List.map_cons, List.nodup_cons] at hl
      by_cases hmk : m = k
      · subst hmk
        simp
      · have hkl : k ∈ l := (List.mem_cons.mp hk).resolve_left (Ne.symm hmk)
        have hfm : f m ≠ f k := by
          intro heq
          exact hl.1 (heq ▸ List.mem_map_of_mem hkl)
        rw [List.erase_cons_tail (by simpa using hmk), List.map_cons, List.map_cons,
          List.erase_cons_tail (by simpa using hfm), ih hl.2 hkl]

theorem registered_endHandle (k : HandleId) (x : SignalId) (s : State Name World) :
    registered (endHandle (some k) s) x = (registered s x).erase k := by
  have hnodup : (registered s x).Nodup := List.nodup_range.filter _
  rw [hnodup.erase_eq_filter]
  unfold registered
  rw [List.filter_filter]
  refine List.filter_congr fun m _ => ?_
  by_cases hmk : m = k
  · subst hmk
    simp [endHandle, State.setHandle]
  · simp [endHandle, State.setHandle, hmk]

theorem weakHandler_endHandle (k m : HandleId) (s : State Name World) :
    ((endHandle (some k) s).handles m).weakHandler = (s.handles m).weakHandler := by
  by_cases hmk : m = k
  · subst hmk
    simp [endHandle, State.setHandle]
  · simp [endHandle, State.setHandle, hmk]

theorem weakSignal_endHandle (k m : HandleId) (s : State Name World) :
    ((endHandle (some k) s).handles m).weakSignal = (s.handles m).weakSignal := by
  by_cases hmk : m = k
  · subst hmk
    simp [endHandle, State.setHandle]
  · simp [endHandle, State.setHandle, hmk]

theorem for_endHandle {x : SignalId} {h : ObjRef} {m : HandleId} (hm : For s x h m)
    (k : HandleId) : For (endHandle (some k) s) x h m :=
  ⟨hm.1, (weakSignal_endHandle k m s).trans hm.2.1, (weakHandler_endHandle k m s).trans hm.2.2⟩

/-- The handler of a handle that has not been stopped is removed, and the handle ends. -/
theorem Matched.deleteHandler (h : Matched S s) {x : SignalId} {f : ObjRef} {k : HandleId}
    (hx : x < s.signalCount) (hnodup : (s.signals x).handlers.Nodup) (hk : For s x f k)
    (hactive : S.alive s.world → (s.handles k).ended = false) :
    Matched S (endHandle (some k) (deleteHandler x f s)) := by
  intro halive y hy
  have hreg : registered (endHandle (some k) (SignalRuns.deleteHandler x f s)) y =
      (registered s y).erase k := registered_endHandle k y _
  have hweak : ∀ m, ((endHandle (some k) (SignalRuns.deleteHandler x f s)).handles m).weakHandler =
      (s.handles m).weakHandler := fun m => weakHandler_endHandle k m _
  rw [hreg]
  simp only [hweak]
  by_cases hyx : y = x
  · subst hyx
    have hmem : k ∈ registered s y := mem_registered.mpr ⟨hk.1, hactive halive, hk.2.1⟩
    have hmap := h halive y hx
    rw [hmap] at hnodup
    rw [map_erase_of_nodup hnodup hmem, ← hmap, hk.2.2]
    simp [endHandle, SignalRuns.deleteHandler, State.setHandle, State.setSignal]
  · have hnot : k ∉ registered s y := fun hmem => hyx ((mem_registered.mp hmem).2.2.symm.trans hk.2.1)
    rw [List.erase_of_not_mem hnot, ← h halive y hy]
    simp [endHandle, SignalRuns.deleteHandler, State.setHandle, State.setSignal, hyx]

/-- Nothing is left to do for a handle that has been stopped. -/
theorem Matched.endHandle (h : Matched S s) {k : HandleId}
    (hended : S.alive s.world → (s.handles k).ended = true) : Matched S (endHandle (some k) s) := by
  intro halive y hy
  have hnot : k ∉ registered s y := by
    intro hmem
    rw [(mem_registered.mp hmem).2.1] at hended
    exact absurd (hended halive) (by simp)
  rw [registered_endHandle, List.erase_of_not_mem hnot]
  simp only [weakHandler_endHandle]
  exact h halive y hy

/-- A handle that has not been stopped keeps its signal object in the source. -/
theorem Matched.member (hc : Counts S s) (hat : Attached S s) (h : Matched S s)
    (halive : S.alive s.world) {k : HandleId} (hk : k < s.handleCount)
    (hactive : (s.handles k).ended = false) :
    S.member s.world (s.signals (s.handles k).weakSignal).signalName =
        some (s.handles k).weakSignal ∧
      (s.handles k).weakHandler ∈ (s.signals (s.handles k).weakSignal).handlers := by
  have hx : (s.handles k).weakSignal < s.signalCount := hc.handle k hk
  have hreg : k ∈ registered s (s.handles k).weakSignal := mem_registered.mpr ⟨hk, hactive, rfl⟩
  have hin : (s.handles k).weakHandler ∈ (s.signals (s.handles k).weakSignal).handlers := by
    rw [h halive _ hx]
    exact List.mem_map_of_mem hreg
  have hcount := (hc.counted _ hx).count
  have hlen := List.length_pos_of_mem hin
  exact ⟨hat halive _ hx (by omega), hin⟩

/-- The member of a handler belongs to the handle of the handler. -/
theorem Matched.registered_of_mem (h : Matched S s) (halive : S.alive s.world) {x : SignalId}
    (hx : x < s.signalCount) {f : ObjRef} (hf : f ∈ (s.signals x).handlers) :
    ∃ k, k ∈ registered s x ∧ (s.handles k).weakHandler = f := by
  rw [h halive x hx] at hf
  exact List.mem_map.mp hf

variable [DecidableEq Name]

/-- Handlers are not added and removed past the handles. -/
def ByHandle : Action Name → Prop
  | .add .. | .remove .. => False
  | .listen .. | .stop .. | .autoStop .. | .drop .. | .hold .. | .release .. | .emit .. |
    .callNext | .handlerReturns | .endEmission | .endRemoval => True

/-- What keeps the handles apart: a handler is registered on a signal only while it is not
registered there, and a handle is stopped again only while its handler is not registered. -/
structure Apart (S : Source Name World Error) (s : State Name World) (a : Action Name) : Prop where
  fresh : Fresh S s a
  again : ∀ k ∈ endsHandle s a, (s.handles k).ended → S.alive s.world →
    (s.handles k).weakHandler ∉ (s.signals (s.handles k).weakSignal).handlers
  byHandle : ByHandle a

instance decidableByHandle : ∀ a : Action Name, Decidable (ByHandle a)
  | .add .. | .remove .. => .isFalse id
  | .listen .. | .stop .. | .autoStop .. | .drop .. | .hold .. | .release .. | .emit .. |
    .callNext | .handlerReturns | .endEmission | .endRemoval => .isTrue trivial

instance (s : State Name World) (a : Action Name) : Decidable (Apart S s a) :=
  decidable_of_iff (Fresh S s a ∧ (∀ k ∈ endsHandle s a, (s.handles k).ended → S.alive s.world →
      (s.handles k).weakHandler ∉ (s.signals (s.handles k).weakSignal).handlers) ∧ ByHandle a)
    ⟨fun h => ⟨h.1, h.2.1, h.2.2⟩, fun h => ⟨h.fresh, h.again, h.byHandle⟩⟩

theorem Matched.effect {a : Action Name} (hc : Counts S s) (hat : Attached S s)
    (ha : Apart S s a) (h : Matched S s) (heff : Effect S s a s') : Matched S s' := by
  obtain ⟨hfresh, hagain, hpast⟩ := ha
  cases heff with
  | quiet hq hheld => exact h.quiet hq
  | listenOld n f x hx halive =>
      intro _ y hy
      rw [map_newListenHandle]
      change _ = ((registered s y).map fun k => (s.handles k).weakHandler) ++ _
      rw [← h halive y hy]
      have hf : f ∉ (s.signals x).handlers := hfresh (x, f) (by simp [addsTo, hx])
      by_cases hyx : y = x
      · subst hyx
        simp [newListenHandle, State.setHandle, diSignalAddHandler, State.setSignal,
          SignalObject.add, hf]
      · simp [newListenHandle, State.setHandle, diSignalAddHandler, State.setSignal, hyx]
  | listenNew n f w hx hw halive =>
      intro _ y hy
      rw [map_newListenHandle]
      by_cases hyx : y = s.signalCount
      · have hnone : registered s y = [] := by
          refine List.eq_nil_iff_forall_not_mem.mpr fun k hk => ?_
          obtain ⟨hlt, -, hsig⟩ := mem_registered.mp hk
          exact absurd (hc.handle k hlt) (by rw [hsig, hyx]; exact lt_irrefl _)
        rw [if_pos hyx]
        change _ = ((registered s y).map _) ++ _
        rw [hnone, hyx]
        simp [newListenHandle, State.setHandle, diSignalAddHandler, State.setSignal, newSignal,
          SignalObject.add]
      · rw [if_neg hyx, List.append_nil]
        have hlt : y < s.signalCount := Nat.lt_of_le_of_ne (Nat.le_of_lt_succ hy) hyx
        change _ = (registered s y).map fun k => (s.handles k).weakHandler
        rw [← h halive y hlt]
        simp [newListenHandle, State.setHandle, diSignalAddHandler, State.setSignal, newSignal, hyx]
  | added x f hx => exact hpast.elim
  | deleted x f hmem halive hrem hk ht hheld =>
      rename_i t
      rcases hk with ⟨-, rfl⟩ | ⟨k, hend, hfor⟩
      · exact hpast.elim
      · rw [hend]
        have hx : x < s.signalCount := hc.lt_of_alive halive
        have hactive : S.alive s.world → (s.handles k).ended = false := by
          intro hsource
          by_contra hended
          refine hagain k hend (by simpa using hended) hsource ?_
          rw [hfor.2.1, hfor.2.2]
          exact hmem
        apply (h.quiet ht).deleteHandler (by rwa [ht.signalCount])
        · rw [ht.signals]
          exact (hc.counted x hx).nodup
        · exact ⟨ht.handleCount ▸ hfor.1, (ht.weakSignal k).trans hfor.2.1,
            (ht.weakHandler k).trans hfor.2.2⟩
        · rwa [ht.ended, ht.world]
  | missed k hk hend hmem ht hheld =>
      refine (h.quiet ht).endHandle fun halive => ?_
      rw [ht.world] at halive
      rw [ht.ended]
      -- a handle that has not been stopped would be found
      by_contra hended
      obtain ⟨hmember, hin⟩ := h.member hc hat halive hk (by simpa using hended)
      exact hmem (by simp [signalAlive, hmember]) hin
  | finished x stack hstack hend =>
      intro halive y hy
      have hhandlers : (s'.signals y).handlers = (s.signals y).handlers := by
        rcases endRemoval_cases hend with ⟨rfl, -⟩ | ⟨w, -, -, -, rfl⟩ <;>
        · by_cases hyx : y = x
          · subst hyx
            simp [State.setSignal]
          · simp [State.setSignal, hyx]
      rw [hhandlers]
      rcases endRemoval_cases hend with ⟨rfl, -⟩ | ⟨w, hw, -, hal, rfl⟩
      · exact h halive y hy
      · exact h hal y hy
  | emitted n x hx hcount halive => exact h
  | called e f rest stack hstack hrest hrun => exact h
  | returned e stack hstack hrun => exact h
  | closed e stack hstack hrest hrun => exact h

/-- The active handles of a signal are those of the signal object that the source holds. -/
theorem Matched.activeHandles_eq (hc : Counts S s) (hat : Attached S s)
    (h : Matched S s) (halive : S.alive s.world) {n : Name} {x : SignalId}
    (hx : S.member s.world n = some x) : activeHandles n s = registered s x := by
  refine List.filter_congr fun k hk => ?_
  have hlt : k < s.handleCount := List.mem_range.mp hk
  cases hended : (s.handles k).ended with
  | true => rfl
  | false =>
      have hmem := (h.member hc hat halive hlt hended).1
      simp only [Bool.not_false, Bool.true_and]
      rw [Bool.eq_iff_iff, beq_iff_eq, beq_iff_eq]
      constructor
      · intro hname
        rw [hname, hx] at hmem
        exact (Option.some.inj hmem).symm
      · intro heq
        rw [heq]
        exact (hc.member n x hx).2

/-- A handle never changes its signal object and its handler. -/
theorem effect_for {a : Action Name} (heff : Effect S s a s') {x : SignalId} {h : ObjRef}
    {k : HandleId} (hk : For s x h k) : For s' x h k := by
  obtain ⟨hlt, hsig, hhan⟩ := hk
  have hne : k ≠ s.handleCount := Nat.ne_of_lt hlt
  have hquiet : ∀ {t}, Quiet s t → For t x h k := fun ht =>
    ⟨ht.handleCount ▸ hlt, (ht.weakSignal k).trans hsig, (ht.weakHandler k).trans hhan⟩
  cases heff with
  | quiet hq hheld => exact hquiet hq
  | listenOld n f x hx halive =>
      exact ⟨Nat.lt_succ_of_lt hlt, by simpa [newListenHandle, State.setHandle, diSignalAddHandler,
        State.setSignal, Function.update_of_ne hne] using hsig, by simpa [newListenHandle,
        State.setHandle, diSignalAddHandler, State.setSignal, Function.update_of_ne hne] using hhan⟩
  | listenNew n f w hx hw halive =>
      exact ⟨Nat.lt_succ_of_lt hlt, by simpa [newListenHandle, State.setHandle, diSignalAddHandler,
        State.setSignal, newSignal, Function.update_of_ne hne] using hsig, by
        simpa [newListenHandle, State.setHandle, diSignalAddHandler, State.setSignal, newSignal,
          Function.update_of_ne hne] using hhan⟩
  | added x f hx => exact ⟨hlt, hsig, hhan⟩
  | deleted x f hmem halive hrem hfor ht hheld =>
      rename_i t
      have hdel : For (SignalRuns.deleteHandler x f t) _ h k := hquiet (t := t) ht
      cases endsHandle s a with
      | none => exact hdel
      | some m => exact for_endHandle hdel m
  | missed m hm hend hmem ht hheld => exact for_endHandle (hquiet ht) m
  | finished x stack hstack hend =>
      rcases endRemoval_cases hend with ⟨rfl, -⟩ | ⟨w, -, -, -, rfl⟩ <;> exact ⟨hlt, hsig, hhan⟩
  | emitted n x hx hcount halive => exact ⟨hlt, hsig, hhan⟩
  | called e f rest stack hstack hrest hrun => exact ⟨hlt, hsig, hhan⟩
  | returned e stack hstack hrun => exact ⟨hlt, hsig, hhan⟩
  | closed e stack hstack hrest hrun => exact ⟨hlt, hsig, hhan⟩

theorem effect_weakHandler {a : Action Name} (heff : Effect S s a s') {k : HandleId}
    (hk : k < s.handleCount) :
    k < s'.handleCount ∧ (s'.handles k).weakHandler = (s.handles k).weakHandler := by
  obtain ⟨hlt, -, hhan⟩ := effect_for heff ⟨hk, rfl, rfl⟩
  exact ⟨hlt, hhan⟩

/-- What an emission has copied are the handlers of the handles active at its start. -/
structure Copied (s : State Name World) (e : Emission) : Prop where
  bound : ∀ k ∈ e.active, k < s.handleCount
  snapshot : e.snapshot = e.active.map fun k => (s.handles k).weakHandler

theorem Copied.effect {a : Action Name} {e : Emission} (heff : Effect S s a s')
    (h : Copied s e) : Copied s' e where
  bound k hk := (effect_weakHandler heff (h.bound k hk)).1
  snapshot := by
    rw [h.snapshot]
    exact List.map_congr_left fun k hk => (effect_weakHandler heff (h.bound k hk)).2.symm

theorem Copied.continues {a : Action Name} (hc : Counts S s)
    (hat : Attached S s) (hm : Matched S s)
    (h : ∀ e, .emission e ∈ s.stack → Copied s e) {e : Emission}
    (he : Continues S s a e) : Copied s e := by
  cases he with
  | same _ he => exact h e he
  | stopped e₀ f he hrem hh => exact ⟨(h e₀ he).bound, (h e₀ he).snapshot⟩
  | new n x ha hx halive =>
      have hactive := hm.activeHandles_eq hc hat halive hx
      constructor
      · intro k hk
        exact (mem_registered.mp (hactive ▸ hk)).1
      · simp only [hactive]
        exact hm halive x (hc.member n x hx).1
  | called e₀ f rest he hrest => exact ⟨(h e₀ he).bound, (h e₀ he).snapshot⟩
  | returned e₀ he => exact ⟨(h e₀ he).bound, (h e₀ he).snapshot⟩

/-! ## Runs -/

structure Invariant (S : Source Name World Error) (s : State Name World) : Prop where
  counts : Counts S s
  attached : Attached S s
  matched : Matched S s
  ordered : ∀ e, .emission e ∈ s.stack → Emission.Ordered e
  copied : ∀ e, .emission e ∈ s.stack → Copied s e

omit [DecidableEq Name] in
theorem invariant_init {w : World} {signals : SignalId → SignalObject Name}
    (hw : ∀ n, S.member w n = none) : Invariant S {world := w, signals := signals} where
  counts := counts_init hw
  attached _ x hx := absurd hx (Nat.not_lt_zero x)
  matched _ x hx := absurd hx (Nat.not_lt_zero x)
  ordered := nofun
  copied := nofun

variable {Env : State Name World → World → Prop}

theorem Invariant.act {a : Action Name} (hS : Lawful S) (hst : Storing S Env) (h : Invariant S s)
    (ha : Apart S s a) (hstep : Step S s a s') : Invariant S s' := by
  have heff := step_effect hstep
  have hadds : AddsToMember S s a := by
    have hpast := ha.byHandle
    cases a <;> first | exact hpast.elim | trivial
  refine ⟨h.counts.effect hS ha.fresh heff, ?_, h.matched.effect h.counts h.attached ha heff,
    ?_, ?_⟩
  · exact h.attached.tally hS hst h.counts hadds (effect_tally heff)
  · intro e he
    exact Emission.Ordered.continues h.counts h.ordered (effect_continues heff he)
  · intro e he
    exact (Copied.continues h.counts h.attached h.matched h.copied
      (effect_continues heff he)).effect heff

omit [DecidableEq Name] in
theorem Invariant.env (hEnv : Fading S Env) (hst : Storing S Env) (h : Invariant S s) {w : World}
    (hw : Env s w) : Invariant S {s with world := w} where
  counts := h.counts.env hEnv hw
  attached halive x hx hpos :=
    (hst.keep hw halive _).trans (h.attached (hEnv.alive hw halive) x hx hpos)
  matched halive x hx := h.matched (hEnv.alive hw halive) x hx
  ordered := h.ordered
  copied e he := ⟨(h.copied e he).bound, (h.copied e he).snapshot⟩

/-! ## One handler for each handle -/

/-- The handler that an action registers. -/
def registers : Action Name → Option ObjRef
  | .listen _ h => some h
  | _ => none

/-- A handler object is registered once, and by its handle only. -/
structure Once (s : State Name World) (a : Action Name) : Prop where
  new : ∀ h ∈ registers a, ∀ k, k < s.handleCount → (s.handles k).weakHandler ≠ h
  byHandle : ByHandle a

instance (s : State Name World) (a : Action Name) : Decidable (Once s a) :=
  decidable_of_iff ((∀ h ∈ registers a, ∀ k, k < s.handleCount → (s.handles k).weakHandler ≠ h) ∧
    ByHandle a) ⟨fun h => ⟨h.1, h.2⟩, fun h => ⟨h.new, h.byHandle⟩⟩

/-- Handles are made only by a registration. -/
theorem effect_handleCount {a : Action Name} (heff : Effect S s a s') {k : HandleId}
    (hk : k < s'.handleCount) :
    k < s.handleCount ∨ k = s.handleCount ∧ registers a = some (s'.handles k).weakHandler := by
  cases heff with
  | quiet hq hheld => exact .inl (hq.handleCount ▸ hk)
  | listenOld n f x hx halive =>
      rcases Nat.lt_succ_iff_lt_or_eq.mp hk with hlt | rfl
      · exact .inl hlt
      · exact .inr ⟨rfl, by simp [registers, newListenHandle, State.setHandle, diSignalAddHandler,
          State.setSignal]⟩
  | listenNew n f w hx hw halive =>
      rcases Nat.lt_succ_iff_lt_or_eq.mp hk with hlt | rfl
      · exact .inl hlt
      · exact .inr ⟨rfl, by simp [registers, newListenHandle, State.setHandle, diSignalAddHandler,
          State.setSignal, newSignal]⟩
  | added x f hx => exact .inl hk
  | deleted x f hmem halive hrem hfor ht hheld =>
      left
      rw [← ht.handleCount]
      revert hk
      cases endsHandle s a <;> exact id
  | missed m hm hend hmem ht hheld => exact .inl (ht.handleCount ▸ hk)
  | finished x stack hstack hend =>
      rcases endRemoval_cases hend with ⟨rfl, -⟩ | ⟨w, -, -, -, rfl⟩ <;> exact .inl hk
  | emitted n x hx hcount halive => exact .inl hk
  | called e f rest stack hstack hrest hrun => exact .inl hk
  | returned e stack hstack hrun => exact .inl hk
  | closed e stack hstack hrest hrun => exact .inl hk

def Distinct (s : State Name World) : Prop :=
  ∀ k k', k < s.handleCount → k' < s.handleCount →
    (s.handles k).weakHandler = (s.handles k').weakHandler → k = k'

theorem Distinct.effect {a : Action Name} (ha : Once s a) (h : Distinct s)
    (heff : Effect S s a s') : Distinct s' := by
  intro k k' hk hk' heq
  rcases effect_handleCount heff hk with hold | ⟨rfl, hnew⟩
  · rcases effect_handleCount heff hk' with hold' | ⟨rfl, hnew⟩
    · rw [(effect_weakHandler heff hold).2, (effect_weakHandler heff hold').2] at heq
      exact h k k' hold hold' heq
    · refine absurd ?_ (ha.new _ hnew k hold)
      rw [← heq, (effect_weakHandler heff hold).2]
  · rcases effect_handleCount heff hk' with hold' | ⟨rfl, -⟩
    · refine absurd ?_ (ha.new _ hnew k' hold')
      rw [heq, (effect_weakHandler heff hold').2]
    · rfl

theorem Apart.of_once {a : Action Name} (h : Invariant S s) (hd : Distinct s) (ha : Once s a)
    (hstep : Step S s a s') : Apart S s a := by
  refine ⟨?_, ?_, ha.byHandle⟩
  · intro p hp hmem
    cases a with
    | listen n f =>
        simp only [Step, exec, Option.ite_none_right_eq_some] at hstep
        simp only [addsTo, Option.mem_def, Option.map_eq_some_iff] at hp
        obtain ⟨x, hx, rfl⟩ := hp
        obtain ⟨k, hk, hkf⟩ := h.matched.registered_of_mem hstep.1 (h.counts.member n x hx).1 hmem
        exact ha.new f rfl k (mem_registered.mp hk).1 hkf
    | add x f => exact ha.byHandle
    | _ => cases hp
  · intro k hk hended halive hmem
    have hlt : k < s.handleCount := by
      cases a with
      | stop m =>
          cases hk
          simp only [Step, exec, Option.ite_none_right_eq_some, hasHandle, Bool.and_eq_true,
            decide_eq_true_eq] at hstep
          exact hstep.1.1
      | drop m =>
          simp only [endsHandle, Option.mem_def, Option.ite_none_right_eq_some,
            Option.some.injEq] at hk
          obtain ⟨-, rfl⟩ := hk
          simp only [Step, exec, Option.ite_none_right_eq_some, hasHandle, Bool.and_eq_true,
            decide_eq_true_eq] at hstep
          exact hstep.1.1
      | _ => cases hk
    obtain ⟨k', hk', hkf⟩ := h.matched.registered_of_mem halive (h.counts.handle k hlt) hmem
    obtain ⟨hlt', hactive, -⟩ := mem_registered.mp hk'
    rw [hd k' k hlt' hlt hkf, hended] at hactive
    cases hactive

theorem run_invariant {P : State Name World → Action Name → Prop} (hS : Lawful S)
    (hEnv : Fading S Env) (hst : Storing S Env)
    (hP : ∀ s a, Invariant S s → P s a → Apart S s a) (h : Invariant S s)
    (hrun : ReflTransGen (Move S P Env) s s') : Invariant S s' := by
  induction hrun with
  | refl => exact h
  | tail _ hmove ih =>
      cases hmove with
      | act a ha hstep => exact ih.act hS hst (hP _ a ih ha) hstep
      | env w hw => exact ih.env hEnv hst hw

end

/-! ## Objects without setters -/

section
variable {Name : Type} [DecidableEq Name] {s : State Name (PlainObject Name)}

/-- The handles are kept apart, and no signal is emitted while a handler of it is being
destroyed by `di_signal_remove_handler`. -/
def Independent (s : State Name (PlainObject Name)) (a : Action Name) : Prop :=
  Apart (plain Name) s a ∧ EmitsOutside (plain Name) s a

instance (s : State Name (PlainObject Name)) (a : Action Name) : Decidable (Independent s a) :=
  inferInstanceAs (Decidable (Apart (plain Name) s a ∧ EmitsOutside (plain Name) s a))

/-- While the handlers keep the handles apart, a registration lasts until its own handle is
stopped, and an emission calls the handler of each handle active at its start once. -/
theorem listen_handles_independent {signals : SignalId → SignalObject Name}
    (hrun : ReflTransGen (Move (plain Name) Independent PlainDies)
      {world := {}, signals := signals} s) :
    (s.world.alive → ∀ k, k < s.handleCount → (s.handles k).ended = false →
      s.world.members (s.signals (s.handles k).weakSignal).signalName =
          some (s.handles k).weakSignal ∧
        (s.handles k).weakHandler ∈ (s.signals (s.handles k).weakSignal).handlers) ∧
    (∀ n, s.world.alive → Independent s (.emit n) →
      (s.world.members n = none → activeHandles n s = []) ∧
      ∀ x, s.world.members n = some x →
        ∃ e, Step (plain Name) s (.emit n) {s with stack := .emission e :: s.stack} ∧
          e.active = activeHandles n s ∧ e.called = []) ∧
    (∀ e, .emission e ∈ s.stack →
      e.called.map Prod.fst ++ e.rest = e.active.map (fun k => (s.handles k).weakHandler) ∧
        (e.active.map fun k => (s.handles k).weakHandler).Nodup) := by
  have hinv : Invariant (plain Name) s :=
    run_invariant plain_lawful plainDies_fading plainDies_storing (fun _ _ _ ha => ha.1)
      (invariant_init fun _ => rfl) hrun
  have hmember := fun halive k (hk : k < s.handleCount) hactive =>
    hinv.matched.member hinv.counts hinv.attached halive (k := k) hk hactive
  refine ⟨hmember, ?_, ?_⟩
  · intro n halive hemit
    constructor
    · intro hnone
      refine List.filter_eq_nil_iff.mpr fun k hk => ?_
      intro hactive
      simp only [Bool.and_eq_true, Bool.not_eq_true', beq_iff_eq] at hactive
      have hmem := (hmember halive k (List.mem_range.mp hk) hactive.1).1
      rw [hactive.2] at hmem
      cases hnone.symm.trans hmem
    · intro x hx
      exact ⟨_, hinv.counts.emit halive hx (hemit.2 x hx), rfl, rfl⟩
  · intro e he
    rw [← (hinv.copied e he).snapshot]
    exact ⟨(hinv.ordered e he).split, (hinv.ordered e he).nodup⟩

end

/-- A handle is stopped twice, its handler registered again, and another handle is stopped by
the handler before its turn. -/
def registeredAgain : List (Action ℕ) :=
  [.listen 0 5, .listen 0 6, .stop 0, .endRemoval, .stop 0, .listen 0 5, .emit 0, .callNext,
    .stop 2, .endRemoval]

theorem listen_handles_independent_registeredAgain :
    ∃ e, .emission e ∈ (perform (plain ℕ) newObject registeredAgain).stack ∧ e.active = [1, 2] ∧
      e.called.map Prod.fst ++ e.rest = [6, 5] := by
  have hrun : ReflTransGen (Move (plain ℕ) Independent PlainDies) newObject
      (perform (plain ℕ) newObject registeredAgain) := reaches_perform _ (by decide)
  have hcalls := (listen_handles_independent hrun).2.2
  exact ⟨_, List.mem_cons_self .., rfl, (hcalls _ (List.mem_cons_self ..)).1⟩

/-- The same handler is registered twice, and the first handle is stopped. -/
def sharedHandler : List (Action ℕ) := [.listen 0 5, .listen 0 5, .stop 0, .endRemoval]

/-- The second registration is gone, while its handle has not been stopped. -/
theorem listen_handles_shared :
    ReflTransGen (Move (plain ℕ) (fun _ _ => True) PlainDies) newObject
      (perform (plain ℕ) newObject sharedHandler) ∧
    (perform (plain ℕ) newObject sharedHandler).world.alive = true ∧
    ((perform (plain ℕ) newObject sharedHandler).handles 1).ended = false ∧
    ((perform (plain ℕ) newObject sharedHandler).handles 1).weakHandler = 5 ∧
    ((perform (plain ℕ) newObject sharedHandler).handles 1).weakSignal = 0 ∧
    ((perform (plain ℕ) newObject sharedHandler).signals 0).handlers = [] := by
  exact ⟨performs (fun _ a _ hstep => .act a trivial hstep) _ _, by decide, by decide, by decide,
    by decide, by decide⟩

end Deai.ListenHandles
