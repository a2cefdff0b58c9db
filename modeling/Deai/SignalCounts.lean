import Deai.SignalRuns

/-!
# The count of the handlers of a signal
-/
namespace Deai.SignalCounts
open Value Signal SignalRuns Relation

section
variable {Name World Error : Type} {S : Source Name World Error} {s s' : State Name World}

/-! ## The count of the handlers -/

/-- A call of `di_signal_remove_handler` that has not changed the count of `x` yet. -/
def isRemoval (x : SignalId) : Frame → Bool
  | .removal y => y == x
  | .emission _ => false

def removals (s : State Name World) (x : SignalId) : ℕ := s.stack.countP (isRemoval x)

/-- A signal object counts its members and the removals that are going on. -/
structure Counted (y : SignalObject Name) (removals : ℕ) : Prop where
  nodup : y.handlers.Nodup
  count : y.nhandlers = y.handlers.length + removals

structure Counts (S : Source Name World Error) (s : State Name World) : Prop where
  counted : ∀ x, x < s.signalCount → Counted (s.signals x) (removals s x)
  stack : ∀ f ∈ s.stack, f.signal < s.signalCount
  handle : ∀ k, k < s.handleCount → (s.handles k).weakSignal < s.signalCount
  held : ∀ x ∈ s.held, x < s.signalCount
  member : ∀ n x, S.member s.world n = some x →
    x < s.signalCount ∧ (s.signals x).signalName = n

theorem signal_noteStop (x : SignalId) (h : ObjRef) (f : Frame) :
    (f.noteStop x h).signal = f.signal := by
  cases f with
  | removal y => rfl
  | emission e =>
      simp only [Frame.noteStop]
      split_ifs <;> rfl

theorem isRemoval_noteStop (x y : SignalId) (h : ObjRef) (f : Frame) :
    isRemoval y (f.noteStop x h) = isRemoval y f := by
  cases f with
  | removal z => rfl
  | emission e =>
      simp only [Frame.noteStop]
      split_ifs <;> rfl

theorem countP_noteStop (x y : SignalId) (h : ObjRef) (l : List Frame) :
    (l.map (Frame.noteStop x h)).countP (isRemoval y) = l.countP (isRemoval y) := by
  rw [List.countP_map]
  exact List.countP_congr fun f _ => by simp [isRemoval_noteStop]

theorem Counted.add {y : SignalObject Name} {n : ℕ} (hy : Counted y n) {h : ObjRef}
    (hh : h ∉ y.handlers) : Counted (y.add h) n := by
  refine ⟨?_, ?_⟩
  · rw [SignalObject.add, if_neg hh]
    exact List.nodup_append.mpr ⟨hy.nodup, List.nodup_singleton h, by
      intro a ha b hb heq
      rw [List.mem_singleton.mp hb] at heq
      exact hh (heq ▸ ha)⟩
  · simp only [SignalObject.add, hh, if_false, List.length_append, List.length_singleton, hy.count]
    push_cast
    ring

theorem Counted.erase {y : SignalObject Name} {n : ℕ} (hy : Counted y n) {h : ObjRef}
    (hh : h ∈ y.handlers) : Counted {y with handlers := y.handlers.erase h} (n + 1) := by
  refine ⟨hy.nodup.erase h, ?_⟩
  have hlen := List.length_erase_of_mem hh
  have hpos := List.length_pos_of_mem hh
  have hcount := hy.count
  simp only [hlen]
  omega

theorem counts_init {w : World} {signals : SignalId → SignalObject Name}
    (hw : ∀ n, S.member w n = none) : Counts S {world := w, signals := signals} where
  counted x hx := absurd hx (Nat.not_lt_zero x)
  stack := nofun
  handle k hk := absurd hk (Nat.not_lt_zero k)
  held := nofun
  member n x hx := by
    cases (hw n).symm.trans hx

/-- One signal object changes, and keeps its name. -/
theorem Counts.setSignal (h : Counts S s) {x : SignalId} {y : SignalObject Name}
    {stack : List Frame} (hname : y.signalName = (s.signals x).signalName)
    (hy : x < s.signalCount → Counted y (stack.countP (isRemoval x)))
    (hother : ∀ x', x' ≠ x → stack.countP (isRemoval x') = removals s x')
    (hstack : ∀ f ∈ stack, f.signal < s.signalCount) :
    Counts S {s with signals := Function.update s.signals x y, stack := stack} := by
  refine {h with counted := ?_, stack := hstack, member := ?_}
  · intro x' hx'
    by_cases hxx : x' = x
    · subst hxx
      simpa [removals] using hy hx'
    · simp only [removals, Function.update_of_ne hxx, hother x' hxx]
      exact h.counted x' hx'
  · intro n x' hx'
    obtain ⟨hlt, hn⟩ := h.member n x' hx'
    refine ⟨hlt, ?_⟩
    by_cases hxx : x' = x
    · subst hxx
      simp only [Function.update_self]
      rw [hname, hn]
    · simp only [Function.update_of_ne hxx]
      exact hn

theorem Counts.quiet (h : Counts S s) (hq : Quiet s s') (hheld : ∀ x ∈ s'.held, x < s.signalCount) :
    Counts S s' where
  counted x hx := by
    rw [hq.signals, removals, hq.stack]
    exact h.counted x (hq.signalCount ▸ hx)
  stack f hf := by
    rw [hq.signalCount]
    exact h.stack f (hq.stack ▸ hf)
  handle k hk := by
    rw [hq.weakSignal, hq.signalCount]
    exact h.handle k (hq.handleCount ▸ hk)
  held x hx := hq.signalCount ▸ hheld x hx
  member n x hx := by
    rw [hq.world] at hx
    rw [hq.signalCount, hq.signals]
    exact h.member n x hx

/-- A new handle for a signal object that is there. -/
theorem Counts.newListenHandle (h : Counts S s) {x : SignalId} (hx : x < s.signalCount)
    (f : ObjRef) : Counts S (newListenHandle x f s) := by
  refine {h with handle := ?_}
  intro k hk
  by_cases hkk : k = s.handleCount
  · subst hkk
    simpa [Signal.newListenHandle, State.setHandle] using hx
  · have hlt : k < s.handleCount := Nat.lt_of_le_of_ne (Nat.le_of_lt_succ hk) hkk
    simpa [Signal.newListenHandle, State.setHandle, Function.update_of_ne hkk] using h.handle k hlt

theorem Counts.addHandler (h : Counts S s) {x : SignalId} {f : ObjRef}
    (hf : f ∉ (s.signals x).handlers) : Counts S (diSignalAddHandler x f s) :=
  h.setSignal (y := (s.signals x).add f) rfl (fun hx => (h.counted x hx).add hf)
    (fun _ _ => rfl) h.stack

/-- The members of the source are other ones, but of signal objects that are there. -/
theorem Counts.world (h : Counts S s) {w : World}
    (hw : ∀ n x, S.member w n = some x → x < s.signalCount ∧ (s.signals x).signalName = n) :
    Counts S {s with world := w} :=
  {h with member := hw}

theorem Counts.newSignal (h : Counts S s) (n : Name) : Counts S (newSignal n s) := by
  have hne : ∀ {x}, x < s.signalCount → x ≠ s.signalCount := Nat.ne_of_lt
  have hnone : removals s s.signalCount = 0 := by
    refine List.countP_eq_zero.mpr fun f hf => ?_
    have hlt := h.stack f hf
    cases f with
    | emission e => simp [isRemoval]
    | removal y => simpa [isRemoval, Frame.signal] using hne hlt
  refine ⟨?_, fun f hf => Nat.lt_succ_of_lt (h.stack f hf),
    fun k hk => Nat.lt_succ_of_lt (h.handle k hk), fun x hx => Nat.lt_succ_of_lt (h.held x hx), ?_⟩
  · intro x hx
    by_cases hxx : x = s.signalCount
    · subst hxx
      simp only [Signal.newSignal, State.setSignal, Function.update_self]
      change Counted _ (removals s s.signalCount)
      rw [hnone]
      exact ⟨List.nodup_nil, rfl⟩
    · have hlt : x < s.signalCount := Nat.lt_of_le_of_ne (Nat.le_of_lt_succ hx) hxx
      simp only [Signal.newSignal, State.setSignal, Function.update_of_ne hxx]
      exact h.counted x hlt
  · intro m x hx
    obtain ⟨hlt, hm⟩ := h.member m x hx
    refine ⟨Nat.lt_succ_of_lt hlt, ?_⟩
    simpa [Signal.newSignal, State.setSignal, Function.update_of_ne (hne hlt)] using hm

/-- Frames come and go that are no removals. -/
theorem Counts.stack_congr (h : Counts S s) {stack : List Frame}
    (hcount : ∀ x, stack.countP (isRemoval x) = removals s x)
    (hstack : ∀ f ∈ stack, f.signal < s.signalCount) : Counts S {s with stack := stack} := by
  refine {h with counted := ?_, stack := hstack}
  intro x hx
  rw [show removals {s with stack := stack} x = removals s x from hcount x]
  exact h.counted x hx

/-- The emission on top of the stack goes on. -/
theorem Counts.stack_top (h : Counts S s) {e : Emission} {f : Frame} {stack : List Frame}
    (hstack : s.stack = .emission e :: stack) (hf : ∀ x, isRemoval x f = false)
    (hsignal : f.signal = e.signal) : Counts S {s with stack := f :: stack} := by
  apply h.stack_congr
  · intro x
    rw [removals, hstack, List.countP_cons_of_neg (by simp [hf]),
      List.countP_cons_of_neg (by simp [isRemoval])]
  · intro g hg
    rcases List.mem_cons.mp hg with rfl | hg
    · rw [hsignal]
      exact h.stack (.emission e) (by simp [hstack])
    · exact h.stack g (by simp [hstack, hg])

theorem Counts.lt_of_alive (h : Counts S s) {x : SignalId} (halive : signalAlive S x s) :
    x < s.signalCount := by
  simp only [signalAlive, Bool.or_eq_true, beq_iff_eq, List.any_eq_true, List.contains_iff_mem]
    at halive
  rcases halive with (hmem | ⟨f, hf, rfl⟩) | hheld
  · exact (h.member _ x hmem).1
  · exact h.stack f hf
  · exact h.held x hheld

theorem Counts.endHandle (h : Counts S s) (k : Option HandleId) : Counts S (endHandle k s) := by
  cases k with
  | none => exact h
  | some k =>
      refine {h with handle := ?_}
      intro k' hk'
      by_cases hkk : k' = k
      · subst hkk
        simpa [SignalRuns.endHandle, State.setHandle] using h.handle k' hk'
      · simpa [SignalRuns.endHandle, State.setHandle, Function.update_of_ne hkk] using
          h.handle k' hk'

theorem Counts.deleteHandler (h : Counts S s) {x : SignalId} {f : ObjRef}
    (hx : x < s.signalCount) (hf : f ∈ (s.signals x).handlers) :
    Counts S (deleteHandler x f s) := by
  apply h.setSignal (x := x) (y := {s.signals x with handlers := (s.signals x).handlers.erase f}) rfl
  · intro _
    rw [List.countP_cons_of_pos (by simp [isRemoval]), countP_noteStop]
    exact (h.counted x hx).erase hf
  · intro x' hx'
    rw [List.countP_cons_of_neg (by simpa [isRemoval] using Ne.symm hx'), countP_noteStop]
    rfl
  · intro g hg
    rcases List.mem_cons.mp hg with rfl | hg
    · exact hx
    · obtain ⟨g', hg', rfl⟩ := List.mem_map.mp hg
      rw [signal_noteStop]
      exact h.stack g' hg'

theorem Counts.endRemoval (hS : Lawful S) (h : Counts S s) {x : SignalId} {stack : List Frame}
    (hstack : s.stack = .removal x :: stack)
    (hend : Signal.endRemoval S x {s with stack := stack} = .ok s') : Counts S s' := by
  have hx : x < s.signalCount := h.stack (.removal x) (by simp [hstack])
  have hset : Counts S {s with
      signals := Function.update s.signals x
        {s.signals x with nhandlers := (s.signals x).nhandlers - 1}
      stack := stack} := by
    apply h.setSignal (x := x)
      (y := {s.signals x with nhandlers := (s.signals x).nhandlers - 1}) rfl
    · intro _
      have hcounted := h.counted x hx
      rw [removals, hstack, List.countP_cons_of_pos (by simp [isRemoval])] at hcounted
      refine ⟨hcounted.nodup, ?_⟩
      have hcount := hcounted.count
      push_cast at hcount
      simp only
      omega
    · intro x' hx'
      rw [removals, hstack, List.countP_cons_of_neg (by simpa [isRemoval] using Ne.symm hx')]
    · exact fun f hf => h.stack f (by simp [hstack, hf])
  rcases endRemoval_cases hend with ⟨rfl, -⟩ | ⟨w, hw, -, -, rfl⟩
  · exact hset
  · obtain ⟨hself, hothers⟩ := hS.delete hw
    apply hset.world
    intro m y hm
    by_cases hmn : m = (s.signals x).signalName
    · subst hmn
      cases hself.symm.trans hm
    · rw [hothers m hmn] at hm
      exact hset.member m y hm

theorem Counts.effect [DecidableEq Name] {a : Action Name} (hS : Lawful S) (h : Counts S s)
    (hfresh : Fresh S s a) (heff : Effect S s a s') : Counts S s' := by
  cases heff with
  | quiet hq hheld =>
      apply h.quiet hq
      intro x hx
      rcases hheld x hx with hold | ⟨n, hn⟩
      · exact h.held x hold
      · exact (h.member n x hn).1
  | listenOld n f x hx halive =>
      have hadd := h.addHandler (hfresh (x, f) (by simp [addsTo, hx]))
      exact hadd.newListenHandle (h.member n x hx).1 f
  | listenNew n f w hx hw halive =>
      obtain ⟨hself, hothers⟩ := hS.set hx hw
      have hnew := h.newSignal n
      have hworld : Counts S {Signal.newSignal n s with world := w} := by
        apply hnew.world
        intro m x hm
        by_cases hmn : m = n
        · subst hmn
          rcases hself with hsome | hnone
          · rw [hsome] at hm
            cases hm
            simp [Signal.newSignal, State.setSignal]
          · rw [hnone] at hm
            cases hm
        · rw [hothers m hmn] at hm
          exact hnew.member m x hm
      have hadd := hworld.addHandler (x := s.signalCount) (f := f)
        (by simp [Signal.newSignal, State.setSignal])
      exact hadd.newListenHandle (Nat.lt_succ_self _) f
  | added x f hx => exact h.addHandler (hfresh (x, f) rfl)
  | deleted x f hmem halive ha hk ht hheld =>
      have hx : x < s.signalCount := h.lt_of_alive halive
      have hq := h.quiet ht (by rw [hheld]; exact h.held)
      have hdel := hq.deleteHandler (x := x) (f := f) (by rwa [ht.signalCount])
        (by rwa [ht.signals])
      exact hdel.endHandle _
  | missed k hk ha hmem ht hheld =>
      exact (h.quiet ht (by rw [hheld]; exact h.held)).endHandle (some k)
  | finished x stack hstack hend => exact h.endRemoval hS hstack hend
  | emitted n x hx hcount halive =>
      apply h.stack_congr
      · exact fun y => List.countP_cons_of_neg (by simp [isRemoval])
      · intro f hf
        rcases List.mem_cons.mp hf with rfl | hf
        · exact (h.member n x hx).1
        · exact h.stack f hf
  | called e f rest stack hstack hrest hrun =>
      exact h.stack_top hstack (fun _ => rfl) rfl
  | returned e stack hstack hrun => exact h.stack_top hstack (fun _ => rfl) rfl
  | closed e stack hstack hrest hrun =>
      apply h.stack_congr
      · intro x
        rw [removals, hstack, List.countP_cons_of_neg (by simp [isRemoval])]
      · exact fun f hf => h.stack f (by simp [hstack, hf])

theorem Counts.env {Env : State Name World → World → Prop} (hEnv : Fading S Env) (h : Counts S s)
    {w : World} (hw : Env s w) : Counts S {s with world := w} := by
  apply h.world
  intro n x hx
  rcases hEnv.member hw n with hsame | hnone
  · exact h.member n x (hsame ▸ hx)
  · cases hnone.symm.trans hx

/-! ## The member of the source -/

/-- The source holds no signal object without handlers. -/
def Used (S : Source Name World Error) (s : State Name World) : Prop :=
  S.alive s.world → ∀ n x, S.member s.world n = some x → 0 < (s.signals x).nhandlers

/-- A signal object with handlers is the one that the source holds. -/
def Attached (S : Source Name World Error) (s : State Name World) : Prop :=
  S.alive s.world → ∀ x, x < s.signalCount → 0 < (s.signals x).nhandlers →
    S.member s.world (s.signals x).signalName = some x

/-- Handlers are added by hand only to signal objects that their source holds. -/
def AddsToMember (S : Source Name World Error) (s : State Name World) : Action Name → Prop
  | .add x _ => S.alive s.world → S.member s.world (s.signals x).signalName = some x
  | _ => True

theorem nhandlers_addHandler (x y : SignalId) (f : ObjRef) (s : State Name World) :
    ((diSignalAddHandler x f s).signals y).nhandlers =
      (s.signals y).nhandlers + if y = x then 1 else 0 := by
  by_cases hyx : y = x
  · subst hyx
    simp [diSignalAddHandler, State.setSignal, SignalObject.add]
  · simp [diSignalAddHandler, State.setSignal, hyx]

theorem name_addHandler (x y : SignalId) (f : ObjRef) (s : State Name World) :
    ((diSignalAddHandler x f s).signals y).signalName = (s.signals y).signalName := by
  by_cases hyx : y = x
  · subst hyx
    simp [diSignalAddHandler, State.setSignal, SignalObject.add]
  · simp [diSignalAddHandler, State.setSignal, hyx]

theorem signals_newSignal (n : Name) (s : State Name World) (y : SignalId) :
    (newSignal n s).signals y = if y = s.signalCount then {signalName := n} else s.signals y := by
  simp [newSignal, State.setSignal, Function.update_apply]

theorem deleteHandler_same (x y : SignalId) (f : ObjRef) (s : State Name World) :
    ((deleteHandler x f s).signals y).nhandlers = (s.signals y).nhandlers ∧
      ((deleteHandler x f s).signals y).signalName = (s.signals y).signalName := by
  by_cases hyx : y = x
  · subst hyx
    simp [deleteHandler, State.setSignal]
  · simp [deleteHandler, State.setSignal, hyx]

theorem endHandle_same (k : Option HandleId) (s : State Name World) :
    (endHandle k s).signals = s.signals ∧ (endHandle k s).world = s.world ∧
      (endHandle k s).signalCount = s.signalCount := by
  cases k <;> exact ⟨rfl, rfl, rfl⟩

/-- How the counts and the members of the source change. -/
inductive Tally (S : Source Name World Error) (s : State Name World) : Action Name →
    State Name World → Prop where
  | same {a : Action Name} {s' : State Name World} (hworld : s'.world = s.world)
      (hsize : s'.signalCount = s.signalCount)
      (hcount : ∀ x, (s'.signals x).nhandlers = (s.signals x).nhandlers)
      (hname : ∀ x, (s'.signals x).signalName = (s.signals x).signalName) : Tally S s a s'
  | raised {a : Action Name} {s' : State Name World} (x : SignalId)
      (hx : (∃ n, S.member s.world n = some x) ∨ ∃ h, a = .add x h)
      (hworld : s'.world = s.world) (hsize : s'.signalCount = s.signalCount)
      (hcount : ∀ y, (s'.signals y).nhandlers = (s.signals y).nhandlers + if y = x then 1 else 0)
      (hname : ∀ y, (s'.signals y).signalName = (s.signals y).signalName) : Tally S s a s'
  | new {a : Action Name} {s' : State Name World} (n : Name) (halive : S.alive s.world)
      (hx : S.member s.world n = none) (hw : S.set n s.signalCount s.world = .ok s'.world)
      (hsize : s'.signalCount = s.signalCount + 1)
      (hself : (s'.signals s.signalCount).nhandlers = 1)
      (hselfName : (s'.signals s.signalCount).signalName = n)
      (hothers : ∀ y, y ≠ s.signalCount → (s'.signals y).nhandlers = (s.signals y).nhandlers ∧
        (s'.signals y).signalName = (s.signals y).signalName) : Tally S s a s'
  | lowered {a : Action Name} {s' : State Name World} (x : SignalId) (stack : List Frame)
      (hstack : s.stack = .removal x :: stack) (hsize : s'.signalCount = s.signalCount)
      (hcount : ∀ y, (s'.signals y).nhandlers = (s.signals y).nhandlers - if y = x then 1 else 0)
      (hname : ∀ y, (s'.signals y).signalName = (s.signals y).signalName)
      (hworld : s'.world = s.world ∧ ¬ ((s.signals x).nhandlers = 1 ∧ S.alive s.world) ∨
        S.delete (s.signals x).signalName s.world = .ok s'.world ∧
          (s.signals x).nhandlers = 1 ∧ S.alive s.world) : Tally S s a s'

theorem effect_tally [DecidableEq Name] {a : Action Name} (heff : Effect S s a s') :
    Tally S s a s' := by
  cases heff with
  | quiet hq hheld =>
      exact .same hq.world hq.signalCount (fun x => by rw [hq.signals]) fun x => by rw [hq.signals]
  | listenOld n f x hx halive =>
      exact .raised x (.inl ⟨n, hx⟩) rfl rfl (fun y => nhandlers_addHandler x y f s)
        fun y => name_addHandler x y f s
  | listenNew n f w hx hw halive =>
      refine .new n halive hx hw rfl ?_ ?_ fun y hy => ⟨?_, ?_⟩
      · change ((diSignalAddHandler _ _ _).signals _).nhandlers = _
        rw [nhandlers_addHandler, signals_newSignal]
        simp
      · change ((diSignalAddHandler _ _ _).signals _).signalName = _
        rw [name_addHandler, signals_newSignal]
        simp
      · change ((diSignalAddHandler _ _ _).signals _).nhandlers = _
        rw [nhandlers_addHandler, signals_newSignal, if_neg hy, if_neg hy, add_zero]
      · change ((diSignalAddHandler _ _ _).signals _).signalName = _
        rw [name_addHandler, signals_newSignal, if_neg hy]
  | added x f hx =>
      exact .raised x (.inr ⟨f, rfl⟩) rfl rfl (fun y => nhandlers_addHandler x y f s)
        fun y => name_addHandler x y f s
  | deleted x f hmem halive ha hk ht hheld =>
      rename_i t
      obtain ⟨hsig, hworld, hsize⟩ := endHandle_same (endsHandle s a) (deleteHandler x f t)
      refine .same (hworld.trans ht.world) (hsize.trans ht.signalCount) ?_ ?_
      · intro y
        rw [hsig, (deleteHandler_same x y f t).1, ht.signals]
      · intro y
        rw [hsig, (deleteHandler_same x y f t).2, ht.signals]
  | missed k hk ha hmem ht hheld =>
      exact .same ht.world ht.signalCount (fun x => congrArg (fun f => (f x).nhandlers) ht.signals)
        fun x => congrArg (fun f => (f x).signalName) ht.signals
  | finished x stack hstack hend =>
      have hset : ∀ y, ((s.setSignal x fun z => {z with nhandlers := z.nhandlers - 1}).signals
          y).nhandlers = (s.signals y).nhandlers - (if y = x then 1 else 0) ∧
          ((s.setSignal x fun z => {z with nhandlers := z.nhandlers - 1}).signals y).signalName =
            (s.signals y).signalName := by
        intro y
        by_cases hyx : y = x
        · subst hyx
          simp [State.setSignal]
        · simp [State.setSignal, hyx]
      rcases endRemoval_cases hend with ⟨rfl, hne⟩ | ⟨w, hw, hone, halive, rfl⟩
      · exact .lowered x stack hstack rfl (fun y => (hset y).1) (fun y => (hset y).2)
          (.inl ⟨rfl, hne⟩)
      · exact .lowered x stack hstack rfl (fun y => (hset y).1) (fun y => (hset y).2)
          (.inr ⟨hw, hone, halive⟩)
  | emitted n x hx hcount halive => exact .same rfl rfl (fun _ => rfl) fun _ => rfl
  | called e f rest stack hstack hrest hrun => exact .same rfl rfl (fun _ => rfl) fun _ => rfl
  | returned e stack hstack hrun => exact .same rfl rfl (fun _ => rfl) fun _ => rfl
  | closed e stack hstack hrest hrun => exact .same rfl rfl (fun _ => rfl) fun _ => rfl

theorem Used.tally {a : Action Name} (hS : Lawful S) (hc : Counts S s) (h : Used S s)
    (ht : Tally S s a s') : Used S s' := by
  intro halive m y hy
  cases ht with
  | same hworld hsize hcount hname =>
      rw [hworld] at halive hy
      rw [hcount]
      exact h halive m y hy
  | raised x hx hworld hsize hcount hname =>
      rw [hworld] at halive hy
      have hpos := h halive m y hy
      rw [hcount]
      split_ifs <;> omega
  | new n hal hx hw hsize hself hselfName hothers =>
      by_cases hyx : y = s.signalCount
      · rw [hyx, hself]
        exact one_pos
      · rw [(hothers y hyx).1]
        obtain ⟨hset, hrest⟩ := hS.set hx hw
        by_cases hmn : m = n
        · subst hmn
          rcases hset with hsome | hnone
          · exact absurd (Option.some.inj (hy.symm.trans hsome)) hyx
          · cases hnone.symm.trans hy
        · rw [hrest m hmn] at hy
          exact h hal m y hy
  | lowered x stack hstack hsize hcount hname hworld =>
      rw [hcount]
      rcases hworld with ⟨hworld, hne⟩ | ⟨hw, hone, hal⟩
      · rw [hworld] at halive hy
        have hpos := h halive m y hy
        split_ifs with hyx
        · subst hyx
          have hone : (s.signals y).nhandlers ≠ 1 := fun hone => hne ⟨hone, halive⟩
          omega
        · omega
      · obtain ⟨hself, hrest⟩ := hS.delete hw
        by_cases hm : m = (s.signals x).signalName
        · subst hm
          cases hself.symm.trans hy
        · rw [hrest m hm] at hy
          have hyx : y ≠ x := by
            intro heq
            subst heq
            exact hm (hc.member m y hy).2.symm
          rw [if_neg hyx, sub_zero]
          exact h hal m y hy

theorem Attached.tally {Env : State Name World → World → Prop} {a : Action Name} (hS : Lawful S)
    (hst : Storing S Env) (hc : Counts S s) (hadd : AddsToMember S s a) (h : Attached S s)
    (ht : Tally S s a s') : Attached S s' := by
  intro halive y hy hpos
  cases ht with
  | same hworld hsize hcount hname =>
      rw [hworld] at halive ⊢
      rw [hsize] at hy
      rw [hcount] at hpos
      rw [hname]
      exact h halive y hy hpos
  | raised x hx hworld hsize hcount hname =>
      rw [hworld] at halive ⊢
      rw [hsize] at hy
      rw [hname]
      by_cases hyx : y = x
      · subst hyx
        rcases hx with ⟨n, hn⟩ | ⟨f, rfl⟩
        · rw [(hc.member n y hn).2]
          exact hn
        · exact hadd halive
      · rw [hcount, if_neg hyx, add_zero] at hpos
        exact h halive y hy hpos
  | new n hal hx hw hsize hself hselfName hothers =>
      by_cases hyx : y = s.signalCount
      · rw [hyx, hselfName]
        exact hst.set hx hw
      · rw [(hothers y hyx).1] at hpos
        rw [(hothers y hyx).2]
        have hold := h hal y (by omega) hpos
        have hne : (s.signals y).signalName ≠ n := by
          intro heq
          rw [heq, hx] at hold
          cases hold
        rw [(hS.set hx hw).2 _ hne]
        exact hold
  | lowered x stack hstack hsize hcount hname hworld =>
      rw [hsize] at hy
      rw [hname]
      rw [hcount] at hpos
      have hposy : 0 < (s.signals y).nhandlers := by
        split_ifs at hpos <;> omega
      rcases hworld with ⟨hworld, hne⟩ | ⟨hw, hone, hal⟩
      · rw [hworld] at halive ⊢
        exact h halive y hy hposy
      · have hyx : y ≠ x := by
          intro heq
          rw [heq, if_pos rfl, hone] at hpos
          exact absurd hpos (lt_irrefl 0)
        have hold := h hal y hy hposy
        -- the signal object that leaves is the one that the source holds under its name
        have hleaves := h hal x (hc.stack (.removal x) (by simp [hstack])) (by omega)
        have hnames : (s.signals y).signalName ≠ (s.signals x).signalName := by
          intro heq
          rw [heq, hleaves] at hold
          exact hyx (Option.some.inj hold).symm
        rw [(hS.delete hw).2 _ hnames]
        exact hold

/-! ## Runs -/

/-- No signal is emitted while a handler of it is being destroyed by
`di_signal_remove_handler`. -/
def EmitsOutside (S : Source Name World Error) (s : State Name World) : Action Name → Prop
  | .emit n => ∀ x ∈ S.member s.world n, removals s x = 0
  | _ => True

structure Careful (S : Source Name World Error) (s : State Name World) (a : Action Name) : Prop where
  fresh : Fresh S s a
  emits : EmitsOutside S s a
  adds : AddsToMember S s a

instance decidableEmitsOutside (s : State Name World) : ∀ a, Decidable (EmitsOutside S s a)
  | .emit n => inferInstanceAs (Decidable (∀ x ∈ S.member s.world n, removals s x = 0))
  | .listen .. | .stop .. | .autoStop .. | .drop .. | .hold .. | .release .. | .add .. |
    .remove .. | .callNext | .handlerReturns | .endEmission | .endRemoval => .isTrue trivial

instance decidableAddsToMember (s : State Name World) : ∀ a, Decidable (AddsToMember S s a)
  | .add x _ => inferInstanceAs
      (Decidable (S.alive s.world → S.member s.world (s.signals x).signalName = some x))
  | .listen .. | .stop .. | .autoStop .. | .drop .. | .hold .. | .release .. | .emit .. |
    .remove .. | .callNext | .handlerReturns | .endEmission | .endRemoval => .isTrue trivial

instance (s : State Name World) (a : Action Name) : Decidable (Careful S s a) :=
  decidable_of_iff (Fresh S s a ∧ EmitsOutside S s a ∧ AddsToMember S s a)
    ⟨fun h => ⟨h.1, h.2.1, h.2.2⟩, fun h => ⟨h.fresh, h.emits, h.adds⟩⟩

section Runs
variable [DecidableEq Name] {P : State Name World → Action Name → Prop}
  {Env : State Name World → World → Prop}

theorem Counts.move (hS : Lawful S) (hEnv : Fading S Env) (hP : ∀ s a, P s a → Fresh S s a)
    (h : Counts S s) (hmove : Move S P Env s s') : Counts S s' := by
  cases hmove with
  | act a ha hstep => exact h.effect hS (hP s a ha) (step_effect hstep)
  | env w hw => exact h.env hEnv hw

theorem run_counts (hS : Lawful S) (hEnv : Fading S Env) (hP : ∀ s a, P s a → Fresh S s a)
    (h : Counts S s) (hrun : ReflTransGen (Move S P Env) s s') : Counts S s' := by
  induction hrun with
  | refl => exact h
  | tail _ hmove ih => exact ih.move hS hEnv hP hmove

theorem run_used (hS : Lawful S) (hEnv : Fading S Env) (hP : ∀ s a, P s a → Fresh S s a)
    (hc : Counts S s) (h : Used S s) (hrun : ReflTransGen (Move S P Env) s s') : Used S s' := by
  induction hrun with
  | refl => exact h
  | tail hpre hmove ih =>
      have hcs := run_counts hS hEnv hP hc hpre
      cases hmove with
      | act a ha hstep => exact ih.tally hS hcs (effect_tally (step_effect hstep))
      | env w hw =>
          intro halive n x hx
          rcases hEnv.member hw n with hsame | hnone
          · exact ih (hEnv.alive hw halive) n x (hsame.symm.trans hx)
          · cases hnone.symm.trans hx

theorem run_attached (hS : Lawful S) (hEnv : Fading S Env) (hst : Storing S Env)
    (hP : ∀ s a, P s a → Fresh S s a ∧ AddsToMember S s a) (hc : Counts S s) (h : Attached S s)
    (hrun : ReflTransGen (Move S P Env) s s') : Attached S s' := by
  induction hrun with
  | refl => exact h
  | tail hpre hmove ih =>
      have hcs := run_counts hS hEnv (fun s a ha => (hP s a ha).1) hc hpre
      cases hmove with
      | act a ha hstep =>
          exact ih.tally hS hst hcs (hP _ a ha).2 (effect_tally (step_effect hstep))
      | env w hw =>
          intro halive x hx hpos
          exact (hst.keep hw halive _).trans (ih (hEnv.alive hw halive) x hx hpos)

/-- An emission starts when no removal of its signal is going on. -/
theorem Counts.emit (h : Counts S s) {n : Name} {x : SignalId} (halive : S.alive s.world)
    (hx : S.member s.world n = some x) (hzero : removals s x = 0) :
    Step S s (.emit n) {s with stack := .emission ⟨x, (s.signals x).handlers, false,
      (s.signals x).handlers, activeHandles n s, [], []⟩ :: s.stack} := by
  have hcount := (h.counted x (h.member n x hx).1).count
  rw [hzero] at hcount
  simp only [Step, exec, halive, if_true, diEmitn, hx]
  rw [if_pos (by simpa using hcount.symm)]

/-- In a run without repeated registrations the count of a signal object is the number of its
handlers, but for the removals that are going on; the check of an emission holds, and the
source holds a signal object exactly while it has handlers. -/
theorem handler_count (hS : Lawful S) (hEnv : Fading S Env) {w : World}
    {signals : SignalId → SignalObject Name} (hw : ∀ n, S.member w n = none)
    (hrun : ReflTransGen (Move S (Careful S) Env) {world := w, signals := signals} s) :
    (∀ x, x < s.signalCount → removals s x = 0 →
      (s.signals x).nhandlers = (s.signals x).handlers.length) ∧
    (∀ x, x < s.signalCount → ((s.signals x).handlers.length : ℤ) ≤ (s.signals x).nhandlers) ∧
    (∀ a, Careful S s a → exec S a s ≠ some (.error .handlerCount)) ∧
    (S.alive s.world → ∀ n x, S.member s.world n = some x →
      (s.signals x).handlers ≠ [] ∨ 0 < removals s x) ∧
    (Storing S Env → S.alive s.world → ∀ x, x < s.signalCount → (s.signals x).handlers ≠ [] →
      S.member s.world (s.signals x).signalName = some x) := by
  have hinit : Counts S {world := w, signals := signals} := counts_init hw
  have hcounts : Counts S s := run_counts hS hEnv (fun _ _ ha => ha.fresh) hinit hrun
  have hused : Used S s := by
    refine run_used hS hEnv (fun _ _ ha => ha.fresh) hinit ?_ hrun
    intro _ n x hx
    cases (hw n).symm.trans hx
  refine ⟨?_, ?_, ?_, ?_, ?_⟩
  · intro x hx hzero
    have hcount := (hcounts.counted x hx).count
    rw [hzero] at hcount
    simpa using hcount
  · intro x hx
    have hcount := (hcounts.counted x hx).count
    omega
  · intro a ha herr
    obtain ⟨n, x, hx, hne⟩ := exec_fails herr
    have hcount := (hcounts.counted x (hcounts.member n x hx).1).count
    rw [ha.emits x hx] at hcount
    exact hne (by simpa using hcount.symm)
  · intro halive n x hx
    have hcount := (hcounts.counted x (hcounts.member n x hx).1).count
    have hpos := hused halive n x hx
    rcases Nat.eq_zero_or_pos (removals s x) with hzero | hremoval
    · left
      apply List.ne_nil_of_length_pos
      omega
    · exact .inr hremoval
  · intro hst halive x hx hne
    have hattached : Attached S s := by
      refine run_attached hS hEnv hst (fun _ _ ha => ⟨ha.fresh, ha.adds⟩) hinit ?_ hrun
      exact fun _ y hy => absurd hy (Nat.not_lt_zero y)
    have hcount := (hcounts.counted x hx).count
    have hlen := List.length_pos_of_ne_nil hne
    exact hattached halive x hx (by omega)

end Runs

end

/-- A new object without setters. -/
def newObject : State ℕ (PlainObject ℕ) := {world := {}, signals := fun _ => {signalName := 0}}

/-- Handlers are registered, added and stopped, also by a handler. -/
def addedAndStopped : List (Action ℕ) :=
  [.listen 0 5, .listen 0 6, .hold 0, .add 0 7, .emit 0, .callNext, .stop 1, .endRemoval,
    .handlerReturns]

theorem handler_count_addedAndStopped :
    removals (perform (plain ℕ) newObject addedAndStopped) 0 = 0 ∧
    ((perform (plain ℕ) newObject addedAndStopped).signals 0).handlers = [5, 7] ∧
    ((perform (plain ℕ) newObject addedAndStopped).signals 0).nhandlers =
      ((perform (plain ℕ) newObject addedAndStopped).signals 0).handlers.length := by
  have hrun : ReflTransGen (Move (plain ℕ) (Careful (plain ℕ)) PlainDies) newObject
      (perform (plain ℕ) newObject addedAndStopped) := reaches_perform _ (by decide)
  refine ⟨by decide, by decide, ?_⟩
  exact (handler_count plain_lawful plainDies_fading (fun _ => rfl) hrun).1 0 (by decide)
    (by decide)

/-- The same handler is registered twice. -/
theorem handler_count_registeredTwice :
    ReflTransGen (Move (plain ℕ) (fun _ _ => True) PlainDies) newObject
      (perform (plain ℕ) newObject [.listen 0 5, .listen 0 5]) ∧
    (perform (plain ℕ) newObject [.listen 0 5, .listen 0 5]).stack = [] ∧
    ((perform (plain ℕ) newObject [.listen 0 5, .listen 0 5]).signals 0).nhandlers = 2 ∧
    ((perform (plain ℕ) newObject [.listen 0 5, .listen 0 5]).signals 0).handlers = [5] ∧
    exec (plain ℕ) (.emit 0) (perform (plain ℕ) newObject [.listen 0 5, .listen 0 5]) =
      some (.error .handlerCount) := by
  refine ⟨performs (fun _ a _ hstep => .act a trivial hstep) _ _, rfl, by decide, by decide, rfl⟩

end Deai.SignalCounts
