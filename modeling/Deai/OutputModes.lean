import Mathlib.Algebra.Order.Group.Int
import Mathlib.Data.List.Basic
import Mathlib.Tactic.SplitIfs

/-!
# The selection of modes

`preferred_mode` and the first step of `configure_outputs` in the built-in script of the xorg plugin.
Modes come from the X server, where their sizes are 16 bits wide, so that a score is always an exact
Lua integer.
-/
namespace Deai.OutputModes

structure Mode where
  id : ℕ
  width : UInt16
  height : UInt16
  interlaced : Bool
  doubleScan : Bool
  deriving DecidableEq

/-- One point for each defect that a mode does not have. -/
def qualityScore (m : Mode) : ℤ :=
  (if m.interlaced then 0 else 1) + (if m.doubleScan then 0 else 1)

def preferredScore (m : Mode) : ℤ := m.width.toNat * m.height.toNat * 3 + qualityScore m

/-- The loop of `preferred_mode`; `i` is the index of the next mode. -/
def preferredLoop (numPreferred : ℕ) : ℕ → List Mode → ℤ → Option Mode → Option Mode
  | _, [], _, preferredMode => preferredMode
  | i, m :: rest, maxScore, preferredMode =>
      if numPreferred < i then preferredMode
      else if maxScore < preferredScore m then
        preferredLoop numPreferred (i + 1) rest (preferredScore m) (some m)
      else preferredLoop numPreferred (i + 1) rest maxScore preferredMode

def preferredMode (modes : List Mode) (numPreferred : ℕ) : Option Mode :=
  preferredLoop numPreferred 1 modes 0 none

/-- The loop of `configure_outputs` over the modes of an output whose size is given. The loop is left
after the first mode of that size. -/
def sizedLoop (width height : ℤ) : List Mode → ℤ → Option Mode → Option Mode
  | [], _, selected => selected
  | m :: rest, bestScore, selected =>
      if m.width.toNat = width ∧ m.height.toNat = height then
        if bestScore < qualityScore m then some m else selected
      else sizedLoop width height rest bestScore selected

def sizedMode (modes : List Mode) (width height : ℤ) : Option Mode :=
  sizedLoop width height modes (-1) none

/-! ## The best mode -/

def pixels (m : Mode) : ℕ := m.width.toNat * m.height.toNat

def defects (m : Mode) : ℕ := (if m.interlaced then 1 else 0) + (if m.doubleScan then 1 else 0)

def HasSize (width height : ℤ) (m : Mode) : Prop := m.width.toNat = width ∧ m.height.toNat = height

instance (width height : ℤ) : DecidablePred (HasSize width height) := fun m =>
  inferInstanceAs (Decidable (m.width.toNat = width ∧ m.height.toNat = height))

/-- Most pixels, and the fewest defects among those. -/
structure BestOf (candidates : List Mode) (m : Mode) : Prop where
  mem : m ∈ candidates
  pixels_le : ∀ m' ∈ candidates, pixels m' ≤ pixels m
  defects_le : ∀ m' ∈ candidates, pixels m' = pixels m → defects m ≤ defects m'

/-- The fewest defects of the modes of a size. -/
structure BestSized (modes : List Mode) (width height : ℤ) (m : Mode) : Prop where
  mem : m ∈ modes
  hasSize : HasSize width height m
  defects_le : ∀ m' ∈ modes, HasSize width height m' → defects m ≤ defects m'

/-- What should be selected from a list of modes. -/
structure SelectsBest (modes : List Mode) (numPreferred : ℕ) (width height : ℤ) : Prop where
  preferred : ∀ m, preferredMode modes numPreferred = some m → BestOf (modes.take numPreferred) m
  preferred_none : preferredMode modes numPreferred = none → modes.take numPreferred = []
  sized : ∀ m, sizedMode modes width height = some m → BestSized modes width height m
  sized_none : sizedMode modes width height = none → ∀ m ∈ modes, ¬ HasSize width height m

theorem qualityScore_eq (m : Mode) : qualityScore m = 2 - defects m := by
  unfold qualityScore defects
  cases m.interlaced <;> cases m.doubleScan <;> rfl

theorem defects_le_two (m : Mode) : defects m ≤ 2 := by
  unfold defects
  cases m.interlaced <;> cases m.doubleScan <;> decide

theorem preferredScore_eq (m : Mode) : preferredScore m = 3 * pixels m + 2 - defects m := by
  rw [preferredScore, qualityScore_eq, pixels]
  push_cast
  omega

/-- A score orders first by the pixels and then by the defects. -/
theorem preferredScore_le_iff (m m' : Mode) :
    preferredScore m' ≤ preferredScore m ↔
      pixels m' < pixels m ∨ pixels m' = pixels m ∧ defects m ≤ defects m' := by
  rw [preferredScore_eq, preferredScore_eq]
  have hm := defects_le_two m
  have hm' := defects_le_two m'
  omega

theorem preferredScore_pos {m : Mode} (hwidth : 0 < m.width) (hheight : 0 < m.height) :
    0 < preferredScore m := by
  have hpixels : 0 < pixels m := Nat.mul_pos (UInt16.lt_iff_toNat_lt.mp hwidth) (UInt16.lt_iff_toNat_lt.mp hheight)
  rw [preferredScore_eq]
  have hdefects := defects_le_two m
  omega

/-- The mode kept so far is one of those that were looked at, and none of them has a higher score. -/
theorem preferredLoop_spec (numPreferred i : ℕ) (modes : List Mode) {maxScore : ℤ} {kept : Option Mode}
    (hkept : ∀ m, kept = some m → preferredScore m = maxScore) :
    (∀ m, preferredLoop numPreferred i modes maxScore kept = some m →
      (kept = some m ∨ m ∈ modes.take (numPreferred + 1 - i)) ∧ maxScore ≤ preferredScore m ∧
        ∀ m' ∈ modes.take (numPreferred + 1 - i), preferredScore m' ≤ preferredScore m) ∧
      (preferredLoop numPreferred i modes maxScore kept = none →
        kept = none ∧ ∀ m' ∈ modes.take (numPreferred + 1 - i), preferredScore m' ≤ maxScore) := by
  induction modes generalizing i maxScore kept with
  | nil =>
      refine ⟨fun m hm => ⟨.inl hm, (hkept m hm).ge, by simp⟩, fun hnone => ⟨hnone, by simp⟩⟩
  | cons m rest ih =>
      rw [preferredLoop]
      by_cases hend : numPreferred < i
      · rw [if_pos hend, show numPreferred + 1 - i = 0 by omega]
        exact ⟨fun m hm => ⟨.inl hm, (hkept m hm).ge, by simp⟩, fun hnone => ⟨hnone, by simp⟩⟩
      · rw [if_neg hend, show numPreferred + 1 - i = numPreferred + 1 - (i + 1) + 1 by omega,
          List.take_succ_cons]
        by_cases hbetter : maxScore < preferredScore m
        · rw [if_pos hbetter]
          have hnew : ∀ m', some m = some m' → preferredScore m' = preferredScore m := fun m' hm' =>
            Option.some.inj hm' ▸ rfl
          obtain ⟨hsome, hnone⟩ := ih (i + 1) hnew
          refine ⟨fun m' hm' => ?_, fun h => absurd (hnone h).1 nofun⟩
          obtain ⟨hmem, hle, hall⟩ := hsome m' hm'
          refine ⟨.inr ?_, hbetter.le.trans hle, fun m'' hm'' => ?_⟩
          · rcases hmem with heq | hmem
            · exact Option.some.inj heq ▸ List.mem_cons_self
            · exact List.mem_cons_of_mem m hmem
          · rcases List.mem_cons.mp hm'' with rfl | hm''
            · exact hle
            · exact hall m'' hm''
        · rw [if_neg hbetter]
          obtain ⟨hsome, hnone⟩ := ih (i + 1) hkept
          refine ⟨fun m' hm' => ?_, fun h => ?_⟩
          · obtain ⟨hmem, hle, hall⟩ := hsome m' hm'
            refine ⟨hmem.imp_right (List.mem_cons_of_mem m), hle, fun m'' hm'' => ?_⟩
            rcases List.mem_cons.mp hm'' with rfl | hm''
            · exact (not_lt.mp hbetter).trans hle
            · exact hall m'' hm''
          · obtain ⟨hkept', hall⟩ := hnone h
            refine ⟨hkept', fun m'' hm'' => ?_⟩
            rcases List.mem_cons.mp hm'' with rfl | hm''
            · exact not_lt.mp hbetter
            · exact hall m'' hm''

/-- `preferred_mode` finds the best of the preferred modes. -/
theorem preferredMode_best {modes : List Mode} {numPreferred : ℕ} {m : Mode}
    (h : preferredMode modes numPreferred = some m) : BestOf (modes.take numPreferred) m := by
  have hstart : ∀ m, none = some m → preferredScore m = 0 := nofun
  have hspec := (preferredLoop_spec numPreferred 1 modes hstart).1 m h
  rw [Nat.add_sub_cancel] at hspec
  obtain ⟨hmem, -, hall⟩ := hspec
  refine ⟨hmem.resolve_left nofun, fun m' hm' => ?_, fun m' hm' heq => ?_⟩
  · have := (preferredScore_le_iff m m').mp (hall m' hm')
    omega
  · have := (preferredScore_le_iff m m').mp (hall m' hm')
    omega

theorem preferredMode_none {modes : List Mode} {numPreferred : ℕ}
    (hpos : ∀ m ∈ modes, 0 < m.width ∧ 0 < m.height) (h : preferredMode modes numPreferred = none) :
    modes.take numPreferred = [] := by
  have hstart : ∀ m, none = some m → preferredScore m = 0 := nofun
  have hspec := ((preferredLoop_spec numPreferred 1 modes hstart).2 h).2
  rw [Nat.add_sub_cancel] at hspec
  refine List.eq_nil_iff_forall_not_mem.mpr fun m hm => ?_
  obtain ⟨hwidth, hheight⟩ := hpos m (List.mem_of_mem_take hm)
  exact absurd (preferredScore_pos hwidth hheight) (not_lt.mpr (hspec m hm))

/-- The loop over the modes of a given size stops at the first of them. -/
theorem sizedMode_eq_find (modes : List Mode) (width height : ℤ) :
    sizedMode modes width height = modes.find? fun m => decide (HasSize width height m) := by
  unfold sizedMode
  induction modes with
  | nil => rfl
  | cons m rest ih =>
      rw [sizedLoop, List.find?_cons]
      by_cases hsize : HasSize width height m
      · have hscore : -1 < qualityScore m := by
          rw [qualityScore_eq]
          have := defects_le_two m
          omega
        rw [decide_eq_true hsize]
        exact (if_pos hsize).trans (if_pos hscore)
      · rw [decide_eq_false hsize]
        exact (if_neg hsize).trans ih

/-- The best modes are selected if and only if no mode of the given size has fewer defects than the
first one. -/
theorem modes_select_best {modes : List Mode} {numPreferred : ℕ} {width height : ℤ}
    (hpos : ∀ m ∈ modes, 0 < m.width ∧ 0 < m.height) :
    SelectsBest modes numPreferred width height ↔
      ∀ m, (modes.find? fun m => decide (HasSize width height m)) = some m →
        ∀ m' ∈ modes, HasSize width height m' → defects m ≤ defects m' := by
  constructor
  · intro h m hm
    rw [← sizedMode_eq_find] at hm
    exact (h.sized m hm).defects_le
  · intro h
    refine ⟨fun m hm => preferredMode_best hm, preferredMode_none hpos, fun m hm => ?_, fun hnone m hm hsize => ?_⟩
    · rw [sizedMode_eq_find] at hm
      have hsize := List.find?_some hm
      exact ⟨List.mem_of_find?_eq_some hm, by simpa using hsize, h m hm⟩
    · rw [sizedMode_eq_find, List.find?_eq_none] at hnone
      exact hnone m hm (decide_eq_true hsize)

theorem modes_select_best_two :
    SelectsBest [⟨1, 1920, 1080, false, false⟩, ⟨2, 1920, 1080, true, false⟩] 1 1920 1080 :=
  (modes_select_best (by decide)).mpr (by decide)

/-- The interlaced mode is the first one of its size. -/
theorem interlaced_mode_selected :
    (∀ m ∈ [Mode.mk 1 1920 1080 true false, ⟨2, 1920, 1080, false, false⟩], 0 < m.width ∧ 0 < m.height) ∧
      ¬ SelectsBest [⟨1, 1920, 1080, true, false⟩, ⟨2, 1920, 1080, false, false⟩] 1 1920 1080 :=
  ⟨by decide, fun h => absurd ((h.sized _ rfl).defects_le ⟨2, 1920, 1080, false, false⟩ (by decide)
    (by decide)) (by decide)⟩

end Deai.OutputModes
