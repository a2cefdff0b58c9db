import Deai.ConfigureOutputs
import Mathlib.Data.List.GetD
import Deai.Fallible

/-!
# Plans for the outputs

What is known of a plan that `configure_outputs` has made: its parts, and the tables `min` and `max`
from which the size of the screen and the positions are taken.
-/
namespace Deai.OutputPlans
open Fallible ConfigureOutputs

variable {order : Traversal} {screen : Screen} {configs : List OutputConfig} {plan : Plan}

/-- One of the orders in which `pairs` may go through the directions. -/
def leftToRight : Traversal := ⟨fun _ => [.left, .right, .up, .down], fun _ => List.Perm.refl _⟩

/-- A configuration without relations. -/
def onlyOutput (name : String) : OutputConfig := ⟨.name name, none, none, none, none, none, none⟩

/-- The parts of a plan. -/
theorem planOutputs_parts {fuel : ℕ} (h : planOutputs fuel order screen configs = .ok plan) :
    ∃ constraints, configs.mapM (selectOutput screen) = .ok plan.outputs ∧
      selectSizes screen plan.outputs configs = .ok plan.sizes ∧
      addConfigs order screen plan.outputs plan.sizes 1 configs (List.replicate (4 * configs.length) []) =
        .ok constraints ∧
      solve fuel constraints = .ok plan.solution ∧
      boundOutputs plan.solution 1 plan.sizes ⟨fun _ => none, fun _ => none⟩ = .ok plan.bounds := by
  obtain ⟨outputs, houtputs, h⟩ := bind_eq_ok h
  obtain ⟨sizes, hsizes, h⟩ := bind_eq_ok h
  obtain ⟨constraints, hconstraints, h⟩ := bind_eq_ok h
  obtain ⟨solution, hsolution, h⟩ := bind_eq_ok h
  obtain ⟨selectedViews, -, h⟩ := bind_eq_ok h
  obtain ⟨bounds, hbounds, h⟩ := bind_eq_ok h
  obtain rfl := Except.ok.inj h
  exact ⟨constraints, houtputs, hsizes, hconstraints, hsolution, hbounds⟩

theorem length_of_mapM {α β : Type} {f : α → Except Stop β} {xs : List α} {ys : List β}
    (h : xs.mapM f = .ok ys) : ys.length = xs.length := by
  induction xs generalizing ys with
  | nil =>
      rw [List.mapM_nil] at h
      obtain rfl := Except.ok.inj h
      rfl
  | cons x xs ih =>
      rw [List.mapM_cons] at h
      obtain ⟨y, -, h⟩ := bind_eq_ok h
      obtain ⟨ys, hys, h⟩ := bind_eq_ok h
      obtain rfl := Except.ok.inj h
      rw [List.length_cons, List.length_cons, ih hys]

theorem length_of_selectSizes {outputs : List ℕ} {sizes : List OutputSize}
    (h : selectSizes screen outputs configs = .ok sizes) (hlength : outputs.length = configs.length) :
    sizes.length = configs.length := by
  induction outputs generalizing configs sizes with
  | nil =>
      obtain rfl := List.eq_nil_of_length_eq_zero hlength.symm
      obtain rfl := Except.ok.inj h
      rfl
  | cons output outputs ih =>
      cases configs with
      | nil => cases hlength
      | cons config configs =>
          rw [selectSizes] at h
          obtain ⟨size, -, h⟩ := bind_eq_ok h
          obtain ⟨sizes, hsizes, h⟩ := bind_eq_ok h
          obtain rfl := Except.ok.inj h
          rw [List.length_cons, List.length_cons, ih hsizes (Nat.succ.inj hlength)]

theorem length_outputs {fuel : ℕ} (h : planOutputs fuel order screen configs = .ok plan) :
    plan.outputs.length = configs.length := by
  obtain ⟨-, houtputs, -⟩ := planOutputs_parts h
  exact length_of_mapM houtputs

theorem length_sizes {fuel : ℕ} (h : planOutputs fuel order screen configs = .ok plan) :
    plan.sizes.length = configs.length := by
  obtain ⟨-, -, hsizes, -⟩ := planOutputs_parts h
  exact length_of_selectSizes hsizes (length_outputs h)

/-! ## The bounds of the outputs -/

/-- The place of the number `a` of the output `i` in the solution. -/
def place (i a : ℕ) : ℕ := 4 * i - (4 - a) - 1

theorem boundNumber_ok {solution : List ℤ} {size : OutputSize} {i a : ℕ} {bounds bounds' : Bounds}
    (h : boundNumber solution size i bounds a = .ok bounds') :
    ∃ s, solution[place i a]? = some s ∧
      bounds' = ⟨Function.update bounds.min a (if (bounds.min a).all (s < ·) then some s else bounds.min a),
        Function.update bounds.max a
          (if (bounds.max a).all (s + size.get a > ·) then some (s + size.get a) else bounds.max a)⟩ := by
  unfold boundNumber at h
  unfold place
  cases hs : solution[4 * i - (4 - a) - 1]? with
  | none =>
      rw [hs] at h
      cases hmin : bounds.min a with
      | none =>
          rw [hmin] at h
          cases h
      | some m =>
          rw [hmin] at h
          cases h
  | some s =>
      rw [hs] at h
      exact ⟨s, rfl, (Except.ok.inj h).symm⟩

/-- All four numbers of an output are taken into account. -/
theorem boundNumbers_ok {solution : List ℤ} {size : OutputSize} {i : ℕ} {bounds bounds' : Bounds}
    (h : [4, 3, 2, 1].foldlM (boundNumber solution size i) bounds = .ok bounds') {a : ℕ}
    (ha : a ∈ [1, 2, 3, 4]) :
    ∃ s, solution[place i a]? = some s ∧
      bounds'.min a = (if (bounds.min a).all (s < ·) then some s else bounds.min a) ∧
      bounds'.max a =
        (if (bounds.max a).all (s + size.get a > ·) then some (s + size.get a) else bounds.max a) := by
  simp only [List.foldlM_cons, List.foldlM_nil] at h
  obtain ⟨b₄, h₄, h⟩ := bind_eq_ok h
  obtain ⟨b₃, h₃, h⟩ := bind_eq_ok h
  obtain ⟨b₂, h₂, h⟩ := bind_eq_ok h
  obtain ⟨b₁, h₁, h⟩ := bind_eq_ok h
  obtain rfl := Except.ok.inj h
  obtain ⟨s₄, hs₄, rfl⟩ := boundNumber_ok h₄
  obtain ⟨s₃, hs₃, rfl⟩ := boundNumber_ok h₃
  obtain ⟨s₂, hs₂, rfl⟩ := boundNumber_ok h₂
  obtain ⟨s₁, hs₁, rfl⟩ := boundNumber_ok h₁
  simp only [List.mem_cons, List.not_mem_nil, or_false] at ha
  rcases ha with rfl | rfl | rfl | rfl
  · exact ⟨s₁, hs₁, by simp [Function.update], by simp [Function.update]⟩
  · exact ⟨s₂, hs₂, by simp [Function.update], by simp [Function.update]⟩
  · exact ⟨s₃, hs₃, by simp [Function.update], by simp [Function.update]⟩
  · exact ⟨s₄, hs₄, by simp [Function.update], by simp [Function.update]⟩

/-- The tables after the first `count` outputs, for the number `a`. -/
structure Bounding (solution : List ℤ) (sizes : List OutputSize) (count a : ℕ) (bounds : Bounds) : Prop where
  known : ∀ i, 1 ≤ i → i ≤ count → (solution[place i a]?).isSome
  unset : count = 0 → bounds.min a = none ∧ bounds.max a = none
  set : 0 < count → ∃ low high, bounds.min a = some low ∧ bounds.max a = some high ∧
    (∀ i size, 1 ≤ i → i ≤ count → sizes[i - 1]? = some size →
      low ≤ solution.getD (place i a) 0 ∧ solution.getD (place i a) 0 + size.get a ≤ high) ∧
    ∃ i, 1 ≤ i ∧ i ≤ count ∧ solution.getD (place i a) 0 = low

theorem Bounding.step {solution : List ℤ} {sizes : List OutputSize} {count a : ℕ} {bounds bounds' : Bounds}
    (h : Bounding solution sizes count a bounds) {size : OutputSize} (hsize : sizes[count]? = some size)
    {s : ℤ} (hs : solution[place (count + 1) a]? = some s)
    (hmin : bounds'.min a = if (bounds.min a).all (s < ·) then some s else bounds.min a)
    (hmax : bounds'.max a =
      if (bounds.max a).all (s + size.get a > ·) then some (s + size.get a) else bounds.max a) :
    Bounding solution sizes (count + 1) a bounds' := by
  have hvalue : solution.getD (place (count + 1) a) 0 = s := by
    rw [List.getD_eq_getElem?_getD, hs]
    rfl
  refine ⟨fun i hi hle => ?_, fun h0 => absurd h0 (Nat.succ_ne_zero _), fun _ => ?_⟩
  · rcases Nat.le_succ_iff.mp hle with hle | rfl
    · exact h.known i hi hle
    · rw [hs]
      rfl
  · rcases Nat.eq_zero_or_pos count with h0 | hpos
    · obtain ⟨hmin0, hmax0⟩ := h.unset h0
      rw [hmin0] at hmin
      rw [hmax0] at hmax
      refine ⟨s, s + size.get a, hmin, hmax, fun i size' hi hle hsize' => ?_, count + 1, by omega, le_refl _,
        hvalue⟩
      obtain rfl : i = count + 1 := by omega
      rw [Nat.add_sub_cancel, hsize] at hsize'
      obtain rfl := Option.some.inj hsize'
      rw [hvalue]
      exact ⟨le_refl _, le_refl _⟩
    · obtain ⟨low, high, hlow, hhigh, hall, i₀, hi₀, hle₀, hval₀⟩ := h.set hpos
      rw [hlow] at hmin
      rw [hhigh] at hmax
      simp only [Option.all_some, decide_eq_true_eq] at hmin hmax
      have hmin' : bounds'.min a = some (min s low) := by
        rw [hmin]
        split_ifs with hlt
        · rw [min_eq_left hlt.le]
        · rw [min_eq_right (not_lt.mp hlt)]
      have hmax' : bounds'.max a = some (max (s + size.get a) high) := by
        rw [hmax]
        split_ifs with hlt
        · rw [max_eq_left (le_of_lt hlt)]
        · rw [max_eq_right (not_lt.mp hlt)]
      refine ⟨_, _, hmin', hmax', fun i size' hi hle hsize' => ?_, ?_⟩
      · rcases Nat.le_succ_iff.mp hle with hle | rfl
        · obtain ⟨hl, hh⟩ := hall i size' hi hle hsize'
          exact ⟨(min_le_right _ _).trans hl, hh.trans (le_max_right _ _)⟩
        · rw [Nat.succ_sub_one, hsize] at hsize'
          obtain rfl := Option.some.inj hsize'
          rw [hvalue]
          exact ⟨min_le_left _ _, le_max_left _ _⟩
      · rcases le_total s low with hle | hle
        · exact ⟨count + 1, by omega, le_refl _, by rw [hvalue, min_eq_left hle]⟩
        · exact ⟨i₀, hi₀, by omega, by rw [hval₀, min_eq_right hle]⟩

theorem Bounding.run {solution : List ℤ} {a : ℕ} (ha : a ∈ [1, 2, 3, 4]) {done rest : List OutputSize}
    {bounds bounds' : Bounds} (h : Bounding solution (done ++ rest) done.length a bounds)
    (hrun : boundOutputs solution (done.length + 1) rest bounds = .ok bounds') :
    Bounding solution (done ++ rest) (done ++ rest).length a bounds' := by
  induction rest generalizing done bounds with
  | nil =>
      obtain rfl := Except.ok.inj hrun
      simpa using h
  | cons size rest ih =>
      rw [boundOutputs] at hrun
      obtain ⟨bounds₁, hnumbers, hrun⟩ := bind_eq_ok hrun
      obtain ⟨s, hs, hmin, hmax⟩ := boundNumbers_ok hnumbers ha
      have hsize : (done ++ size :: rest)[done.length]? = some size := by simp
      have hstep := h.step hsize hs hmin hmax
      have hsplit : done ++ size :: rest = (done ++ [size]) ++ rest := by simp
      have hlength : (done ++ [size]).length = done.length + 1 := by simp
      rw [hsplit] at hstep ⊢
      rw [← hlength] at hstep hrun
      exact ih hstep hrun

theorem plan_bounding {fuel : ℕ} (h : planOutputs fuel order screen configs = .ok plan) {a : ℕ}
    (ha : a ∈ [1, 2, 3, 4]) : Bounding plan.solution plan.sizes configs.length a plan.bounds := by
  obtain ⟨-, -, -, -, -, hbounds⟩ := planOutputs_parts h
  have hstart : Bounding plan.solution ([] ++ plan.sizes) ([] : List OutputSize).length a
      ⟨fun _ => none, fun _ => none⟩ :=
    ⟨fun i hi hle => absurd hle (by simp; omega), fun _ => ⟨rfl, rfl⟩, fun h => absurd h (by simp)⟩
  have hrun := hstart.run ha hbounds
  rwa [List.nil_append, length_sizes h] at hrun

end Deai.OutputPlans
