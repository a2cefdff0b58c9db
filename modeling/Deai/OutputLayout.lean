import Deai.BipartiteMatching
import Deai.OutputConstraints
import Mathlib.Logic.Relation

/-!
# The layout of the outputs

The positions that `configure_outputs` computes respect the relations of the configuration list, and
the outputs lie inside the screen. The relations are given to the solver as tables, of which the
binding keeps at most `INT_MAX - 1` elements.
-/
namespace Deai.OutputLayout
open Fallible ConfigureOutputs OutputPlans OutputConstraints
open DifferenceConstraints (differenceConstraints)
open ConstraintSolving (Returns Solves)

variable {order : Traversal} {server : List Write → Screen} {screen : Screen}
  {configs : List OutputConfig} {plan : Plan}

/-! ## What a layout should be -/

/-- The configuration of the output `i` names the output `j` in the direction `k`. -/
def Related (screen : Screen) (configs : List OutputConfig) (outputs : List ℕ) (i : ℕ) (k : Direction)
    (j : ℕ) : Prop :=
  1 ≤ i ∧ 1 ≤ j ∧ ∃ config other output, configs[i - 1]? = some config ∧
    other ∈ (config.get k).getD [] ∧ findOutputImpl screen.monitors other = .ok (some output) ∧
    outputs[j - 1]? = some output

/-- The number `a` of the size of the output `i`. -/
def sizeNumber (sizes : List OutputSize) (i a : ℕ) : ℤ := (sizes[i - 1]?.map fun size => size.get a).getD 0

/-- A layout in pixels and millimetres: the numbers 1 and 3 are horizontal, 2 and 4 vertical. -/
structure LaidOut (screen : Screen) (configs : List OutputConfig) (plan : Plan) : Prop where
  left : ∀ i j, Related screen configs plan.outputs i .left j → ∀ a ∈ [1, 3],
    plan.position j a + sizeNumber plan.sizes j a ≤ plan.position i a
  right : ∀ i j, Related screen configs plan.outputs i .right j → ∀ a ∈ [1, 3],
    plan.position i a + sizeNumber plan.sizes i a ≤ plan.position j a
  up : ∀ i j, Related screen configs plan.outputs i .up j → ∀ a ∈ [2, 4],
    plan.position j a + sizeNumber plan.sizes j a ≤ plan.position i a
  down : ∀ i j, Related screen configs plan.outputs i .down j → ∀ a ∈ [2, 4],
    plan.position i a + sizeNumber plan.sizes i a ≤ plan.position j a
  inside : ∀ width height mmWidth mmHeight,
    screenSize plan = .ok (.screenSize width height mmWidth mmHeight) →
    ∀ i, 1 ≤ i → i ≤ configs.length →
      (0 ≤ plan.position i 1 ∧ plan.position i 1 + sizeNumber plan.sizes i 1 ≤ width) ∧
      (0 ≤ plan.position i 2 ∧ plan.position i 2 + sizeNumber plan.sizes i 2 ≤ height) ∧
      (0 ≤ plan.position i 3 ∧ plan.position i 3 + sizeNumber plan.sizes i 3 ≤ mmWidth) ∧
      (0 ≤ plan.position i 4 ∧ plan.position i 4 + sizeNumber plan.sizes i 4 ≤ mmHeight)
  minimal : configs ≠ [] → ∀ a ∈ [1, 2, 3, 4], ∃ i, 1 ≤ i ∧ i ≤ configs.length ∧ plan.position i a = 0

/-- The output `i` has to end before the output `j` begins, in the number `a`. -/
def Before (screen : Screen) (configs : List OutputConfig) (outputs : List ℕ) (a i j : ℕ) : Prop :=
  ∃ k i' j', Related screen configs outputs i' k j' ∧ a ∈ [axis k, axis k + 2] ∧ i = earlier k i' j' ∧
    j = later k i' j'

/-- The relations go round, through outputs whose sizes are positive. -/
def Cyclic (screen : Screen) (configs : List OutputConfig) : Prop :=
  ∃ outputs sizes a i, configs.mapM (selectOutput screen) = .ok outputs ∧
    selectSizes screen outputs configs = .ok sizes ∧
    Relation.TransGen
      (fun i j => Before screen configs outputs a i j ∧ 0 < sizeNumber sizes i a) i i

/-- Every call that comes to the last step has a layout, and there is an error if there can be none. -/
structure LayoutCorrect (order : Traversal) (server : List Write → Screen) (configs : List OutputConfig) :
    Prop where
  laidOut : ∀ fuel plan, planOutputs fuel order (server []) configs = .ok plan →
    LaidOut (server []) configs plan
  cyclic : Cyclic (server []) configs →
    ∃ fuel e, configureOutputs fuel order server configs = ([], .error (.raised e))

/-- The configurations match pairwise distinct outputs. -/
def Distinct (screen : Screen) (configs : List OutputConfig) : Prop :=
  ∀ outputs, configs.mapM (selectOutput screen) = .ok outputs → outputs.Nodup

/-- No table that is passed to the solver is cut off, and no sum of the solver leaves the range of
`int64_t`. -/
def Fits (order : Traversal) (screen : Screen) (configs : List OutputConfig) : Prop :=
  ∀ outputs sizes constraints, configs.mapM (selectOutput screen) = .ok outputs →
    selectSizes screen outputs configs = .ok sizes →
    addConfigs order screen outputs sizes 1 configs (List.replicate (4 * configs.length) []) =
      .ok constraints →
    (constraints.length ≤ 2 ^ 31 - 2 ∧ ∀ numbers ∈ constraints, numbers.length ≤ 2 ^ 31 - 2) ∧
      ∀ fuel, differenceConstraints fuel constraints ≠ .error .overflow

/-! ## Relations and constraints -/

theorem indexOf_eq_none {x : ℕ} {xs : List ℕ} (h : x ∉ xs) (s : ℕ) : indexOf x s xs = none := by
  induction xs generalizing s with
  | nil => rfl
  | cons y xs ih =>
      have hy : ¬ y = x := fun heq => h (heq ▸ List.mem_cons_self)
      rw [indexOf, ih (fun hmem => h (List.mem_cons_of_mem y hmem)), if_neg hy]
      rfl

theorem indexOf_of_nodup {x s m : ℕ} {xs : List ℕ} (hnodup : xs.Nodup) (h : xs[m]? = some x) :
    indexOf x s xs = some (s + m) := by
  induction xs generalizing s m with
  | nil => cases h
  | cons y xs ih =>
      obtain ⟨hy, hxs⟩ := List.nodup_cons.mp hnodup
      rw [indexOf]
      cases m with
      | zero =>
          obtain rfl := Option.some.inj h
          rw [indexOf_eq_none hy, if_pos rfl]
          rfl
      | succ m =>
          rw [ih hxs h, Nat.add_assoc, Nat.add_comm 1 m]
          rfl

theorem paired_replicate (n : ℕ) : Paired (List.replicate n []) := by
  intro p
  rw [List.getD_eq_getElem?_getD, List.getElem?_replicate]
  split_ifs <;> rfl

/-- Each relation is in the constraints, for both numbers of its direction. -/
theorem hasPair_of_before {outputs : List ℕ} {sizes : List OutputSize} {constraints : List (List ℤ)}
    (hnodup : outputs.Nodup)
    (hconstraints : addConfigs order screen outputs sizes 1 configs (List.replicate (4 * configs.length) []) =
      .ok constraints) {a i j : ℕ} (h : Before screen configs outputs a i j) :
    HasPair constraints (place j a) (place i a) (-sizeNumber sizes i a) := by
  obtain ⟨k, i', j', ⟨hi, hj, config, other, output, hconfig, hother, hfind, houtput⟩, ha, rfl, rfl⟩ := h
  have hall := (addConfigs_ok (le_refl 1) (paired_replicate _) hconstraints).2
  obtain ⟨output', j'', size, hfind', hindex, hsize, hpairs⟩ := hall (i' - 1) config k hconfig other hother
  rw [Nat.add_sub_cancel' hi] at hsize hpairs
  obtain rfl := Option.some.inj (Except.ok.inj (hfind.symm.trans hfind'))
  rw [indexOf_of_nodup hnodup houtput, Nat.add_sub_cancel' hj] at hindex
  obtain rfl := Option.some.inj hindex
  have hnumber : sizeNumber sizes (earlier k i' j') a = size.get a := by
    rw [sizeNumber, hsize]
    rfl
  rw [hnumber]
  exact hpairs a ha

theorem toArray_eq {constraints : List (List ℤ)} (hlength : constraints.length ≤ 2 ^ 31 - 2)
    (hall : ∀ numbers ∈ constraints, numbers.length ≤ 2 ^ 31 - 2) :
    toArray (constraints.map toArray) = constraints := by
  have hmap : constraints.map toArray = constraints := by
    refine (List.map_congr_left fun numbers hnumbers => ?_).trans (List.map_id' constraints)
    exact List.take_of_length_le (hall numbers hnumbers)
  rw [hmap]
  exact List.take_of_length_le hlength

theorem returns_of_solve {constraints : List (List ℤ)} {fuel : ℕ} {solution : List ℤ}
    (h : solve fuel constraints = .ok solution) : Returns (toArray (constraints.map toArray)) solution := by
  unfold solve at h
  split at h
  next hrun =>
    obtain rfl := Except.ok.inj h
    exact ⟨fuel, hrun⟩
  all_goals cases h

/-- A solution puts one output after the other. -/
theorem solves_before {outputs : List ℕ} {sizes : List OutputSize} {constraints : List (List ℤ)}
    (hnodup : outputs.Nodup)
    (hconstraints : addConfigs order screen outputs sizes 1 configs (List.replicate (4 * configs.length) []) =
      .ok constraints) {x : List ℤ} (hx : Solves constraints x) {a i j : ℕ}
    (h : Before screen configs outputs a i j) :
    x.getD (place i a) 0 + sizeNumber sizes i a ≤ x.getD (place j a) 0 := by
  have hpair := hasPair_of_before hnodup hconstraints h
  have hplace : place j a < constraints.length := by
    by_contra hge
    rw [HasPair, List.getD_eq_default constraints [] (Nat.not_lt.mp hge)] at hpair
    cases hpair
  have hle := hx.2 _ hplace _ hpair
  rw [Int.toNat_natCast] at hle
  omega

/-! ## The layout -/

theorem position_before (hdistinct : Distinct screen configs) (hfits : Fits order screen configs) {fuel : ℕ}
    (hplan : planOutputs fuel order screen configs = .ok plan) {a i j : ℕ}
    (h : Before screen configs plan.outputs a i j) :
    plan.position i a + sizeNumber plan.sizes i a ≤ plan.position j a := by
  obtain ⟨constraints, houtputs, hsizes, hconstraints, hsolution, -⟩ := planOutputs_parts hplan
  obtain ⟨⟨hlength, hall⟩, -⟩ := hfits _ _ _ houtputs hsizes hconstraints
  have hreturns := returns_of_solve hsolution
  rw [toArray_eq hlength hall] at hreturns
  have hle := solves_before (hdistinct _ houtputs) hconstraints (ConstraintCalls.returns_solves hreturns) h
  unfold Plan.position
  unfold place at hle
  omega

theorem position_inside {fuel : ℕ} (hplan : planOutputs fuel order screen configs = .ok plan) {a i : ℕ}
    (ha : a ∈ [1, 2, 3, 4]) (hi : 1 ≤ i) (hle : i ≤ configs.length) {extent : ℤ}
    (hextent : plan.extent a = .ok extent) :
    0 ≤ plan.position i a ∧ plan.position i a + sizeNumber plan.sizes i a ≤ extent := by
  obtain ⟨low, high, hlow, hhigh, hall, -⟩ := (plan_bounding hplan ha).set (by omega)
  rw [Plan.extent, hlow, hhigh] at hextent
  have hextent := Except.ok.inj hextent
  have hlength : i - 1 < plan.sizes.length := by
    rw [length_sizes hplan]
    omega
  have hsize : plan.sizes[i - 1]? = some plan.sizes[i - 1] := List.getElem?_eq_getElem hlength
  have hnumber : sizeNumber plan.sizes i a = plan.sizes[i - 1].get a := by
    rw [sizeNumber, hsize]
    rfl
  obtain ⟨hl, hh⟩ := hall i _ hi hle hsize
  rw [hnumber, Plan.position, hlow, Option.getD_some]
  unfold place at hl hh
  omega

theorem position_minimal {fuel : ℕ} (hplan : planOutputs fuel order screen configs = .ok plan)
    (hconfigs : configs ≠ []) {a : ℕ} (ha : a ∈ [1, 2, 3, 4]) :
    ∃ i, 1 ≤ i ∧ i ≤ configs.length ∧ plan.position i a = 0 := by
  obtain ⟨low, high, hlow, -, -, i, hi, hle, hvalue⟩ :=
    (plan_bounding hplan ha).set (List.length_pos_iff.mpr hconfigs)
  refine ⟨i, hi, hle, ?_⟩
  rw [Plan.position, hlow, Option.getD_some]
  unfold place at hvalue
  omega

theorem extents_of_screenSize {width height mmWidth mmHeight : ℤ}
    (h : screenSize plan = .ok (.screenSize width height mmWidth mmHeight)) :
    plan.extent 1 = .ok width ∧ plan.extent 2 = .ok height ∧ plan.extent 3 = .ok mmWidth ∧
      plan.extent 4 = .ok mmHeight := by
  obtain ⟨w, hw, h⟩ := bind_eq_ok h
  obtain ⟨y, hy, h⟩ := bind_eq_ok h
  obtain ⟨u, hu, h⟩ := bind_eq_ok h
  obtain ⟨v, hv, h⟩ := bind_eq_ok h
  obtain ⟨rfl, rfl, rfl, rfl⟩ := Write.screenSize.inj (Except.ok.inj h)
  exact ⟨hw, hy, hu, hv⟩

theorem laidOut_of_plan (hdistinct : Distinct screen configs) (hfits : Fits order screen configs) {fuel : ℕ}
    (hplan : planOutputs fuel order screen configs = .ok plan) : LaidOut screen configs plan := by
  have hbefore : ∀ k i j, Related screen configs plan.outputs i k j → ∀ a ∈ [axis k, axis k + 2],
      plan.position (earlier k i j) a + sizeNumber plan.sizes (earlier k i j) a ≤
        plan.position (later k i j) a := fun k i j h a ha =>
    position_before hdistinct hfits hplan ⟨k, i, j, h, ha, rfl, rfl⟩
  refine ⟨fun i j h a ha => hbefore .left i j h a ha, fun i j h a ha => hbefore .right i j h a ha,
    fun i j h a ha => hbefore .up i j h a ha, fun i j h a ha => hbefore .down i j h a ha, ?_,
    fun hconfigs a ha => position_minimal hplan hconfigs ha⟩
  intro width height mmWidth mmHeight hsize i hi hle
  obtain ⟨hwidth, hheight, hmmWidth, hmmHeight⟩ := extents_of_screenSize hsize
  exact ⟨position_inside hplan (by decide) hi hle hwidth, position_inside hplan (by decide) hi hle hheight,
    position_inside hplan (by decide) hi hle hmmWidth, position_inside hplan (by decide) hi hle hmmHeight⟩

/-- Relations that go round have no solution. -/
theorem not_solves_of_cyclic {outputs : List ℕ} {sizes : List OutputSize} {constraints : List (List ℤ)}
    (hnodup : outputs.Nodup)
    (hconstraints : addConfigs order screen outputs sizes 1 configs (List.replicate (4 * configs.length) []) =
      .ok constraints) {a i : ℕ}
    (hcycle : Relation.TransGen
      (fun i j => Before screen configs outputs a i j ∧ 0 < sizeNumber sizes i a) i i) (x : List ℤ) :
    ¬ Solves constraints x := by
  intro hx
  have hless : ∀ {i j}, Relation.TransGen
      (fun i j => Before screen configs outputs a i j ∧ 0 < sizeNumber sizes i a) i j →
      x.getD (place i a) 0 < x.getD (place j a) 0 := by
    intro i j hpath
    induction hpath with
    | single h =>
        have hle := solves_before hnodup hconstraints hx h.1
        have hpos := h.2
        omega
    | tail _ h ih =>
        have hle := solves_before hnodup hconstraints hx h.1
        have hpos := h.2
        omega
  exact lt_irrefl _ (hless hcycle)

theorem raised_of_cyclic (hdistinct : Distinct screen configs) (hfits : Fits order screen configs)
    (h : Cyclic screen configs) : ∃ fuel e, planOutputs fuel order screen configs = .error (.raised e) := by
  obtain ⟨outputs, sizes, a, i, houtputs, hsizes, hcycle⟩ := h
  have hparts : ∀ fuel, planOutputs fuel order screen configs = (do
      let constraints ← addConfigs order screen outputs sizes 1 configs
        (List.replicate (4 * configs.length) [])
      let solution ← solve fuel constraints
      let selectedViews ← allocateViews fuel screen outputs
      let bounds ← boundOutputs solution 1 sizes ⟨fun _ => none, fun _ => none⟩
      .ok ⟨outputs, sizes, solution, selectedViews, bounds⟩) := by
    intro fuel
    simp only [planOutputs, houtputs, hsizes, bind, Except.bind]
  cases hconstraints : addConfigs order screen outputs sizes 1 configs
      (List.replicate (4 * configs.length) []) with
  | error e =>
      obtain ⟨e, rfl⟩ := raises_addConfigs 1 configs _ e hconstraints
      exact ⟨0, e, by rw [hparts, hconstraints]; rfl⟩
  | ok constraints =>
      obtain ⟨⟨hlength, hall⟩, hsafe⟩ := hfits _ _ _ houtputs hsizes hconstraints
      have hsize : ∀ p, (constraints.getD p []).length ≤ 2 ^ 32 - 2 := by
        intro p
        rcases Nat.lt_or_ge p constraints.length with hp | hp
        · rw [List.getD_eq_getElem constraints [] hp]
          have := hall _ (List.getElem_mem hp)
          omega
        · rw [List.getD_eq_default constraints [] hp]
          exact Nat.zero_le _
      obtain ⟨fuel, message, hrun⟩ := ConstraintCalls.refused (by omega) hsize hsafe
        (not_solves_of_cyclic (hdistinct _ houtputs) hconstraints hcycle)
      refine ⟨fuel, .thrown message, ?_⟩
      have hsolve : solve fuel constraints = .error (.raised (.thrown message)) := by
        rw [solve, toArray_eq hlength hall, hrun]
      rw [hparts, hconstraints]
      simp only [bind, Except.bind, hsolve]

/-- The layout is correct when nothing is lost on the way to the solver. -/
theorem outputs_laid_out (hdistinct : Distinct (server []) configs)
    (hfits : Fits order (server []) configs) : LayoutCorrect order server configs := by
  refine ⟨fun fuel plan hplan => laidOut_of_plan hdistinct hfits hplan, fun hcyclic => ?_⟩
  obtain ⟨fuel, e, hplan⟩ := raised_of_cyclic hdistinct hfits hcyclic
  exact ⟨fuel, e, by rw [configureOutputs, hplan]⟩

/-! ## A table that is cut off -/

/-- Three outputs, of which only the output 3 has a size other than zero. -/
def desk (_ : List Write) : Screen where
  monitors := [⟨"A", none, none, none, 1⟩, ⟨"B", none, none, none, 2⟩, ⟨"C", none, none, none, 3⟩]
  info o := some ⟨"", [⟨1, if o = 3 then 1 else 0, if o = 3 then 1 else 0, false, false⟩], 1,
    if o = 3 then 1 else 0, if o = 3 then 1 else 0⟩
  views o := [o + 9]
  allViews := [10, 11, 12]
  outputs := []
  currentView _ := none
  viewConfig _ := none

/-- The output B is named `m` times to the left of A, and then C. -/
def crowded (m : ℕ) : List OutputConfig :=
  [⟨.name "A", some (List.replicate m (.name "B") ++ [.name "C"]), none, none, none, none, none⟩,
    onlyOutput "B", onlyOutput "C"]

def deskSizes : List OutputSize :=
  [⟨0, 0, 0, 0, ⟨1, 0, 0, false, false⟩⟩, ⟨0, 0, 0, 0, ⟨1, 0, 0, false, false⟩⟩,
    ⟨1, 1, 1, 1, ⟨1, 1, 1, false, false⟩⟩]

theorem selectOutputs_desk (m : ℕ) : (crowded m).mapM (selectOutput (desk [])) = .ok [1, 2, 3] := rfl

theorem selectSizes_desk (m : ℕ) : selectSizes (desk []) [1, 2, 3] (crowded m) = .ok deskSizes := rfl

/-- The lists of the twelve variables, where only A has constraints. -/
def twelve (p q : List ℤ) : List (List ℤ) := [p, [], q, [], [], [], [], [], [], [], [], []]

theorem length_twelve (p q : List ℤ) : (twelve p q).length = 12 := rfl

/-- `m` equal pairs. -/
def repeated (m : ℕ) (j k : ℤ) : List ℤ := (List.replicate m [j, k]).flatten

theorem length_repeated (m : ℕ) (j k : ℤ) : (repeated m j k).length = 2 * m := by
  simp [repeated, Nat.mul_comm]

theorem mem_repeated {m : ℕ} {j k x : ℤ} (h : x ∈ repeated m j k) : x = j ∨ x = k := by
  obtain ⟨xs, hxs, hx⟩ := List.mem_flatten.mp h
  rw [List.eq_of_mem_replicate hxs] at hx
  simpa using hx

theorem addRelations_desk (m : ℕ) (p q : List ℤ) :
    (List.replicate m (Match.name "B")).foldlM (addRelation (desk []) [1, 2, 3] deskSizes 1 .left)
      (twelve p q) = .ok (twelve (p ++ repeated m 4 0) (q ++ repeated m 6 0)) := by
  induction m generalizing p q with
  | zero =>
      rw [repeated, repeated]
      simp only [List.replicate_zero, List.flatten_nil, List.append_nil]
      rfl
  | succ m ih =>
      have hstep : addRelation (desk []) [1, 2, 3] deskSizes 1 .left (twelve p q) (.name "B") =
          .ok (twelve (p ++ [4] ++ [0]) (q ++ [6] ++ [0])) := rfl
      rw [List.replicate_succ, List.foldlM_cons, hstep]
      refine (ih _ _).trans ?_
      simp [repeated, List.replicate_succ]

theorem addDirections_only (name : String) (i : ℕ) (ks : List Direction) (t : List (List ℤ)) :
    ks.foldlM (addDirection (desk []) [1, 2, 3] deskSizes i (onlyOutput name)) t = .ok t := by
  induction ks with
  | nil => rfl
  | cons k ks ih =>
      have hnone : addDirection (desk []) [1, 2, 3] deskSizes i (onlyOutput name) t k = .ok t := by
        cases k <;> rfl
      rw [List.foldlM_cons, hnone]
      exact ih

theorem addConfigs_desk (m : ℕ) :
    addConfigs leftToRight (desk []) [1, 2, 3] deskSizes 1 (crowded m)
      (List.replicate (4 * (crowded m).length) []) =
      .ok (twelve (repeated m 4 0 ++ [8, -1]) (repeated m 6 0 ++ [10, -1])) := by
  have hlast : addRelation (desk []) [1, 2, 3] deskSizes 1 .left
      (twelve ([] ++ repeated m 4 0) ([] ++ repeated m 6 0)) (.name "C") =
      .ok (twelve ([] ++ repeated m 4 0 ++ [8] ++ [-1]) ([] ++ repeated m 6 0 ++ [10] ++ [-1])) := rfl
  have hleft : (List.replicate m (Match.name "B") ++ [Match.name "C"]).foldlM
      (addRelation (desk []) [1, 2, 3] deskSizes 1 .left) (twelve [] []) =
      .ok (twelve (repeated m 4 0 ++ [8, -1]) (repeated m 6 0 ++ [10, -1])) := by
    rw [List.foldlM_append, addRelations_desk]
    refine (congrArg (· >>= pure) hlast).trans ?_
    simp [pure, Except.pure, bind, Except.bind]
  have hfirst : (leftToRight.1 1).foldlM (addDirection (desk []) [1, 2, 3] deskSizes 1
      ⟨.name "A", some (List.replicate m (.name "B") ++ [.name "C"]), none, none, none, none, none⟩)
      (twelve [] []) = .ok (twelve (repeated m 4 0 ++ [8, -1]) (repeated m 6 0 ++ [10, -1])) := by
    refine (congrArg (· >>= fun t => .ok t) hleft).trans ?_
    rfl
  rw [crowded, addConfigs]
  refine (congrArg (· >>= _) hfirst).trans ?_
  simp only [addConfigs, addDirections_only, bind, Except.bind]

/-! ### The table reaches the solver -/

theorem mem_twelve {p q numbers : List ℤ} (h : numbers ∈ twelve p q) :
    numbers = p ∨ numbers = q ∨ numbers = [] := by
  simp only [twelve, List.mem_cons, List.not_mem_nil, or_false] at h
  tauto

theorem getD_twelve (p q : List ℤ) (i : ℕ) :
    (twelve p q).getD i [] = p ∨ (twelve p q).getD i [] = q ∨ (twelve p q).getD i [] = [] := by
  rcases Nat.lt_or_ge i (twelve p q).length with hi | hi
  · rw [List.getD_eq_getElem _ [] hi]
    exact mem_twelve (List.getElem_mem hi)
  · exact .inr (.inr (List.getD_eq_default _ [] hi))

theorem mem_pairs_repeated {m : ℕ} {j k : ℤ} {p : ℤ × ℤ} (h : p ∈ Relaxation.pairs (repeated m j k)) :
    p = (j, k) := by
  induction m with
  | zero => cases h
  | succ m ih =>
      rw [repeated, List.replicate_succ, List.flatten_cons, pairs_append (by simp)] at h
      rcases List.mem_append.mp h with h | h
      · simpa [Relaxation.pairs] using h
      · exact ih h

/-- The solver puts every output at zero when it gets only the pairs with B. -/
theorem solver_desk {m : ℕ} (hm : m < 2 ^ 30) {fuel : ℕ} (hfuel : 2 ^ 34 ≤ fuel) :
    differenceConstraints fuel (twelve (repeated m 4 0) (repeated m 6 0)) =
      .ok (List.replicate 12 0) := by
  have hnumbers : ∀ numbers ∈ twelve (repeated m 4 0) (repeated m 6 0), ∀ x ∈ numbers, 0 ≤ x ∧ x ≤ 6 := by
    intro numbers hmem x hx
    rcases mem_twelve hmem with rfl | rfl | rfl
    · have := mem_repeated hx
      omega
    · have := mem_repeated hx
      omega
    · cases hx
  have hsize : ∀ i, ((twelve (repeated m 4 0) (repeated m 6 0)).getD i []).length ≤ 2 ^ 32 - 2 := by
    intro i
    rcases getD_twelve (repeated m 4 0) (repeated m 6 0) i with h | h | h
    · rw [h, length_repeated]
      omega
    · rw [h, length_repeated]
      omega
    · rw [h]
      exact Nat.zero_le _
  have hvalid : Relaxation.Valid (twelve (repeated m 4 0) (repeated m 6 0)) := by
    intro i _
    rcases getD_twelve (repeated m 4 0) (repeated m 6 0) i with h | h | h
    · rw [h, length_repeated, length_twelve]
      exact ⟨by omega, fun p hp => by rw [mem_pairs_repeated hp]; decide⟩
    · rw [h, length_repeated, length_twelve]
      exact ⟨by omega, fun p hp => by rw [mem_pairs_repeated hp]; decide⟩
    · rw [h]
      exact ⟨rfl, nofun⟩
  have hsmall := ConstraintSolving.small_of_mem (K := 6) (by decide) fun numbers hmem x hx =>
    ⟨(show (-6 : ℤ) ≤ 0 by decide).trans (hnumbers numbers hmem x hx).1, (hnumbers numbers hmem x hx).2⟩
  have hnonneg : ∀ i c, 0 ≤ ((twelve (repeated m 4 0) (repeated m 6 0)).getD i []).getD c 0 := by
    intro i c
    rcases Nat.lt_or_ge i (twelve (repeated m 4 0) (repeated m 6 0)).length with hi | hi
    · rw [List.getD_eq_getElem _ [] hi]
      rcases Nat.lt_or_ge c (twelve (repeated m 4 0) (repeated m 6 0))[i].length with hc | hc
      · rw [List.getD_eq_getElem _ 0 hc]
        exact (hnumbers _ (List.getElem_mem hi) _ (List.getElem_mem hc)).1
      · rw [List.getD_eq_default _ 0 hc]
    · rw [List.getD_eq_default _ [] hi]
      exact le_refl _
  have hlength : (twelve (repeated m 4 0) (repeated m 6 0)).length < 2 ^ 32 := by
    rw [length_twelve]
    decide
  have henough : ConstraintCalls.enoughFuel (twelve (repeated m 4 0) (repeated m 6 0)) ≤ fuel := by
    rw [ConstraintCalls.enoughFuel, length_twelve]
    omega
  exact ConstraintCalls.returns_zero hlength hsize
    (ConstraintSolving.safe_of_small (by decide) (by decide) hsmall) hvalid hnonneg henough

/-- The pair with C is the last one, and is cut off. -/
theorem toArray_desk {m : ℕ} (hm : 2 * m = 2 ^ 31 - 2) :
    toArray ((twelve (repeated m 4 0 ++ [8, -1]) (repeated m 6 0 ++ [10, -1])).map toArray) =
      twelve (repeated m 4 0) (repeated m 6 0) := by
  have hcut : ∀ (j k : ℤ) (ys : List ℤ), toArray (repeated m j k ++ ys) = repeated m j k := by
    intro j k ys
    rw [toArray, ← hm, ← length_repeated m j k, List.take_left]
  have hnil : toArray ([] : List ℤ) = [] := List.take_nil
  have hmap : (twelve (repeated m 4 0 ++ [8, -1]) (repeated m 6 0 ++ [10, -1])).map toArray =
      twelve (repeated m 4 0) (repeated m 6 0) := by
    simp only [twelve, List.map_cons, List.map_nil, hcut, hnil]
  rw [hmap]
  exact List.take_of_length_le (by rw [length_twelve]; omega)

theorem allocateViews_desk {fuel : ℕ} (hfuel : 9 ≤ fuel) :
    allocateViews fuel (desk []) [1, 2, 3] = .ok [10, 11, 12] := by
  have hmatch : BipartiteMatch.bipartiteMatch fuel [[0], [1], [2]] = .ok [0, 1, 2] :=
    BipartiteMatching.bipartiteMatch_mono hfuel (by decide) nofun
  have hviews : matchViews fuel [[0], [1], [2]] = .ok [0, 1, 2] := by
    have harray : toArray (([[0], [1], [2]] : List (List ℤ)).map toArray) = [[0], [1], [2]] :=
      toArray_eq (by decide) (by decide)
    rw [matchViews, harray, hmatch]
  have hunfold : allocateViews fuel (desk []) [1, 2, 3] =
      (matchViews fuel [[0], [1], [2]] >>= selectViews (desk []) [1, 2, 3]) := rfl
  rw [hunfold, hviews]
  rfl

theorem distinct_desk (m : ℕ) : Distinct (desk []) (crowded m) := by
  intro outputs h
  obtain rfl := Except.ok.inj ((selectOutputs_desk m).symm.trans h)
  decide

/-- C is named to the left of A, but is not put there. -/
theorem relation_cut_off {m : ℕ} (hm : 2 * m = 2 ^ 31 - 2) : ¬ LayoutCorrect leftToRight desk (crowded m) := by
  intro h
  obtain ⟨fuel, hfuel⟩ : ∃ fuel, 2 ^ 34 ≤ fuel := ⟨_, le_refl _⟩
  have hsolve : solve fuel (twelve (repeated m 4 0 ++ [8, -1]) (repeated m 6 0 ++ [10, -1])) =
      .ok (List.replicate 12 0) := by
    rw [solve, toArray_desk hm, solver_desk (by omega) hfuel]
  obtain ⟨bounds, hbounds⟩ : ∃ bounds, boundOutputs (List.replicate 12 0) 1 deskSizes
      ⟨fun _ => none, fun _ => none⟩ = .ok bounds := ⟨_, rfl⟩
  have hplan : planOutputs fuel leftToRight (desk []) (crowded m) =
      .ok ⟨[1, 2, 3], deskSizes, List.replicate 12 0, [10, 11, 12], bounds⟩ := by
    simp only [planOutputs, selectOutputs_desk, selectSizes_desk, addConfigs_desk, hsolve,
      allocateViews_desk (show 9 ≤ fuel by omega), hbounds, bind, Except.bind]
  have hrelated : Related (desk []) (crowded m) [1, 2, 3] 1 .left 3 := by
    refine ⟨le_refl _, by decide, _, .name "C", 3, rfl, ?_, rfl, rfl⟩
    exact List.mem_append_right (List.replicate m (Match.name "B")) (List.mem_singleton_self _)
  have hle := (h.laidOut _ _ hplan).left 1 3 hrelated 1 (by decide)
  simp [Plan.position, sizeNumber, deskSizes, OutputSize.get] at hle

theorem relation_lost :
    Distinct (desk []) (crowded (2 ^ 30 - 1)) ∧ ¬ LayoutCorrect leftToRight desk (crowded (2 ^ 30 - 1)) :=
  ⟨distinct_desk _, relation_cut_off (by decide)⟩

/-- A single relation is kept. -/
theorem outputs_laid_out_three : LayoutCorrect leftToRight desk (crowded 0) := by
  refine outputs_laid_out (distinct_desk 0) fun outputs sizes constraints houtputs hsizes hconstraints => ?_
  · obtain rfl := Except.ok.inj ((selectOutputs_desk 0).symm.trans houtputs)
    obtain rfl := Except.ok.inj ((selectSizes_desk 0).symm.trans hsizes)
    obtain rfl := Except.ok.inj ((addConfigs_desk 0).symm.trans hconstraints)
    exact ⟨⟨by decide, by decide⟩, ConstraintSolving.safe_of_small (K := 10) (by decide) (by decide)
      (ConstraintSolving.small_of_mem (by decide) (by decide))⟩

end Deai.OutputLayout
