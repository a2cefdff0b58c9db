import Deai.ConstraintCalls
import Deai.OutputPlans

/-!
# The constraints between outputs

The relations of a configuration list become pairs in the lists of constraints. Each of them says, for
one of the four numbers of a position, that an output ends before another one begins.
-/
namespace Deai.OutputConstraints
open Fallible ConfigureOutputs OutputPlans
open Relaxation (pairs pairs_cons_cons)

variable {order : Traversal} {screen : Screen} {outputs : List ℕ} {sizes : List OutputSize}
  {tables tables' : List (List ℤ)}

/-! ## Pairs in the lists -/

/-- All lists have pairs of numbers. -/
def Paired (tables : List (List ℤ)) : Prop := ∀ p, (tables.getD p []).length % 2 = 0

def HasPair (tables : List (List ℤ)) (p : ℕ) (q b : ℤ) : Prop := (q, b) ∈ pairs (tables.getD p [])

theorem pairs_append {xs : List ℤ} (heven : xs.length % 2 = 0) (ys : List ℤ) :
    pairs (xs ++ ys) = pairs xs ++ pairs ys := by
  induction xs using List.twoStepInduction with
  | nil => rfl
  | singleton j => simp at heven
  | cons_cons j k rest ih _ =>
      have hrest : rest.length % 2 = 0 := by
        rw [List.length_cons, List.length_cons] at heven
        omega
      simp only [List.cons_append, pairs_cons_cons, ih hrest]

/-- The lists only get more pairs. -/
structure Grows (tables tables' : List (List ℤ)) : Prop where
  length_eq : tables'.length = tables.length
  paired : Paired tables'
  keeps : ∀ p q b, HasPair tables p q b → HasPair tables' p q b

theorem Grows.refl (h : Paired tables) : Grows tables tables := ⟨rfl, h, fun _ _ _ h => h⟩

theorem Grows.trans {tables'' : List (List ℤ)} (h : Grows tables tables') (h' : Grows tables' tables'') :
    Grows tables tables'' :=
  ⟨h'.length_eq.trans h.length_eq, h'.paired, fun p q b hp => h'.keeps p q b (h.keeps p q b hp)⟩

/-- The lists after a pair was appended to the list `p`. -/
def addPair (tables : List (List ℤ)) (p : ℕ) (q b : ℤ) : List (List ℤ) := tables.modify p (· ++ [q, b])

theorem getD_modify (tables : List (List ℤ)) (p p' : ℕ) (f : List ℤ → List ℤ) (hp : p < tables.length) :
    (tables.modify p f).getD p' [] = if p = p' then f (tables.getD p' []) else tables.getD p' [] := by
  rw [List.getD_eq_getElem?_getD, List.getElem?_modify, List.getD_eq_getElem?_getD]
  by_cases heq : p = p'
  · subst heq
    rw [if_pos rfl, List.getElem?_eq_getElem hp]
    simp
  · rw [if_neg heq]
    simp [heq]

theorem grows_addPair (h : Paired tables) {p : ℕ} (hp : p < tables.length) (q b : ℤ) :
    Grows tables (addPair tables p q b) ∧ HasPair (addPair tables p q b) p q b := by
  refine ⟨⟨List.length_modify .., fun p' => ?_, fun p' q' b' hpair => ?_⟩, ?_⟩
  · rw [addPair, getD_modify _ _ _ _ hp]
    split_ifs
    · rw [List.length_append, List.length_cons, List.length_singleton]
      have := h p'
      omega
    · exact h p'
  · rw [HasPair, addPair, getD_modify _ _ _ _ hp]
    split_ifs
    · rw [pairs_append (h p')]
      exact List.mem_append_left _ hpair
    · exact hpair
  · rw [HasPair, addPair, getD_modify _ _ _ _ hp, if_pos rfl, pairs_append (h p)]
    exact List.mem_append_right _ (List.mem_singleton_self _)

/-- Two calls of `table.insert` on the same list. -/
theorem insertPair {k q b : ℤ} (h : (insertInto tables k q >>= fun t => insertInto t k b) = .ok tables') :
    (0 < k ∧ k ≤ tables.length) ∧ tables' = addPair tables (k.toNat - 1) q b := by
  obtain ⟨t, ht, h⟩ := bind_eq_ok h
  unfold insertInto at ht h
  by_cases hk : 0 < k ∧ k ≤ tables.length
  · rw [if_pos hk] at ht
    obtain rfl := Except.ok.inj ht
    rw [List.length_modify, if_pos hk] at h
    refine ⟨hk, (Except.ok.inj h).symm.trans ?_⟩
    rw [List.modify_modify_eq, addPair]
    congr 1
    funext xs
    simp
  · rw [if_neg hk] at ht
    cases ht

/-! ## The constraints of a relation -/

/-- The first of the two numbers that a direction is about. -/
def axis : Direction → ℕ
  | .left => 1
  | .right => 1
  | .up => 2
  | .down => 2

/-- The output that ends before the other one, for a relation of `i` with `j`. -/
def earlier : Direction → ℕ → ℕ → ℕ
  | .left, _, j => j
  | .right, i, _ => i
  | .up, _, j => j
  | .down, i, _ => i

def later : Direction → ℕ → ℕ → ℕ
  | .left, i, _ => i
  | .right, _, j => j
  | .up, i, _ => i
  | .down, _, j => j

theorem sizeAt_ok {i : ℕ} {size : OutputSize} (h : sizeAt sizes i = .ok size) : sizes[i - 1]? = some size := by
  unfold sizeAt at h
  cases hs : sizes[i - 1]? with
  | none =>
      rw [hs] at h
      cases h
  | some size' =>
      rw [hs] at h
      rw [Except.ok.inj h]

/-- The places of the numbers of an output, as the script computes them. -/
theorem list_place (k : Direction) {i : ℕ} (hi : 1 ≤ i) :
    (4 * (i : ℤ) + (dirs k).1 - 2).toNat - 1 = place i (axis k) ∧
      (4 * (i : ℤ) + (dirs k).1).toNat - 1 = place i (axis k + 2) := by
  cases k <;> simp only [dirs, axis, place] <;> omega

theorem variable_place (k : Direction) {i : ℕ} (hi : 1 ≤ i) :
    4 * (i : ℤ) + (dirs k).1 - 2 - 1 = place i (axis k) ∧
      4 * (i : ℤ) + (dirs k).1 - 1 = place i (axis k + 2) := by
  cases k <;> simp only [dirs, axis, place] <;> omega

theorem place_lt_of_index (k : Direction) {i n : ℕ} (hi : 1 ≤ i) :
    (4 * (i : ℤ) + (dirs k).1 - 2 ≤ n → place i (axis k) < n) ∧
      (4 * (i : ℤ) + (dirs k).1 ≤ n → place i (axis k + 2) < n) := by
  cases k <;> simp only [dirs, axis, place] <;> omega

theorem addPairs_of_inserts {p p' q q' b b' : ℤ}
    (h : (do
      let t ← insertInto tables p q
      let t ← insertInto t p b
      let t ← insertInto t p' q'
      insertInto t p' b') = .ok tables') :
    (p ≤ tables.length ∧ p' ≤ tables.length) ∧
      tables' = addPair (addPair tables (p.toNat - 1) q b) (p'.toNat - 1) q' b' := by
  rw [← bind_assoc] at h
  obtain ⟨t, ht, h⟩ := bind_eq_ok h
  obtain ⟨hp, rfl⟩ := insertPair ht
  obtain ⟨hp', rfl⟩ := insertPair h
  rw [addPair, List.length_modify] at hp'
  exact ⟨⟨hp.2, hp'.2⟩, rfl⟩

/-- The lists after the two constraints of a relation were added. -/
theorem addConstraints_ok {i j : ℕ} (hi : 1 ≤ i) (hj : 1 ≤ j) {k : Direction}
    (h : addConstraints sizes i k j tables = .ok tables') :
    ∃ size, sizes[earlier k i j - 1]? = some size ∧
      place (later k i j) (axis k) < tables.length ∧ place (later k i j) (axis k + 2) < tables.length ∧
      tables' = addPair (addPair tables (place (later k i j) (axis k)) (place (earlier k i j) (axis k))
          (-size.get (axis k)))
        (place (later k i j) (axis k + 2)) (place (earlier k i j) (axis k + 2)) (-size.get (axis k + 2)) := by
  obtain ⟨size, hsize, h⟩ := bind_eq_ok h
  obtain ⟨otherSize, hother, h⟩ := bind_eq_ok h
  simp only at h
  -- Left and up put the constraint into the list of `i`, right and down into that of `j`.
  by_cases hside : (dirs k).2 = 0
  · have hk : k = .left ∨ k = .up := by
      cases k with
      | left => exact .inl rfl
      | up => exact .inr rfl
      | right | down => exact absurd hside (by decide)
    rw [if_pos hside] at h
    obtain ⟨⟨hp, hp'⟩, rfl⟩ := addPairs_of_inserts h
    have hdiff : ∀ c, size.get c * (dirs k).2 + otherSize.get c * (1 - (dirs k).2) = otherSize.get c := by
      intro c
      rw [hside, Int.mul_zero, Int.zero_add, Int.sub_zero, Int.mul_one]
    have hlater : later k i j = i ∧ earlier k i j = j := by
      rcases hk with rfl | rfl <;> exact ⟨rfl, rfl⟩
    have haxis : (dirs k).1 + 2 = axis k ∧ (dirs k).1 + 4 = axis k + 2 := by
      rcases hk with rfl | rfl <;> exact ⟨rfl, rfl⟩
    rw [hlater.1, hlater.2]
    refine ⟨otherSize, sizeAt_ok hother, (place_lt_of_index k hi).1 hp, (place_lt_of_index k hi).2 hp', ?_⟩
    rw [hdiff, hdiff, (list_place k hi).1, (list_place k hi).2, (variable_place k hj).1,
      (variable_place k hj).2, haxis.1, haxis.2]
  · have hk : k = .right ∨ k = .down := by
      cases k with
      | left | up => exact absurd rfl hside
      | right => exact .inl rfl
      | down => exact .inr rfl
    rw [if_neg hside] at h
    obtain ⟨⟨hp, hp'⟩, rfl⟩ := addPairs_of_inserts h
    have hone : (dirs k).2 = 1 := by
      rcases hk with rfl | rfl <;> rfl
    have hdiff : ∀ c, size.get c * (dirs k).2 + otherSize.get c * (1 - (dirs k).2) = size.get c := by
      intro c
      rw [hone, Int.mul_one, Int.sub_self, Int.mul_zero, Int.add_zero]
    have hlater : later k i j = j ∧ earlier k i j = i := by
      rcases hk with rfl | rfl <;> exact ⟨rfl, rfl⟩
    have haxis : (dirs k).1 + 2 = axis k ∧ (dirs k).1 + 4 = axis k + 2 := by
      rcases hk with rfl | rfl <;> exact ⟨rfl, rfl⟩
    rw [hlater.1, hlater.2]
    refine ⟨size, sizeAt_ok hsize, (place_lt_of_index k hj).1 hp, (place_lt_of_index k hj).2 hp', ?_⟩
    rw [hdiff, hdiff, (list_place k hj).1, (list_place k hj).2, (variable_place k hi).1,
      (variable_place k hi).2, haxis.1, haxis.2]

/-! ## All relations -/

theorem le_of_indexOf {x s j : ℕ} {xs : List ℕ} (h : indexOf x s xs = some j) : s ≤ j := by
  induction xs generalizing s with
  | nil => cases h
  | cons y xs ih =>
      rw [indexOf] at h
      cases hrest : indexOf x (s + 1) xs with
      | none =>
          rw [hrest, Option.none_or] at h
          split_ifs at h
          exact (Option.some.inj h).le
      | some j' =>
          rw [hrest, Option.some_or] at h
          obtain rfl := Option.some.inj h
          exact Nat.le_of_succ_le (ih hrest)

/-- Both constraints of the relation of the output `i` with another one are in the lists. -/
def Constrained (screen : Screen) (outputs : List ℕ) (sizes : List OutputSize) (i : ℕ) (k : Direction)
    (other : Match) (tables : List (List ℤ)) : Prop :=
  ∃ output j size, findOutputImpl screen.monitors other = .ok (some output) ∧
    indexOf output 1 outputs = some j ∧ sizes[earlier k i j - 1]? = some size ∧
    ∀ a ∈ [axis k, axis k + 2],
      HasPair tables (place (later k i j) a) (place (earlier k i j) a) (-size.get a)

theorem Constrained.mono {i : ℕ} {k : Direction} {other : Match} (hgrows : Grows tables tables')
    (h : Constrained screen outputs sizes i k other tables) :
    Constrained screen outputs sizes i k other tables' := by
  obtain ⟨output, j, size, hfind, hindex, hsize, hpairs⟩ := h
  exact ⟨output, j, size, hfind, hindex, hsize, fun a ha => hgrows.keeps _ _ _ (hpairs a ha)⟩

theorem addRelation_ok {i : ℕ} (hi : 1 ≤ i) {k : Direction} {other : Match} (hpaired : Paired tables)
    (h : addRelation screen outputs sizes i k tables other = .ok tables') :
    Grows tables tables' ∧ Constrained screen outputs sizes i k other tables' := by
  obtain ⟨output, hfind, h⟩ := bind_eq_ok h
  cases output with
  | none => cases h
  | some output =>
      simp only at h
      cases hindex : indexOf output 1 outputs with
      | none =>
          rw [hindex] at h
          cases h
      | some j =>
          rw [hindex] at h
          obtain ⟨size, hsize, hplace, hplace', rfl⟩ := addConstraints_ok hi (le_of_indexOf hindex) h
          obtain ⟨hgrows, hpair⟩ := grows_addPair hpaired hplace (place (earlier k i j) (axis k))
            (-size.get (axis k))
          rw [← hgrows.length_eq] at hplace'
          obtain ⟨hgrows', hpair'⟩ := grows_addPair hgrows.paired hplace'
            (place (earlier k i j) (axis k + 2)) (-size.get (axis k + 2))
          refine ⟨hgrows.trans hgrows', output, j, size, hfind, hindex, hsize, fun a ha => ?_⟩
          simp only [List.mem_cons, List.not_mem_nil, or_false] at ha
          rcases ha with rfl | rfl
          · exact hgrows'.keeps _ _ _ hpair
          · exact_mod_cast hpair'

/-- What every step of a loop adds to the lists stays there. -/
theorem foldlM_grows {α : Type} {f : List (List ℤ) → α → Except Stop (List (List ℤ))}
    {P : α → List (List ℤ) → Prop} (hmono : ∀ x t t', Grows t t' → P x t → P x t')
    (hstep : ∀ x t t', Paired t → f t x = .ok t' → Grows t t' ∧ P x t') {xs : List α}
    (hpaired : Paired tables) (h : xs.foldlM f tables = .ok tables') :
    Grows tables tables' ∧ ∀ x ∈ xs, P x tables' := by
  induction xs generalizing tables with
  | nil =>
      obtain rfl := Except.ok.inj h
      exact ⟨.refl hpaired, nofun⟩
  | cons x xs ih =>
      rw [List.foldlM_cons] at h
      obtain ⟨t, ht, h⟩ := bind_eq_ok h
      obtain ⟨hgrows, hx⟩ := hstep x tables t hpaired ht
      obtain ⟨hgrows', hxs⟩ := ih hgrows.paired h
      refine ⟨hgrows.trans hgrows', fun y hy => ?_⟩
      rcases List.mem_cons.mp hy with rfl | hy
      · exact hmono y t tables' hgrows' hx
      · exact hxs y hy

theorem addDirection_ok {i : ℕ} (hi : 1 ≤ i) {config : OutputConfig} {k : Direction}
    (hpaired : Paired tables) (h : addDirection screen outputs sizes i config tables k = .ok tables') :
    Grows tables tables' ∧
      ∀ other ∈ (config.get k).getD [], Constrained screen outputs sizes i k other tables' := by
  unfold addDirection at h
  exact foldlM_grows (P := fun other t => Constrained screen outputs sizes i k other t)
    (fun _ _ _ hgrows hx => hx.mono hgrows) (fun _ _ _ ht hx => addRelation_ok hi ht hx) hpaired h

theorem addConfigs_ok {i : ℕ} (hi : 1 ≤ i) {configs : List OutputConfig} (hpaired : Paired tables)
    (h : addConfigs order screen outputs sizes i configs tables = .ok tables') :
    Grows tables tables' ∧ ∀ m config k, configs[m]? = some config →
      ∀ other ∈ (config.get k).getD [], Constrained screen outputs sizes (i + m) k other tables' := by
  induction configs generalizing i tables with
  | nil =>
      obtain rfl := Except.ok.inj h
      refine ⟨.refl hpaired, fun m config k hm => ?_⟩
      rw [List.getElem?_nil] at hm
      cases hm
  | cons config configs ih =>
      rw [addConfigs] at h
      obtain ⟨t, ht, h⟩ := bind_eq_ok h
      obtain ⟨hgrows, hconfig⟩ := foldlM_grows
        (P := fun k t => ∀ other ∈ (config.get k).getD [], Constrained screen outputs sizes i k other t)
        (fun _ _ _ hgrows hx other hother => (hx other hother).mono hgrows)
        (fun k _ _ ht hk => addDirection_ok hi ht hk) hpaired ht
      obtain ⟨hgrows', hconfigs⟩ := ih (Nat.le_succ_of_le hi) hgrows.paired h
      refine ⟨hgrows.trans hgrows', fun m config' k hm other hother => ?_⟩
      cases m with
      | zero =>
          obtain rfl := Option.some.inj hm
          have hk : k ∈ order.1 i := (order.2 i).mem_iff.mpr (by cases k <;> decide)
          exact (hconfig k hk other hother).mono hgrows'
      | succ m =>
          rw [List.getElem?_cons_succ] at hm
          have hlater := hconfigs m config' k hm other hother
          rwa [Nat.succ_add_eq_add_succ] at hlater

/-! ## Errors -/

/-- What does not come to an end does so with an error of the script. -/
def Raises {α : Type} (x : Except Stop α) : Prop := ∀ e, x = .error e → ∃ e', e = .raised e'

theorem Raises.bind {α β : Type} {x : Except Stop α} {f : α → Except Stop β} (hx : Raises x)
    (hf : ∀ a, Raises (f a)) : Raises (x >>= f) := by
  intro e h
  cases x with
  | error e' =>
      cases h
      exact hx _ rfl
  | ok a => exact hf a e h

theorem raises_ok {α : Type} (a : α) : Raises (.ok a : Except Stop α) := nofun

theorem raises_error {α : Type} (e : LuaError) : Raises (.error (.raised e) : Except Stop α) := by
  intro e' h
  cases h
  exact ⟨e, rfl⟩

theorem raises_foldlM {α β : Type} {f : β → α → Except Stop β} (hf : ∀ b a, Raises (f b a)) (xs : List α)
    (b : β) : Raises (xs.foldlM f b) := by
  induction xs generalizing b with
  | nil => exact raises_ok b
  | cons x xs ih =>
      rw [List.foldlM_cons]
      exact (hf b x).bind ih

theorem raises_insertInto (tables : List (List ℤ)) (k x : ℤ) : Raises (insertInto tables k x) := by
  unfold insertInto
  split_ifs
  · exact raises_ok _
  · exact raises_error _

theorem raises_sizeAt (sizes : List OutputSize) (i : ℕ) : Raises (sizeAt sizes i) := by
  unfold sizeAt
  split
  · exact raises_ok _
  · exact raises_error _

theorem raises_findOutputImpl (monitors : List Monitor) (m : Match) : Raises (findOutputImpl monitors m) := by
  cases m with
  | name name =>
      rw [findOutputImpl]
      cases monitors.find? fun m => m.name = name with
      | some m => exact raises_ok _
      | none => exact raises_error _
  | info model make serial => exact raises_ok _

theorem raises_addConstraints (i : ℕ) (k : Direction) (j : ℕ) (tables : List (List ℤ)) :
    Raises (addConstraints sizes i k j tables) := by
  refine (raises_sizeAt _ _).bind fun size => (raises_sizeAt _ _).bind fun otherSize => ?_
  simp only
  split_ifs
  · exact (raises_insertInto _ _ _).bind fun _ => (raises_insertInto _ _ _).bind fun _ =>
      (raises_insertInto _ _ _).bind fun _ => raises_insertInto _ _ _
  · exact (raises_insertInto _ _ _).bind fun _ => (raises_insertInto _ _ _).bind fun _ =>
      (raises_insertInto _ _ _).bind fun _ => raises_insertInto _ _ _

theorem raises_addRelation (i : ℕ) (k : Direction) (tables : List (List ℤ)) (other : Match) :
    Raises (addRelation screen outputs sizes i k tables other) := by
  refine (raises_findOutputImpl _ _).bind fun output => ?_
  cases output with
  | none => exact raises_error _
  | some output =>
      simp only
      split
      · exact raises_error _
      · exact raises_addConstraints _ _ _ _

theorem raises_addDirection (i : ℕ) (config : OutputConfig) (tables : List (List ℤ)) (k : Direction) :
    Raises (addDirection screen outputs sizes i config tables k) := by
  unfold addDirection
  exact raises_foldlM (raises_addRelation i k) _ _

theorem raises_addConfigs (i : ℕ) (configs : List OutputConfig) (tables : List (List ℤ)) :
    Raises (addConfigs order screen outputs sizes i configs tables) := by
  induction configs generalizing i tables with
  | nil =>
      rw [addConfigs]
      exact raises_ok _
  | cons config configs ih =>
      rw [addConfigs]
      exact (raises_foldlM (raises_addDirection i config) _ _).bind fun t => ih (i + 1) t

end Deai.OutputConstraints
