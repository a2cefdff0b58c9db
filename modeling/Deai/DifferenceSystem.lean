import Mathlib.Algebra.Order.Group.Defs
import Mathlib.Data.Finset.Card

/-!
# Systems of difference constraints

An edge bounds the difference of two variables. The bounds that walks of at most `k` edges give
are the greatest values that are not positive, once `k` is large enough for a walk to come through
every variable.
-/
namespace Deai.DifferenceSystem

/-- The constraint that the target is at most the source plus the bound. -/
structure Edge (V A : Type*) where
  source : V
  target : V
  bound : A

variable {V A : Type*} [AddCommGroup A] [LinearOrder A] [IsOrderedAddMonoid A]

def Satisfies (E : List (Edge V A)) (x : V → A) : Prop :=
  ∀ e ∈ E, x e.target ≤ x e.source + e.bound

variable [DecidableEq V] {E : List (Edge V A)} {x : V → A}

/-- The least of a value and of what the edges into a variable give. -/
def relaxAll (y : V → A) (v : V) (E : List (Edge V A)) : A :=
  E.foldr (fun e z => if e.target = v then min z (y e.source + e.bound) else z) (y v)

/-- The least bound of a walk with at most `k` edges that ends at the variable. -/
def best (E : List (Edge V A)) : ℕ → V → A
  | 0, _ => 0
  | k + 1, v => relaxAll (best E k) v E

omit [IsOrderedAddMonoid A] in
theorem relaxAll_le (y : V → A) (v : V) (E : List (Edge V A)) : relaxAll y v E ≤ y v := by
  induction E with
  | nil => exact le_refl _
  | cons e E ih =>
      simp only [relaxAll, List.foldr_cons] at ih ⊢
      split_ifs
      · exact (min_le_left _ _).trans ih
      · exact ih

omit [IsOrderedAddMonoid A] in
theorem relaxAll_le_edge (y : V → A) {e : Edge V A} (he : e ∈ E) :
    relaxAll y e.target E ≤ y e.source + e.bound := by
  induction E with
  | nil => cases he
  | cons f E ih =>
      simp only [relaxAll, List.foldr_cons] at ih ⊢
      rcases List.mem_cons.mp he with rfl | he
      · rw [if_pos rfl]
        exact min_le_right _ _
      · split_ifs
        · exact (min_le_left _ _).trans (ih he)
        · exact ih he

omit [IsOrderedAddMonoid A] in
/-- The value comes from somewhere. -/
theorem relaxAll_cases (y : V → A) (v : V) (E : List (Edge V A)) :
    relaxAll y v E = y v ∨ ∃ e ∈ E, e.target = v ∧ relaxAll y v E = y e.source + e.bound := by
  induction E with
  | nil => exact .inl rfl
  | cons f E ih =>
      have hold : relaxAll y v E = y v ∨
          ∃ e ∈ f :: E, e.target = v ∧ relaxAll y v E = y e.source + e.bound := by
        rcases ih with heq | ⟨e, he, htarget, heq⟩
        · exact .inl heq
        · exact .inr ⟨e, List.mem_cons_of_mem f he, htarget, heq⟩
      have hstep : relaxAll y v (f :: E) =
          if f.target = v then min (relaxAll y v E) (y f.source + f.bound) else relaxAll y v E :=
        rfl
      rw [hstep]
      split_ifs with htarget
      · rcases min_choice (relaxAll y v E) (y f.source + f.bound) with hmin | hmin
        · rw [hmin]
          exact hold
        · rw [hmin]
          exact .inr ⟨f, List.mem_cons_self, htarget, rfl⟩
      · exact hold

/-! ## Walks with more edges -/

omit [IsOrderedAddMonoid A] in
theorem best_succ_le (E : List (Edge V A)) (k : ℕ) (v : V) : best E (k + 1) v ≤ best E k v :=
  relaxAll_le _ _ _

omit [IsOrderedAddMonoid A] in
theorem best_antitone {j k : ℕ} (hjk : j ≤ k) (v : V) : best E k v ≤ best E j v := by
  induction hjk with
  | refl => exact le_refl _
  | step _ ih => exact (best_succ_le E _ v).trans ih

omit [IsOrderedAddMonoid A] in
theorem best_nonpos (E : List (Edge V A)) (k : ℕ) (v : V) : best E k v ≤ 0 :=
  best_antitone (Nat.zero_le k) v

omit [IsOrderedAddMonoid A] in
theorem best_succ_le_edge {e : Edge V A} (he : e ∈ E) (k : ℕ) :
    best E (k + 1) e.target ≤ best E k e.source + e.bound :=
  relaxAll_le_edge _ he

/-- The variables of a walk that gives the value, each of which gets a new value there. -/
structure Descent (E : List (Edge V A)) (k : ℕ) (walk : ℕ → V) : Prop where
  edge : ∀ j < k, ∃ e ∈ E, e.source = walk j ∧ e.target = walk (j + 1) ∧
    best E (j + 1) (walk (j + 1)) = best E j (walk j) + e.bound
  less : ∀ j < k, best E (j + 1) (walk (j + 1)) < best E j (walk (j + 1))

/-- A value that is new after `k + 1` edges comes along a walk of values that are new. -/
theorem exists_descent {k : ℕ} {v : V} (hnew : best E (k + 1) v < best E k v) :
    ∃ walk, walk (k + 1) = v ∧ Descent E (k + 1) walk := by
  induction k generalizing v with
  | zero =>
      rcases relaxAll_cases (best E 0) v E with heq | ⟨e, he, rfl, heq⟩
      · exact absurd heq (ne_of_lt hnew)
      · refine ⟨fun j => if j = 0 then e.source else e.target, rfl, ?_, ?_⟩
        · intro j hj
          have hzero : j = 0 := by omega
          subst hzero
          exact ⟨e, he, rfl, rfl, heq⟩
        · intro j hj
          have hzero : j = 0 := by omega
          subst hzero
          exact hnew
  | succ k ih =>
      rcases relaxAll_cases (best E (k + 1)) v E with heq | ⟨e, he, rfl, heq⟩
      · exact absurd heq (ne_of_lt hnew)
      · -- otherwise the target would have had the value before
        have hsource : best E (k + 1) e.source < best E k e.source := by
          by_contra hcon
          have hsame := not_lt.mp hcon
          have hbefore := best_succ_le_edge he k
          have hvalue : best E (k + 1 + 1) e.target = best E (k + 1) e.source + e.bound := heq
          have hle : best E k e.source + e.bound ≤ best E (k + 1) e.source + e.bound :=
            add_le_add_left hsame e.bound
          exact absurd hnew (not_lt.mpr (hvalue ▸ hbefore.trans hle))
        obtain ⟨walk, hend, hwalk⟩ := ih hsource
        refine ⟨fun j => if j = k + 2 then e.target else walk j, by simp, ?_, ?_⟩
        · intro j hj
          by_cases hlast : j = k + 1
          · subst hlast
            refine ⟨e, he, by simp [hend], by simp, ?_⟩
            have hvalue : best E (k + 1 + 1) e.target = best E (k + 1) e.source + e.bound := heq
            simpa [hend] using hvalue
          · have hlt : j < k + 1 := by omega
            obtain ⟨f, hf, hsrc, htgt, hval⟩ := hwalk.edge j hlt
            have hj₁ : j ≠ k + 2 := by omega
            have hj₂ : j + 1 ≠ k + 2 := by omega
            simp only [if_neg hj₁, if_neg hj₂]
            exact ⟨f, hf, hsrc, htgt, hval⟩
        · intro j hj
          by_cases hlast : j = k + 1
          · subst hlast
            simpa using hnew
          · have hj₂ : j + 1 ≠ k + 2 := by omega
            simp only [if_neg hj₂]
            exact hwalk.less j (by omega)

/-- Along the walk a solution grows no more than the values do. -/
theorem Descent.add_le {k : ℕ} {walk : ℕ → V} (h : Descent E k walk) (hx : Satisfies E x)
    {i j : ℕ} (hij : i ≤ j) (hj : j ≤ k) :
    x (walk j) + best E i (walk i) ≤ x (walk i) + best E j (walk j) := by
  induction j, hij using Nat.le_induction with
  | base => exact le_refl _
  | succ j hij ih =>
      obtain ⟨e, he, hsource, htarget, hvalue⟩ := h.edge j hj
      have hstep := hx e he
      rw [hsource, htarget] at hstep
      calc x (walk (j + 1)) + best E i (walk i)
          ≤ x (walk j) + e.bound + best E i (walk i) := add_le_add_left hstep _
        _ = x (walk j) + best E i (walk i) + e.bound := add_right_comm _ _ _
        _ ≤ x (walk i) + best E j (walk j) + e.bound :=
            add_le_add_left (ih (Nat.le_of_succ_le hj)) _
        _ = x (walk i) + best E (j + 1) (walk (j + 1)) := by rw [hvalue, add_assoc]

/-- A system that has a solution has one after as many rounds as a walk can have edges without
coming to a variable twice. -/
theorem satisfies_best {U : Finset V} (hU : ∀ e ∈ E, e.source ∈ U ∧ e.target ∈ U)
    (hx : Satisfies E x) {k : ℕ} (hk : U.card ≤ k + 1) : Satisfies E (best E k) := by
  intro e he
  by_contra hcon
  have hnew : best E (k + 1) e.target < best E k e.target :=
    (best_succ_le_edge he k).trans_lt (not_le.mp hcon)
  obtain ⟨walk, -, hwalk⟩ := exists_descent hnew
  have hmem : ∀ j ∈ Finset.range (k + 2), walk j ∈ U := by
    intro j hj
    rw [Finset.mem_range] at hj
    cases j with
    | zero =>
        obtain ⟨f, hf, hsource, -⟩ := hwalk.edge 0 (by omega)
        exact hsource ▸ (hU f hf).1
    | succ j =>
        obtain ⟨f, hf, -, htarget, -⟩ := hwalk.edge j (by omega)
        exact htarget ▸ (hU f hf).2
  have hcard : U.card < (Finset.range (k + 2)).card := by
    rw [Finset.card_range]
    omega
  -- a variable that comes twice has a smaller value the second time
  obtain ⟨a, ha, b, hb, hne, hsame⟩ := Finset.exists_ne_map_eq_of_card_lt_of_maps_to hcard hmem
  have hcycle : ∀ i j, i < j → j ≤ k + 1 → walk i ≠ walk j := by
    intro i j hij hj heq
    obtain ⟨l, rfl⟩ : ∃ l, j = l + 1 := ⟨j - 1, by omega⟩
    have hle := hwalk.add_le hx hij.le hj
    rw [heq] at hle
    have hless := (hwalk.less l (by omega)).trans_le (best_antitone (Nat.le_of_lt_succ hij) _)
    exact absurd (le_of_add_le_add_left hle) (not_le.mpr hless)
  rw [Finset.mem_range] at ha hb
  rcases Nat.lt_or_gt_of_ne hne with hlt | hlt
  · exact hcycle a b hlt (by omega) hsame
  · exact hcycle b a hlt (by omega) hsame.symm

end Deai.DifferenceSystem
