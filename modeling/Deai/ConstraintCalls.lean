import Deai.ConstraintSolving

/-!
# Calls of the solver with any number of constraints

What holds of a call whether or not the number of edges that are looked at is enough: a vector that is
returned satisfies the constraints, because they are checked at the end, and a call ends when the
counters can count to the ends of the lists.
-/
namespace Deai.ConstraintCalls
open CountedLoop DifferenceSystem DifferenceConstraints Relaxation ConstraintSolving

variable {l : List (List ℤ)} {s : State}

/-- A vector that is returned is a solution. -/
theorem returns_solves {r : List ℤ} (h : Returns l r) : Solves l r := by
  obtain ⟨hn, hsize⟩ := returns_short h
  obtain ⟨fuel, hrun⟩ := h
  obtain ⟨t, s, hcheck, -, hverify, rfl⟩ := returns_parts hrun
  obtain ⟨hvalid, -, -⟩ := check_ok hn hcheck
  exact solves_map hvalid (verify_satisfies hn hvalid hsize hverify)

theorem checkPairs_ne_running {n i : ℕ} {constraints : List ℤ} :
    checkPairs n i constraints ≠ .error .running := by
  induction constraints using List.twoStepInduction with
  | nil | singleton j => rintro ⟨⟩
  | cons_cons j k rest ih _ =>
      rw [checkPairs_cons_cons]
      split_ifs
      · rintro ⟨⟩
      · rintro ⟨⟩
      · exact ih

theorem checkVariable_ne_running {i : ℕ} {t : List ℕ × ℕ} : checkVariable l i t ≠ .error .running := by
  simp only [checkVariable]
  split_ifs
  · rintro ⟨⟩
  · cases hpairs : checkPairs l.length i (l.getD i []) with
    | error e =>
        intro h
        cases h
        exact checkPairs_ne_running hpairs
    | ok u => rintro ⟨⟩

theorem verifyPair_ne_running {ret : ℕ → ℤ} {i c : ℕ} {constraints : List ℤ} {u : Unit} :
    verifyPair ret i constraints c u ≠ .error .running := by
  unfold verifyPair
  cases hsum : addInt64 (ret i) (constraints.getD (c + 1) 0) with
  | error e =>
      intro h
      cases h
      cases addInt64_error hsum
  | ok sum =>
      simp only [bind, Except.bind]
      split_ifs
      · nofun
      · nofun

/-- The fuel for which a call is over. -/
def enoughFuel (l : List (List ℤ)) : ℕ := l.length + 2 ^ 33

theorem verify_ne_running (hn : l.length < 2 ^ 32) (hsize : ∀ i, (l.getD i []).length ≤ 2 ^ 32 - 2)
    {ret : ℕ → ℤ} {fuel : ℕ} (hfuel : enoughFuel l ≤ fuel) :
    countedLoop .running 32 1 l.length (fun _ => true) (verifyVariable l ret fuel) fuel 0 () ≠
      .error .running := by
  unfold enoughFuel at hfuel
  intro hloop
  obtain ⟨i, u, hi, -, -, houter⟩ := countedLoop_error_of_fuel (by omega) Nat.one_pos
    (fun _ _ => True) (fun _ _ _ _ _ _ _ => trivial) trivial (by omega) hloop
  have hshort := hsize i
  obtain ⟨c, u, -, -, -, hinner⟩ := countedLoop_error_of_fuel (by omega) Nat.two_pos
    (fun _ _ => True) (fun _ _ _ _ _ _ _ => trivial) trivial (by omega) houter
  exact verifyPair_ne_running hinner

theorem relax_error_of_fuel (hsize : ∀ i, (l.getD i []).length ≤ 2 ^ 32 - 2) {fuel : ℕ}
    (hfuel : enoughFuel l ≤ fuel) {nedges : ℕ} {e : Stop}
    (hrelax : relaxQueue l fuel (startState l (budget l.length nedges)) = .error e) : e = .overflow := by
  have hlarge : l.length + 2 ^ 33 ≤ fuel := hfuel
  have hbudget : budget l.length nedges < 2 ^ 32 := Nat.mod_lt _ (Nat.two_pow_pos 32)
  refine relaxQueue_error hsize (by omega) ?_ hrelax
  simp only [startState, List.length_range]
  omega

/-- A call ends. -/
theorem ne_running (hn : l.length < 2 ^ 32) (hsize : ∀ i, (l.getD i []).length ≤ 2 ^ 32 - 2)
    {fuel : ℕ} (hfuel : enoughFuel l ≤ fuel) : differenceConstraints fuel l ≠ .error .running := by
  have hlarge : l.length + 2 ^ 33 ≤ fuel := hfuel
  intro hrun
  simp only [differenceConstraints, bind, Except.bind] at hrun
  split at hrun
  next e hcheck =>
    cases hrun
    obtain ⟨i, t, -, -, -, herror⟩ := countedLoop_error_of_fuel (by omega) Nat.one_pos
      (fun _ _ => True) (fun _ _ _ _ _ _ _ => trivial) trivial (by omega) hcheck
    exact checkVariable_ne_running herror
  next t hcheck =>
    obtain ⟨-, -, rfl⟩ := check_ok hn hcheck
    simp only at hrun
    split at hrun
    next e hrelax =>
      cases hrun
      cases relax_error_of_fuel hsize hfuel hrelax
    next s hrelax =>
      split at hrun
      next e hverify =>
        cases hrun
        exact verify_ne_running hn hsize hfuel hverify
      next => cases hrun

/-- A system without a solution is refused. -/
theorem refused (hn : l.length < 2 ^ 32) (hsize : ∀ i, (l.getD i []).length ≤ 2 ^ 32 - 2)
    (hsafe : ∀ fuel, differenceConstraints fuel l ≠ .error .overflow) (hnone : ∀ x, ¬ Solves l x) :
    ∃ fuel message, differenceConstraints fuel l = .error (.invalidArgument message) := by
  cases hrun : differenceConstraints (enoughFuel l) l with
  | ok r => exact absurd (returns_solves ⟨_, hrun⟩) (hnone r)
  | error e =>
      cases e with
      | running => exact absurd hrun (ne_running hn hsize (le_refl _))
      | overflow => exact absurd hrun (hsafe _)
      | invalidArgument message => exact ⟨_, message, hrun⟩

/-! ## Constraints that are met from the start -/

theorem relax_zero {i j : ℕ} {k : ℤ} {r : State} (hk : 0 ≤ k) (hs : ∀ v, s.ret v = 0)
    (h : relax i j k s = .ok r) : r = s := by
  unfold relax at h
  cases hsum : addInt64 (s.ret i) k with
  | error e =>
      rw [hsum] at h
      cases h
  | ok sum =>
      have hle : ¬ s.ret j > sum := by
        rw [addInt64_ok hsum, hs i, hs j]
        omega
      rw [hsum] at h
      simp only [bind, Except.bind, if_neg hle] at h
      exact (Except.ok.inj h).symm

theorem relaxQueue_zero (hnonneg : ∀ i c, 0 ≤ (l.getD i []).getD c 0) {fuel : ℕ} {r : State}
    (hs : ∀ v, s.ret v = 0) (h : relaxQueue l fuel s = .ok r) : ∀ v, r.ret v = 0 := by
  induction fuel generalizing s with
  | zero => cases h
  | succ fuel ih =>
      rw [relaxQueue] at h
      cases hqueue : s.queue with
      | nil =>
          rw [hqueue] at h
          exact Except.ok.inj h ▸ hs
      | cons i rest =>
          rw [hqueue] at h
          simp only [bind, Except.bind] at h
          split_ifs at h
          · exact Except.ok.inj h ▸ hs
          · split at h
            next => cases h
            next s' hloop =>
              refine ih (countedLoop_ok_of_keeps (fun s => ∀ v, s.ret v = 0) ?_ ?_ hloop) h
              · intro c s₁ s₂ _ hs₁ hstep
                have hsame := relax_zero (s := {s₁ with iter := s₁.iter - 1}) (hnonneg i (c + 1)) hs₁ hstep
                rw [hsame]
                exact hs₁
              · exact hs

/-- If all numbers are not negative, then all variables are zero. -/
theorem returns_zero (hn : l.length < 2 ^ 32) (hsize : ∀ i, (l.getD i []).length ≤ 2 ^ 32 - 2)
    (hsafe : ∀ fuel, differenceConstraints fuel l ≠ .error .overflow) (hvalid : Valid l)
    (hnonneg : ∀ i c, 0 ≤ (l.getD i []).getD c 0) {fuel : ℕ} (hfuel : enoughFuel l ≤ fuel) :
    differenceConstraints fuel l = .ok (List.replicate l.length 0) := by
  have hpair : ∀ i, ∀ p ∈ pairs (l.getD i []), 0 ≤ p.2 := by
    intro i p hp
    obtain ⟨c, hc, hget⟩ := List.getElem_of_mem (mem_of_mem_pairs hp).2
    rw [← hget, ← List.getD_eq_getElem _ 0 hc]
    exact hnonneg i c
  have hreflexive : Reflexive l := fun i _ p hp _ => hpair i p hp
  have hzero : Satisfies (edges l) fun _ => (0 : ℤ) := by
    intro e he
    obtain ⟨-, p, hp, -, hbound⟩ := mem_edges_pair.mp he
    have hle := hpair _ p hp
    simp only [hbound]
    omega
  have hlarge : l.length + 2 ^ 33 ≤ fuel := hfuel
  have hcheck := check_ends hn hvalid hreflexive (show l.length < fuel by omega)
  cases hrun : differenceConstraints fuel l with
  | ok r =>
      obtain ⟨t, s, -, hrelax, -, rfl⟩ := returns_parts hrun
      have hret : s.ret = fun _ => 0 := funext (relaxQueue_zero hnonneg (fun _ => rfl) hrelax)
      rw [hret, List.map_const', List.length_range]
  | error e =>
      exfalso
      cases e with
      | running => exact ne_running hn hsize hfuel hrun
      | overflow => exact hsafe fuel hrun
      | invalidArgument message =>
          simp only [differenceConstraints, bind, Except.bind, hcheck] at hrun
          split at hrun
          next e hrelax =>
            cases hrun
            cases relax_error_of_fuel hsize hfuel hrelax
          next s hrelax =>
            have hret : s.ret = fun _ => 0 := funext (relaxQueue_zero hnonneg (fun _ => rfl) hrelax)
            split at hrun
            next e hverify =>
              cases hrun
              rw [hret] at hverify
              cases verify_error hn hvalid hsize (by omega) hzero (by omega) hverify
            next => cases hrun

end Deai.ConstraintCalls
