import Deai.Relaxation
import Mathlib.Data.List.GetD

/-!
# Systems that the solver solves

The solver returns the greatest solution that is not positive, if there is a solution and the
counters of its loops can count to the end of every list. Its check of the result is a loop that
does not end for a longer list.
-/
namespace Deai.ConstraintSolving
open DifferenceConstraints DifferenceSystem CountedLoop Relaxation

variable {l : List (List ℤ)} {s : State}

/-! ## The checks of the input -/

theorem checkPairs_cons_cons (n i : ℕ) (j k : ℤ) (rest : List ℤ) :
    checkPairs n i (j :: k :: rest) =
      if j ≥ n ∨ j < 0 then .error (.invalidArgument "Invalid constraints, index out of bounds")
      else if j = i ∧ k < 0 then
        .error (.invalidArgument ("Invalid constraints: x_" ++ toString i ++ " - x_" ++ toString i ++
          " <= " ++ toString k ++ " is impossible"))
      else checkPairs n i rest := rfl

theorem checkPairs_ok_iff {n i : ℕ} {constraints : List ℤ} :
    checkPairs n i constraints = .ok () ↔
      ∀ p ∈ pairs constraints, (0 ≤ p.1 ∧ p.1 < n) ∧ (p.1 = i → 0 ≤ p.2) := by
  induction constraints using List.twoStepInduction with
  | nil => simp [checkPairs]
  | singleton j => simp [checkPairs]
  | cons_cons j k rest ih _ =>
      rw [checkPairs_cons_cons, pairs_cons_cons, List.forall_mem_cons]
      by_cases hindex : j ≥ n ∨ j < 0
      · rw [if_pos hindex]
        constructor
        · rintro ⟨⟩
        · rintro ⟨⟨hbounds, -⟩, -⟩
          simp only at hbounds
          omega
      · rw [if_neg hindex]
        by_cases hself : j = i ∧ k < 0
        · rw [if_pos hself]
          constructor
          · rintro ⟨⟩
          · rintro ⟨⟨-, hnonneg⟩, -⟩
            have hk := hnonneg hself.1
            simp only at hk
            omega
        · rw [if_neg hself, ih]
          refine (and_iff_right ⟨by simp only; omega, fun hj => ?_⟩).symm
          simp only at hj ⊢
          omega

/-- No variable is bounded by less than itself. -/
def Reflexive (l : List (List ℤ)) : Prop :=
  ∀ i < l.length, ∀ p ∈ pairs (l.getD i []), p.1 = i → 0 ≤ p.2

/-- How many constraints the first lists have. -/
def countUpTo (l : List (List ℤ)) (i : ℕ) : ℕ := ∑ j ∈ Finset.range i, (l.getD j []).length / 2

theorem checkVariable_ok_iff {i : ℕ} {t t' : List ℕ × ℕ} :
    checkVariable l i t = .ok t' ↔
      ((l.getD i []).length % 2 = 0 ∧
        ∀ p ∈ pairs (l.getD i []), (0 ≤ p.1 ∧ p.1 < l.length) ∧ (p.1 = i → 0 ≤ p.2)) ∧
      t' = (t.1 ++ [i], (t.2 + (l.getD i []).length / 2) % 2 ^ 32) := by
  rw [← checkPairs_ok_iff]
  simp only [checkVariable]
  by_cases hodd : (l.getD i []).length % 2 ≠ 0
  · rw [if_pos hodd]
    constructor
    · nofun
    · rintro ⟨⟨heven, -⟩, -⟩
      exact absurd heven hodd
  · rw [if_neg hodd]
    cases checkPairs l.length i (l.getD i []) with
    | error e =>
        constructor
        · nofun
        · rintro ⟨⟨-, hok⟩, -⟩
          cases hok
    | ok u =>
        simp only [bind, Except.bind, Except.ok.injEq, and_true]
        constructor
        · intro heq
          exact ⟨not_not.mp hodd, heq.symm⟩
        · rintro ⟨-, heq⟩
          exact heq.symm

/-- The state after the first rounds. -/
def Checked (l : List (List ℤ)) (i : ℕ) (t : List ℕ × ℕ) : Prop :=
  i ≤ l.length ∧ t = (List.range i, countUpTo l i % 2 ^ 32) ∧
    ∀ j < i, (l.getD j []).length % 2 = 0 ∧
      ∀ p ∈ pairs (l.getD j []), (0 ≤ p.1 ∧ p.1 < l.length) ∧ (p.1 = j → 0 ≤ p.2)

theorem Checked.next {i : ℕ} {t t' : List ℕ × ℕ} (hi : i < l.length) (h : Checked l i t)
    (hstep : checkVariable l i t = .ok t') : Checked l (i + 1) t' := by
  obtain ⟨-, rfl, hbefore⟩ := h
  obtain ⟨hlist, rfl⟩ := checkVariable_ok_iff.mp hstep
  refine ⟨hi, ?_, ?_⟩
  · rw [List.range_succ, countUpTo, countUpTo, Finset.sum_range_succ, Nat.mod_add_mod]
  · intro j hj
    rcases Nat.lt_succ_iff_lt_or_eq.mp hj with hlt | rfl
    · exact hbefore j hlt
    · exact hlist

theorem checked_zero : Checked l 0 ([], 0) :=
  ⟨Nat.zero_le _, rfl, fun _ hj => absurd hj (Nat.not_lt_zero _)⟩

theorem check_ok (hn : l.length < 2 ^ 32) {fuel : ℕ} {t : List ℕ × ℕ}
    (hloop : countedLoop .running 32 1 l.length (fun _ => true) (checkVariable l) fuel 0 ([], 0) =
      .ok t) :
    Valid l ∧ Reflexive l ∧ t = (List.range l.length, countUpTo l l.length % 2 ^ 32) := by
  obtain ⟨i, ⟨hle, heq, hlists⟩, hend⟩ := countedLoop_ok (by omega) (Checked l)
    (fun i t t' hi _ h hstep => h.next hi hstep) checked_zero hloop
  have hi : i = l.length := le_antisymm hle (hend.resolve_left (by simp))
  subst hi
  refine ⟨fun j hj => ⟨(hlists j hj).1, fun p hp => ((hlists j hj).2 p hp).1⟩, ?_, heq⟩
  exact fun j hj p hp => ((hlists j hj).2 p hp).2

theorem check_ends (hn : l.length < 2 ^ 32) (hvalid : Valid l) (hreflexive : Reflexive l)
    {fuel : ℕ} (hfuel : l.length < fuel) :
    countedLoop .running 32 1 l.length (fun _ => true) (checkVariable l) fuel 0 ([], 0) =
      .ok (List.range l.length, countUpTo l l.length % 2 ^ 32) := by
  cases hloop : countedLoop .running 32 1 l.length (fun _ => true) (checkVariable l) fuel 0
    ([], 0) with
  | ok t => rw [(check_ok hn hloop).2.2]
  | error e =>
      obtain ⟨j, t, hj, -, -, herror⟩ := countedLoop_error_of_fuel (by omega) Nat.one_pos (Checked l)
        (fun i t t' hi _ h hstep => h.next hi hstep) checked_zero (by omega) hloop
      have hok := checkVariable_ok_iff (t := t).mpr ⟨⟨(hvalid j hj).1,
        fun p hp => ⟨(hvalid j hj).2 p hp, hreflexive j hj p hp⟩⟩, rfl⟩
      cases herror.symm.trans hok

/-! ## The relaxation -/

/-- How many constraints there are. -/
def constraintCount (l : List (List ℤ)) : ℕ := (l.map fun constraints => constraints.length / 2).sum

theorem countUpTo_length (l : List (List ℤ)) : countUpTo l l.length = constraintCount l := by
  induction l with
  | nil => rfl
  | cons c l ih =>
      have hstep : countUpTo (c :: l) (l.length + 1) = countUpTo l l.length + c.length / 2 := by
        rw [countUpTo, Finset.sum_range_succ', countUpTo]
        simp
      rw [List.length_cons, hstep, ih, constraintCount, constraintCount, List.map_cons, List.sum_cons]
      exact Nat.add_comm _ _

theorem length_edges_eq (l : List (List ℤ)) : (edges l).length = constraintCount l := by
  rw [length_edges, ← countUpTo_length, countUpTo]
  refine Finset.sum_congr rfl fun i _ => ?_
  rw [degree, edgesFrom, List.length_map, length_pairs]

/-- The number of edges is kept in 32 bits. -/
theorem budget_mod {n : ℕ} (hpos : 0 < n) (hn : n < 2 ^ 32) (m : ℕ) :
    budget n (m % 2 ^ 32) = (n - 1) * m % 2 ^ 32 := by
  have hpred : (n + (2 ^ 64 - 1)) % 2 ^ 64 = n - 1 := by omega
  rw [budget, hpred, Nat.mod_mod_of_dvd _ (Nat.pow_dvd_pow 2 (by decide)), Nat.mul_mod_mod]

theorem budget_constraintCount (hn : l.length < 2 ^ 32) :
    budget l.length (constraintCount l % 2 ^ 32) = (l.length - 1) * constraintCount l % 2 ^ 32 := by
  rcases Nat.eq_zero_or_pos l.length with hempty | hpos
  · obtain rfl := List.length_eq_zero_iff.mp hempty
    rfl
  · exact budget_mod hpos hn _

/-- The number of edges is not cut off. -/
theorem budget_eq (hn : l.length < 2 ^ 32)
    (hbudget : (l.length - 1) * constraintCount l < 2 ^ 32) :
    budget l.length (constraintCount l % 2 ^ 32) = (l.length - 1) * constraintCount l := by
  rw [budget_constraintCount hn, Nat.mod_eq_of_lt hbudget]

/-- All variables are in the queue, with the value zero. -/
def startState (l : List (List ℤ)) (iter : ℕ) : State where
  ret _ := 0
  isInqueue i := i < l.length
  queue := List.range l.length
  iter := iter

theorem turn_start (l : List (List ℤ)) :
    Turn l [] (startState l ((l.length - 1) * constraintCount l)) := by
  have hsource : ∀ e ∈ edges l, e.source ∈ List.range l.length := fun e he =>
    List.mem_range.mpr (mem_edges.mp he).1
  constructor
  · refine ⟨List.nodup_range, fun i hi => List.mem_range.mp hi, ?_, fun x _ hx => hx,
      fun _ => le_refl _, fun e he hnot => absurd (hsource e he) hnot⟩
    intro i
    simp [startState]
  · rcases Nat.lt_or_ge l.length 2 with hsmall | hlarge
    · right
      intro v
      have hzero : l.length - 1 = 0 := by omega
      rw [hzero]
      exact le_refl _
    · refine .inl ⟨0, List.range l.length, [], by omega, by simp [startState],
        fun _ => le_refl _, fun e he hnot => absurd (hsource e he) hnot, ?_⟩
      have hdegree := sum_degree_le (l := l) List.nodup_range fun i hi => List.mem_range.mp hi
      rw [length_edges_eq] at hdegree ⊢
      have hsplit : l.length - 1 = l.length - 2 - 0 + 1 := by omega
      simp only [startState, hsplit, Nat.add_mul, Nat.one_mul, List.length_nil]
      omega

theorem addInt64_error {a b : ℤ} {e : Stop} (h : addInt64 a b = .error e) : e = .overflow := by
  unfold addInt64 at h
  split_ifs at h
  cases h
  rfl

/-- A step of the relaxation fails only if a sum is out of range. -/
theorem relax_error {i j : ℕ} {k : ℤ} {e : Stop} (h : relax i j k s = .error e) : e = .overflow := by
  unfold relax at h
  cases hsum : addInt64 (s.ret i) k with
  | error e' =>
      rw [hsum] at h
      cases h
      exact addInt64_error hsum
  | ok sum =>
      rw [hsum] at h
      simp only [bind, Except.bind] at h
      split_ifs at h

/-- A step uses up an edge, and puts at most one variable into the queue. -/
theorem relaxPair_size {i c : ℕ} {constraints : List ℤ} {r : State} (hiter : 0 < s.iter)
    (h : relaxPair i constraints c s = .ok r) :
    r.queue.length + r.iter ≤ s.queue.length + s.iter := by
  unfold relaxPair relax at h
  cases hsum : addInt64 (s.ret i) (constraints.getD (c + 1) 0) with
  | error e =>
      simp only [hsum] at h
      cases h
  | ok sum =>
      simp only [hsum, bind, Except.bind] at h
      split_ifs at h
      · cases h
        simp only [List.length_append, List.length_singleton]
        omega
      · cases h
        simp only
        omega
      · cases h
        simp only
        omega

/-- With fuel for the variables and the edges, only a sum that is out of range is an error. -/
theorem relaxQueue_error {M : ℕ} (hsize : ∀ i, (l.getD i []).length ≤ M) (hM : M + 2 ≤ 2 ^ 32)
    {fuel : ℕ} (hfuel : s.queue.length + s.iter + M < fuel) {e : Stop}
    (hrun : relaxQueue l fuel s = .error e) : e = .overflow := by
  induction fuel generalizing s with
  | zero => exact absurd hfuel (Nat.not_lt_zero _)
  | succ fuel ih =>
      rw [relaxQueue] at hrun
      cases hqueue : s.queue with
      | nil =>
          rw [hqueue] at hrun
          cases hrun
      | cons i rest =>
          rw [hqueue] at hrun hfuel
          by_cases hiter : s.iter = 0
          · simp only [hiter, if_true] at hrun
            cases hrun
          · simp only [if_neg hiter, bind, Except.bind] at hrun
            have hsmall := hsize i
            have hbody : ∀ c (s₁ s₂ : State), c < (l.getD i []).length →
                decide (0 < s₁.iter) = true →
                s₁.queue.length + s₁.iter ≤ rest.length + s.iter →
                relaxPair i (l.getD i []) c s₁ = .ok s₂ →
                s₂.queue.length + s₂.iter ≤ rest.length + s.iter := by
              intro c s₁ s₂ _ hmore hle hstep
              exact (relaxPair_size (by simpa using hmore) hstep).trans hle
            rw [List.length_cons] at hfuel
            split at hrun
            next e' hloop =>
              cases hrun
              obtain ⟨j, s', -, -, -, herror⟩ := countedLoop_error_of_fuel (by omega) Nat.two_pos
                (fun _ s' => s'.queue.length + s'.iter ≤ rest.length + s.iter) hbody (le_refl _)
                (by omega) hloop
              exact relax_error herror
            next r hloop =>
              obtain ⟨-, hle, -⟩ := countedLoop_ok (by omega)
                (fun _ s' => s'.queue.length + s'.iter ≤ rest.length + s.iter) hbody (le_refl _)
                hloop
              exact ih (by omega) hrun

/-! ## The check of the result -/

theorem verifyPair_ok_iff {ret : ℕ → ℤ} {i c : ℕ} {constraints : List ℤ} :
    verifyPair ret i constraints c () = .ok () ↔
      addInt64 (ret i) (constraints.getD (c + 1) 0) = .ok (ret i + constraints.getD (c + 1) 0) ∧
        ret (toUnsigned (constraints.getD c 0)) ≤ ret i + constraints.getD (c + 1) 0 := by
  unfold verifyPair
  cases hsum : addInt64 (ret i) (constraints.getD (c + 1) 0) with
  | error e =>
      constructor
      · nofun
      · rintro ⟨heq, -⟩
        cases heq
  | ok sum =>
      obtain rfl := addInt64_ok hsum
      simp only [bind, Except.bind, true_and]
      split_ifs with hless
      · constructor
        · nofun
        · intro hle
          omega
      · simpa using hless

/-- The pairs that the loop has come past are satisfied. -/
theorem verifyVariable_ok (hn : l.length < 2 ^ 32) (hvalid : Valid l) {i : ℕ} (hi : i < l.length)
    (hsize : (l.getD i []).length < 2 ^ 32) {ret : ℕ → ℤ} {fuel : ℕ}
    (hloop : verifyVariable l ret fuel i () = .ok ()) :
    ∀ p ∈ pairs (l.getD i []), ret p.1.toNat ≤ ret i + p.2 := by
  obtain ⟨heven, hindex⟩ := hvalid i hi
  have hbody : ∀ c (u v : Unit), c < (l.getD i []).length → true = true →
      (c % 2 = 0 ∧ ∀ p ∈ (pairs (l.getD i [])).take (c / 2), ret p.1.toNat ≤ ret i + p.2) →
      verifyPair ret i (l.getD i []) c u = .ok v →
      ((c + 2) % 2 = 0 ∧
        ∀ p ∈ (pairs (l.getD i [])).take ((c + 2) / 2), ret p.1.toNat ≤ ret i + p.2) := by
    rintro c u v hc - ⟨hcount, hbefore⟩ hstep
    refine ⟨by omega, ?_⟩
    have hdrop := pairs_drop heven hcount hc
    have hmem : ((l.getD i []).getD c 0, (l.getD i []).getD (c + 1) 0) ∈ pairs (l.getD i []) :=
      List.mem_of_mem_drop (hdrop ▸ List.mem_cons_self)
    obtain ⟨hnonneg, hlt⟩ := hindex _ hmem
    obtain ⟨-, hle⟩ := verifyPair_ok_iff.mp hstep
    rw [toUnsigned_eq hnonneg hlt hn.le] at hle
    intro p hp
    have hhalf : (c + 2) / 2 = c / 2 + 1 := by omega
    rw [hhalf, List.take_add, hdrop, List.mem_append] at hp
    rcases hp with hp | hp
    · exact hbefore p hp
    · rw [List.take_succ_cons, List.take_zero, List.mem_singleton] at hp
      rw [hp]
      exact hle
  have hI : 0 % 2 = 0 ∧ ∀ p ∈ (pairs (l.getD i [])).take (0 / 2), ret p.1.toNat ≤ ret i + p.2 :=
    ⟨rfl, by simp⟩
  obtain ⟨c, ⟨-, hall⟩, hend⟩ := countedLoop_ok (by omega) (fun c _ => c % 2 = 0 ∧
    ∀ p ∈ (pairs (l.getD i [])).take (c / 2), ret p.1.toNat ≤ ret i + p.2) hbody hI hloop
  have hlast := hend.resolve_left (by simp)
  rw [List.take_of_length_le (by rw [length_pairs]; omega)] at hall
  exact hall

theorem mem_edges_pair {e : Edge ℕ ℤ} :
    e ∈ edges l ↔ e.source < l.length ∧
      ∃ p ∈ pairs (l.getD e.source []), e.target = p.1.toNat ∧ e.bound = p.2 := by
  rw [mem_edges, edgesFrom, List.mem_map]
  refine and_congr_right fun _ => exists_congr fun p => and_congr_right fun _ => ?_
  constructor
  · intro heq
    rw [← heq]
    exact ⟨rfl, rfl⟩
  · rintro ⟨htarget, hbound⟩
    rw [← htarget, ← hbound]

/-- Every list has been gone through when the check is over. -/
theorem verify_all (hn : l.length < 2 ^ 32) {ret : ℕ → ℤ} {fuel : ℕ}
    (hloop : countedLoop .running 32 1 l.length (fun _ => true) (verifyVariable l ret fuel) fuel 0 ()
      = .ok ()) :
    ∀ i < l.length, verifyVariable l ret fuel i () = .ok () := by
  have hbody : ∀ i (u v : Unit), i < l.length → true = true →
      (i ≤ l.length ∧ ∀ j < i, verifyVariable l ret fuel j () = .ok ()) →
      verifyVariable l ret fuel i u = .ok v →
      (i + 1 ≤ l.length ∧ ∀ j < i + 1, verifyVariable l ret fuel j () = .ok ()) := by
    rintro i u v hi - ⟨-, hbefore⟩ hstep
    refine ⟨hi, fun j hj => ?_⟩
    rcases Nat.lt_succ_iff_lt_or_eq.mp hj with hlt | rfl
    · exact hbefore j hlt
    · exact hstep
  have hI : 0 ≤ l.length ∧ ∀ j < 0, verifyVariable l ret fuel j () = .ok () :=
    ⟨Nat.zero_le _, fun j hj => absurd hj (Nat.not_lt_zero j)⟩
  obtain ⟨i, ⟨hle, hall⟩, hend⟩ := countedLoop_ok (by omega) (fun i _ => i ≤ l.length ∧
    ∀ j < i, verifyVariable l ret fuel j () = .ok ()) hbody hI hloop
  have hi : i = l.length := le_antisymm hle (hend.resolve_left (by simp))
  exact hi ▸ hall

theorem verify_satisfies (hn : l.length < 2 ^ 32) (hvalid : Valid l)
    (hsize : ∀ i < l.length, (l.getD i []).length < 2 ^ 32) {ret : ℕ → ℤ} {fuel : ℕ}
    (hloop : countedLoop .running 32 1 l.length (fun _ => true) (verifyVariable l ret fuel) fuel 0 ()
      = .ok ()) :
    Satisfies (edges l) ret := by
  intro e he
  obtain ⟨hi, p, hp, htarget, hbound⟩ := mem_edges_pair.mp he
  rw [htarget, hbound]
  exact verifyVariable_ok hn hvalid hi (hsize _ hi) (verify_all hn hloop _ hi) p hp

/-- A solution passes the check, if no sum is out of range. -/
theorem verify_error (hn : l.length < 2 ^ 32) (hvalid : Valid l) {M : ℕ}
    (hsize : ∀ i, (l.getD i []).length ≤ M) (hM : M + 2 ≤ 2 ^ 32) {ret : ℕ → ℤ}
    (hret : Satisfies (edges l) ret) {fuel : ℕ} (hfuel : l.length + M < fuel) {e : Stop}
    (hloop : countedLoop .running 32 1 l.length (fun _ => true) (verifyVariable l ret fuel) fuel 0 ()
      = .error e) : e = .overflow := by
  obtain ⟨i, u, hi, -, -, houter⟩ := countedLoop_error_of_fuel (by omega) Nat.one_pos
    (fun _ _ => True) (fun _ _ _ _ _ _ _ => trivial) trivial (by omega) hloop
  obtain ⟨heven, hindex⟩ := hvalid i hi
  have hsmall := hsize i
  obtain ⟨c, u, hc, -, hcount, hinner⟩ := countedLoop_error_of_fuel (by omega) Nat.two_pos
    (fun c _ => c % 2 = 0) (fun c _ _ _ _ hcount _ => by omega) rfl (by omega) houter
  have hdrop := pairs_drop heven hcount hc
  have hmem : ((l.getD i []).getD c 0, (l.getD i []).getD (c + 1) 0) ∈ pairs (l.getD i []) :=
    List.mem_of_mem_drop (hdrop ▸ List.mem_cons_self)
  obtain ⟨hnonneg, hlt⟩ := hindex _ hmem
  have hle : ret (toUnsigned ((l.getD i []).getD c 0)) ≤ ret i + (l.getD i []).getD (c + 1) 0 := by
    rw [toUnsigned_eq hnonneg hlt hn.le]
    exact hret ⟨i, ((l.getD i []).getD c 0).toNat, (l.getD i []).getD (c + 1) 0⟩
      (mem_edges_pair.mpr ⟨hi, _, hmem, rfl, rfl⟩)
  cases hsum : addInt64 (ret i) ((l.getD i []).getD (c + 1) 0) with
  | error e' =>
      unfold verifyPair at hinner
      rw [hsum] at hinner
      cases hinner
      exact addInt64_error hsum
  | ok sum =>
      have hok := verifyPair_ok_iff.mpr ⟨addInt64_ok hsum ▸ hsum, hle⟩
      cases hinner.symm.trans hok

/-! ## Vectors that are returned -/

/-- A call returns the vector. -/
def Returns (l : List (List ℤ)) (r : List ℤ) : Prop := ∃ fuel, differenceConstraints fuel l = .ok r

/-- `x_j - x_i <= k` for all constraints. -/
def Solves (l : List (List ℤ)) (x : List ℤ) : Prop :=
  x.length = l.length ∧
    ∀ i < l.length, ∀ p ∈ pairs (l.getD i []), x.getD p.1.toNat 0 - x.getD i 0 ≤ p.2

/-- A vector is returned if and only if there is a solution, and it is the greatest one that is not
positive. -/
structure Solved (l : List (List ℤ)) : Prop where
  returns : (∃ r, Returns l r) ↔ Valid l ∧ ∃ x, Solves l x
  greatest : ∀ r, Returns l r → Solves l r ∧ (∀ v ∈ r, v ≤ 0) ∧
    ∀ x, Solves l x → (∀ v ∈ x, v ≤ 0) → ∀ i, x.getD i 0 ≤ r.getD i 0

theorem Solves.satisfies {x : List ℤ} (h : Solves l x) : Satisfies (edges l) fun i => x.getD i 0 := by
  intro e he
  obtain ⟨hi, p, hp, htarget, hbound⟩ := mem_edges_pair.mp he
  have hle := h.2 e.source hi p hp
  simp only [htarget, hbound]
  omega

theorem getD_map_range (f : ℕ → ℤ) {n i : ℕ} (hi : i < n) : ((List.range n).map f).getD i 0 = f i := by
  simp [List.getD_eq_getElem?_getD, List.getElem?_map, List.getElem?_range hi]

theorem solves_map {ret : ℕ → ℤ} (hvalid : Valid l) (h : Satisfies (edges l) ret) :
    Solves l ((List.range l.length).map ret) := by
  refine ⟨by simp, fun i hi p hp => ?_⟩
  obtain ⟨hnonneg, hlt⟩ := (hvalid i hi).2 p hp
  rw [getD_map_range ret hi, getD_map_range ret (by omega)]
  have hle := h ⟨i, p.1.toNat, p.2⟩ (mem_edges_pair.mpr ⟨hi, p, hp, rfl, rfl⟩)
  simp only at hle
  omega

/-- The parts of a call that returns. -/
theorem returns_parts {fuel : ℕ} {r : List ℤ} (h : differenceConstraints fuel l = .ok r) :
    ∃ t s, countedLoop .running 32 1 l.length (fun _ => true) (checkVariable l) fuel 0 ([], 0) = .ok t ∧
      relaxQueue l fuel {startState l (budget l.length t.2) with queue := t.1} = .ok s ∧
      countedLoop .running 32 1 l.length (fun _ => true) (verifyVariable l s.ret fuel) fuel 0 () =
        .ok () ∧
      r = (List.range l.length).map s.ret := by
  simp only [differenceConstraints, bind, Except.bind] at h
  split at h
  · cases h
  next t hcheck =>
    obtain ⟨queue, nedges⟩ := t
    simp only at h
    split at h
    · cases h
    next s hrelax =>
      split at h
      · cases h
      next hverify =>
        cases h
        exact ⟨_, s, hcheck, hrelax, hverify, rfl⟩

/-- No counter goes round in a call that returns. -/
theorem returns_short {r : List ℤ} (h : Returns l r) :
    l.length < 2 ^ 32 ∧ ∀ i < l.length, (l.getD i []).length < 2 ^ 32 := by
  obtain ⟨fuel, hrun⟩ := h
  obtain ⟨t, s, hcheck, -, hverify, -⟩ := returns_parts hrun
  have hn : l.length < 2 ^ 32 := by
    by_contra hlong
    exact countedLoop_ne_ok (not_lt.mp hlong) (fun _ => rfl) fuel (Nat.two_pow_pos 32) _ _ hcheck
  refine ⟨hn, fun i hi => ?_⟩
  by_contra hlong
  exact countedLoop_ne_ok (not_lt.mp hlong) (fun _ => rfl) fuel (Nat.two_pow_pos 32) _ _
    (verify_all hn hverify i hi)

theorem returns_greatest (hbudget : (l.length - 1) * constraintCount l < 2 ^ 32) {r : List ℤ}
    (h : Returns l r) :
    Valid l ∧ Solves l r ∧ (∀ v ∈ r, v ≤ 0) ∧
      ∀ x, Solves l x → (∀ v ∈ x, v ≤ 0) → ∀ i, x.getD i 0 ≤ r.getD i 0 := by
  obtain ⟨hn, hsize⟩ := returns_short h
  obtain ⟨fuel, hrun⟩ := h
  obtain ⟨t, s, hcheck, hrelax, hverify, rfl⟩ := returns_parts hrun
  obtain ⟨hvalid, -, rfl⟩ := check_ok hn hcheck
  simp only [countUpTo_length, budget_eq hn hbudget] at hrelax
  have hended := relaxQueue_ended hvalid hn hsize (turn_start l) hrelax
  refine ⟨hvalid, solves_map hvalid (verify_satisfies hn hvalid hsize hverify), ?_, ?_⟩
  · intro v hv
    obtain ⟨i, -, rfl⟩ := List.mem_map.mp hv
    exact hended.nonpos i
  · intro x hx hnonpos i
    rcases Nat.lt_or_ge i l.length with hi | hi
    · rw [getD_map_range _ hi]
      refine hended.above _ hx.satisfies (fun v => ?_) i
      rcases Nat.lt_or_ge v x.length with hv | hv
      · rw [List.getD_eq_getElem x 0 hv]
        exact hnonpos _ (List.getElem_mem hv)
      · rw [List.getD_eq_default x 0 hv]
    · rw [List.getD_eq_default x 0 (by rw [hx.1]; exact hi), List.getD_eq_default _ _ (by simpa using hi)]

theorem reflexive_of_solves {x : List ℤ} (hx : Solves l x) : Reflexive l := by
  intro i hi p hp hself
  have hle := hx.2 i hi p hp
  rw [hself, Int.toNat_natCast] at hle
  omega

/-- A system with a solution is solved, if the counters can count to the ends of the lists. -/
theorem returns_of_solves (hn : l.length < 2 ^ 32)
    (hsize : ∀ i < l.length, (l.getD i []).length < 2 ^ 32)
    (hbudget : (l.length - 1) * constraintCount l < 2 ^ 32)
    (hsafe : ∀ fuel, differenceConstraints fuel l ≠ .error .overflow) (hvalid : Valid l)
    {x : List ℤ} (hx : Solves l x) : ∃ r, Returns l r := by
  have hM : ∀ i, (l.getD i []).length ≤ 2 ^ 32 - 2 := by
    intro i
    rcases Nat.lt_or_ge i l.length with hi | hi
    · have heven := (hvalid i hi).1
      have hlt := hsize i hi
      omega
    · rw [List.getD_eq_default l [] hi]
      exact Nat.zero_le _
  have hfuel : ∃ fuel, l.length + (l.length - 1) * constraintCount l + 2 ^ 32 < fuel :=
    ⟨_, Nat.lt_succ_self _⟩
  obtain ⟨fuel, hfuel⟩ := hfuel
  have hcheck := check_ends hn hvalid (reflexive_of_solves hx) (show l.length < fuel by omega)
  cases hrun : differenceConstraints fuel l with
  | ok r => exact ⟨r, fuel, hrun⟩
  | error e =>
      exfalso
      refine hsafe fuel ?_
      suffices he : e = .overflow by rw [hrun, he]
      simp only [differenceConstraints, bind, Except.bind, hcheck, countUpTo_length,
        budget_eq hn hbudget] at hrun
      split at hrun
      next e' hrelax =>
        cases hrun
        refine relaxQueue_error hM (by omega) ?_ hrelax
        simp only [List.length_range]
        omega
      next s hrelax =>
        have hended := relaxQueue_ended hvalid hn hsize (turn_start l) hrelax
        have hsolved := hended.satisfies (fun e he => edges_lt hvalid he) hx.satisfies
        split at hrun
        next e' hverify =>
          cases hrun
          exact verify_error hn hvalid hM (by omega) hsolved (by omega) hverify
        next => cases hrun

/-! ## Sums that stay in range -/

/-- Every edge that was looked at has made a value smaller by at most `K`. -/
structure Bounded (K : ℤ) (total : ℕ) (s : State) : Prop where
  iter : s.iter ≤ total
  lower : ∀ v, -((total - s.iter : ℕ) * K) ≤ s.ret v
  upper : ∀ v, s.ret v ≤ 0

theorem addInt64_of_bounds {a b : ℤ} {N : ℤ} (hN : N < 2 ^ 63) (hlower : -N ≤ a + b)
    (hupper : a + b ≤ N) : addInt64 a b = .ok (a + b) :=
  if_pos ⟨by omega, by omega⟩

theorem Bounded.sum {K : ℤ} {total : ℕ} (h : Bounded K total s) (hK : 0 ≤ K)
    (hsmall : (total + 1) * K < 2 ^ 63) (hiter : 0 < s.iter) {k : ℤ} (hk : -K ≤ k ∧ k ≤ K) (v : ℕ) :
    addInt64 (s.ret v) k = .ok (s.ret v + k) ∧
      -((total - (s.iter - 1) : ℕ) * K) ≤ s.ret v + k := by
  obtain ⟨hk₁, hk₂⟩ := hk
  have hle := h.iter
  have hlower := h.lower v
  have hupper := h.upper v
  have hused : ((total - (s.iter - 1) : ℕ) : ℤ) = (total - s.iter : ℕ) + 1 := by omega
  have hbelow : -((total - (s.iter - 1) : ℕ) * K) ≤ s.ret v + k := by
    rw [hused, Int.add_mul, Int.one_mul]
    omega
  refine ⟨addInt64_of_bounds hsmall ?_ ?_, hbelow⟩
  · have hmul : ((total - (s.iter - 1) : ℕ) : ℤ) * K ≤ (total + 1) * K :=
      Int.mul_le_mul_of_nonneg_right (by omega) hK
    omega
  · have hmul : 1 * K ≤ ((total : ℤ) + 1) * K := Int.mul_le_mul_of_nonneg_right (by omega) hK
    omega

/-- No number in the lists is greater than `K`. -/
def Small (K : ℤ) (l : List (List ℤ)) : Prop :=
  ∀ i c, -K ≤ (l.getD i []).getD c 0 ∧ (l.getD i []).getD c 0 ≤ K

theorem Bounded.relaxPair {K : ℤ} {total : ℕ} (hK : 0 ≤ K) (hsmall : (total + 1) * K < 2 ^ 63)
    (hl : Small K l) (i c : ℕ) (hiter : 0 < s.iter) (h : Bounded K total s) :
    ∃ s', DifferenceConstraints.relaxPair i (l.getD i []) c s = .ok s' ∧ Bounded K total s' := by
  obtain ⟨hsum, hbelow⟩ := h.sum hK hsmall hiter (hl i (c + 1)) i
  have hle := h.iter
  have hold : ∀ v, -((total - (s.iter - 1) : ℕ) * K) ≤ s.ret v := by
    intro v
    have hmul : ((total - s.iter : ℕ) : ℤ) * K ≤ (total - (s.iter - 1) : ℕ) * K :=
      Int.mul_le_mul_of_nonneg_right (by omega) hK
    have hlower := h.lower v
    omega
  have hnew : ∀ {j : ℕ}, s.ret j > s.ret i + (l.getD i []).getD (c + 1) 0 → ∀ v,
      -((total - (s.iter - 1) : ℕ) * K) ≤
        Function.update s.ret j (s.ret i + (l.getD i []).getD (c + 1) 0) v ∧
      Function.update s.ret j (s.ret i + (l.getD i []).getD (c + 1) 0) v ≤ 0 := by
    intro j hless v
    by_cases hv : v = j
    · subst hv
      rw [Function.update_self]
      exact ⟨hbelow, hless.le.trans (h.upper v)⟩
    · rw [Function.update_of_ne hv]
      exact ⟨hold v, h.upper v⟩
  simp only [DifferenceConstraints.relaxPair, relax, hsum, bind, Except.bind]
  split_ifs with hless hqueued
  · exact ⟨_, rfl, by simp only; omega, fun v => (hnew hless v).1, fun v => (hnew hless v).2⟩
  · exact ⟨_, rfl, by simp only; omega, fun v => (hnew hless v).1, fun v => (hnew hless v).2⟩
  · exact ⟨_, rfl, by simp only; omega, hold, h.upper⟩

theorem Bounded.relaxQueue {K : ℤ} {total : ℕ} (hK : 0 ≤ K) (hsmall : (total + 1) * K < 2 ^ 63)
    (hl : Small K l) {fuel : ℕ} (h : Bounded K total s) :
    DifferenceConstraints.relaxQueue l fuel s ≠ .error .overflow ∧
      ∀ r, DifferenceConstraints.relaxQueue l fuel s = .ok r → Bounded K total r := by
  induction fuel generalizing s with
  | zero => exact ⟨by rintro ⟨⟩, fun r hr => by cases hr⟩
  | succ fuel ih =>
      rw [DifferenceConstraints.relaxQueue]
      cases s.queue with
      | nil => exact ⟨by rintro ⟨⟩, fun r hr => Except.ok.inj hr ▸ h⟩
      | cons i rest =>
          have hbody : ∀ c (s₁ s₂ : State), decide (0 < s₁.iter) = true → Bounded K total s₁ →
              DifferenceConstraints.relaxPair i (l.getD i []) c s₁ = .ok s₂ →
              Bounded K total s₂ := by
            intro c s₁ s₂ hmore hs hstep
            obtain ⟨s', hok, hs'⟩ := hs.relaxPair hK hsmall hl i c (by simpa using hmore)
            rw [hok] at hstep
            cases hstep
            exact hs'
          have hpop : Bounded K total
              {s with queue := rest, isInqueue := Function.update s.isInqueue i false} :=
            ⟨h.iter, h.lower, h.upper⟩
          simp only [bind, Except.bind]
          split_ifs
          · exact ⟨by rintro ⟨⟩, fun r hr => Except.ok.inj hr ▸ h⟩
          · split
            next e hloop =>
              refine ⟨fun he => ?_, fun r hr => by cases hr⟩
              rcases countedLoop_error_of_keeps (Bounded K total) hbody hpop hloop with
                rfl | ⟨c, s₁, -, hmore, hs, herror⟩
              · cases he
              · obtain ⟨s', hok, -⟩ := hs.relaxPair hK hsmall hl i c (by simpa using hmore)
                rw [hok] at herror
                cases herror
            next r hloop => exact ih (countedLoop_ok_of_keeps (Bounded K total) hbody hpop hloop)

theorem verify_safe {K : ℤ} {total : ℕ} (hK : 0 ≤ K) (hsmall : (total + 1) * K < 2 ^ 63)
    (hl : Small K l) (h : Bounded K total s) (fuel : ℕ) :
    countedLoop .running 32 1 l.length (fun _ => true) (verifyVariable l s.ret fuel) fuel 0 () ≠
      .error .overflow := by
  intro houter
  rcases countedLoop_error_of_keeps (fun _ => True) (fun _ _ _ _ _ _ => trivial) trivial houter with
    he | ⟨i, u, -, -, -, hinner⟩
  · cases he
  rcases countedLoop_error_of_keeps (fun _ => True) (fun _ _ _ _ _ _ => trivial) trivial hinner with
    he | ⟨c, u, -, -, -, hpair⟩
  · cases he
  have hsum : addInt64 (s.ret i) ((l.getD i []).getD (c + 1) 0) =
      .ok (s.ret i + (l.getD i []).getD (c + 1) 0) := by
    obtain ⟨hk₁, hk₂⟩ := hl i (c + 1)
    have hlower := h.lower i
    have hupper := h.upper i
    have hmul : ((total - s.iter : ℕ) : ℤ) * K ≤ total * K :=
      Int.mul_le_mul_of_nonneg_right (by omega) hK
    have hprod : 0 ≤ (total : ℤ) * K := Int.mul_nonneg (by omega) hK
    rw [Int.add_mul, Int.one_mul] at hsmall
    exact addInt64_of_bounds hsmall (by omega) (by omega)
  unfold verifyPair at hpair
  rw [hsum] at hpair
  simp only [bind, Except.bind] at hpair
  split_ifs at hpair
  cases hpair

/-- The checks of the input form no sum. -/
theorem check_safe (fuel : ℕ) :
    countedLoop .running 32 1 l.length (fun _ => true) (checkVariable l) fuel 0 ([], 0) ≠
      .error .overflow := by
  intro hloop
  rcases countedLoop_error_of_keeps (fun _ => True) (fun _ _ _ _ _ _ => trivial) trivial hloop with
    he | ⟨i, t, -, -, -, herror⟩
  · cases he
  have hpairs : ∀ n i constraints, checkPairs n i constraints ≠ .error .overflow := by
    intro n i constraints
    induction constraints using List.twoStepInduction with
    | nil | singleton j => rintro ⟨⟩
    | cons_cons j k rest ih _ =>
        rw [checkPairs_cons_cons]
        split_ifs
        · rintro ⟨⟩
        · rintro ⟨⟩
        · exact ih
  simp only [checkVariable] at herror
  split_ifs at herror
  · cases herror
  · cases hcheck : checkPairs l.length i (l.getD i []) with
    | error e =>
        rw [hcheck] at herror
        cases herror
        exact hpairs _ _ _ hcheck
    | ok u =>
        rw [hcheck] at herror
        cases herror

/-- Small numbers keep every sum in range. -/
theorem safe_of_small {K : ℤ} (hK : 0 ≤ K) (hsmall : (2 ^ 32 : ℤ) * K < 2 ^ 63) (hl : Small K l)
    (fuel : ℕ) : differenceConstraints fuel l ≠ .error .overflow := by
  intro hrun
  simp only [differenceConstraints, bind, Except.bind] at hrun
  split at hrun
  next e hcheck =>
    cases hrun
    exact check_safe fuel hcheck
  next t hcheck =>
    obtain ⟨queue, nedges⟩ := t
    simp only at hrun
    have hbudget : budget l.length nedges < 2 ^ 32 := Nat.mod_lt _ (Nat.two_pow_pos 32)
    have htotal : ((budget l.length nedges : ℕ) + 1 : ℤ) * K < 2 ^ 63 :=
      lt_of_le_of_lt (Int.mul_le_mul_of_nonneg_right (by omega) hK) hsmall
    have hstart : Bounded K (budget l.length nedges)
        {startState l (budget l.length nedges) with queue := queue} := by
      refine ⟨le_refl _, fun v => ?_, fun v => le_refl _⟩
      simp [startState]
    obtain ⟨hsafe, hbounded⟩ := hstart.relaxQueue hK htotal hl
    split at hrun
    next e hrelax =>
      cases hrun
      exact hsafe hrelax
    next s hrelax =>
      split at hrun
      next e hverify =>
        cases hrun
        exact verify_safe hK htotal hl (hbounded s hrelax) fuel hverify
      next => cases hrun

theorem small_of_mem {K : ℤ} (hK : 0 ≤ K) (h : ∀ c ∈ l, ∀ x ∈ c, -K ≤ x ∧ x ≤ K) : Small K l := by
  intro i c
  rcases Nat.lt_or_ge i l.length with hi | hi
  · rw [List.getD_eq_getElem l [] hi]
    rcases Nat.lt_or_ge c l[i].length with hc | hc
    · rw [List.getD_eq_getElem _ 0 hc]
      exact h _ (List.getElem_mem hi) _ (List.getElem_mem hc)
    · rw [List.getD_eq_default _ 0 hc]
      exact ⟨by omega, hK⟩
  · rw [List.getD_eq_default l [] hi]
    exact ⟨by simpa using hK, by simpa using hK⟩

/-! ## Systems that are solved -/

/-- The solver does what it should, if and only if there is nothing to solve or the counters of its
loops can count to the ends of the lists. -/
theorem difference_constraints_solved (hbudget : (l.length - 1) * constraintCount l < 2 ^ 32)
    (hsafe : ∀ fuel, differenceConstraints fuel l ≠ .error .overflow) :
    Solved l ↔ (l.length < 2 ^ 32 ∧ ∀ i < l.length, (l.getD i []).length < 2 ^ 32) ∨
      ¬ (Valid l ∧ ∃ x, Solves l x) := by
  constructor
  · intro h
    by_cases hsolvable : Valid l ∧ ∃ x, Solves l x
    · obtain ⟨r, hr⟩ := h.returns.mpr hsolvable
      exact .inl (returns_short hr)
    · exact .inr hsolvable
  · intro hcase
    refine ⟨⟨?_, ?_⟩, fun r hr => (returns_greatest hbudget hr).2⟩
    · rintro ⟨r, hr⟩
      obtain ⟨hvalid, hsolves, -⟩ := returns_greatest hbudget hr
      exact ⟨hvalid, r, hsolves⟩
    · rintro ⟨hvalid, x, hx⟩
      obtain ⟨hn, hsize⟩ := hcase.resolve_right (not_not.mpr ⟨hvalid, x, hx⟩)
      exact returns_of_solves hn hsize hbudget hsafe hvalid hx

theorem difference_constraints_two :
    Solved [[1, -5], [0, 7]] ∧ Returns [[1, -5], [0, 7]] [0, -5] := by
  have hsmall : Small 7 [[1, -5], [0, 7]] := small_of_mem (by decide) (by decide)
  refine ⟨(difference_constraints_solved (by decide)
    (safe_of_small (by decide) (by decide) hsmall)).mpr (.inl ⟨by decide, by decide⟩), 20, ?_⟩
  decide

theorem mem_of_mem_pairs {constraints : List ℤ} {p : ℤ × ℤ} (hp : p ∈ pairs constraints) :
    p.1 ∈ constraints ∧ p.2 ∈ constraints := by
  induction constraints using List.twoStepInduction with
  | nil | singleton j => cases hp
  | cons_cons j k rest ih _ =>
      rw [pairs_cons_cons, List.mem_cons] at hp
      rcases hp with rfl | hp
      · simp
      · have hmem := ih hp
        exact ⟨by simp [hmem.1], by simp [hmem.2]⟩

/-- A system with one variable and a long list of constraints `x_0 - x_0 <= 0` is not solved. -/
theorem long_list_not_solved {m : ℕ} (hm : 2 ^ 32 ≤ m) (heven : m % 2 = 0) :
    ¬ Solved [List.replicate m 0] := by
  intro h
  have hzero : ∀ p ∈ pairs (List.replicate m (0 : ℤ)), p.1 = 0 ∧ p.2 = 0 := fun p hp =>
    ⟨List.eq_of_mem_replicate (mem_of_mem_pairs hp).1, List.eq_of_mem_replicate (mem_of_mem_pairs hp).2⟩
  have hvalid : Valid [List.replicate m 0] := by
    intro i hi
    obtain rfl : i = 0 := Nat.lt_one_iff.mp hi
    refine ⟨(List.length_replicate).symm ▸ heven, fun p hp => ?_⟩
    rw [(hzero p hp).1]
    exact ⟨le_refl _, Int.one_pos⟩
  have hsolves : Solves [List.replicate m 0] [0] := by
    refine ⟨rfl, fun i hi p hp => ?_⟩
    obtain rfl : i = 0 := Nat.lt_one_iff.mp hi
    rw [(hzero p hp).1, (hzero p hp).2]
    exact le_refl _
  obtain ⟨r, hr⟩ := h.returns.mpr ⟨hvalid, [0], hsolves⟩
  have hshort : (List.replicate m (0 : ℤ)).length < 2 ^ 32 := (returns_short hr).2 0 Nat.one_pos
  rw [List.length_replicate] at hshort
  exact absurd hshort (not_lt.mpr hm)

/-- The counter of the check does not come to the end of a list of `2 ^ 32` numbers. -/
theorem difference_constraints_not_returned :
    ([List.replicate (2 ^ 32) (0 : ℤ)].length - 1) * constraintCount [List.replicate (2 ^ 32) 0] < 2 ^ 32 ∧
      (∀ fuel, differenceConstraints fuel [List.replicate (2 ^ 32) 0] ≠ .error .overflow) ∧
      ¬ Solved [List.replicate (2 ^ 32) 0] := by
  have hmem : ∀ c ∈ [List.replicate (2 ^ 32) (0 : ℤ)], ∀ x ∈ c, -0 ≤ x ∧ x ≤ 0 := by
    intro c hc x hx
    rw [List.mem_singleton.mp hc] at hx
    rw [List.eq_of_mem_replicate hx]
    exact ⟨le_refl _, le_refl _⟩
  refine ⟨?_, safe_of_small (le_refl 0) (by decide) (small_of_mem (le_refl 0) hmem),
    long_list_not_solved (le_refl _) (by decide)⟩
  rw [List.length_singleton, Nat.sub_self, Nat.zero_mul]
  exact Nat.two_pow_pos 32

/-! ## The number of edges that may be looked at -/

/-- The state that the relaxation starts with, for a list that the checks accept. -/
def relaxationStart (fuel : ℕ) (l : List (List ℤ)) : Except Stop State := do
  let checked ← countedLoop .running 32 1 l.length (fun _ => true) (checkVariable l) fuel 0 ([], 0)
  .ok {startState l (budget l.length checked.2) with queue := checked.1}

theorem differenceConstraints_eq (fuel : ℕ) (l : List (List ℤ)) :
    differenceConstraints fuel l = relaxationStart fuel l >>= fun start =>
      relaxQueue l fuel start >>= fun s =>
        countedLoop .running 32 1 l.length (fun _ => true) (verifyVariable l s.ret fuel) fuel 0 () >>=
          fun _ => .ok ((List.range l.length).map s.ret) := by
  simp only [differenceConstraints, relaxationStart]
  cases countedLoop .running 32 1 l.length (fun _ => true) (checkVariable l) fuel 0 ([], 0) with
  | error e => rfl
  | ok t => rfl

/-- More variables than the counter of the checks can count are not accepted. -/
theorem relaxationStart_ok {fuel : ℕ} (h : relaxationStart fuel l = .ok s) :
    l.length < 2 ^ 32 ∧ Valid l ∧ Reflexive l ∧
      s = startState l (budget l.length (constraintCount l % 2 ^ 32)) := by
  unfold relaxationStart at h
  cases hloop : countedLoop .running 32 1 l.length (fun _ => true) (checkVariable l) fuel 0
    ([], 0) with
  | error e =>
      rw [hloop] at h
      cases h
  | ok t =>
      rw [hloop] at h
      cases h
      have hn : l.length < 2 ^ 32 := by
        by_contra hlarge
        exact countedLoop_ne_ok (not_lt.mp hlarge) (fun _ => rfl) fuel (Nat.two_pow_pos 32) _ _ hloop
      obtain ⟨hvalid, hreflexive, rfl⟩ := check_ok hn hloop
      refine ⟨hn, hvalid, hreflexive, ?_⟩
      rw [countUpTo_length]
      rfl

theorem relaxationStart_ends (hn : l.length < 2 ^ 32) (hvalid : Valid l) (hreflexive : Reflexive l)
    {fuel : ℕ} (hfuel : l.length < fuel) : ∃ start, relaxationStart fuel l = .ok start := by
  rw [relaxationStart, check_ends hn hvalid hreflexive hfuel]
  exact ⟨_, rfl⟩

/-- The edges that may be looked at are enough for `n - 1` rounds, if and only if their number has
32 bits. -/
theorem relaxation_budget_iff {fuel : ℕ} (haccepted : relaxationStart fuel l = .ok s) :
    (l.length - 1) * constraintCount l ≤ s.iter ↔ (l.length - 1) * constraintCount l < 2 ^ 32 := by
  obtain ⟨hn, -, -, rfl⟩ := relaxationStart_ok haccepted
  rw [startState, budget_constraintCount hn]
  constructor
  · intro hle
    exact hle.trans_lt (Nat.mod_lt _ (Nat.two_pow_pos 32))
  · intro hlt
    rw [Nat.mod_eq_of_lt hlt]

theorem relaxation_budget_two :
    ∃ s, relaxationStart 20 [[1, -5], [0, 7]] = .ok s ∧ (2 - 1) * 2 ≤ s.iter := by
  have haccepted : relaxationStart 20 [[1, -5], [0, 7]] = .ok (startState [[1, -5], [0, 7]] 2) := rfl
  exact ⟨_, haccepted, (relaxation_budget_iff haccepted).mpr (by decide)⟩

/-- Every variable has the constraint `x_0 - x_i <= 0`. -/
theorem relaxationStart_replicate {n : ℕ} (hn : n < 2 ^ 32) :
    ∃ fuel s, relaxationStart fuel (List.replicate n [0, 0]) = .ok s := by
  have hget : ∀ i < (List.replicate n [(0 : ℤ), 0]).length,
      (List.replicate n [(0 : ℤ), 0]).getD i [] = [0, 0] ∧ 0 < n := by
    intro i hi
    rw [List.getD_eq_getElem _ [] hi, List.getElem_replicate]
    rw [List.length_replicate] at hi
    exact ⟨rfl, Nat.zero_lt_of_lt hi⟩
  refine ⟨_, relaxationStart_ends ?_ ?_ ?_ (Nat.lt_succ_self _)⟩
  · rw [List.length_replicate]
    exact hn
  · intro i hi
    obtain ⟨heq, hpos⟩ := hget i hi
    rw [heq, List.length_replicate]
    simpa using hpos
  · intro i hi p hp _
    rw [(hget i hi).1] at hp
    simp only [pairs_cons_cons, pairs_nil, List.mem_singleton] at hp
    rw [hp]

theorem constraintCount_replicate (n : ℕ) : constraintCount (List.replicate n [0, 0]) = n := by
  rw [constraintCount, List.map_replicate, List.sum_replicate]
  exact Nat.mul_one n

/-- With `2 ^ 16 + 1` variables and as many constraints the number is cut off. -/
theorem relaxation_budget_short :
    ∃ fuel s, relaxationStart fuel (List.replicate (2 ^ 16 + 1) [0, 0]) = .ok s ∧
      ¬ ((List.replicate (2 ^ 16 + 1) [(0 : ℤ), 0]).length - 1) *
        constraintCount (List.replicate (2 ^ 16 + 1) [0, 0]) ≤ s.iter := by
  obtain ⟨fuel, s, hs⟩ := relaxationStart_replicate (n := 2 ^ 16 + 1) (by omega)
  refine ⟨fuel, s, hs, fun hle => ?_⟩
  have hlt := (relaxation_budget_iff hs).mp hle
  rw [constraintCount_replicate, List.length_replicate] at hlt
  omega

end Deai.ConstraintSolving
