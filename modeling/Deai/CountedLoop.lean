import Mathlib.Algebra.Group.Nat.Defs
import Mathlib.Tactic.SplitIfs

/-!
# Loops with a counter of fixed width

A `for` loop whose counter wraps around. It is run with fuel; what is left without fuel is an error
of its own, so that a loop that does not end gives it for every amount of fuel.
-/
namespace Deai.CountedLoop

variable {σ ε : Type*}

/-- `for (; more && i < bound; i += stride) body`, with a counter of `width` bits. -/
def countedLoop (running : ε) (width stride bound : ℕ) (more : σ → Bool)
    (body : ℕ → σ → Except ε σ) : ℕ → ℕ → σ → Except ε σ
  | 0, _, _ => .error running
  | fuel + 1, i, s =>
      if more s = true ∧ i < bound then
        match body i s with
        | .error e => .error e
        | .ok s' => countedLoop running width stride bound more body fuel ((i + stride) % 2 ^ width) s'
      else .ok s

variable {running : ε} {width stride bound : ℕ} {more : σ → Bool} {body : ℕ → σ → Except ε σ}

theorem countedLoop_succ (fuel i : ℕ) (s : σ) :
    countedLoop running width stride bound more body (fuel + 1) i s =
      if more s = true ∧ i < bound then
        match body i s with
        | .error e => .error e
        | .ok s' => countedLoop running width stride bound more body fuel ((i + stride) % 2 ^ width) s'
      else .ok s := rfl

/-- A counter that cannot come to the bound never ends the loop. -/
theorem countedLoop_ne_ok (hbound : 2 ^ width ≤ bound) (hmore : ∀ s, more s = true) (fuel : ℕ)
    {i : ℕ} (hi : i < 2 ^ width) (s r : σ) :
    countedLoop running width stride bound more body fuel i s ≠ .ok r := by
  induction fuel generalizing i s with
  | zero => nofun
  | succ fuel ih =>
      rw [countedLoop_succ, if_pos ⟨hmore s, Nat.lt_of_lt_of_le hi hbound⟩]
      cases body i s with
      | error e => nofun
      | ok s' => exact ih (Nat.mod_lt _ (Nat.two_pow_pos width)) s'

/-- What every round keeps, whatever the counter is, holds where the loop ends. -/
theorem countedLoop_ok_of_keeps (I : σ → Prop)
    (hbody : ∀ i s s', more s = true → I s → body i s = .ok s' → I s') {fuel i : ℕ} {s r : σ}
    (hI : I s) (hloop : countedLoop running width stride bound more body fuel i s = .ok r) :
    I r := by
  induction fuel generalizing i s with
  | zero => cases hloop
  | succ fuel ih =>
      rw [countedLoop_succ] at hloop
      split_ifs at hloop with hcond
      · cases hstep : body i s with
        | error e =>
            rw [hstep] at hloop
            cases hloop
        | ok s' =>
            rw [hstep] at hloop
            exact ih (hbody i s s' hcond.1 hI hstep) hloop
      · cases hloop
        exact hI

theorem countedLoop_error_of_keeps (I : σ → Prop)
    (hbody : ∀ i s s', more s = true → I s → body i s = .ok s' → I s') {fuel i : ℕ} {s : σ} {e : ε}
    (hI : I s) (hloop : countedLoop running width stride bound more body fuel i s = .error e) :
    e = running ∨ ∃ j s', j < bound ∧ more s' = true ∧ I s' ∧ body j s' = .error e := by
  induction fuel generalizing i s with
  | zero =>
      cases hloop
      exact .inl rfl
  | succ fuel ih =>
      rw [countedLoop_succ] at hloop
      split_ifs at hloop with hcond
      cases hstep : body i s with
      | error e' =>
          rw [hstep] at hloop
          cases hloop
          exact .inr ⟨i, s, hcond.2, hcond.1, hI, hstep⟩
      | ok s' =>
          rw [hstep] at hloop
          exact ih (hbody i s s' hcond.1 hI hstep) hloop

/-- More fuel changes nothing once the loop has ended. -/
theorem countedLoop_mono {body' : ℕ → σ → Except ε σ}
    (hbody : ∀ i s r, body i s = r → r ≠ .error running → body' i s = r) {fuel fuel' i : ℕ} {s : σ}
    {r : Except ε σ} (hfuel : fuel ≤ fuel')
    (hloop : countedLoop running width stride bound more body fuel i s = r) (hr : r ≠ .error running) :
    countedLoop running width stride bound more body' fuel' i s = r := by
  induction fuel generalizing fuel' i s with
  | zero => exact absurd hloop.symm hr
  | succ fuel ih =>
      obtain ⟨fuel', rfl⟩ := Nat.exists_eq_add_of_lt (Nat.lt_of_lt_of_le (Nat.succ_pos fuel) hfuel)
      rw [Nat.zero_add] at hfuel ⊢
      rw [countedLoop_succ] at hloop ⊢
      split_ifs at hloop ⊢ with hcond
      · cases hstep : body i s with
        | error e =>
            rw [hstep] at hloop
            subst hloop
            rw [hbody i s _ hstep hr]
        | ok s' =>
            rw [hstep] at hloop
            rw [hbody i s _ hstep (nofun)]
            exact ih (Nat.le_of_succ_le_succ hfuel) hloop
      · exact hloop

/-- What every round keeps holds where the loop ends. -/
theorem countedLoop_ok (hbound : bound + stride ≤ 2 ^ width) (I : ℕ → σ → Prop)
    (hbody : ∀ i s s', i < bound → more s = true → I i s → body i s = .ok s' → I (i + stride) s')
    {fuel i : ℕ} {s r : σ} (hI : I i s)
    (hloop : countedLoop running width stride bound more body fuel i s = .ok r) :
    ∃ j, I j r ∧ (more r = false ∨ bound ≤ j) := by
  induction fuel generalizing i s with
  | zero => cases hloop
  | succ fuel ih =>
      rw [countedLoop_succ] at hloop
      split_ifs at hloop with hcond
      · cases hstep : body i s with
        | error e =>
            rw [hstep] at hloop
            cases hloop
        | ok s' =>
            rw [hstep] at hloop
            have hwrap : (i + stride) % 2 ^ width = i + stride := Nat.mod_eq_of_lt (by omega)
            simp only [hwrap] at hloop
            exact ih (hbody i s s' hcond.2 hcond.1 hI hstep) hloop
      · cases hloop
        refine ⟨i, hI, ?_⟩
        by_cases hmore : more r = true
        · exact .inr (Nat.le_of_not_lt fun hlt => hcond ⟨hmore, hlt⟩)
        · exact .inl (Bool.eq_false_iff.mpr hmore)

/-- With fuel for every round, an error of the loop is one of a round. -/
theorem countedLoop_error_of_fuel (hbound : bound + stride ≤ 2 ^ width) (hstride : 0 < stride)
    (I : ℕ → σ → Prop)
    (hbody : ∀ i s s', i < bound → more s = true → I i s → body i s = .ok s' → I (i + stride) s')
    {fuel i : ℕ} {s : σ} {e : ε} (hI : I i s) (hfuel : bound - i < fuel)
    (hloop : countedLoop running width stride bound more body fuel i s = .error e) :
    ∃ j s', j < bound ∧ more s' = true ∧ I j s' ∧ body j s' = .error e := by
  induction fuel generalizing i s with
  | zero => exact absurd hfuel (Nat.not_lt_zero _)
  | succ fuel ih =>
      rw [countedLoop_succ] at hloop
      split_ifs at hloop with hcond
      cases hstep : body i s with
      | error e' =>
          rw [hstep] at hloop
          cases hloop
          exact ⟨i, s, hcond.2, hcond.1, hI, hstep⟩
      | ok s' =>
          rw [hstep] at hloop
          have hwrap : (i + stride) % 2 ^ width = i + stride := Nat.mod_eq_of_lt (by omega)
          simp only [hwrap] at hloop
          exact ih (hbody i s s' hcond.2 hcond.1 hI hstep) (by omega) hloop

end Deai.CountedLoop
