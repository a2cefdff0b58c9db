import Mathlib.Data.Nat.Log
import Mathlib.Tactic

/-!
# Integer types and doubles

The integer types of C by their width and sign, and the double that an integer is converted
to. A double has 53 significant bits, and the conversion rounds to the nearest of them, to the
even one if there are two. An integer that is large enough to be rounded becomes another
integer, so the double is given as an integer.
-/
namespace Deai.Numbers

structure IntType where
  bits : ℕ
  unsigned : Bool
  deriving DecidableEq

namespace IntType

def min (t : IntType) : ℤ := if t.unsigned then 0 else -2 ^ (t.bits - 1)

def max (t : IntType) : ℤ := if t.unsigned then 2 ^ t.bits - 1 else 2 ^ (t.bits - 1) - 1

/-- The value is representable. -/
def Fits (t : IntType) (x : ℤ) : Prop := t.min ≤ x ∧ x ≤ t.max

instance (t : IntType) (x : ℤ) : Decidable (t.Fits x) := inferInstanceAs (Decidable (_ ∧ _))

end IntType

/-- The place of the last of the 53 significant bits of a number. -/
def lastPlace (n : ℕ) : ℕ := n.log2 - 52

/-- The double next to a natural number. -/
def roundNat (n : ℕ) : ℕ :=
  let u := 2 ^ lastPlace n
  let up := u < 2 * (n % u) ∨ (u = 2 * (n % u) ∧ n / u % 2 = 1)
  (if up then n / u + 1 else n / u) * u

/-- `static_cast<double>` -/
def toDouble (x : ℤ) : ℤ := if x < 0 then -roundNat x.natAbs else roundNat x.natAbs

/-- The bit pattern of the double next to an integer. -/
def doubleBits (x : ℤ) : UInt64 :=
  let n := roundNat x.natAbs
  let fraction := if n.log2 ≤ 52 then n * 2 ^ (52 - n.log2) else n / 2 ^ (n.log2 - 52)
  let magnitude := if n = 0 then 0 else (n.log2 + 1023) * 2 ^ 52 + (fraction - 2 ^ 52)
  UInt64.ofNat (if x < 0 then 2 ^ 63 + magnitude else magnitude)

/-- An integer is a double if and only if it ends in the zeros that a double has no bits for. -/
theorem roundNat_eq_iff (n : ℕ) : roundNat n = n ↔ 2 ^ lastPlace n ∣ n := by
  unfold roundNat
  generalize 2 ^ lastPlace n = u
  constructor
  · intro h
    exact ⟨_, h.symm.trans (mul_comm _ _)⟩
  · intro h
    have hzero : n % u = 0 := Nat.mod_eq_zero_of_dvd h
    have hdown : ¬ (u < 2 * (n % u) ∨ (u = 2 * (n % u) ∧ n / u % 2 = 1)) := by
      rintro (hlt | ⟨heq, hodd⟩)
      · omega
      · rw [hzero, Nat.mul_zero] at heq
        subst heq
        simp at hodd
    dsimp only
    rw [if_neg hdown]
    exact Nat.div_mul_cancel h

theorem roundNat_of_lt {n : ℕ} (h : n < 2 ^ 53) : roundNat n = n := by
  rw [roundNat_eq_iff]
  have hlog : lastPlace n = 0 := by
    unfold lastPlace
    by_cases hn : n = 0
    · subst hn
      rfl
    · have hlt := (Nat.log2_lt hn).mpr h
      omega
  rw [hlog]
  exact one_dvd n

theorem toDouble_of_natAbs_lt {x : ℤ} (h : x.natAbs < 2 ^ 53) : toDouble x = x := by
  have hround := roundNat_of_lt h
  unfold toDouble
  split_ifs <;> omega

theorem toDouble_nonneg {x : ℤ} (h : 0 ≤ x) : 0 ≤ toDouble x := by
  unfold toDouble
  rw [if_neg (by omega)]
  exact Int.natCast_nonneg _

example : roundNat (2 ^ 53 + 1) = 2 ^ 53 ∧ roundNat (2 ^ 53 + 3) = 2 ^ 53 + 4 := by decide

end Deai.Numbers
