import Mathlib.Logic.Basic

/-!
# Computations that may fail

What a sequence of two computations returns.
-/
namespace Deai.Fallible

universe u v

variable {ε : Type u} {α β : Type v} {x : Except ε α} {f : α → Except ε β} {b : β}

theorem ok_bind (a : α) (f : α → Except ε β) : (Except.ok a >>= f) = f a := rfl

theorem error_bind (e : ε) (f : α → Except ε β) : (Except.error e >>= f) = .error e := rfl

theorem bind_eq_ok (h : x >>= f = .ok b) : ∃ a, x = .ok a ∧ f a = .ok b := by
  cases x with
  | error e => cases h
  | ok a => exact ⟨a, rfl, h⟩

theorem bind_eq_ok_iff : x >>= f = .ok b ↔ ∃ a, x = .ok a ∧ f a = .ok b := by
  constructor
  · exact bind_eq_ok
  · rintro ⟨a, rfl, h⟩
    exact h

/-- It returns a value as in `Q`, or fails as in `R`. -/
def EndsIn (Q : α → Prop) (R : ε → Prop) : Except ε α → Prop
  | .ok a => Q a
  | .error e => R e

theorem EndsIn.bind {Q : α → Prop} {Q' : β → Prop} {R : ε → Prop} (hx : EndsIn Q R x)
    (hf : ∀ a, Q a → EndsIn Q' R (f a)) : EndsIn Q' R (x >>= f) := by
  cases x with
  | error e => exact hx
  | ok a => exact hf a hx

theorem EndsIn.of_ok {Q : α → Prop} {R : ε → Prop} {a : α} (hx : EndsIn Q R x) (h : x = .ok a) :
    Q a := by
  subst h
  exact hx

end Deai.Fallible
