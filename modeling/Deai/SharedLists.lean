import Mathlib.Data.List.Basic
import Mathlib.Logic.Function.Basic

/-!
# Lists that share their nodes

The nodes of several lists lie in two arrays, one for the values and one for the next nodes. A new
node comes behind the others in the arrays and at the front of its list, so a list only leads to
nodes that are there, and the other lists do not notice.
-/
namespace Deai.SharedLists

variable {α : Type*} {next : ℕ → Option ℕ} {data : ℕ → α} {n : ℕ} {head : Option ℕ} {l : List α}

/-- The list that begins at a node, in arrays with `n` nodes. -/
inductive Chain (next : ℕ → Option ℕ) (data : ℕ → α) (n : ℕ) : Option ℕ → List α → Prop
  | nil : Chain next data n none []
  | cons (i : ℕ) (l : List α) : i < n → Chain next data n (next i) l →
      Chain next data n (some i) (data i :: l)

theorem Chain.extend (h : Chain next data n head l) (link : Option ℕ) (a : α) :
    Chain (Function.update next n link) (Function.update data n a) (n + 1) head l := by
  induction h with
  | nil => exact .nil
  | cons i l hi _ ih =>
      have hne : i ≠ n := Nat.ne_of_lt hi
      rw [← Function.update_of_ne hne a data]
      apply Chain.cons i l (Nat.lt_succ_of_lt hi)
      rw [Function.update_of_ne hne]
      exact ih

/-- A new node at the front. -/
theorem Chain.push (h : Chain next data n head l) (a : α) :
    Chain (Function.update next n head) (Function.update data n a) (n + 1) (some n) (a :: l) := by
  have htail : Chain (Function.update next n head) (Function.update data n a) (n + 1)
      (Function.update next n head n) l := by
    rw [Function.update_self]
    exact h.extend head a
  have hnode := Chain.cons n l (Nat.lt_succ_self n) htail
  rwa [Function.update_self] at hnode

end Deai.SharedLists
