import Mathlib.Data.List.Basic
import Mathlib.Tactic.SplitIfs

/-!
# Buffers that are written from the front

A block of memory with cells that were not written yet. A buffer that is only ever written at the
first such cell is a text followed by them.
-/
namespace Deai.FilledBuffer

variable {α ε : Type*}

/-- The cells of a block of memory; a fresh one has nothing in them. -/
abbrev Buffer (α : Type*) := List (Option α)

def fresh (size : ℕ) : Buffer α := List.replicate size none

def writeCell (overflow : ε) (b : Buffer α) (p : ℕ) (x : α) : Except ε (Buffer α) :=
  if p < b.length then .ok (b.set p (some x)) else .error overflow

def readCell (outside unwritten : ε) (b : Buffer α) (p : ℕ) : Except ε α :=
  match b[p]? with
  | none => .error outside
  | some none => .error unwritten
  | some (some x) => .ok x

/-- A buffer with a text at its front, and room for `n` more. -/
def filled (s : List α) (n : ℕ) : Buffer α := s.map some ++ List.replicate n none

variable {overflow outside unwritten : ε} {s s' : List α} {x : α} {n : ℕ}

theorem filled_nil (n : ℕ) : filled ([] : List α) n = fresh n := rfl

theorem writeCell_filled (overflow : ε) (s : List α) (x : α) (n : ℕ) :
    writeCell overflow (filled s (n + 1)) s.length x = .ok (filled (s ++ [x]) n) := by
  unfold writeCell filled
  rw [if_pos (by simp)]
  simp [List.replicate_succ, List.set_append_right]

theorem writeCell_full (overflow : ε) (s : List α) (x : α) :
    writeCell overflow (filled s 0) s.length x = .error overflow := by
  unfold writeCell filled
  rw [if_neg (by simp)]

/-- Behind the text there is nothing to read. -/
theorem readCell_end (outside unwritten : ε) (s : List α) (n : ℕ) :
    ∃ e, readCell outside unwritten (filled s n) s.length = .error e := by
  cases n with
  | zero => exact ⟨outside, by simp [readCell, filled]⟩
  | succ n => exact ⟨unwritten, by simp [readCell, filled]⟩

end Deai.FilledBuffer
