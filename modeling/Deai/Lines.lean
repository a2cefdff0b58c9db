import Mathlib.Data.List.Basic
import Mathlib.Tactic.ByContra

/-!
# Lines of a text

A text is a list of lines, each with a separator behind it, and a rest that has no separator in it.
A text that grows at its end only ever changes the rest, or makes a line of it.
-/
namespace Deai.Lines

variable {α : Type*}

structure Split (sep : α) (s : List α) (ls : List (List α)) (r : List α) : Prop where
  eq : s = ls.flatMap (· ++ [sep]) ++ r
  lines : ∀ l ∈ ls, sep ∉ l
  rest : sep ∉ r

variable {sep : α} {s l r : List α} {ls : List (List α)}

theorem Split.nil : Split sep [] [] [] := ⟨rfl, nofun, nofun⟩

/-- The rest goes on. -/
theorem Split.extend (h : Split sep s ls r) (hl : sep ∉ l) : Split sep (s ++ l) ls (r ++ l) := by
  refine ⟨?_, h.lines, fun hmem => ?_⟩
  · rw [h.eq, List.append_assoc]
  · rcases List.mem_append.mp hmem with hr | hl'
    · exact h.rest hr
    · exact hl hl'

/-- The rest becomes a line. -/
theorem Split.close (h : Split sep s ls r) : Split sep (s ++ [sep]) (ls ++ [r]) [] := by
  refine ⟨?_, fun l hl => ?_, nofun⟩
  · rw [h.eq, List.flatMap_append, List.append_nil, List.append_assoc]
    simp
  · rcases List.mem_append.mp hl with hl | hl
    · exact h.lines l hl
    · rw [List.mem_singleton.mp hl]
      exact h.rest

/-- The lines and the rest are what `splitOn` returns. -/
theorem Split.splitOn [BEq α] [LawfulBEq α] (h : Split sep s ls r) : s.splitOn sep = ls ++ [r] := by
  obtain ⟨rfl, hlines, hrest⟩ := h
  induction ls with
  | nil => exact List.splitOn_eq_singleton hrest
  | cons l ls ih =>
      have hl : sep ∉ l := hlines l List.mem_cons_self
      have hls := ih fun l' hl' => hlines l' (List.mem_cons_of_mem _ hl')
      have htext : (l :: ls).flatMap (· ++ [sep]) ++ r = l ++ sep :: (ls.flatMap (· ++ [sep]) ++ r) := by
        simp
      rw [htext, List.splitOn_append_cons_self, List.splitOn_eq_singleton hl, hls]
      rfl

/-- There is no rest if the text is empty or ends with a separator. -/
theorem Split.rest_eq_nil_iff (h : Split sep s ls r) : r = [] ↔ s = [] ∨ s.getLast? = some sep := by
  rw [h.eq]
  constructor
  · rintro rfl
    rcases List.eq_nil_or_concat ls with rfl | ⟨ls', l, rfl⟩
    · exact .inl rfl
    · right
      simp
  · rintro (hnil | hlast)
    · exact (List.append_eq_nil_iff.mp hnil).2
    · by_contra hr
      rw [List.getLast?_append_of_ne_nil _ hr] at hlast
      exact h.rest (List.mem_of_getLast? hlast)

end Deai.Lines
