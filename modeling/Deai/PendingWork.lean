import Mathlib.Data.List.Basic
import Mathlib.Tactic

/-!
# Loops and recursive visits with pending work

The recursive passes of a program over a shared structure are stated against an
invariant that carries the work still owed to the callers. A loop body or a
visit consumes one item of it. The loop rule then needs nothing else, and the
recursion rule adds a measure that every recursive descent makes smaller, so
that enough fuel gives a result and not only a partial correctness statement.
-/
namespace Deai.PendingWork

variable {α σ ε : Type*}

/-- A loop whose body consumes the first pending item consumes them all. -/
theorem foldlM_consumes {I : List α → σ → Prop} {f : σ → α → Except ε σ}
    (hf : ∀ x P s, I (x :: P) s → ∃ t, f s x = .ok t ∧ I P t)
    (xs P : List α) (s : σ) (hs : I (xs ++ P) s) :
    ∃ t, xs.foldlM f s = .ok t ∧ I P t := by
  induction xs generalizing s with
  | nil => exact ⟨s, rfl, hs⟩
  | cons x xs ih =>
      obtain ⟨t, ht, hI⟩ := hf x (xs ++ P) s hs
      obtain ⟨u, hu, hJ⟩ := ih t hI
      refine ⟨u, ?_, hJ⟩
      rw [List.foldlM_cons, ht]
      exact hu

/-- A recursive visit either consumes its item at once or replaces it by the
items of a loop of visits, and then makes the measure smaller. -/
theorem visit_consumes {f : ℕ → α → σ → Except ε σ}
    {I : List α → σ → Prop} {μ : σ → ℕ}
    (hstep : ∀ fuel x P s, I (x :: P) s →
      (∃ t, f (fuel + 1) x s = .ok t ∧ I P t ∧ μ t ≤ μ s) ∨
      ∃ ys t, f (fuel + 1) x s = ys.foldlM (fun s y => f fuel y s) t ∧
        I (ys ++ P) t ∧ μ t < μ s)
    (fuel : ℕ) (x : α) (P : List α) (s : σ) (hs : I (x :: P) s)
    (hfuel : μ s < fuel) :
    ∃ t, f fuel x s = .ok t ∧ I P t ∧ μ t ≤ μ s := by
  induction fuel generalizing x P s with
  | zero => omega
  | succ fuel ih =>
      rcases hstep fuel x P s hs with h | ⟨ys, t, hv, hI, ht⟩
      · exact h
      · -- the loop keeps the measure below the remaining fuel
        have hloop := foldlM_consumes
          (I := fun Q u => I Q u ∧ μ u ≤ μ t)
          (f := fun u y => f fuel y u)
          (fun y Q u hu => by
            obtain ⟨v, hv, hJ, hle⟩ := ih y Q u hu.1 (by omega)
            exact ⟨v, hv, hJ, hle.trans hu.2⟩)
          ys P t ⟨hI, le_rfl⟩
        obtain ⟨u, hu, hJ, hle⟩ := hloop
        exact ⟨u, hv.trans hu, hJ, by omega⟩

end Deai.PendingWork
