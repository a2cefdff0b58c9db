import Mathlib.Logic.Relation
import Mathlib.Data.List.TakeDrop
import Mathlib.Tactic

/-!
# The roots of a search

A search takes the nodes of a list one after another and skips those it has been to. From each node
it takes, it goes to everything that can be reached and where it has not been. The node becomes a
root, and stops being one when the search comes to it again. It does not come to it through nodes
where it has been before, so a root may well be reached from a later one.
-/
namespace Deai.SearchRoots
open Relation

variable {α : Type*} (E : α → α → Prop)

/-- `x` can be reached from a node of the list. -/
def ReachedBy (cs : List α) (x : α) : Prop := ∃ c ∈ cs, ReflTransGen E c x

variable [DecidableEq α]

/-- The nodes that stand before the first `x`. -/
def before (cs : List α) (x : α) : List α := cs.takeWhile fun c => c ≠ x

/-- The search takes `x`: no node before it leads there. -/
def Taken (cs : List α) (x : α) : Prop := x ∈ cs ∧ ¬ ReachedBy E (before cs x) x

/-- The search comes to `x` again: a node where it had not been up to `x` refers to `x`. -/
def Reentered (cs : List α) (x : α) : Prop :=
  ∃ y, ReachedBy E cs y ∧ ¬ ReachedBy E (before cs x ++ [x]) y ∧ E y x

/-- `x` is a root when the search ends. -/
def Root (cs : List α) (x : α) : Prop := Taken E cs x ∧ ¬ Reentered E cs x

variable {E} {cs ds : List α} {c i x y : α}

omit [DecidableEq α] in
theorem ReachedBy.of_mem (h : x ∈ cs) : ReachedBy E cs x := ⟨x, h, .refl⟩

omit [DecidableEq α] in
theorem ReachedBy.step (h : ReachedBy E cs x) (he : E x y) : ReachedBy E cs y := by
  obtain ⟨c, hc, hx⟩ := h
  exact ⟨c, hc, hx.tail he⟩

omit [DecidableEq α] in
theorem ReachedBy.trans (h : ReachedBy E cs x) (hy : ReflTransGen E x y) : ReachedBy E cs y := by
  obtain ⟨c, hc, hx⟩ := h
  exact ⟨c, hc, hx.trans hy⟩

omit [DecidableEq α] in
theorem ReachedBy.mono (hsub : ∀ c ∈ cs, c ∈ ds) (h : ReachedBy E cs x) : ReachedBy E ds x := by
  obtain ⟨c, hc, hx⟩ := h
  exact ⟨c, hsub c hc, hx⟩

omit [DecidableEq α] in
theorem reachedBy_append : ReachedBy E (cs ++ ds) x ↔ ReachedBy E cs x ∨ ReachedBy E ds x := by
  simp only [ReachedBy, List.mem_append, or_and_right, exists_or]

omit [DecidableEq α] in
theorem reachedBy_singleton : ReachedBy E [i] x ↔ ReflTransGen E i x := by
  simp [ReachedBy]

omit [DecidableEq α] in
/-- Nodes that have been reached do not lead anywhere else. -/
theorem reachedBy_append_of_reached (h : ∀ c ∈ ds, ReachedBy E cs c) :
    ReachedBy E (cs ++ ds) x ↔ ReachedBy E cs x := by
  rw [reachedBy_append]
  refine ⟨fun hx => hx.elim id ?_, .inl⟩
  rintro ⟨c, hc, hx⟩
  exact (h c hc).trans hx

theorem before_append_of_mem (h : x ∈ cs) : before (cs ++ ds) x = before cs x := by
  induction cs with
  | nil => cases h
  | cons c cs ih =>
      unfold before at ih ⊢
      by_cases hc : c = x
      · simp [hc]
      · have hx := (List.mem_cons.mp h).resolve_left fun hxc => hc hxc.symm
        rw [List.cons_append, List.takeWhile_cons_of_pos (by simpa using hc),
          List.takeWhile_cons_of_pos (by simpa using hc), ih hx]

theorem before_append_of_notMem (h : x ∉ cs) : before (cs ++ ds) x = cs ++ before ds x := by
  unfold before
  rw [List.takeWhile_append_of_pos]
  intro c hc
  simpa using fun hcx : c = x => h (hcx ▸ hc)

theorem mem_of_mem_before (hx : x ∈ cs) : ∀ c ∈ before cs x ++ [x], c ∈ cs := by
  intro c hc
  rcases List.mem_append.mp hc with hc | hc
  · exact (List.takeWhile_prefix _).subset hc
  · rwa [List.mem_singleton.mp hc]

/-- Nodes that the search skips change nothing. -/
theorem root_append_of_reached (h : ∀ c ∈ ds, ReachedBy E cs c) :
    Root E (cs ++ ds) x ↔ Root E cs x := by
  by_cases hx : x ∈ cs
  · simp only [Root, Taken, Reentered, before_append_of_mem hx, List.mem_append, hx, true_or,
      reachedBy_append_of_reached h]
  · refine ⟨fun hroot => ?_, fun hroot => absurd hroot.1.1 hx⟩
    -- a node that is skipped is not taken
    obtain ⟨⟨hmem, hnot⟩, -⟩ := hroot
    refine absurd ?_ hnot
    rw [before_append_of_notMem hx]
    exact (h x ((List.mem_append.mp hmem).resolve_left hx)).mono fun c => List.mem_append_left _

/-- The node that the search takes next becomes a root, and the roots that it comes to from there
stop being roots. -/
theorem root_append_singleton (hi : ¬ ReachedBy E cs i) :
    Root E (cs ++ [i]) x ↔
      x = i ∨ Root E cs x ∧ ¬ ∃ y, ReflTransGen E i y ∧ ¬ ReachedBy E cs y ∧ E y x := by
  have hics : i ∉ cs := fun hmem => hi (.of_mem hmem)
  by_cases hxi : x = i
  · subst hxi
    have hbefore : before (cs ++ [x]) x = cs := by
      rw [before_append_of_notMem hics]
      simp [before]
    refine iff_of_true ⟨⟨List.mem_append_right _ List.mem_cons_self, by rwa [hbefore]⟩, ?_⟩ (.inl rfl)
    rintro ⟨y, hy, hnot, -⟩
    rw [hbefore] at hnot
    exact hnot hy
  by_cases hx : x ∈ cs
  · have hentered : Reentered E (cs ++ [i]) x ↔ Reentered E cs x ∨
        ∃ y, ReflTransGen E i y ∧ ¬ ReachedBy E cs y ∧ E y x := by
      unfold Reentered
      rw [before_append_of_mem hx]
      constructor
      · rintro ⟨y, hy, hnot, he⟩
        rw [reachedBy_append, reachedBy_singleton] at hy
        by_cases hcs : ReachedBy E cs y
        · exact .inl ⟨y, hcs, hnot, he⟩
        · exact .inr ⟨y, hy.resolve_left hcs, hcs, he⟩
      · rintro (⟨y, hy, hnot, he⟩ | ⟨y, hy, hcs, he⟩)
        · exact ⟨y, reachedBy_append.mpr (.inl hy), hnot, he⟩
        · exact ⟨y, reachedBy_append.mpr (.inr (reachedBy_singleton.mpr hy)),
            fun hupto => hcs (hupto.mono (mem_of_mem_before hx)), he⟩
    simp only [Root, Taken, hentered, before_append_of_mem hx, List.mem_append, hx, true_or, hxi,
      false_or, not_or, and_assoc]
  · have hnot : x ∉ cs ++ [i] := by simp [hx, hxi]
    exact ⟨fun hroot => absurd hroot.1.1 hnot, fun hroot =>
      absurd (hroot.resolve_left hxi).1.1.1 hx⟩

end Deai.SearchRoots
