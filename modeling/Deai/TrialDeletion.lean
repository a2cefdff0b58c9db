import Mathlib.Algebra.BigOperators.Group.Finset.Basic
import Mathlib.Algebra.Order.BigOperators.Group.Finset
import Mathlib.Data.Finset.Basic
import Mathlib.Logic.Relation
import Mathlib.Tactic

/-!
# Trial deletion on a counted reference graph

A finite set of nodes, the number of references from each node to each other
one, and for each node the number of references held from outside. The count of
a node is the sum of both. Trial deletion takes a set that is closed under
references and compares each count with the references from inside the set: the
nodes where they differ have a holder outside, and everything they reach is
kept. What is left over is held only by itself.
-/
namespace Deai.TrialDeletion

open Relation

variable {α : Type*}

/-- One reference leads from `y` to `x`. -/
def Edge (w : α → α → ℕ) (y x : α) : Prop := 0 < w y x

/-- `x` is reachable, in zero or more references, from a node of `A`. -/
def ReachableFrom (w : α → α → ℕ) (A : Set α) (x : α) : Prop :=
  ∃ r ∈ A, ReflTransGen (Edge w) r x

theorem ReachableFrom.of_mem {w : α → α → ℕ} {A : Set α} {x : α} (h : x ∈ A) :
    ReachableFrom w A x := ⟨x, h, .refl⟩

theorem ReachableFrom.step {w : α → α → ℕ} {A : Set α} {x z : α}
    (h : ReachableFrom w A x) (hz : Edge w x z) : ReachableFrom w A z := by
  obtain ⟨r, hr, hx⟩ := h
  exact ⟨r, hr, hx.tail hz⟩

theorem ReachableFrom.trans {w : α → α → ℕ} {A : Set α} {x z : α}
    (h : ReachableFrom w A x) (hz : ReflTransGen (Edge w) x z) : ReachableFrom w A z := by
  obtain ⟨r, hr, hx⟩ := h
  exact ⟨r, hr, hx.trans hz⟩

/-- A set closed under references holds everything reachable from its nodes. -/
theorem closed_of_reachable {w : α → α → ℕ} {p : α → Prop}
    (hp : ∀ x z, p x → Edge w x z → p z) {x z : α} (hx : p x)
    (hz : ReflTransGen (Edge w) x z) : p z := by
  induction hz with
  | refl => exact hx
  | tail _ he ih => exact hp _ _ ih he

/-- Reachability carries over to another graph and other roots as soon as the
roots are reachable there and every reference keeps its target reachable. -/
theorem ReachableFrom.transfer {w w' : α → α → ℕ} {A B : Set α} {x : α}
    (h : ReachableFrom w A x) (hA : ∀ a ∈ A, ReachableFrom w' B a)
    (hw : ∀ y z, ReachableFrom w' B y → Edge w y z → ReachableFrom w' B z) :
    ReachableFrom w' B x := by
  obtain ⟨r, hr, hx⟩ := h
  induction hx with
  | refl => exact hA r hr
  | tail _ he ih => exact hw _ _ ih he

section Counts

variable (V : Finset α) (w : α → α → ℕ) (out : α → ℕ)

/-- References to `x` from the nodes of `M`. -/
def inner (M : Finset α) (x : α) : ℕ := ∑ y ∈ M, w y x

/-- The reference count of `x`: references from all nodes and from outside. -/
def total (x : α) : ℕ := inner w V x + out x

/-- The trial count of a node of `M` falls short of its reference count. -/
def Short (M : Finset α) (u : α) : Prop := u ∈ M ∧ inner w M u ≠ total V w out u

/-- `x` must be kept: a node with a holder outside `M` reaches it. -/
def Kept (M : Finset α) (x : α) : Prop :=
  ∃ u, Short V w out M u ∧ ReflTransGen (Edge w) u x

variable {V w out} {M : Finset α}

theorem inner_mono {A B : Finset α} (h : A ⊆ B) (x : α) : inner w A x ≤ inner w B x :=
  Finset.sum_le_sum_of_subset h

theorem inner_le_total (hM : M ⊆ V) (x : α) : inner w M x ≤ total V w out x :=
  (inner_mono hM x).trans (Nat.le_add_right _ _)

theorem inner_pos_iff {x : α} : 0 < inner w M x ↔ ∃ y ∈ M, Edge w y x := by
  unfold inner Edge
  rw [Finset.sum_pos_iff]

variable [DecidableEq α]

/-- The count of a node falls short exactly when somebody outside holds it. -/
theorem short_iff (hM : M ⊆ V) {u : α} :
    Short V w out M u ↔ u ∈ M ∧ (0 < out u ∨ ∃ y ∈ V \ M, Edge w y u) := by
  have hsplit : inner w (V \ M) u + inner w M u = inner w V u :=
    Finset.sum_sdiff hM
  unfold Short total
  refine and_congr_right fun _ => ?_
  rw [← inner_pos_iff]
  omega

/-- Garbage: a node of the trial set that nobody outside reaches. It has no
outside holder and every node that refers to it is garbage itself. -/
theorem garbage_held_by_garbage (hM : M ⊆ V) {x : α} (hx : x ∈ M)
    (hg : ¬ Kept V w out M x) :
    out x = 0 ∧ ∀ y ∈ V, Edge w y x → y ∈ M ∧ ¬ Kept V w out M y := by
  have hs : ¬ Short V w out M x := fun h => hg ⟨x, h, .refl⟩
  rw [short_iff hM] at hs
  push Not at hs
  obtain ⟨he, ho⟩ := hs hx
  refine ⟨Nat.le_zero.mp he, fun y hy hyx => ?_⟩
  have hyM : y ∈ M := by
    by_contra hn
    exact ho y (Finset.mem_sdiff.mpr ⟨hy, hn⟩) hyx
  refine ⟨hyM, ?_⟩
  rintro ⟨u, hu, huy⟩
  exact hg ⟨u, hu, huy.tail hyx⟩

/-- A counted node that is not garbage has a holder that is not garbage. -/
theorem held_of_not_garbage (hM : M ⊆ V) (hclosed : ∀ y ∈ M, ∀ z, Edge w y z → z ∈ M)
    {x : α} (hpos : 0 < total V w out x) (hx : x ∉ M ∨ Kept V w out M x) :
    0 < out x ∨ ∃ y ∈ V, Edge w y x ∧ (y ∉ M ∨ Kept V w out M y) := by
  by_cases hxM : x ∈ M
  · obtain ⟨u, hu, hux⟩ := hx.resolve_left (fun h => h hxM)
    rcases ReflTransGen.cases_tail hux with heq | ⟨y, huy, hyx⟩
    · subst heq
      rcases ((short_iff hM).mp hu).2 with he | ⟨y, hy, hyx⟩
      · exact Or.inl he
      · rw [Finset.mem_sdiff] at hy
        exact Or.inr ⟨y, hy.1, hyx, Or.inl hy.2⟩
    · have hyM : y ∈ M :=
        closed_of_reachable (p := (· ∈ M)) (fun a b ha hb => hclosed a ha b hb) hu.1 huy
      exact Or.inr ⟨y, hM hyM, hyx, Or.inr ⟨u, hu, huy⟩⟩
  · unfold total at hpos
    rcases Nat.eq_zero_or_pos (out x) with he | he
    · rw [he, Nat.add_zero, inner_pos_iff] at hpos
      obtain ⟨y, hy, hyx⟩ := hpos
      exact Or.inr ⟨y, hy, hyx, Or.inl fun hyM => hxM (hclosed y hyM x hyx)⟩
    · exact Or.inl he

/-- A node that neither an outside holder nor a node outside the trial set
reaches is garbage. -/
theorem garbage_of_unreachable (hM : M ⊆ V) {x : α}
    (hr : ¬ ReachableFrom w {r | r ∈ V ∧ (0 < out r ∨ r ∉ M)} x) :
    ¬ Kept V w out M x := by
  rintro ⟨u, hu, hux⟩
  apply hr
  obtain ⟨huM, he | ⟨y, hy, hyu⟩⟩ := (short_iff hM).mp hu
  · exact ⟨u, ⟨hM huM, Or.inl he⟩, hux⟩
  · rw [Finset.mem_sdiff] at hy
    exact ⟨y, ⟨hy.1, Or.inr hy.2⟩, .head hyu hux⟩

end Counts

end Deai.TrialDeletion
