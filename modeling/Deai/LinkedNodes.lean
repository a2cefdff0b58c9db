import Mathlib.Data.List.Nodup
import Mathlib.Logic.Function.Basic
import Mathlib.Tactic.Common

/-!
# Doubly linked nodes

A run of nodes stands between two pointers, one to what comes before it and one to what comes
after it, and each node points at its two neighbours. A null terminated list stands between null
and null. A circular list stands between its head and its head.

The pointers are a type of their own, as a pointer need not point at a node.
-/
namespace Deai.LinkedNodes

variable {N P : Type*} (ptr : N → P)

/-- Where a run starts. An empty run starts at what comes after it. -/
def first : List N → P → P
  | [], after => after
  | x :: _, _ => ptr x

/-- Where a run ends. An empty run ends at what comes before it. -/
def last : P → List N → P
  | before, [] => before
  | _, x :: l => last (ptr x) l

/-- Every node of the run points at its neighbours. -/
def Linked (prev next : N → P) : P → List N → P → Prop
  | _, [], _ => True
  | before, x :: l, after =>
      prev x = before ∧ next x = first ptr l after ∧ Linked prev next (ptr x) l after

@[simp] theorem first_nil (after : P) : first ptr [] after = after := rfl
@[simp] theorem first_cons (x : N) (l : List N) (after : P) :
    first ptr (x :: l) after = ptr x := rfl
@[simp] theorem last_nil (before : P) : last ptr before [] = before := rfl
@[simp] theorem last_cons (before : P) (x : N) (l : List N) :
    last ptr before (x :: l) = last ptr (ptr x) l := rfl

theorem first_append (a b : List N) (after : P) :
    first ptr (a ++ b) after = first ptr a (first ptr b after) := by
  cases a <;> rfl

theorem last_append (before : P) (a b : List N) :
    last ptr before (a ++ b) = last ptr (last ptr before a) b := by
  induction a generalizing before with
  | nil => rfl
  | cons x a ih => exact ih (ptr x)

/-- A run that is not empty ends at one of its nodes. -/
theorem last_mem (before : P) (x : N) (l : List N) :
    ∃ y ∈ x :: l, last ptr before (x :: l) = ptr y := by
  induction l generalizing before x with
  | nil => exact ⟨x, List.mem_singleton_self x, rfl⟩
  | cons z l ih =>
      obtain ⟨y, hy, hlast⟩ := ih (ptr x) z
      exact ⟨y, List.mem_cons_of_mem _ hy, hlast⟩

/-- Between null and null, a run that starts at a node has it. -/
theorem first_eq_some {l : List N} {x : N} (h : first some l none = some x) : x ∈ l := by
  cases l with
  | nil => cases h
  | cons y l => exact Option.some.inj h ▸ List.mem_cons_self

theorem first_eq_none {l : List N} (h : first some l none = none) : l = [] := by
  cases l with
  | nil => rfl
  | cons y l => cases h

theorem last_eq_none {l : List N} (h : last some none l = none) : l = [] := by
  cases l with
  | nil => rfl
  | cons y l =>
      obtain ⟨z, -, hlast⟩ := last_mem some none y l
      rw [hlast] at h
      cases h

theorem last_eq_some {l : List N} {x : N} (h : last some none l = some x) : x ∈ l := by
  cases l with
  | nil => cases h
  | cons y l =>
      obtain ⟨z, hz, hlast⟩ := last_mem some none y l
      exact Option.some.inj (hlast.symm.trans h) ▸ hz

section
variable {ptr} {prev next prev' next' : N → P} {before after : P}

@[simp] theorem linked_nil : Linked ptr prev next before [] after := trivial

/-- Two runs one behind the other. -/
theorem linked_append {a b : List N} :
    Linked ptr prev next before (a ++ b) after ↔
      Linked ptr prev next before a (first ptr b after) ∧
        Linked ptr prev next (last ptr before a) b after := by
  induction a generalizing before with
  | nil => simp
  | cons x a ih =>
      simp only [List.cons_append, Linked, first_append, ih, last_cons, and_assoc]

/-- Only the links of its own nodes matter to a run. -/
theorem Linked.congr {l : List N} (h : Linked ptr prev next before l after)
    (hprev : ∀ x ∈ l, prev' x = prev x) (hnext : ∀ x ∈ l, next' x = next x) :
    Linked ptr prev' next' before l after := by
  induction l generalizing before with
  | nil => trivial
  | cons x l ih =>
      obtain ⟨hp, hn, hl⟩ := h
      refine ⟨?_, ?_, ?_⟩
      · rw [hprev x List.mem_cons_self, hp]
      · rw [hnext x List.mem_cons_self, hn]
      · exact ih hl (fun y hy => hprev y (List.mem_cons_of_mem _ hy))
          fun y hy => hnext y (List.mem_cons_of_mem _ hy)

/-- The pointers around a node of a run. -/
theorem Linked.middle {a b : List N} {x : N}
    (h : Linked ptr prev next before (a ++ x :: b) after) :
    prev x = last ptr before a ∧ next x = first ptr b after :=
  ⟨(linked_append.mp h).2.1, (linked_append.mp h).2.2.1⟩

variable [DecidableEq P]

/-- The node that a run starts with gets another neighbour before it. -/
theorem Linked.refirst {l : List N} (h : Linked ptr prev next before l after)
    (hptr : Function.Injective ptr) (hnodup : l.Nodup) (p : P)
    (hprev : ∀ x ∈ l, prev' x = if ptr x = first ptr l after then p else prev x)
    (hnext : ∀ x ∈ l, next' x = next x) : Linked ptr prev' next' p l after := by
  cases l with
  | nil => trivial
  | cons x l =>
      obtain ⟨-, hn, hl⟩ := h
      refine ⟨?_, ?_, ?_⟩
      · rw [hprev x List.mem_cons_self, first_cons, if_pos rfl]
      · rw [hnext x List.mem_cons_self, hn]
      · refine hl.congr (fun y hy => ?_) fun y hy => hnext y (List.mem_cons_of_mem _ hy)
        have hne : ptr y ≠ ptr x := fun heq =>
          (List.nodup_cons.mp hnodup).1 (hptr heq ▸ hy)
        rw [hprev y (List.mem_cons_of_mem _ hy), first_cons, if_neg hne]

/-- The node that a run ends with gets another neighbour after it. -/
theorem Linked.relast {l : List N} (h : Linked ptr prev next before l after)
    (hptr : Function.Injective ptr) (hnodup : l.Nodup) (p : P)
    (hprev : ∀ x ∈ l, prev' x = prev x)
    (hnext : ∀ x ∈ l, next' x = if ptr x = last ptr before l then p else next x) :
    Linked ptr prev' next' before l p := by
  induction l generalizing before with
  | nil => trivial
  | cons x l ih =>
      obtain ⟨hp, hn, hl⟩ := h
      obtain ⟨hx, hnodup⟩ := List.nodup_cons.mp hnodup
      have htail := ih hl hnodup (fun y hy => hprev y (List.mem_cons_of_mem _ hy))
        fun y hy => hnext y (List.mem_cons_of_mem _ hy)
      refine ⟨?_, ?_, htail⟩
      · rw [hprev x List.mem_cons_self, hp]
      · rw [hnext x List.mem_cons_self]
        cases l with
        | nil => exact if_pos rfl
        | cons z l =>
            -- The run ends further on, as no node is in it twice.
            obtain ⟨y, hy, hlast⟩ := last_mem ptr (ptr x) z l
            have hne : ptr x ≠ last ptr before (x :: z :: l) := fun heq =>
              hx (hptr (heq.trans hlast) ▸ hy)
            rw [if_neg hne, hn]
            rfl

/-- A new node between two parts of a run: the neighbours point at it, and it at them. -/
theorem Linked.insert {a b : List N} {x : N} (h : Linked ptr prev next before (a ++ b) after)
    (hptr : Function.Injective ptr) (hnodup : (a ++ b).Nodup)
    (hx : prev' x = last ptr before a ∧ next' x = first ptr b after)
    (hprevA : ∀ y ∈ a, prev' y = prev y)
    (hnextA : ∀ y ∈ a, next' y = if ptr y = last ptr before a then ptr x else next y)
    (hprevB : ∀ y ∈ b, prev' y = if ptr y = first ptr b after then ptr x else prev y)
    (hnextB : ∀ y ∈ b, next' y = next y) :
    Linked ptr prev' next' before (a ++ x :: b) after := by
  obtain ⟨hA, hB⟩ := linked_append.mp h
  obtain ⟨hnodupA, hnodupB, -⟩ := List.nodup_append.mp hnodup
  refine linked_append.mpr ⟨?_, hx.1, hx.2, ?_⟩
  · exact hA.relast hptr hnodupA (ptr x) hprevA hnextA
  · exact hB.refirst hptr hnodupB (ptr x) hprevB hnextB

/-- A node leaves a run: its neighbours point at each other. -/
theorem Linked.unlink {a b : List N} {x : N}
    (h : Linked ptr prev next before (a ++ x :: b) after)
    (hptr : Function.Injective ptr) (hnodup : (a ++ x :: b).Nodup)
    (hprevA : ∀ y ∈ a, prev' y = prev y)
    (hnextA : ∀ y ∈ a, next' y = if ptr y = prev x then next x else next y)
    (hprevB : ∀ y ∈ b, prev' y = if ptr y = next x then prev x else prev y)
    (hnextB : ∀ y ∈ b, next' y = next y) :
    Linked ptr prev' next' before (a ++ b) after := by
  obtain ⟨hp, hn⟩ := h.middle
  obtain ⟨hA, -, -, hB⟩ := linked_append.mp h
  obtain ⟨hnodupA, hnodupB, -⟩ := List.nodup_append.mp hnodup
  rw [hp] at hnextA hprevB
  rw [hn] at hnextA hprevB
  refine linked_append.mpr ⟨?_, ?_⟩
  · exact hA.relast hptr hnodupA _ hprevA hnextA
  · exact hB.refirst hptr (List.nodup_cons.mp hnodupB).2 _ hprevB hnextB

end

end Deai.LinkedNodes
