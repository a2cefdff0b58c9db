import Deai.LinkedNodes

/-!
# Circular lists

A circular list has a head, which is a node like the others but not part of what the list holds.
The nodes stand between the head and the head. A node that is in no list is the head of an empty
one.
-/
namespace Deai.LinkedNodes

variable {N P : Type*} {ptr : N → P} {prev next prev' next' : N → P} {h x : N} {l a b : List N}

/-- The list behind a head, and the links of the head itself. -/
structure Ring (ptr : N → P) (prev next : N → P) (h : N) (l : List N) : Prop where
  linked : Linked ptr prev next (ptr h) l (ptr h)
  next_head : next h = first ptr l (ptr h)
  prev_head : prev h = last ptr (ptr h) l
  nodup : (h :: l).Nodup

/-- Only the links of the head and of the nodes in the list matter. -/
theorem Ring.congr (hr : Ring ptr prev next h l) (hprev : ∀ y ∈ h :: l, prev' y = prev y)
    (hnext : ∀ y ∈ h :: l, next' y = next y) : Ring ptr prev' next' h l where
  linked := hr.linked.congr (fun y hy => hprev y (List.mem_cons_of_mem _ hy))
    fun y hy => hnext y (List.mem_cons_of_mem _ hy)
  next_head := (hnext h List.mem_cons_self).trans hr.next_head
  prev_head := (hprev h List.mem_cons_self).trans hr.prev_head
  nodup := hr.nodup

/-- The head of an empty list points at itself. -/
theorem Ring.single (hprev : prev h = ptr h) (hnext : next h = ptr h) :
    Ring ptr prev next h [] :=
  ⟨trivial, hnext, hprev, List.nodup_singleton h⟩

/-- A list is empty if the head is its own next node. -/
theorem Ring.eq_nil_iff (hr : Ring ptr prev next h l) (hptr : Function.Injective ptr) :
    next h = ptr h ↔ l = [] := by
  rw [hr.next_head]
  cases l with
  | nil => simp
  | cons y l =>
      have hne : y ≠ h := fun heq => (List.nodup_cons.mp hr.nodup).1 (heq ▸ List.mem_cons_self)
      simpa using fun heq => hne (hptr heq)

/-- What comes before and after a place of a ring is the head or one of its nodes. -/
theorem last_mem_ring (ptr : N → P) (h : N) (a : List N) : ∃ y ∈ h :: a, last ptr (ptr h) a = ptr y := by
  cases a with
  | nil => exact ⟨h, List.mem_cons_self, rfl⟩
  | cons z a =>
      obtain ⟨y, hy, hlast⟩ := last_mem ptr (ptr h) z a
      exact ⟨y, List.mem_cons_of_mem _ hy, hlast⟩

theorem first_mem_ring (ptr : N → P) (h : N) (b : List N) : ∃ y ∈ h :: b, first ptr b (ptr h) = ptr y := by
  cases b with
  | nil => exact ⟨h, List.mem_cons_self, rfl⟩
  | cons z b => exact ⟨z, List.mem_cons_of_mem _ List.mem_cons_self, rfl⟩

/-- A node in a list is not its own next node. -/
theorem Ring.next_ne (hr : Ring ptr prev next h l) (hptr : Function.Injective ptr) (hx : x ∈ l) :
    next x ≠ ptr x := by
  obtain ⟨a, b, rfl⟩ := List.append_of_mem hx
  obtain ⟨hhead, hnodup⟩ := List.nodup_cons.mp hr.nodup
  obtain ⟨-, hxb, -⟩ := List.nodup_append.mp hnodup
  rw [hr.linked.middle.2]
  intro heq
  obtain ⟨y, hy, hfirst⟩ := first_mem_ring ptr h b
  obtain rfl := hptr (heq.symm.trans hfirst)
  rcases List.mem_cons.mp hy with rfl | hy
  · exact hhead hx
  · exact (List.nodup_cons.mp hxb).1 hy

section
variable (hptr : Function.Injective ptr)
include hptr

/-- The end of the first part is no node of the second, nor the other way round. -/
theorem ends_apart (hnodup : (h :: (a ++ b)).Nodup) :
    (∀ y ∈ b, ptr y ≠ last ptr (ptr h) a) ∧ (∀ y ∈ a, ptr y ≠ first ptr b (ptr h)) := by
  obtain ⟨hhead, hab⟩ := List.nodup_cons.mp hnodup
  obtain ⟨-, -, hdisj⟩ := List.nodup_append.mp hab
  refine ⟨fun y hy heq => ?_, fun y hy heq => ?_⟩
  · obtain ⟨z, hz, hlast⟩ := last_mem_ring ptr h a
    obtain rfl := hptr (heq.trans hlast)
    rcases List.mem_cons.mp hz with rfl | hz
    · exact hhead (List.mem_append_right _ hy)
    · exact hdisj y hz y hy rfl
  · obtain ⟨z, hz, hfirst⟩ := first_mem_ring ptr h b
    obtain rfl := hptr (heq.trans hfirst)
    rcases List.mem_cons.mp hz with rfl | hz
    · exact hhead (List.mem_append_left _ hy)
    · exact hdisj y hy y hz rfl

/-- The head is at an end of a part only if that is empty. -/
theorem head_eq_last (hhead : h ∉ a) : ptr h = last ptr (ptr h) a ↔ a = [] := by
  cases a with
  | nil => simp
  | cons z a =>
      obtain ⟨y, hy, hlast⟩ := last_mem ptr (ptr h) z a
      rw [hlast]
      refine iff_of_false (fun heq => hhead (hptr heq ▸ hy)) nofun

theorem head_eq_first (hhead : h ∉ b) : ptr h = first ptr b (ptr h) ↔ b = [] := by
  cases b with
  | nil => simp
  | cons z b => exact iff_of_false (fun heq => hhead (hptr heq ▸ List.mem_cons_self)) nofun

variable [DecidableEq P]

/-- A new node at a place of a ring. -/
theorem Ring.insert (hr : Ring ptr prev next h (a ++ b)) (hx : x ∉ h :: (a ++ b))
    (hself : prev' x = last ptr (ptr h) a ∧ next' x = first ptr b (ptr h))
    (hnext : ∀ y ∈ h :: (a ++ b), next' y = if ptr y = last ptr (ptr h) a then ptr x else next y)
    (hprev : ∀ y ∈ h :: (a ++ b), prev' y = if ptr y = first ptr b (ptr h) then ptr x else prev y) :
    Ring ptr prev' next' h (a ++ x :: b) := by
  obtain ⟨hlinked, hnext_head, hprev_head, hnodup⟩ := hr
  obtain ⟨hb, ha⟩ := ends_apart hptr hnodup
  obtain ⟨hhead, hab⟩ := List.nodup_cons.mp hnodup
  refine ⟨?_, ?_, ?_, ?_⟩
  · refine hlinked.insert hptr hab hself (fun y hy => ?_) (fun y hy => ?_) (fun y hy => ?_)
      fun y hy => ?_
    · rw [hprev y (List.mem_cons_of_mem _ (List.mem_append_left _ hy)), if_neg (ha y hy)]
    · exact hnext y (List.mem_cons_of_mem _ (List.mem_append_left _ hy))
    · exact hprev y (List.mem_cons_of_mem _ (List.mem_append_right _ hy))
    · rw [hnext y (List.mem_cons_of_mem _ (List.mem_append_right _ hy)), if_neg (hb y hy)]
  · rw [hnext h List.mem_cons_self, hnext_head, first_append, first_append]
    cases a with
    | nil => exact if_pos rfl
    | cons z a =>
        exact if_neg fun heq =>
          nomatch (head_eq_last hptr fun hmem => hhead (List.mem_append_left _ hmem)).mp heq
  · rw [hprev h List.mem_cons_self, hprev_head, last_append, last_append, last_cons]
    cases b with
    | nil => exact if_pos rfl
    | cons z b =>
        exact if_neg fun heq =>
          nomatch (head_eq_first hptr fun hmem => hhead (List.mem_append_right _ hmem)).mp heq
  · have hperm : (h :: (a ++ x :: b)).Perm (x :: h :: (a ++ b)) :=
      (List.perm_middle.cons h).trans (List.Perm.swap ..)
    exact hperm.nodup_iff.mpr (List.nodup_cons.mpr ⟨hx, hnodup⟩)

/-- A node leaves a ring. -/
theorem Ring.unlink (hr : Ring ptr prev next h (a ++ x :: b))
    (hnext : ∀ y ∈ h :: (a ++ b), next' y = if ptr y = prev x then next x else next y)
    (hprev : ∀ y ∈ h :: (a ++ b), prev' y = if ptr y = next x then prev x else prev y) :
    Ring ptr prev' next' h (a ++ b) := by
  obtain ⟨hlinked, hnext_head, hprev_head, hnodup⟩ := hr
  have hsub : (h :: (a ++ b)).Sublist (h :: (a ++ x :: b)) :=
    (List.Sublist.append_left (List.sublist_cons_self x b) a).cons_cons h
  have hnodup' := hnodup.sublist hsub
  obtain ⟨hb, ha⟩ := ends_apart hptr hnodup'
  obtain ⟨hhead, -⟩ := List.nodup_cons.mp hnodup'
  obtain ⟨hpx, hnx⟩ := hlinked.middle
  refine ⟨?_, ?_, ?_, hnodup'⟩
  · refine hlinked.unlink hptr (List.nodup_cons.mp hnodup).2 (fun y hy => ?_) (fun y hy => ?_)
      (fun y hy => ?_) fun y hy => ?_
    · rw [hprev y (List.mem_cons_of_mem _ (List.mem_append_left _ hy)), hnx, if_neg (ha y hy)]
    · exact hnext y (List.mem_cons_of_mem _ (List.mem_append_left _ hy))
    · exact hprev y (List.mem_cons_of_mem _ (List.mem_append_right _ hy))
    · rw [hnext y (List.mem_cons_of_mem _ (List.mem_append_right _ hy)), hpx, if_neg (hb y hy)]
  · rw [hnext h List.mem_cons_self, hpx, hnx, hnext_head, first_append, first_append]
    cases a with
    | nil => exact if_pos rfl
    | cons z a =>
        exact if_neg fun heq =>
          nomatch (head_eq_last hptr fun hmem => hhead (List.mem_append_left _ hmem)).mp heq
  · rw [hprev h List.mem_cons_self, hpx, hnx, hprev_head, last_append, last_append, last_cons]
    cases b with
    | nil => exact if_pos rfl
    | cons z b =>
        exact if_neg fun heq =>
          nomatch (head_eq_first hptr fun hmem => hhead (List.mem_append_right _ hmem)).mp heq

end

end Deai.LinkedNodes
