import Mathlib.Data.List.Nodup
import Mathlib.Data.List.Perm.Basic

/-!
# Two tables with the same entries

Entries with two keys lie in two tables, one for each key. No two entries agree in a key, so an
entry that is deleted takes both of its keys with it.
-/
namespace Deai.TwinTables

variable {α κ μ : Type*} {f : α → κ} {g : α → μ} {xs ys : List α} {a : α}

structure Twin (f : α → κ) (g : α → μ) (xs ys : List α) : Prop where
  perm : xs.Perm ys
  fst : (xs.map f).Nodup
  snd : (ys.map g).Nodup

theorem Twin.nil : Twin f g [] [] := ⟨.refl [], List.nodup_nil, List.nodup_nil⟩

theorem Twin.symm (h : Twin f g xs ys) : Twin g f ys xs := ⟨h.perm.symm, h.snd, h.fst⟩

theorem nodup_map_append_singleton (h : (xs.map f).Nodup) (ha : f a ∉ xs.map f) :
    ((xs ++ [a]).map f).Nodup := by
  rw [List.map_append, List.nodup_append]
  refine ⟨h, List.nodup_singleton (f a), ?_⟩
  intro k hk k' hk' heq
  rw [List.map_singleton, List.mem_singleton] at hk'
  exact ha (hk' ▸ heq ▸ hk)

theorem Twin.insert (h : Twin f g xs ys) (hf : f a ∉ xs.map f) (hg : g a ∉ ys.map g) :
    Twin f g (xs ++ [a]) (ys ++ [a]) :=
  ⟨h.perm.append_right [a], nodup_map_append_singleton h.fst hf,
    nodup_map_append_singleton h.snd hg⟩

theorem Twin.of_insert (h : Twin f g (xs ++ [a]) (ys ++ [a])) :
    f a ∉ xs.map f ∧ g a ∉ ys.map g := by
  have hfst := h.fst
  have hsnd := h.snd
  rw [List.map_append, List.nodup_append] at hfst hsnd
  refine ⟨fun hmem => ?_, fun hmem => ?_⟩
  · exact hfst.2.2 _ hmem _ List.mem_cons_self rfl
  · exact hsnd.2.2 _ hmem _ List.mem_cons_self rfl

theorem Twin.of_append (h : Twin f g (xs ++ [a]) (ys ++ [a])) : Twin f g xs ys :=
  ⟨(List.perm_append_right_iff [a]).mp h.perm,
    h.fst.sublist ((List.sublist_append_left xs [a]).map f),
    h.snd.sublist ((List.sublist_append_left ys [a]).map g)⟩

section
variable [DecidableEq α]

theorem Twin.erase (h : Twin f g xs ys) (a : α) : Twin f g (xs.erase a) (ys.erase a) :=
  ⟨h.perm.erase a, h.fst.sublist (List.erase_sublist.map f),
    h.snd.sublist (List.erase_sublist.map g)⟩

/-- The keys that are left. -/
theorem Twin.mem_map_erase (h : Twin f g xs ys) (ha : a ∈ xs) {k : κ} :
    k ∈ (xs.erase a).map f ↔ k ∈ xs.map f ∧ k ≠ f a := by
  have hnodup : xs.Nodup := h.fst.of_map f
  constructor
  · intro hk
    obtain ⟨b, hb, rfl⟩ := List.mem_map.mp hk
    obtain ⟨hne, hmem⟩ := hnodup.mem_erase_iff.mp hb
    exact ⟨List.mem_map_of_mem hmem, fun heq => hne (List.inj_on_of_nodup_map h.fst hmem ha heq)⟩
  · rintro ⟨hk, hne⟩
    obtain ⟨b, hb, rfl⟩ := List.mem_map.mp hk
    exact List.mem_map_of_mem (hnodup.mem_erase_iff.mpr ⟨fun heq => hne (heq ▸ rfl), hb⟩)

end

end Deai.TwinTables
