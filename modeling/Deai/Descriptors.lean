import Mathlib.Data.List.Nodup
import Mathlib.Data.Option.Basic
import Mathlib.Logic.Function.Basic

/-!
# Descriptor tables

A process has a table of its open files. A new descriptor is the lowest number that is not in use.
The table is copied when the process forks, and the descriptors that are close-on-exec are gone
when it runs another program. A descriptor variable of `-1` is `none` here.
-/
namespace Deai.Descriptors

structure Entry (F : Type*) where
  file : F
  closeOnExec : Bool := false
  deriving DecidableEq, Repr

abbrev Table (F : Type*) := ℕ → Option (Entry F)

variable {F : Type*}

/-- The number that the next descriptor gets, when the process is allowed `limit` of them. -/
def lowest (limit : ℕ) (t : Table F) : Option ℕ := (List.range limit).find? fun fd => (t fd).isNone

/-- What `open` does with the file that it has opened. -/
def allocate (limit : ℕ) (e : Entry F) (t : Table F) : Option (ℕ × Table F) :=
  (lowest limit t).map fun fd => (fd, Function.update t fd (some e))

def close (fd : Option ℕ) (t : Table F) : Table F :=
  match fd with
  | none => t
  | some fd => Function.update t fd none

/-- `close` for one descriptor after the other. -/
def closeAll (fds : List (Option ℕ)) (t : Table F) : Table F := fds.foldl (fun t fd => close fd t) t

/-- `dup2`. The copy is not close-on-exec. Without the descriptor, or beyond the limit, it fails. -/
def dup2 (limit : ℕ) (old : Option ℕ) (new : ℕ) (t : Table F) : Option (Table F) :=
  (old.bind fun fd => (t fd).map fun e => (fd, e)).bind fun p =>
    if new < limit then
      some (if p.1 = new then t else Function.update t new (some {p.2 with closeOnExec := false}))
    else none

/-- What is left of the table in the program that is run next. -/
def exec (t : Table F) : Table F := fun fd => (t fd).filter fun e => !e.closeOnExec

/-- Some descriptor is for that file. -/
def Holds (t : Table F) (file : F) : Prop := ∃ fd e, t fd = some e ∧ e.file = file

variable {t : Table F} {limit fd k : ℕ} {e : Entry F} {file : F}

theorem lowest_spec (h : lowest limit t = some fd) : t fd = none ∧ fd < limit := by
  have hfree := List.find?_some (p := fun fd => (t fd).isNone) h
  exact ⟨Option.isNone_iff_eq_none.mp hfree, List.mem_range.mp (List.mem_of_find?_eq_some h)⟩

theorem allocate_spec {t' : Table F} (h : allocate limit e t = some (fd, t')) :
    t fd = none ∧ fd < limit ∧ t' = Function.update t fd (some e) := by
  obtain ⟨_, hlow, hpair⟩ := Option.map_eq_some_iff.mp h
  obtain ⟨rfl, rfl⟩ := Prod.mk.injEq .. ▸ hpair
  exact ⟨(lowest_spec hlow).1, (lowest_spec hlow).2, rfl⟩

/-- `allocate` fails only when all numbers are in use. -/
theorem allocate_eq_none : allocate limit e t = none ↔ ∀ fd < limit, t fd ≠ none := by
  rw [allocate, Option.map_eq_none_iff, lowest, List.find?_eq_none]
  simp only [List.mem_range, Option.isNone_iff_eq_none, ne_eq]

/-- How many descriptors the process can still have. -/
def free (limit : ℕ) (t : Table F) : ℕ := (List.range limit).countP fun fd => (t fd).isNone

theorem exists_allocate (t : Table F) (e : Entry F) (h : 0 < free limit t) :
    ∃ fd, fd < limit ∧ t fd = none ∧
      allocate limit e t = some (fd, Function.update t fd (some e)) := by
  cases hrun : allocate limit e t with
  | none =>
      obtain ⟨fd, hfd, hnone⟩ := List.countP_pos_iff.mp h
      exact absurd (Option.isNone_iff_eq_none.mp hnone)
        (allocate_eq_none.mp hrun fd (List.mem_range.mp hfd))
  | some p =>
      obtain ⟨fd, t'⟩ := p
      obtain ⟨hfd, hlt, rfl⟩ := allocate_spec hrun
      exact ⟨fd, hlt, hfd, rfl⟩

/-- One number less is free. -/
theorem free_update (e : Entry F) (hfd : t fd = none) (hlt : fd < limit) :
    free limit (Function.update t fd (some e)) + 1 = free limit t := by
  obtain ⟨before, after, hsplit⟩ := List.append_of_mem (List.mem_range.mpr hlt)
  have hnodup := hsplit ▸ List.nodup_range (n := limit)
  have hsame : ∀ l : List ℕ, fd ∉ l →
      (l.countP fun k => (Function.update t fd (some e) k).isNone) =
        l.countP fun k => (t k).isNone := by
    intro l hl
    refine List.countP_congr fun k hk => ?_
    rw [Function.update_of_ne (ne_of_mem_of_not_mem hk hl)]
  rw [List.nodup_middle, List.nodup_cons, List.mem_append, not_or] at hnodup
  rw [free, free, hsplit, List.countP_append, List.countP_append, List.countP_cons,
    List.countP_cons, hsame before hnodup.1.1, hsame after hnodup.1.2]
  simp only [Function.update_self, hfd, Option.isNone_some, Option.isNone_none, Bool.false_eq_true,
    if_false, if_true]
  omega

/-- An entry for another. -/
theorem free_replaced {e' : Entry F} (hfd : t fd = some e') (e : Entry F) :
    free limit (Function.update t fd (some e)) = free limit t := by
  refine List.countP_congr fun k _ => ?_
  by_cases hk : k = fd
  · subst hk
    simp [hfd]
  · rw [Function.update_of_ne hk]

@[simp] theorem close_none : close none t = t := rfl

theorem close_some : close (some k) t fd = if fd = k then none else t fd := by
  rw [close, Function.update_apply]

theorem close_apply {o : Option ℕ} : close o t fd = if o = some fd then none else t fd := by
  cases o with
  | none => rfl
  | some k =>
      rw [close_some]
      exact if_congr (by rw [Option.some.injEq, eq_comm]) rfl rfl

theorem closeAll_apply {fds : List (Option ℕ)} :
    closeAll fds t fd = if some fd ∈ fds then none else t fd := by
  induction fds generalizing t with
  | nil => rw [closeAll, List.foldl_nil, if_neg List.not_mem_nil]
  | cons o fds ih =>
      rw [closeAll, List.foldl_cons, ← closeAll, ih, close_apply]
      by_cases hin : some fd ∈ fds
      · rw [if_pos hin, if_pos (List.mem_cons_of_mem _ hin)]
      · rw [if_neg hin]
        exact if_congr (by rw [List.mem_cons, or_iff_left hin, eq_comm]) rfl rfl

theorem closeAll_append (fds fds' : List (Option ℕ)) (t : Table F) :
    closeAll (fds ++ fds') t = closeAll fds' (closeAll fds t) := List.foldl_append

/-- The order does not matter. -/
theorem closeAll_congr {fds fds' : List (Option ℕ)} (h : ∀ o, o ∈ fds ↔ o ∈ fds') (t : Table F) :
    closeAll fds t = closeAll fds' t := by
  funext fd
  rw [closeAll_apply, closeAll_apply]
  exact if_congr (h (some fd)) rfl rfl

theorem dup2_spec {old : Option ℕ} {new : ℕ} {t' : Table F} (h : dup2 limit old new t = some t') :
    ∃ fd e, old = some fd ∧ t fd = some e ∧ new < limit ∧
      t' = if fd = new then t else Function.update t new (some {e with closeOnExec := false}) := by
  obtain ⟨⟨fd, e⟩, hopen, hnew⟩ := Option.bind_eq_some_iff.mp h
  obtain ⟨fd', rfl, hentry⟩ := Option.bind_eq_some_iff.mp hopen
  obtain ⟨e', he, hpair⟩ := Option.map_eq_some_iff.mp hentry
  obtain ⟨rfl, rfl⟩ := Prod.mk.injEq .. ▸ hpair
  by_cases hlt : new < limit
  · rw [if_pos hlt] at hnew
    exact ⟨fd', e', rfl, he, hlt, (Option.some.inj hnew).symm⟩
  · rw [if_neg hlt] at hnew
    exact nomatch hnew

theorem dup2_open {new : ℕ} (he : t fd = some e) (hlt : new < limit) (hne : fd ≠ new) :
    dup2 limit (some fd) new t =
      some (Function.update t new (some {e with closeOnExec := false})) := by
  rw [dup2, Option.bind_some, he, Option.map_some, Option.bind_some, if_pos hlt, if_neg hne]

theorem exec_eq_some : exec t fd = some e ↔ t fd = some e ∧ e.closeOnExec = false := by
  rw [exec, Option.filter_eq_some_iff, Bool.not_eq_true']

/-! ## The files that a table is for -/

theorem Holds.of_close {o : Option ℕ} (h : Holds (close o t) file) : Holds t file := by
  obtain ⟨fd, e, he, hfile⟩ := h
  rw [close_apply] at he
  split_ifs at he
  exact ⟨fd, e, he, hfile⟩

theorem Holds.of_update (h : Holds (Function.update t k (some e)) file) :
    Holds t file ∨ e.file = file := by
  obtain ⟨fd, e', he, hfile⟩ := h
  rw [Function.update_apply] at he
  split_ifs at he with hk
  · obtain rfl := Option.some.inj he
    exact .inr hfile
  · exact .inl ⟨fd, e', he, hfile⟩

theorem Holds.of_dup2 {old : Option ℕ} {new : ℕ} {t' : Table F}
    (hdup : dup2 limit old new t = some t') (h : Holds t' file) : Holds t file := by
  obtain ⟨fd, e, _, he, _, rfl⟩ := dup2_spec hdup
  split_ifs at h
  · exact h
  · obtain hold | hfile := h.of_update
    · exact hold
    · exact ⟨fd, e, he, hfile⟩

theorem Holds.of_exec (h : Holds (exec t) file) : Holds t file := by
  obtain ⟨fd, e, he, hfile⟩ := h
  exact ⟨fd, e, (exec_eq_some.mp he).1, hfile⟩

end Deai.Descriptors
