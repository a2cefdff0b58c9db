import Mathlib.Data.List.Nodup
import Mathlib.Data.List.Perm.Subperm
import Mathlib.Data.List.Range
import Mathlib.Tactic

/-!
# Sweeping a table that changes meanwhile

A table keeps its entries in the order of their insertion. Removing an entry frees its memory and
releases its value, and while a value is released other code may edit the table. A sweep walks
along the entries and removes those it is meant to remove. It reads the next entry before it
removes one, so it depends on that entry still being there afterwards.

The memory of an entry and the value in it are numbers that are never used twice. What happens to
every value that was ever stored is part of the table.
-/
namespace Deai.OrderedTable

structure Entry (N : Type) where
  id : ℕ
  name : N
  token : ℕ
  deriving DecidableEq

/-- Every value that was ever stored is either in the table or was released, once. -/
structure Table (N : Type) where
  entries : List (Entry N)
  nextId : ℕ
  nextToken : ℕ
  released : List ℕ
  unique : (entries.map (·.id)).Nodup
  fresh : ∀ e ∈ entries, e.id < nextId
  account : (entries.map (·.token) ++ released).Perm (List.range nextToken)

theorem eq_of_id {N : Type} {es : List (Entry N)} (hunique : (es.map (·.id)).Nodup) {x y : Entry N}
    (hx : x ∈ es) (hy : y ∈ es) (hid : x.id = y.id) : x = y :=
  List.inj_on_of_nodup_map hunique hx hy hid

/-- The entry with the given memory gets another value. -/
def Entry.assign {N : Type} (id token : ℕ) (x : Entry N) : Entry N :=
  if x.id = id then {x with token := token} else x

@[simp] theorem assign_id {N : Type} (id token : ℕ) (x : Entry N) : (x.assign id token).id = x.id := by
  unfold Entry.assign
  split_ifs <;> rfl

@[simp] theorem assign_name {N : Type} (id token : ℕ) (x : Entry N) :
    (x.assign id token).name = x.name := by
  unfold Entry.assign
  split_ifs <;> rfl

section
variable {N : Type} [DecidableEq N]

/-- The tokens of the entries after one of them has got another. -/
theorem tokens_renew {es : List (Entry N)} (hunique : (es.map (·.id)).Nodup) {e : Entry N}
    (he : e ∈ es) (n : ℕ) :
    ((es.map (Entry.assign e.id n)).map (·.token)).Perm (n :: (es.erase e).map (·.token)) := by
  have hperm := ((List.perm_cons_erase he).map (Entry.assign e.id n)).map (·.token)
  have hself : (e.assign e.id n).token = n := by
    unfold Entry.assign
    rw [if_pos rfl]
  rw [List.map_cons, List.map_cons, hself] at hperm
  refine hperm.trans (List.Perm.cons _ (List.Perm.of_eq ?_))
  rw [List.map_map]
  refine List.map_congr_left fun x hx => ?_
  have hne : x.id ≠ e.id := by
    intro hid
    have hnodup : es.Nodup := List.Nodup.of_map _ hunique
    have hxe : x = e := eq_of_id hunique (List.mem_of_mem_erase hx) he hid
    exact (List.Nodup.mem_erase_iff hnodup).mp hx |>.1 hxe
  simp only [Function.comp_apply, Entry.assign, if_neg hne]

namespace Table

/-- Nothing was ever stored. -/
def empty : Table N := ⟨[], 0, 0, [], List.nodup_nil, nofun, List.Perm.refl _⟩

def ids (t : Table N) : List ℕ := t.entries.map (·.id)

/-- The entry is unlinked and freed, and its value is released. -/
def unlink (t : Table N) (e : Entry N) (he : e ∈ t.entries) : Table N where
  entries := t.entries.erase e
  nextId := t.nextId
  nextToken := t.nextToken
  released := e.token :: t.released
  unique := t.unique.sublist (List.erase_sublist.map _)
  fresh x hx := t.fresh x (List.mem_of_mem_erase hx)
  account := by
    have hperm := (List.perm_cons_erase he).map (·.token)
    refine List.Perm.trans ?_ t.account
    refine List.perm_middle.trans ?_
    exact (hperm.append_right t.released).symm

/-- A new entry at the end. -/
def push (t : Table N) (name : N) : Table N where
  entries := t.entries ++ [⟨t.nextId, name, t.nextToken⟩]
  nextId := t.nextId + 1
  nextToken := t.nextToken + 1
  released := t.released
  unique := by
    rw [List.map_append]
    refine t.unique.append (List.nodup_singleton _) (List.disjoint_singleton.mpr fun hmem => ?_)
    obtain ⟨e, he, hid⟩ := List.mem_map.mp hmem
    exact absurd hid (t.fresh e he).ne
  fresh x hx := by
    rcases List.mem_append.mp hx with hx | hx
    · exact (t.fresh x hx).trans (Nat.lt_succ_self _)
    · rw [List.mem_singleton.mp hx]
      exact Nat.lt_succ_self _
  account := by
    rw [List.map_append, List.range_succ, List.append_assoc]
    refine (List.Perm.append_left _ List.perm_append_comm).trans ?_
    rw [← List.append_assoc]
    exact t.account.append_right _

/-- The entry gets another value, and the one it had is released. -/
def renew (t : Table N) (e : Entry N) (he : e ∈ t.entries) : Table N where
  entries := t.entries.map (Entry.assign e.id t.nextToken)
  nextId := t.nextId
  nextToken := t.nextToken + 1
  released := e.token :: t.released
  unique := by
    rw [List.map_map]
    simp only [Function.comp_def, assign_id]
    exact t.unique
  fresh x hx := by
    obtain ⟨y, hy, rfl⟩ := List.mem_map.mp hx
    rw [assign_id]
    exact t.fresh y hy
  account := by
    have hold := (List.perm_cons_erase he).map (·.token)
    have hnew := tokens_renew t.unique he t.nextToken
    refine (hnew.append_right _).trans ?_
    refine ((List.perm_middle.trans (hold.append_right t.released).symm).cons _).trans ?_
    rw [List.range_succ]
    exact (t.account.cons _).trans (List.perm_append_singleton _ _).symm

theorem unlink_entries (t : Table N) (e : Entry N) (he : e ∈ t.entries) :
    (t.unlink e he).entries = t.entries.erase e := rfl

omit [DecidableEq N] in
theorem push_entries (t : Table N) (name : N) :
    (t.push name).entries = t.entries ++ [⟨t.nextId, name, t.nextToken⟩] := rfl

theorem renew_entries (t : Table N) (e : Entry N) (he : e ∈ t.entries) :
    (t.renew e he).entries = t.entries.map (Entry.assign e.id t.nextToken) := rfl

/-- The first entry. -/
def head (t : Table N) : Option ℕ := t.entries.head?.map (·.id)

/-- The entry behind the one with the given memory. -/
def nextOf (t : Table N) (id : ℕ) : Option ℕ :=
  (t.entries.dropWhile (·.id ≠ id)).tail.head?.map (·.id)

end Table

/-! ## Edits -/

/-- What other code does to a table. Replacing the value of a name that is not there adds it. -/
inductive Edit (N : Type) where
  | add (name : N)
  | delete (name : N)
  | replace (name : N)

def Edit.apply (t : Table N) : Edit N → Table N
  | .add name => if name ∈ t.entries.map (·.name) then t else t.push name
  | .delete name =>
      match h : t.entries.find? (·.name = name) with
      | none => t
      | some e => t.unlink e (List.mem_of_find?_eq_some h)
  | .replace name =>
      match h : t.entries.find? (·.name = name) with
      | none => t.push name
      | some e => t.renew e (List.mem_of_find?_eq_some h)

def applyAll (edits : List (Edit N)) (t : Table N) : Table N := edits.foldl Edit.apply t

/-- The three things that can become of a table. -/
theorem apply_cases (t : Table N) (edit : Edit N) :
    edit.apply t = t ∨ (∃ name, edit.apply t = t.push name) ∨
      (∃ e he, edit.apply t = t.unlink e he) ∨ ∃ e he, edit.apply t = t.renew e he := by
  cases edit with
  | add name =>
      simp only [Edit.apply]
      split_ifs
      · exact .inl rfl
      · exact .inr (.inl ⟨name, rfl⟩)
  | delete name =>
      simp only [Edit.apply]
      split
      · exact .inl rfl
      · next e h => exact .inr (.inr (.inl ⟨e, List.mem_of_find?_eq_some h, rfl⟩))
  | replace name =>
      simp only [Edit.apply]
      split
      · exact .inr (.inl ⟨name, rfl⟩)
      · next e h => exact .inr (.inr (.inr ⟨e, List.mem_of_find?_eq_some h, rfl⟩))

theorem nextId_le_apply (t : Table N) (edit : Edit N) : t.nextId ≤ (edit.apply t).nextId := by
  obtain h | ⟨_, h⟩ | ⟨_, _, h⟩ | ⟨_, _, h⟩ := apply_cases t edit
  · rw [h]
  · rw [h]
    exact Nat.le_succ _
  · rw [h]
    exact le_rfl
  · rw [h]
    exact le_rfl

/-- Memory that is not in use does not come into use again. -/
theorem mem_ids_of_apply {t : Table N} {edit : Edit N} {n : ℕ} (hn : n < t.nextId)
    (hmem : n ∈ (edit.apply t).ids) : n ∈ t.ids := by
  unfold Table.ids at *
  obtain h | ⟨_, h⟩ | ⟨_, _, h⟩ | ⟨_, _, h⟩ := apply_cases t edit
  · rwa [h] at hmem
  · rw [h, Table.push_entries, List.map_append, List.mem_append] at hmem
    refine hmem.resolve_right fun hlast => ?_
    exact absurd (List.mem_singleton.mp hlast) hn.ne
  · rw [h, Table.unlink_entries] at hmem
    exact (List.erase_sublist.map _).subset hmem
  · rw [h, Table.renew_entries, List.map_map] at hmem
    simpa only [Function.comp_def, assign_id] using hmem

/-- An entry that stays keeps its place: only names that stood before it still do, and behind it are
at most the entries that were there and those that were added. -/
def Stays (t t' : Table N) (before behind : List (Entry N)) (n : ℕ) : Prop :=
  ∃ before' e behind', t'.entries = before' ++ e :: behind' ∧ e.id = n ∧
    (∀ x ∈ before', x.name ∈ before.map (·.name)) ∧
    behind'.length + t.nextId ≤ behind.length + t'.nextId

theorem stays_unlink {t : Table N} {before behind : List (Entry N)} {e x : Entry N}
    (ht : t.entries = before ++ e :: behind) (hx : x ∈ t.entries) (hne : x ≠ e) :
    Stays t (t.unlink x hx) before behind e.id := by
  by_cases hbefore : x ∈ before
  · refine ⟨before.erase x, e, behind, ?_, rfl, ?_, le_rfl⟩
    · rw [Table.unlink_entries, ht, List.erase_append_left _ hbefore]
    · exact fun y hy => List.mem_map_of_mem (List.mem_of_mem_erase hy)
  · refine ⟨before, e, behind.erase x, ?_, rfl, fun y hy => List.mem_map_of_mem hy, ?_⟩
    · rw [Table.unlink_entries, ht, List.erase_append_right _ hbefore,
        List.erase_cons_tail (by simpa using hne.symm)]
    · exact Nat.add_le_add_right List.erase_sublist.length_le _

theorem stays_apply {t : Table N} {before behind : List (Entry N)} {e : Entry N}
    (ht : t.entries = before ++ e :: behind) (edit : Edit N) (hmem : e.id ∈ (edit.apply t).ids) :
    Stays t (edit.apply t) before behind e.id := by
  obtain h | ⟨name, h⟩ | ⟨x, hx, h⟩ | ⟨x, hx, h⟩ := apply_cases t edit
  · rw [h]
    exact ⟨before, e, behind, ht, rfl, fun x hx => List.mem_map_of_mem hx, le_rfl⟩
  · rw [h]
    refine ⟨before, e, behind ++ [⟨t.nextId, name, t.nextToken⟩], ?_, rfl,
      fun x hx => List.mem_map_of_mem hx, ?_⟩
    · rw [Table.push_entries, ht, List.append_assoc, List.cons_append]
    · rw [List.length_append, List.length_singleton]
      exact (Nat.add_right_comm _ _ _).le
  · rw [h] at hmem ⊢
    refine stays_unlink ht hx ?_
    rintro rfl
    obtain ⟨y, hy, hid⟩ := List.mem_map.mp hmem
    have hnodup : t.entries.Nodup := List.Nodup.of_map _ t.unique
    obtain ⟨hyx, hy⟩ := (List.Nodup.mem_erase_iff hnodup).mp hy
    exact hyx (eq_of_id t.unique hy hx hid)
  · rw [h]
    refine ⟨before.map (Entry.assign x.id t.nextToken), e.assign x.id t.nextToken,
      behind.map (Entry.assign x.id t.nextToken), ?_, assign_id _ _ _, ?_, ?_⟩
    · rw [Table.renew_entries, ht, List.map_append, List.map_cons]
    · intro y hy
      obtain ⟨z, hz, rfl⟩ := List.mem_map.mp hy
      rw [assign_name]
      exact List.mem_map_of_mem hz
    · rw [List.length_map]
      exact le_rfl

theorem nextId_le_applyAll (edits : List (Edit N)) (t : Table N) :
    t.nextId ≤ (applyAll edits t).nextId := by
  induction edits generalizing t with
  | nil => exact le_rfl
  | cons edit edits ih => exact (nextId_le_apply t edit).trans (ih _)

theorem mem_ids_of_applyAll {edits : List (Edit N)} {t : Table N} {n : ℕ} (hn : n < t.nextId)
    (hmem : n ∈ (applyAll edits t).ids) : n ∈ t.ids := by
  induction edits generalizing t with
  | nil => exact hmem
  | cons edit edits ih =>
      exact mem_ids_of_apply hn (ih (hn.trans_le (nextId_le_apply t edit)) hmem)

theorem stays_applyAll {edits : List (Edit N)} {t : Table N} {before behind : List (Entry N)}
    {e : Entry N} (ht : t.entries = before ++ e :: behind)
    (hmem : e.id ∈ (applyAll edits t).ids) : Stays t (applyAll edits t) before behind e.id := by
  induction edits generalizing t before behind e with
  | nil => exact ⟨before, e, behind, ht, rfl, fun x hx => List.mem_map_of_mem hx, le_rfl⟩
  | cons edit edits ih =>
      have hin : e ∈ t.entries := by
        rw [ht]
        exact List.mem_append_right _ List.mem_cons_self
      have hlt := (t.fresh e hin).trans_le (nextId_le_apply t edit)
      have hfirst := mem_ids_of_applyAll hlt hmem
      obtain ⟨before₁, e₁, behind₁, h₁, hid, hnames, hlen⟩ := stays_apply ht edit hfirst
      rw [← hid] at hmem
      obtain ⟨before₂, e₂, behind₂, h₂, hid₂, hnames₂, hlen₂⟩ := ih h₁ hmem
      refine ⟨before₂, e₂, behind₂, h₂, hid₂.trans hid, fun x hx => ?_, ?_⟩
      · obtain ⟨y, hy, hxy⟩ := List.mem_map.mp (hnames₂ x hx)
        rw [← hxy]
        exact hnames y hy
      · change _ ≤ _ + (applyAll edits (edit.apply t)).nextId
        omega

/-! ## The sweep -/

/-- An entry was read after it had been freed. -/
inductive Fault where
  | freedEntry (id : ℕ)
  deriving DecidableEq

/-- One round at the entry `cur`: the next one is read first, then the entry is removed if it has to
be, and `edits` is what other code does while its value is released. -/
def sweepStep (removes : N → Bool) (edits : List (Edit N)) (cur : ℕ) (t : Table N) :
    Except Fault (Option ℕ × Table N) :=
  match h : t.entries.find? (·.id = cur) with
  | none => .error (.freedEntry cur)
  | some e =>
      .ok (t.nextOf cur,
        if removes e.name then applyAll edits (t.unlink e (List.mem_of_find?_eq_some h)) else t)

/-- The code that runs while the value of `cur` is released leaves the next entry in the table. If
there is none, it leaves nothing there that has to be removed. -/
def Careful (removes : N → Bool) (edits : List (Edit N)) (cur : ℕ) (t : Table N) : Prop :=
  ∀ e he, e.id = cur → removes e.name = true →
    (∀ n, t.nextOf cur = some n → n ∈ (applyAll edits (t.unlink e he)).ids) ∧
    (t.nextOf cur = none → ∀ x ∈ (applyAll edits (t.unlink e he)).entries, removes x.name = false)

/-- The rounds of a sweep over the table, with the entry that comes next. -/
inductive Sweep (removes : N → Bool) (start : Table N) : ℕ → Option ℕ → Table N → Prop
  | start : Sweep removes start 0 start.head start
  | round {k cur : ℕ} {next : Option ℕ} {t t' : Table N} (before : Sweep removes start k (some cur) t)
      (edits : List (Edit N)) (hcareful : Careful removes edits cur t)
      (hstep : sweepStep removes edits cur t = .ok (next, t')) :
      Sweep removes start (k + 1) next t'

/-- The sweep has passed the first entries, and left those alone that are still there. -/
def Position (removes : N → Bool) (k : ℕ) (cur : Option ℕ) (t : Table N) : Prop :=
  ∃ passed left, t.entries = passed ++ left ∧ (∀ e ∈ passed, removes e.name = false) ∧
    cur = left.head?.map (·.id) ∧ k + left.length ≤ t.nextId

omit [DecidableEq N] in
theorem length_le_nextId (t : Table N) : t.entries.length ≤ t.nextId := by
  have hsub : t.ids ⊆ List.range t.nextId := by
    intro n hn
    obtain ⟨e, he, rfl⟩ := List.mem_map.mp hn
    exact List.mem_range.mpr (t.fresh e he)
  have hlen := (List.subperm_of_subset t.unique hsub).length_le
  rwa [List.length_range, List.length_map] at hlen

omit [DecidableEq N] in
theorem Position.start (removes : N → Bool) (t : Table N) : Position removes 0 t.head t :=
  ⟨[], t.entries, rfl, nofun, rfl, by rw [Nat.zero_add]; exact length_le_nextId t⟩

omit [DecidableEq N] in
/-- The entry after one that is in the table. -/
theorem nextOf_eq {t : Table N} {passed left : List (Entry N)} {e : Entry N}
    (ht : t.entries = passed ++ e :: left) : t.nextOf e.id = left.head?.map (·.id) := by
  have hpassed : ∀ x ∈ passed, decide (x.id ≠ e.id) = true := by
    intro x hx
    rw [decide_eq_true_eq]
    intro hid
    have hunique := t.unique
    rw [ht, List.map_append, List.map_cons] at hunique
    exact List.disjoint_of_nodup_append hunique (List.mem_map_of_mem hx) (hid ▸ List.mem_cons_self)
  unfold Table.nextOf
  rw [ht, List.dropWhile_append_of_pos hpassed]
  simp

omit [DecidableEq N] in
theorem find_eq {t : Table N} {e : Entry N} (he : e ∈ t.entries) :
    t.entries.find? (·.id = e.id) = some e := by
  cases hfind : t.entries.find? (·.id = e.id) with
  | none => simpa using List.find?_eq_none.mp hfind e he
  | some x =>
      have hid : x.id = e.id := by simpa using List.find?_some hfind
      rw [eq_of_id t.unique (List.mem_of_find?_eq_some hfind) he hid]

theorem sweepStep_eq {removes : N → Bool} (edits : List (Edit N)) {t : Table N} {e : Entry N}
    (he : e ∈ t.entries) :
    sweepStep removes edits e.id t =
      .ok (t.nextOf e.id, if removes e.name then applyAll edits (t.unlink e he) else t) := by
  unfold sweepStep
  split
  · next h =>
      rw [find_eq he] at h
      cases h
  · next x h =>
      rw [find_eq he] at h
      cases h
      rfl

omit [DecidableEq N] in
theorem Position.mem {removes : N → Bool} {k cur : ℕ} {t : Table N}
    (hp : Position removes k (some cur) t) :
    ∃ passed e left, t.entries = passed ++ e :: left ∧ e.id = cur ∧
      (∀ x ∈ passed, removes x.name = false) ∧ k + left.length + 1 ≤ t.nextId := by
  obtain ⟨passed, left, ht, hpassed, hcur, hlen⟩ := hp
  cases left with
  | nil => cases hcur
  | cons e left =>
      cases hcur
      exact ⟨passed, e, left, ht, rfl, hpassed, hlen⟩

/-- A round that removes its entry. -/
theorem Position.remove {removes : N → Bool} {k : ℕ} {t : Table N} {passed left : List (Entry N)}
    {e : Entry N} {edits : List (Edit N)} (ht : t.entries = passed ++ e :: left)
    (hpassed : ∀ x ∈ passed, removes x.name = false) (hlen : k + left.length + 1 ≤ t.nextId)
    (he : e ∈ t.entries)
    (hkeeps : ∀ n, t.nextOf e.id = some n → n ∈ (applyAll edits (t.unlink e he)).ids)
    (hleaves : t.nextOf e.id = none →
      ∀ x ∈ (applyAll edits (t.unlink e he)).entries, removes x.name = false) :
    Position removes (k + 1) (t.nextOf e.id) (applyAll edits (t.unlink e he)) := by
  have hmono : t.nextId ≤ (applyAll edits (t.unlink e he)).nextId :=
    nextId_le_applyAll edits (t.unlink e he)
  have hnext := nextOf_eq ht
  have hnot : e ∉ passed := by
    intro hmem
    have hnodup : t.entries.Nodup := List.Nodup.of_map _ t.unique
    rw [ht] at hnodup
    exact List.disjoint_of_nodup_append hnodup hmem List.mem_cons_self
  have hentries : (t.unlink e he).entries = passed ++ left := by
    rw [Table.unlink_entries, ht, List.erase_append_right _ hnot, List.erase_cons_head]
  cases left with
  | nil =>
      refine ⟨_, [], (List.append_nil _).symm, hleaves hnext, hnext, ?_⟩
      rw [List.length_nil] at hlen ⊢
      omega
  | cons n left =>
      obtain ⟨passed', n', left', hsplit, hid, hnames, hlen'⟩ :=
        stays_applyAll hentries (hkeeps n.id hnext)
      refine ⟨passed', n' :: left', hsplit, fun x hx => ?_, ?_, ?_⟩
      · obtain ⟨y, hy, hxy⟩ := List.mem_map.mp (hnames x hx)
        rw [← hxy]
        exact hpassed y hy
      · rw [hnext]
        exact congrArg some hid.symm
      · have hsame : (t.unlink e he).nextId = t.nextId := rfl
        rw [List.length_cons] at hlen ⊢
        omega

theorem Position.round {removes : N → Bool} {k cur : ℕ} {next : Option ℕ} {t t' : Table N}
    {edits : List (Edit N)} (hp : Position removes k (some cur) t)
    (hcareful : Careful removes edits cur t)
    (hstep : sweepStep removes edits cur t = .ok (next, t')) : Position removes (k + 1) next t' := by
  obtain ⟨passed, e, left, ht, rfl, hpassed, hlen⟩ := hp.mem
  have he : e ∈ t.entries := by
    rw [ht]
    exact List.mem_append_right _ List.mem_cons_self
  rw [sweepStep_eq edits he] at hstep
  cases hstep
  cases hremoves : removes e.name with
  | true =>
      obtain ⟨hkeeps, hleaves⟩ := hcareful e he rfl hremoves
      exact Position.remove ht hpassed hlen he hkeeps hleaves
  | false =>
      refine ⟨passed ++ [e], left, ?_, fun x hx => ?_, nextOf_eq ht, ?_⟩
      · rw [List.append_assoc]
        exact ht
      · rcases List.mem_append.mp hx with hx | hx
        · exact hpassed x hx
        · rw [List.mem_singleton.mp hx]
          exact hremoves
      · change k + 1 + left.length ≤ t.nextId
        omega

theorem sweep_position {removes : N → Bool} {start t : Table N} {k : ℕ} {cur : Option ℕ}
    (hs : Sweep removes start k cur t) : Position removes k cur t := by
  induction hs with
  | start => exact .start removes start
  | round _ edits hcareful hstep ih => exact ih.round hcareful hstep

end

end Deai.OrderedTable
