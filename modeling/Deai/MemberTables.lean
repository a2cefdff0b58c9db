import Deai.Release

/-!
# Member tables

What adding, removing and replacing a member does to the lookups of a table, in which every name
occurs once, and to the account of references.
-/
namespace Deai.MemberTables
open Value ObjectHeap Accounting Release

abbrev Table := List (String × DiValue)

/-- An object and the name of one of its members. -/
abbrev Key := ObjRef × String

def valueOf (name : String) (ms : Table) : Option DiValue := (ms.find? (·.1 == name)).map (·.2)

/-- The entry with the name gets another value. -/
def setValue (name : String) (v : DiValue) : Table → Table
  | [] => []
  | x :: xs => if x.1 = name then (name, v) :: xs else x :: setValue name v xs

def setMember (o : ObjRef) (name : String) (v : DiValue) (h : Heap) : Heap :=
  h.modify o fun x => {x with members := setValue name v x.members}

def names (ms : Table) : List String := ms.map (·.1)

section
variable {ms : Table} {name n : String} {v old : DiValue} {x : String × DiValue}

theorem valueOf_cons (x : String × DiValue) (ms : Table) (n : String) :
    valueOf n (x :: ms) = if x.1 = n then some x.2 else valueOf n ms := by
  unfold valueOf
  rw [List.find?_cons]
  by_cases hx : x.1 = n
  · rw [if_pos hx, beq_iff_eq.mpr hx]
    rfl
  · rw [if_neg hx, beq_eq_false_iff_ne.mpr hx]

theorem valueOf_eq_none : valueOf n ms = none ↔ n ∉ names ms := by
  induction ms with
  | nil => exact ⟨fun _ => List.not_mem_nil, fun _ => rfl⟩
  | cons x ms ih =>
      rw [valueOf_cons, names, List.map_cons, List.mem_cons]
      split_ifs with hx
      · exact ⟨nofun, fun hn => absurd (.inl hx.symm) hn⟩
      · rw [ih, not_or]
        exact ⟨fun hn => ⟨Ne.symm hx, hn⟩, And.right⟩

/-! ## Replacing -/

@[simp] theorem names_setValue : names (setValue name v ms) = names ms := by
  induction ms with
  | nil => rfl
  | cons x ms ih =>
      rw [setValue]
      split_ifs with hx
      · rw [names, List.map_cons, ← hx]
        rfl
      · exact congrArg (x.1 :: ·) ih

theorem valueOf_setValue (hold : valueOf name ms = some old) :
    valueOf n (setValue name v ms) = if n = name then some v else valueOf n ms := by
  induction ms with
  | nil => cases hold
  | cons x ms ih =>
      rw [valueOf_cons] at hold
      rw [setValue]
      by_cases hx : x.1 = name
      · rw [if_pos hx, valueOf_cons, valueOf_cons, hx]
        by_cases hn : n = name
        · rw [if_pos hn.symm, if_pos hn]
        · rw [if_neg (Ne.symm hn), if_neg hn, if_neg (Ne.symm hn)]
      · rw [if_neg hx] at hold
        rw [if_neg hx, valueOf_cons, valueOf_cons, ih hold]
        by_cases hxn : x.1 = n
        · rw [if_pos hxn, if_neg (hxn ▸ hx), if_pos hxn]
        · rw [if_neg hxn, if_neg hxn]

theorem count_setValue (hold : valueOf name ms = some old) (v : DiValue) (r : Ref) :
    ((setValue name v ms).flatMap (·.2.refs)).count r + old.refs.count r =
      (ms.flatMap (·.2.refs)).count r + v.refs.count r := by
  induction ms with
  | nil => cases hold
  | cons x ms ih =>
      rw [valueOf_cons] at hold
      rw [setValue]
      split_ifs at hold ⊢ with hx
      · cases hold
        simp only [List.flatMap_cons, List.count_append]
        omega
      · have := ih hold
        simp only [List.flatMap_cons, List.count_append]
        omega

/-! ## Adding and removing -/

theorem names_append : names (ms ++ [(name, v)]) = names ms ++ [name] := by
  unfold names
  rw [List.map_append]
  rfl

theorem valueOf_append (hnew : valueOf name ms = none) :
    valueOf n (ms ++ [(name, v)]) = if n = name then some v else valueOf n ms := by
  induction ms with
  | nil =>
      rw [List.nil_append, valueOf_cons]
      by_cases hn : n = name
      · rw [if_pos hn.symm, if_pos hn]
      · rw [if_neg (Ne.symm hn), if_neg hn]
  | cons x ms ih =>
      rw [valueOf_cons] at hnew
      split_ifs at hnew with hx
      rw [List.cons_append, valueOf_cons, valueOf_cons, ih hnew]
      by_cases hxn : x.1 = n
      · rw [if_pos hxn, if_neg (hxn ▸ hx), if_pos hxn]
      · rw [if_neg hxn, if_neg hxn]

theorem names_eraseP_sublist : (names (ms.eraseP (·.1 == name))).Sublist (names ms) :=
  List.eraseP_sublist.map _

theorem valueOf_eraseP (hunique : (names ms).Nodup) :
    valueOf n (ms.eraseP (·.1 == name)) = if n = name then none else valueOf n ms := by
  induction ms with
  | nil =>
      rw [List.eraseP_nil]
      split_ifs <;> rfl
  | cons x ms ih =>
      obtain ⟨hfresh, hunique⟩ := List.nodup_cons.mp hunique
      by_cases hx : x.1 = name
      · rw [List.eraseP_cons, beq_iff_eq.mpr hx, cond_true, valueOf_cons, hx]
        by_cases hn : n = name
        · rw [if_pos hn, hn]
          exact valueOf_eq_none.mpr (hx ▸ hfresh)
        · rw [if_neg hn, if_neg (Ne.symm hn)]
      · rw [List.eraseP_cons, beq_eq_false_iff_ne.mpr hx, cond_false, valueOf_cons, valueOf_cons,
          ih hunique]
        by_cases hxn : x.1 = n
        · rw [if_pos hxn, if_neg (hxn ▸ hx), if_pos hxn]
        · rw [if_neg hxn, if_neg hxn]

end

/-! ## In the heap -/

/-- Every table has each name once, and the members that are NIL are known. -/
structure Tables (h : Heap) (ks : List Key) : Prop where
  unique : ∀ o, (names (h.obj o).members).Nodup
  nil_iff : ∀ k : Key, diLookup k.1 k.2 h = some .nil ↔ k ∈ ks

section
variable {h h' : Heap} {ks ks' : List Key} {R : Ref → ℕ} {o : ObjRef} {name : String}
  {v old : DiValue} {k : Key}

theorem Tables.same (ht : Tables h ks) (hm : ∀ x, (h'.obj x).members = (h.obj x).members) :
    Tables h' ks := by
  refine ⟨fun x => ?_, fun k => ?_⟩
  · rw [hm]
    exact ht.unique x
  · rw [diLookup, hm]
    exact ht.nil_iff k

/-- One object gets another table, in which one name is looked up differently. -/
theorem Tables.update (ht : Tables h ks) (ms : Table) {w : Option DiValue}
    (hunique : (names ms).Nodup)
    (hlookup : ∀ n, valueOf n ms = if n = name then w else diLookup o n h)
    (hself : w = some .nil ↔ (o, name) ∈ ks')
    (hothers : ∀ k, k ≠ (o, name) → (k ∈ ks' ↔ k ∈ ks)) :
    Tables (h.modify o fun x => {x with members := ms}) ks' := by
  refine ⟨fun x => ?_, fun k => ?_⟩
  · rw [Heap.modify_obj]
    split_ifs
    · exact hunique
    · exact ht.unique x
  · have hlook : diLookup k.1 k.2 (h.modify o fun x => {x with members := ms}) =
        if k = (o, name) then w else diLookup k.1 k.2 h := by
      by_cases hk : k.1 = o
      · rw [diLookup, hk, Heap.modify_obj_self]
        refine (hlookup k.2).trans ?_
        by_cases hn : k.2 = name
        · rw [if_pos hn, if_pos (Prod.ext hk hn)]
        · rw [if_neg hn, if_neg fun he => hn (congrArg Prod.snd he)]
      · rw [diLookup, Heap.modify_obj_ne _ _ hk, if_neg fun he => hk (congrArg Prod.fst he)]
        rfl
    rw [hlook]
    split_ifs with hk
    · rw [hself, hk]
    · rw [hothers k hk]
      exact ht.nil_iff k

theorem Tables.insertMember (ht : Tables h ks) (hnew : diLookup o name h = none)
    (hv : v ≠ .nil) : Tables (h.insertMember o name v) ks := by
  refine ht.update ((h.obj o).members ++ [(name, v)]) (w := some v) ?_
    (fun n => valueOf_append hnew) ?_ fun k _ => Iff.rfl
  · rw [names_append, List.nodup_append']
    exact ⟨ht.unique o, List.nodup_singleton _, List.disjoint_singleton.mpr
      (valueOf_eq_none.mp hnew)⟩
  · rw [← ht.nil_iff, hnew]
    exact ⟨fun he => absurd (Option.some.inj he) hv, nofun⟩

theorem Tables.removeMember (ht : Tables h ks) (hk : (o, name) ∉ ks) :
    Tables (h.removeMember o name) ks := by
  refine ht.update ((h.obj o).members.eraseP (·.1 == name)) (w := none) ?_
    (fun n => valueOf_eraseP (ht.unique o)) ⟨nofun, fun hmem => absurd hmem hk⟩ fun k _ => Iff.rfl
  exact (ht.unique o).sublist names_eraseP_sublist

theorem Tables.setMember (ht : Tables h ks) (hold : diLookup o name h = some old)
    (hself : v = .nil ↔ (o, name) ∈ ks')
    (hothers : ∀ k, k ≠ (o, name) → (k ∈ ks' ↔ k ∈ ks)) :
    Tables (MemberTables.setMember o name v h) ks' := by
  refine ht.update (setValue name v (h.obj o).members) (w := some v) ?_
    (fun n => valueOf_setValue hold) ?_ hothers
  · rw [names_setValue]
    exact ht.unique o
  · rw [← hself]
    exact ⟨Option.some.inj, congrArg some⟩

theorem setMember_field {β : Type} (g : DiObject → β) (hg : ∀ x l, g {x with members := l} = g x)
    (o : ObjRef) (name : String) (v : DiValue) (h : Heap) (x : ObjRef) :
    g ((setMember o name v h).obj x) = g (h.obj x) :=
  h.modify_same g o (hg _ _) x

theorem diLookup_setMember (hold : diLookup o name h = some old) :
    diLookup o name (setMember o name v h) = some v := by
  rw [diLookup, setMember, Heap.modify_obj_self]
  refine (valueOf_setValue hold).trans ?_
  rw [if_pos rfl]

/-- The references of the old value leave the table, those of the new one are paid. -/
theorem Counted.setMember (hc : Counted h (pend R v.refs)) (hlt : o < h.size)
    (hold : diLookup o name h = some old) :
    Counted (MemberTables.setMember o name v h) (pend R old.refs) := by
  refine Counted.setMembers hc hlt (setValue name v (h.obj o).members) fun r => ?_
  have hcount := count_setValue hold v r
  unfold pend memberRefs
  omega

theorem lt_of_lookup (hc : Counted h R) (hv : diLookup o name h = some v) : o < h.size := by
  by_contra hn
  rw [diLookup, hc.unallocated o (Nat.le_of_not_lt hn)] at hv
  cases hv

end

end Deai.MemberTables
