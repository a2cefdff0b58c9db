import Deai.Mutator
import Deai.Fallible

/-!
# Enumerating the members of an object

`di_object_next_member` is called with a null key first and with the key it returned last from
then on. It has no state of its own, so everything may run between two calls; the enumeration is
complete as long as no member is added or removed there. Values may change, and a visit gives the
value of its own time.

`uthash` keeps its keys unique and iterates in the order of insertion: a member table is a list,
and `hh.next` of an entry is what follows it there.
-/
namespace Deai.MemberEnumeration
open Value ObjectHeap Accounting Mutator

abbrev Member := String × DiValue

/-- A fault of the heap, or the assertion of `di_refrawgetx`. -/
inductive Fault where
  | heap (f : ObjectHeap.Fault)
  | nilMember (o : ObjRef)
  deriving DecidableEq

def diRefrawgetx (o : ObjRef) (prop : String) (h : Heap) : Except Fault (Option DiValue) :=
  match diLookup o prop h with
  | none => .ok none
  | some v => if sizeofIsZero v then .error (.nilMember o) else .ok (some v)

def diStringStartsWith (s pat : String) : Bool := pat.toList.isPrefixOf s.toList

/-- The names that the enumeration passes over. -/
def hidden (name : String) : Bool := diStringStartsWith name "__"

/-- Both loops, over what is left of the table: they stop at the first member that is not
hidden. -/
def skipHidden : List Member → Option Member
  | [] => none
  | m :: ms => if hidden m.1 then skipHidden ms else some m

/-- `di_lookup(obj, name)->hh.next`, with all that follows it. -/
def membersAfter (name : String) (ms : List Member) : List Member :=
  (ms.dropWhile (·.1 != name)).tail

/-- Where the loops begin. -/
def remaining (ms : List Member) : Name → List Member
  | none => ms
  | some name => membersAfter name ms

section
variable (call : ObjRef → ObjRef → Name → Heap → Except Fault (Option DiValue × Heap)) (fuel : ℕ)

/-- The answer of a `__next` member is passed on if it is a pair of a string and a value. -/
def nextByHandler (next o : ObjRef) (name : Name) (h : Heap) :
    Except Fault (Option Member × Heap) := do
  let (ret, h) ← call next o name h
  match ret with
  | none => .ok (none, h)
  | some (.tuple [.string n, v]) => .ok (some (n, v), h)
  | some v => do
      let h ← (diFreeValue (diUnrefObject fuel) v h).mapError .heap
      .ok (none, h)

/-- The empty tuple is `none`. What a call of the `__next` member does is a parameter. -/
def diObjectNextMember (o : ObjRef) (name : Name) (h : Heap) :
    Except Fault (Option Member × Heap) := do
  let _ ← (h.deref o).mapError .heap
  match ← diRefrawgetx o "__next" h with
  | some (.object next) => nextByHandler call fuel next o name h
  | _ =>
      match skipHidden (remaining (h.obj o).members name) with
      | none => .ok (none, h)
      | some m => do
          let h ← (diCopyValue m.2 h).mapError .heap
          .ok (some m, h)

end

/-! ## The history of a table -/

/-- What happens to a member table: `di_add_member`, the removal of a member, and the update of
the value of a member that is there. -/
inductive Edit where
  | add (m : Member)
  | delete (name : String)
  | set (m : Member)

def Edit.apply : Edit → List Member → List Member
  | .add m, ms => if ms.any (·.1 == m.1) then ms else ms ++ [m]
  | .delete name, ms => ms.eraseP (·.1 == name)
  | .set m, ms => ms.map fun x => if x.1 = m.1 then m else x

/-- The table of an object that began with no members. -/
def tableAfter (edits : List Edit) : List Member := edits.foldl (fun ms e => e.apply ms) []

def names (ms : List Member) : List String := ms.map (·.1)

def visible (ns : List String) : List String := ns.filter fun n => !hidden n

theorem names_set (m : Member) (ms : List Member) : names ((Edit.set m).apply ms) = names ms := by
  unfold names Edit.apply
  rw [List.map_map]
  apply List.map_congr_left
  intro x _
  simp only [Function.comp_apply]
  split_ifs with hx
  · exact hx.symm
  · rfl

theorem Edit.apply_nodup (e : Edit) {ms : List Member} (hms : (names ms).Nodup) :
    (names (e.apply ms)).Nodup := by
  cases e with
  | add m =>
      simp only [Edit.apply]
      split_ifs with hm
      · exact hms
      · have hnew : m.1 ∉ names ms := by
          intro hmem
          obtain ⟨x, hx, hxm⟩ := List.mem_map.mp hmem
          exact hm (List.any_eq_true.mpr ⟨x, hx, beq_iff_eq.mpr hxm⟩)
        unfold names at hms hnew ⊢
        rw [List.map_append]
        exact hms.append (List.nodup_singleton _) (List.disjoint_singleton.mpr hnew)
  | delete name => exact hms.sublist (List.eraseP_sublist.map _)
  | set m => rwa [names_set]

theorem tableAfter_nodup (edits : List Edit) : (names (tableAfter edits)).Nodup := by
  unfold tableAfter
  generalize hstart : ([] : List Member) = start
  have hs : (names start).Nodup := by
    rw [← hstart]
    exact List.nodup_nil
  clear hstart
  induction edits generalizing start with
  | nil => exact hs
  | cons e edits ih => exact ih _ (e.apply_nodup hs)

/-! ## One call -/

/-- The loops come to the first visible name. -/
theorem skipHidden_name (ms : List Member) :
    (skipHidden ms).map (·.1) = (visible (names ms)).head? := by
  induction ms with
  | nil => rfl
  | cons m ms ih =>
      unfold skipHidden
      cases hm : hidden m.1 with
      | true => simpa [visible, names, hm] using ih
      | false => simp [visible, names, hm]

theorem mem_of_skipHidden {ms : List Member} {m : Member} (hm : skipHidden ms = some m) :
    m ∈ ms := by
  induction ms with
  | nil => cases hm
  | cons x ms ih =>
      unfold skipHidden at hm
      split_ifs at hm with hx
      · exact List.mem_cons_of_mem _ (ih hm)
      · cases hm
        exact List.mem_cons_self

/-- A key leads to what stands behind it, since it stands nowhere else. -/
theorem membersAfter_append {before after : List Member} {m : Member}
    (hnodup : (names (before ++ m :: after)).Nodup) :
    membersAfter m.1 (before ++ m :: after) = after := by
  have hbefore : ∀ x ∈ before, (x.1 != m.1) = true := by
    intro x hx
    rw [bne_iff_ne]
    intro heq
    unfold names at hnodup
    rw [List.map_append, List.map_cons] at hnodup
    exact List.disjoint_of_nodup_append hnodup (List.mem_map_of_mem hx)
      (heq ▸ List.mem_cons_self)
  unfold membersAfter
  rw [List.dropWhile_append_of_pos hbefore]
  simp

/-- The key stands at the end of the names that were passed, if any were. -/
def EndsAt (passed : List String) : Name → Prop
  | none => passed = []
  | some n => ∃ ns, passed = ns ++ [n]

theorem names_remaining {ms : List Member} {passed left : List String} {key : Name}
    (hms : names ms = passed ++ left) (hnodup : (names ms).Nodup) (hkey : EndsAt passed key) :
    names (remaining ms key) = left := by
  cases key with
  | none =>
      rw [show passed = [] from hkey] at hms
      exact hms
  | some n =>
      obtain ⟨ns, rfl⟩ := hkey
      obtain ⟨before, rest, rfl, hbefore, hrest⟩ := List.map_eq_append_iff.mp hms
      obtain ⟨start, last, rfl, -, hlast⟩ := List.map_eq_append_iff.mp hbefore
      obtain ⟨m, rfl, rfl⟩ := List.map_eq_singleton_iff.mp hlast
      rw [List.append_assoc, List.singleton_append] at hnodup ⊢
      rw [remaining, membersAfter_append hnodup]
      exact hrest

theorem remaining_subset (ms : List Member) (key : Name) : remaining ms key ⊆ ms := by
  cases key with
  | none => exact List.Subset.refl ms
  | some n => exact List.Subset.trans (List.tail_subset _) (List.dropWhile_sublist _).subset

theorem diLookup_of_mem {o : ObjRef} {h : Heap} {m : Member} (hm : m ∈ (h.obj o).members)
    (hnodup : (names (h.obj o).members).Nodup) : diLookup o m.1 h = some m.2 := by
  unfold diLookup
  cases hfind : (h.obj o).members.find? (fun x => x.1 == m.1) with
  | none => exact absurd (beq_self_eq_true m.1) (List.find?_eq_none.mp hfind m hm)
  | some x =>
      have hx := List.find?_some hfind
      simp only [beq_iff_eq] at hx
      have heq : x = m := List.inj_on_of_nodup_map hnodup (List.mem_of_find?_eq_some hfind) hm hx
      rw [heq]
      rfl

theorem diLookup_none {o : ObjRef} {h : Heap} {n : String} (hn : n ∉ names (h.obj o).members) :
    diLookup o n h = none := by
  unfold diLookup
  rw [Option.map_eq_none_iff, List.find?_eq_none]
  intro x hx heq
  exact hn (beq_iff_eq.mp heq ▸ List.mem_map_of_mem hx)

/-- The counts of the heap are right, and the object is there. -/
structure Sound (o : ObjRef) (h : Heap) : Prop where
  counted : ∃ R, Counted h R
  alive : (h.obj o).destroyed = false

/-- What a member refers to can be referred to by a copy of its value. -/
theorem Sound.holdable {o : ObjRef} {h : Heap} (hs : Sound o h) {m : Member}
    (hm : m ∈ (h.obj o).members) : Holdable h m.2.refs := by
  obtain ⟨R, hc⟩ := hs.counted
  intro r hr
  have hmem : r ∈ memberRefs h o := List.mem_flatMap.mpr ⟨m, hm, hr⟩
  cases r with
  | strong t => exact hc.alive_of_edge (List.count_pos_iff.mpr hmem)
  | weak t =>
      have hheld : (memberRefs h o).count (.weak t) ≤ held h (.weak t) :=
        Finset.single_le_sum (f := fun y => (memberRefs h y).count (.weak t))
          (fun _ _ => Nat.zero_le _) (Finset.mem_range.mpr (hc.lt_size hs.alive))
      have hpos := List.count_pos_iff.mpr hmem
      have hweak := hc.weak t
      cases hf : (h.obj t).freed with
      | false => exact hf
      | true =>
          have hzero := (hc.freed t).mp hf
          omega

/-- The heap after a copy of the value was made: the copy holds references of its own. -/
structure Copied (v : DiValue) (h h' : Heap) : Prop where
  same : SameObjects h h'
  counted : ∀ R, Counted h R → Counted h' (pend R v.refs)

/-- What a call returns when `rest` are the visible names that have not been visited: the empty
tuple, or the first of them with a copy of its value. -/
def Answers (o : ObjRef) (h : Heap) : List String → Option Member × Heap → Prop
  | [], r => r = (none, h)
  | n :: _, r => ∃ v h', r = (some (n, v), h') ∧ diLookup o n h = some v ∧ Copied v h h'

theorem copied {v : DiValue} {h : Heap} {R : Ref → ℕ} (hc : Counted h R)
    (hv : Holdable h v.refs) : ∃ h', diCopyValue v h = .ok h' ∧ Copied v h h' := by
  obtain ⟨h', hrun, -, hsame⟩ := diCopyValue_spec counted_extends hc hv
  refine ⟨h', hrun, hsame, fun Q hQ => ?_⟩
  obtain ⟨h₂, hrun₂, hc₂, -⟩ := diCopyValue_spec counted_extends hQ hv
  rw [hrun] at hrun₂
  cases hrun₂
  exact hc₂

section
variable {call : ObjRef → ObjRef → Name → Heap → Except Fault (Option DiValue × Heap)} {fuel : ℕ}
  {o : ObjRef} {h h₀ : Heap} {key : Name} {passed left : List String}

theorem diObjectNextMember_answers (hs : Sound o h) (hnodup : (names (h.obj o).members).Nodup)
    (hnext : "__next" ∉ names (h.obj o).members)
    (hms : names (h.obj o).members = passed ++ left) (hkey : EndsAt passed key) :
    ∃ r, diObjectNextMember call fuel o key h = .ok r ∧ Answers o h (visible left) r := by
  obtain ⟨R, hc⟩ := hs.counted
  have hleft := names_remaining hms hnodup hkey
  unfold diObjectNextMember diRefrawgetx
  rw [diLookup_none hnext, Heap.deref_ok (hc.not_freed hs.alive)]
  simp only [Except.mapError, Fallible.ok_bind]
  have hname := skipHidden_name (remaining (h.obj o).members key)
  rw [hleft] at hname
  cases hskip : skipHidden (remaining (h.obj o).members key) with
  | none =>
      rw [hskip] at hname
      rw [List.head?_eq_none_iff.mp hname.symm]
      exact ⟨(none, h), rfl, rfl⟩
  | some m =>
      have hmem := remaining_subset _ key (mem_of_skipHidden hskip)
      obtain ⟨h', hcopy, hcopied⟩ := copied hc (hs.holdable hmem)
      rw [hskip] at hname
      obtain ⟨ns, hns⟩ := List.head?_eq_some_iff.mp hname.symm
      simp only [hns, hcopy]
      exact ⟨(some m, h'), rfl, m.2, h', rfl, diLookup_of_mem hmem hnodup, hcopied⟩

end

/-! ## The whole enumeration -/

/-- What may run between two calls: it adds and removes no member of the object. -/
structure Meanwhile (o : ObjRef) (h h' : Heap) : Prop where
  sound : Sound o h'
  names : names (h'.obj o).members = names (h.obj o).members

/-- A returned member, with the heap at its call. -/
structure Visit where
  heap : Heap
  member : Member

/-- Calls that began with a null key, with the key for the next one. -/
inductive Enumeration (call : ObjRef → ObjRef → Name → Heap → Except Fault (Option DiValue × Heap))
    (fuel : ℕ) (o : ObjRef) (h₀ : Heap) : Name → List Visit → Heap → Prop
  | start : Enumeration call fuel o h₀ none [] h₀
  | next {key : Name} {visits : List Visit} {h h' h₁ : Heap} {m : Member}
      (before : Enumeration call fuel o h₀ key visits h)
      (hcall : diObjectNextMember call fuel o key h = .ok (some m, h'))
      (hmeanwhile : Meanwhile o h' h₁) :
      Enumeration call fuel o h₀ (some m.1) (visits ++ [⟨h, m⟩]) h₁

/-- The names up to the key have been passed, and the visible ones of them visited. -/
structure Progress (o : ObjRef) (h₀ : Heap) (key : Name) (visits : List Visit) (h : Heap) :
    Prop where
  sound : Sound o h
  names : names (h.obj o).members = names (h₀.obj o).members
  passed : ∃ passed left, MemberEnumeration.names (h.obj o).members = passed ++ left ∧
    EndsAt passed key ∧ visible passed = visits.map (·.member.1)
  current : ∀ x ∈ visits, diLookup o x.member.1 x.heap = some x.member.2

section
variable {call : ObjRef → ObjRef → Name → Heap → Except Fault (Option DiValue × Heap)} {fuel : ℕ}
  {o : ObjRef} {h h' h₁ h₀ : Heap} {key : Name} {visits : List Visit} {m : Member}

theorem Progress.start (hs : Sound o h₀) : Progress o h₀ none [] h₀ where
  sound := hs
  names := rfl
  passed := ⟨[], _, rfl, rfl, rfl⟩
  current _ hx := absurd hx List.not_mem_nil

theorem Progress.next (hp : Progress o h₀ key visits h)
    (hnodup : (MemberEnumeration.names (h₀.obj o).members).Nodup)
    (hnext : "__next" ∉ MemberEnumeration.names (h₀.obj o).members)
    (hcall : diObjectNextMember call fuel o key h = .ok (some m, h')) (hm : Meanwhile o h' h₁) :
    Progress o h₀ (some m.1) (visits ++ [⟨h, m⟩]) h₁ := by
  obtain ⟨passed, left, hms, hkey, hvisited⟩ := hp.passed
  rw [← hp.names] at hnodup hnext
  obtain ⟨r, hr, hanswer⟩ := diObjectNextMember_answers hp.sound hnodup hnext hms hkey
  rw [hcall] at hr
  cases hr
  cases hvis : visible left with
  | nil =>
      rw [hvis] at hanswer
      cases hanswer
  | cons n ns =>
      rw [hvis] at hanswer
      obtain ⟨v, h₂, heq, hlookup, hcopied⟩ := hanswer
      cases heq
      obtain ⟨skipped, rest, rfl, hskipped, hn, -⟩ := List.filter_eq_cons_iff.mp hvis
      have hsame : MemberEnumeration.names (h₁.obj o).members =
          MemberEnumeration.names (h.obj o).members := by
        rw [hm.names, hcopied.same.members]
      refine ⟨hm.sound, hsame.trans hp.names, ⟨passed ++ skipped ++ [n], rest, ?_, ⟨_, rfl⟩, ?_⟩, ?_⟩
      · rw [hsame, hms]
        simp
      · have hnone : visible skipped = [] := List.filter_eq_nil_iff.mpr hskipped
        have hself : visible [n] = [n] := List.filter_cons_of_pos hn
        rw [List.map_append, ← hvisited]
        simp only [visible, List.filter_append] at hnone hself ⊢
        rw [hnone, hself]
        simp
      · intro x hx
        rcases List.mem_append.mp hx with hx | hx
        · exact hp.current x hx
        · rw [List.mem_singleton.mp hx]
          exact hlookup

/-- A hidden member between two visible ones; one was deleted. -/
def mixedTable : List Edit :=
  [.add ("a", .int 1), .add ("b", .int 2), .add ("__get", .bool true), .delete "b",
    .add ("c", .object 1)]

def mixed : Heap :=
  (((diNewObject (diNewObject {}).2).2.insertMember 0 "a" (.int 1)).insertMember 0 "__get"
    (.bool true)).insertMember 0 "c" (.object 1)

theorem mixed_sound : Sound 0 mixed where
  counted := by
    have hnew := Settled.empty.counted.newObject.newObject
    refine ⟨pend (fun _ => 0) [.strong 0], ?_⟩
    apply Counted.insertMember _ (show 0 < 2 by decide)
    apply Counted.insertMember _ (show 0 < 2 by decide)
    apply Counted.insertMember _ (show 0 < 2 by decide)
    simp only [DiValue.refs, pend_nil]
    exact hnew
  alive := by decide

end

end Deai.MemberEnumeration
