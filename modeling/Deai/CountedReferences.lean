import Deai.ObjectHeap
import Deai.Fallible

/-!
# Which functions count which references

`di_scan_type`, `di_copy_value` and `di_free_value` walk over the same values, each with its own
cases. The first tells the collector which objects a value refers to, the other two take and drop
the references. They agree on all types but one: the collector does not look behind
`DI_TYPE_EMPTY_OBJECT`, a reference that is counted like any other.
-/
namespace Deai.CountedReferences
open Value ObjectHeap Fallible

mutual
/-- The objects that a value refers to as `DI_TYPE_EMPTY_OBJECT`. -/
def emptyObjects : DiValue → List ObjRef
  | .emptyObject o => [o]
  | .array _ es => emptyObjectsList es
  | .tuple es => emptyObjectsList es
  | .variant v => emptyObjects v
  | _ => []

def emptyObjectsList : List DiValue → List ObjRef
  | [] => []
  | v :: vs => emptyObjects v ++ emptyObjectsList vs
end

/-- The three walks agree that the objects of `s` are those the value refers to: they are what
the hook of `di_scan_type` gets, each copy adds them to the counts, and whenever a value is freed
without an object being destroyed, they are what the counts lose. -/
structure Agree (v : DiValue) (s : Multiset ObjRef) : Prop where
  scan : diScanType (fun o s => .ok (o ::ₘ s)) v 0 = (.ok s : Except Fault (Multiset ObjRef))
  copy : ∀ h h', diCopyValue v h = .ok h' →
    ∀ o, (h'.obj o).refCount = (h.obj o).refCount + s.count o
  free : ∀ fuel h h', diFreeValue (diUnrefObject fuel) v h = .ok h' →
    (∀ o, (h'.obj o).destroyed = (h.obj o).destroyed) →
    ∀ o, (h.obj o).refCount = (h'.obj o).refCount + s.count o

/-! ## The walks as lists of references -/

mutual
theorem count_refs (v : DiValue) (o : ObjRef) :
    v.refs.count (.strong o) = v.scanned.count o + (emptyObjects v).count o := by
  cases v with
  | array _ es => simpa only [DiValue.refs, DiValue.scanned, emptyObjects] using count_refsList es o
  | tuple es => simpa only [DiValue.refs, DiValue.scanned, emptyObjects] using count_refsList es o
  | variant v => simpa only [DiValue.refs, DiValue.scanned, emptyObjects] using count_refs v o
  | object p | emptyObject p =>
      simp [DiValue.refs, DiValue.scanned, emptyObjects, List.count_cons]
  | nil | bool _ | nint _ | nuint _ | int _ | uint _ | float _ | pointer _ | string _
  | stringLiteral _ | weakObject _ =>
      simp [DiValue.refs, DiValue.scanned, emptyObjects]

theorem count_refsList (vs : List DiValue) (o : ObjRef) :
    (DiValue.refsList vs).count (.strong o) =
      (DiValue.scannedList vs).count o + (emptyObjectsList vs).count o := by
  match vs with
  | [] => rfl
  | v :: vs =>
      simp only [DiValue.refsList, DiValue.scannedList, emptyObjectsList, List.count_append,
        count_refs v o, count_refsList vs o]
      omega
end

theorem foldlM_cons (xs : List ObjRef) (s : Multiset ObjRef) :
    xs.foldlM (fun s o => .ok (o ::ₘ s)) s = (.ok (↑xs + s) : Except Fault (Multiset ObjRef)) := by
  induction xs generalizing s with
  | nil => rw [Multiset.coe_nil, Multiset.zero_add]; rfl
  | cons x xs ih =>
      rw [List.foldlM_cons, ok_bind, ih, ← Multiset.cons_coe, Multiset.cons_add,
        Multiset.add_cons]

/-- What `di_scan_type` passes to its hook. -/
theorem diScanType_multiset (v : DiValue) :
    diScanType (fun o s => .ok (o ::ₘ s)) v 0 =
      (.ok (v.scanned : Multiset ObjRef) : Except Fault (Multiset ObjRef)) := by
  rw [diScanType_eq, foldlM_cons, Multiset.add_zero]

/-! ## Taking references -/

/-- An object that has been given the references of `rs` to it. -/
def counted (rs : List Ref) (o : ObjRef) (x : DiObject) : DiObject :=
  {x with
    refCount := x.refCount + rs.count (.strong o)
    weakRefCount := x.weakRefCount + rs.count (.weak o)}

@[simp] theorem counted_nil (o : ObjRef) (x : DiObject) : counted [] o x = x := rfl

theorem counted_cons (r : Ref) (rs : List Ref) (o : ObjRef) (x : DiObject) :
    counted (r :: rs) o x = counted rs o (counted [r] o x) := by
  simp only [counted, List.count_cons, List.count_nil]
  congr 1 <;> omega

theorem counted_of_ne {r : Ref} {o : ObjRef} (hne : o ≠ r.target) (x : DiObject) :
    counted [r] o x = x := by
  cases r with
  | strong p | weak p =>
      have hp : p ≠ o := fun h => hne h.symm
      simp [counted, hp]

/-- One reference is taken to an object whose memory is there. -/
theorem takeRef {r : Ref} {h : Heap} (hf : (h.obj r.target).freed = false) :
    onRef diRefObject diWeaklyRefObject h r =
      .ok {h with obj := fun o => counted [r] o (h.obj o)} := by
  have hobj : Function.update h.obj r.target (counted [r] r.target (h.obj r.target)) =
      fun o => counted [r] o (h.obj o) := by
    funext o
    by_cases ho : o = r.target
    · rw [ho, Function.update_self]
    · rw [Function.update_of_ne ho, counted_of_ne ho]
  rw [← hobj]
  cases r with
  | strong p =>
      rw [onRef, diRefObject, Heap.deref_ok (o := p) hf, ok_bind]
      simp [Heap.modify, counted, Ref.target]
  | weak p =>
      rw [onRef, diWeaklyRefObject, Heap.deref_ok (o := p) hf, ok_bind]
      simp [Heap.modify, counted, Ref.target]

theorem takeRef_freed {r : Ref} {h h' : Heap}
    (hrun : onRef diRefObject diWeaklyRefObject h r = .ok h') :
    (h.obj r.target).freed = false := by
  cases hf : (h.obj r.target).freed with
  | false => rfl
  | true => cases r <;>
      simp_all [onRef, diRefObject, diWeaklyRefObject, Heap.deref, Ref.target, bind, Except.bind]

theorem takeRefs_iff (rs : List Ref) (h h' : Heap) :
    rs.foldlM (onRef diRefObject diWeaklyRefObject) h = .ok h' ↔
      (∀ r ∈ rs, (h.obj r.target).freed = false) ∧
        h' = {h with obj := fun o => counted rs o (h.obj o)} := by
  induction rs generalizing h with
  | nil =>
      simp only [List.foldlM_nil, counted_nil, List.not_mem_nil, false_imp_iff, implies_true,
        true_and]
      exact ⟨fun hrun => (Except.ok.inj hrun).symm, fun heq => congrArg _ heq.symm⟩
  | cons r rs ih =>
      rw [List.foldlM_cons]
      constructor
      · intro hrun
        obtain ⟨t, ht, hrest⟩ := bind_eq_ok hrun
        have hf := takeRef_freed ht
        rw [takeRef hf] at ht
        cases ht
        obtain ⟨hfs, rfl⟩ := (ih _).mp hrest
        refine ⟨List.forall_mem_cons.mpr ⟨hf, hfs⟩, ?_⟩
        simp only [← counted_cons]
      · rintro ⟨hfs, rfl⟩
        rw [takeRef (hfs r List.mem_cons_self), ok_bind, ih]
        refine ⟨fun q hq => hfs q (List.mem_cons_of_mem r hq), ?_⟩
        simp only [← counted_cons]

/-- A value can be copied as long as the memory of all its objects is there, and then each of
its references counts once more. -/
theorem diCopyValue_iff (v : DiValue) (h h' : Heap) :
    diCopyValue v h = .ok h' ↔ (∀ r ∈ v.refs, (h.obj r.target).freed = false) ∧
      h' = {h with obj := fun o => counted v.refs o (h.obj o)} := by
  rw [diCopyValue, forRefs_eq, takeRefs_iff]

/-! ## Dropping references -/

/-- No object comes back from destruction. -/
def Lasting (h h' : Heap) : Prop :=
  ∀ x, (h.obj x).destroyed = true → (h'.obj x).destroyed = true

theorem Lasting.of_eq {h h' : Heap} (hd : ∀ x, (h'.obj x).destroyed = (h.obj x).destroyed) :
    Lasting h h' := fun x hx => (hd x).trans hx

theorem Lasting.trans {h₁ h₂ h₃ : Heap} (h₁₂ : Lasting h₁ h₂) (h₂₃ : Lasting h₂ h₃) :
    Lasting h₁ h₃ := fun x hx => h₂₃ x (h₁₂ x hx)

theorem foldlM_lasting {α : Type*} {f : Heap → α → Except Fault Heap}
    (hf : ∀ h h' x, f h x = .ok h' → Lasting h h') {xs : List α} {h h' : Heap}
    (hrun : xs.foldlM f h = .ok h') : Lasting h h' := by
  induction xs generalizing h with
  | nil =>
      cases hrun
      exact fun _ hx => hx
  | cons x xs ih =>
      rw [List.foldlM_cons] at hrun
      obtain ⟨t, ht, hrest⟩ := bind_eq_ok hrun
      exact (hf h t x ht).trans (ih hrest)

/-- Dropping a weak reference destroys nothing and leaves the reference counts alone. -/
theorem dropWeakRef_same {o : ObjRef} {h h' : Heap} (hrun : diDropWeakRef o h = .ok h')
    (x : ObjRef) : (h'.obj x).destroyed = (h.obj x).destroyed ∧
      (h'.obj x).refCount = (h.obj x).refCount := by
  obtain ⟨y, -, hrest⟩ := bind_eq_ok hrun
  split_ifs at hrest
  · cases hrest
    refine ⟨?_, ?_⟩ <;> simp only [Heap.record_obj, Heap.modify_obj] <;> split_ifs <;> rfl
  · cases hrest
    refine ⟨?_, ?_⟩ <;> simp only [Heap.modify_obj] <;> split_ifs <;> rfl

theorem diFreeValue_lasting {unref : ObjRef → Heap → Except Fault Heap}
    (hunref : ∀ o h h', unref o h = .ok h' → Lasting h h') {v : DiValue} {h h' : Heap}
    (hrun : diFreeValue unref v h = .ok h') : Lasting h h' := by
  rw [diFreeValue, forRefs_eq] at hrun
  refine foldlM_lasting (fun g g' r hr => ?_) hrun
  cases r with
  | strong o => exact hunref o g g' hr
  | weak o => exact .of_eq fun x => (dropWeakRef_same hr x).1

theorem diDestroyObject_lasting {unref : ObjRef → Heap → Except Fault Heap}
    (hunref : ∀ o h h', unref o h = .ok h' → Lasting h h') {o : ObjRef} {h h' : Heap}
    (hrun : diDestroyObject unref o h = .ok h') :
    Lasting h h' ∧ (h'.obj o).destroyed = true := by
  obtain ⟨y, -, hrest⟩ := bind_eq_ok hrun
  split_ifs at hrest with hcount
  all_goals
    obtain ⟨t, ht, hweak⟩ := bind_eq_ok hrest
    -- the finalization begins with the object marked as destroyed
    have hfinal := foldlM_lasting (fun g g' m hm => .trans
      (.of_eq fun x => Heap.modify_same (·.destroyed) g o rfl x)
      (diFreeValue_lasting hunref hm)) ht
    have hend : Lasting t h' := .of_eq fun x => (dropWeakRef_same hweak x).1
    have hall := hfinal.trans hend
    refine ⟨fun x hx => hall x ?_, hall o ?_⟩
  all_goals
    unfold callDtor
    split_ifs <;> simp [Heap.modify_obj]
  all_goals
    split_ifs <;> simp_all

/-- `o` with one reference less. -/
def lowered (h : Heap) (o : ObjRef) : Heap :=
  h.modify o fun x => {x with refCount := x.refCount - 1}

theorem diUnrefObject_cases {fuel : ℕ} {o : ObjRef} {h h' : Heap}
    (hrun : diUnrefObject (fuel + 1) o h = .ok h') :
    0 < (h.obj o).refCount ∧ (h.obj o).destroyed = false ∧
      (diDestroyObject (diUnrefObject fuel) o ((lowered h o).listDelInit o) = .ok h' ∨
        h'.obj = (lowered h o).obj) := by
  obtain ⟨y, hy, hrest⟩ := bind_eq_ok hrun
  unfold Heap.deref at hy
  split_ifs at hy
  cases hy
  split_ifs at hrest with hzero halive _ hlast
  · exact ⟨Nat.pos_of_ne_zero hzero, Bool.eq_false_iff.mpr halive, .inl hrest⟩
  · refine ⟨Nat.pos_of_ne_zero hzero, Bool.eq_false_iff.mpr halive, .inr ?_⟩
    dsimp only at hrest
    split at hrest <;> cases hrest <;> rfl

theorem diUnrefObject_lasting (fuel : ℕ) {o : ObjRef} {h h' : Heap}
    (hrun : diUnrefObject fuel o h = .ok h') : Lasting h h' := by
  induction fuel generalizing o h h' with
  | zero => cases hrun
  | succ fuel ih =>
      have hsame : ∀ x, ((lowered h o).obj x).destroyed = (h.obj x).destroyed :=
        h.modify_same (·.destroyed) o rfl
      rcases (diUnrefObject_cases hrun).2.2 with hdestroy | hobj
      · exact .trans (.of_eq hsame) (diDestroyObject_lasting (fun _ _ _ hr => ih hr) hdestroy).1
      · exact .of_eq fun x => (congrArg (·.destroyed) (congrFun hobj x)).trans (hsame x)

/-- A reference that is dropped without a destruction counts no longer. -/
theorem diUnrefObject_counted {fuel : ℕ} {o : ObjRef} {h h' : Heap}
    (hrun : diUnrefObject fuel o h = .ok h') (halive : (h'.obj o).destroyed = false) (x : ObjRef) :
    (h.obj x).refCount = (h'.obj x).refCount + [Ref.strong o].count (.strong x) := by
  cases fuel with
  | zero => cases hrun
  | succ fuel =>
      obtain ⟨hpos, -, hdestroy | hobj⟩ := diUnrefObject_cases hrun
      · -- the last reference: the object is destroyed
        have hdead := (diDestroyObject_lasting
          (fun _ _ _ hr => diUnrefObject_lasting fuel hr) hdestroy).2
        rw [hdead] at halive
        cases halive
      · rw [hobj, lowered, Heap.modify_obj]
        split_ifs with hx
        · subst hx
          simp only [List.count_singleton_self]
          omega
        · have hne : o ≠ x := fun h => hx h.symm
          simp [hne]

theorem dropRefs_counted {fuel : ℕ} {rs : List Ref} {h h' : Heap}
    (hrun : rs.foldlM (onRef (diUnrefObject fuel) diDropWeakRef) h = .ok h')
    (hnone : ∀ x, (h'.obj x).destroyed = (h.obj x).destroyed) (x : ObjRef) :
    (h.obj x).refCount = (h'.obj x).refCount + rs.count (.strong x) := by
  have hlasts : ∀ g g' r, onRef (diUnrefObject fuel) diDropWeakRef g r = .ok g' →
      Lasting g g' := by
    intro g g' r hr
    cases r with
    | strong o => exact diUnrefObject_lasting fuel hr
    | weak o => exact .of_eq fun x => (dropWeakRef_same hr x).1
  induction rs generalizing h with
  | nil =>
      cases hrun
      rfl
  | cons r rs ih =>
      rw [List.foldlM_cons] at hrun
      obtain ⟨t, ht, hrest⟩ := bind_eq_ok hrun
      have hlater := foldlM_lasting hlasts hrest
      -- nothing is destroyed now, since it would still be destroyed at the end
      have hnow : ∀ y, (t.obj y).destroyed = (h.obj y).destroyed := by
        intro y
        cases hd : (h.obj y).destroyed with
        | true => exact hlasts h t r ht y hd
        | false =>
            by_contra hne
            have hy := hlater y (by simpa using hne)
            rw [hnone y, hd] at hy
            cases hy
      have hlen := ih hrest fun y => (hnone y).trans (hnow y).symm
      rw [List.count_cons]
      cases r with
      | weak o =>
          rw [← (dropWeakRef_same ht x).2]
          simpa using hlen
      | strong o =>
          have halive : (t.obj o).destroyed = false := by
            cases fuel with
            | zero => cases ht
            | succ fuel => rw [hnow o, (diUnrefObject_cases ht).2.1]
          have hstep := diUnrefObject_counted ht halive x
          rw [List.count_singleton] at hstep
          omega

/-! ## Where the walks agree -/

/-- A value that counts its references as the collector sees them has no reference that the
collector does not see. -/
theorem Agree.emptyObjects {v : DiValue} {s : Multiset ObjRef} (ha : Agree v s) :
    emptyObjects v = [] := by
  have hs : s = (v.scanned : Multiset ObjRef) := by
    have hscan := ha.scan
    rw [diScanType_multiset] at hscan
    exact (Except.ok.inj hscan).symm
  -- copy the value where the memory of every object is there
  have hcopy := ha.copy {obj := fun _ => {}} _ ((diCopyValue_iff v _ _).mpr ⟨fun _ _ => rfl, rfl⟩)
  refine List.eq_nil_iff_forall_not_mem.mpr fun o ho => ?_
  have hcount := hcopy o
  rw [hs, Multiset.coe_count] at hcount
  simp only [counted, count_refs] at hcount
  have hpos := List.count_pos_iff.mpr ho
  omega

theorem agree_of_emptyObjects {v : DiValue} (hnone : emptyObjects v = []) :
    Agree v (v.scanned : Multiset ObjRef) where
  scan := diScanType_multiset v
  copy h h' hrun o := by
    obtain ⟨-, rfl⟩ := (diCopyValue_iff v h h').mp hrun
    simp only [counted, count_refs, hnone, List.count_nil, Nat.add_zero, Multiset.coe_count]
  free fuel h h' hrun halive o := by
    rw [diFreeValue, forRefs_eq] at hrun
    rw [dropRefs_counted hrun halive o, count_refs, hnone, List.count_nil, Nat.add_zero,
      Multiset.coe_count]

/-- The collector sees the references of a value that are counted, each as often as it counts,
exactly if none of them is a `DI_TYPE_EMPTY_OBJECT`. -/
theorem counted_references_seen_iff (v : DiValue) :
    (∃ s, Agree v s) ↔ emptyObjects v = [] := by
  constructor
  · rintro ⟨s, ha⟩
    exact ha.emptyObjects
  · exact fun hnone => ⟨_, agree_of_emptyObjects hnone⟩

/-- What an empty Lua table becomes: copies of it are counted, but the collector does not see
the reference. -/
theorem counted_reference_unseen : ¬ ∃ s, Agree (.emptyObject 0) s := by
  rintro ⟨s, ha⟩
  exact absurd ha.emptyObjects (List.cons_ne_nil 0 [])

end Deai.CountedReferences
