import Deai.CountedReferences
import Deai.OwnedConversion
import Deai.GarbageCollection

/-!
# Copying values with their memory

`di_copy_value` and `di_free_value` on values that come with the blocks of memory they lie in. The
copy gets blocks of its own for everything but the objects and the string literals, and freeing it
gives back exactly these. Their effect on the counts is the walk over the references that the heap
of objects knows already.

`di_copy_value` asserts that the elements of an array that is not empty have a size, so it refuses
arrays of nil. The loops over elements count with an `int`; counting past its end is undefined.
`live` are the blocks that values outside of the member tables lie in. Allocation always succeeds.
-/
namespace Deai.CopiedStorage
open Value ObjectHeap Accounting GarbageCollection OwnedConversion CountedReferences Fallible

/-- How a copy or a release can go wrong: a fault of the object heap, a failed assertion or
`DI_CHECK`, a call of `abort`, memory that is freed though it is not in use, and a counter past
the largest `int`. -/
inductive Trap where
  | heap (f : Fault)
  | assertion
  | check
  | abort
  | badFree
  | counterOverflow

/-- `malloc` returns memory that is not in use. For a size of 0 it may also return null. -/
structure Allocator where
  fresh : Finset Block → Block
  fresh_notMem : ∀ live, fresh live ∉ live
  zeroSized : Bool

structure Memory where
  heap : Heap
  live : Finset Block

def onHeap (m : Memory) (run : Heap → Except Fault Heap) : Except Trap Memory :=
  match run m.heap with
  | .ok h => .ok {m with heap := h}
  | .error f => .error (.heap f)

def malloc (A : Allocator) (size : ℕ) (m : Memory) : Option Block × Memory :=
  if size = 0 ∧ A.zeroSized = false then (none, m)
  else (some (A.fresh m.live), {m with live := insert (A.fresh m.live) m.live})

/-- Freeing a null pointer does nothing. -/
def free (p : Option Block) (m : Memory) : Except Trap Memory :=
  match p with
  | none => .ok m
  | some b => if b ∈ m.live then .ok {m with live := m.live.erase b} else .error .badFree

def diSizeofType : DiType → Except Trap ℕ
  | .nil => .ok 0
  | .any | .lastType => .error .abort
  | .array => .ok 24
  | .tuple | .variant | .string => .ok 16
  | .float | .uint | .int | .stringLiteral | .object | .emptyObject | .pointer | .weakObject => .ok 8
  | .nuint | .nint => .ok 4
  | .bool => .ok 1

/-- `++i` for an `int`. -/
def increment (i : ℕ) : Except Trap ℕ :=
  if i + 1 < 2 ^ 31 then .ok (i + 1) else .error .counterOverflow

/-- `assert(t == DI_TYPE_NIL || (dst && src))`. The memory that `dst` points into has just been
allocated. -/
def checkSource (t : DiType) (src : Option Block) : Except Trap Unit :=
  if t = .nil ∨ src.isSome then .ok () else .error .assertion

mutual
/-- `di_copy_value` -/
def diCopyValue (A : Allocator) : Owned → Memory → Except Trap (Owned × Memory)
  | .array t arr [], m => .ok (.array t arr [], m)
  | .array t arr es, m => do
      let size ← diSizeofType t
      if size = 0 then .error .assertion
      else do
        let d := malloc A (es.length * size) m
        let r ← copyElements A arr 0 es d.2
        .ok (.array t d.1 r.1, r.2)
  | .tuple elements cs, m => do
      let d := malloc A (cs.length * 16) m
      let r ← copyCells A elements 0 cs d.2
      .ok (.tuple d.1 r.1, r.2)
  | .variant value v, m => do
      let size ← diSizeofType v.type
      let d := malloc A size m
      let _ ← checkSource v.type value
      let r ← diCopyValue A v d.2
      .ok (.variant d.1 r.1, r.2)
  | .string _ s, m =>
      let d := malloc A s.utf8ByteSize m
      .ok (.string d.1 s, d.2)
  | .emptyObject o, m => do
      let m ← onHeap m (diRefObject o)
      .ok (.emptyObject o, m)
  | .object o, m => do
      let m ← onHeap m (diRefObject o)
      .ok (.object o, m)
  | .weakObject o, m => do
      let m ← onHeap m (diWeaklyRefObject o)
      .ok (.weakObject o, m)
  | .scalar s, m => .ok (.scalar s, m)

/-- The loop over an array. -/
def copyElements (A : Allocator) (arr : Option Block) :
    ℕ → List Owned → Memory → Except Trap (List Owned × Memory)
  | _, [], m => .ok ([], m)
  | i, v :: vs, m => do
      let _ ← checkSource v.type arr
      let r ← diCopyValue A v m
      let i ← increment i
      let q ← copyElements A arr i vs r.2
      .ok (r.1 :: q.1, q.2)

/-- The loop over a tuple: each element is copied as a variant. -/
def copyCells (A : Allocator) (elements : Option Block) :
    ℕ → List (Option Block × Owned) → Memory → Except Trap (List (Option Block × Owned) × Memory)
  | _, [], m => .ok ([], m)
  | i, (value, v) :: cs, m => do
      let _ ← checkSource .variant elements
      let size ← diSizeofType v.type
      let d := malloc A size m
      let _ ← checkSource v.type value
      let r ← diCopyValue A v d.2
      let i ← increment i
      let q ← copyCells A elements i cs r.2
      .ok ((d.1, r.1) :: q.1, q.2)
end

mutual
/-- `di_free_value` -/
def diFreeValue (fuel : ℕ) : Owned → Memory → Except Trap Memory
  | .array t arr es, m =>
      if es.length = 0 then
        if arr = none then .ok m else .error .check
      else do
        let _ ← diSizeofType t
        let m ← freeElements fuel 0 es m
        free arr m
  | .tuple elements cs, m => do
      let m ← freeCells fuel 0 cs m
      free elements m
  | .variant value v, m => do
      let m ← diFreeValue fuel v m
      free value m
  | .string data _, m => free data m
  | .object o, m => onHeap m (diUnrefObject fuel o)
  | .emptyObject o, m => onHeap m (diUnrefObject fuel o)
  | .weakObject o, m => onHeap m (diDropWeakRef o)
  | .scalar _, m => .ok m

/-- The loop of `di_free_array`. -/
def freeElements (fuel : ℕ) : ℕ → List Owned → Memory → Except Trap Memory
  | _, [], m => .ok m
  | i, v :: vs, m => do
      let m ← diFreeValue fuel v m
      let i ← increment i
      freeElements fuel i vs m

/-- The loop of `di_free_tuple`. -/
def freeCells (fuel : ℕ) : ℕ → List (Option Block × Owned) → Memory → Except Trap Memory
  | _, [], m => .ok m
  | i, (value, v) :: cs, m => do
      let m ← diFreeValue fuel v m
      let m ← free value m
      let i ← increment i
      freeCells fuel i cs m
end

def Resource.block? : Resource → Option Block
  | .block b => some b
  | .ref _ => none

/-- The blocks that freeing the value releases. -/
def blocks (w : Owned) : List Block := w.resources.filterMap Resource.block?

def blocksList (es : List Owned) : List Block :=
  (Owned.resourcesList es).filterMap Resource.block?

def blocksCells (cs : List (Option Block × Owned)) : List Block :=
  (Owned.resourcesCells cs).filterMap Resource.block?

mutual
/-- Only what has no size lies behind a null pointer. -/
def Stored : Owned → Prop
  | .array t arr es => (es ≠ [] → t ≠ .nil → arr.isSome) ∧ StoredList es
  | .tuple elements cs => (cs ≠ [] → elements.isSome) ∧ StoredCells cs
  | .variant value v => (v.type ≠ .nil → value.isSome) ∧ Stored v
  | _ => True

def StoredList : List Owned → Prop
  | [] => True
  | v :: vs => Stored v ∧ StoredList vs

def StoredCells : List (Option Block × Owned) → Prop
  | [] => True
  | (value, v) :: cs => (v.type ≠ .nil → value.isSome) ∧ Stored v ∧ StoredCells cs
end

mutual
/-- No array of nil has elements, and an `int` counts the elements of each array and tuple. -/
def Copyable : DiValue → Prop
  | .array t es => (t = .nil → es = []) ∧ es.length < 2 ^ 31 ∧ CopyableList es
  | .tuple es => es.length < 2 ^ 31 ∧ CopyableList es
  | .variant v => Copyable v
  | _ => True

def CopyableList : List DiValue → Prop
  | [] => True
  | v :: vs => Copyable v ∧ CopyableList vs
end

@[simp] theorem filterMap_block (p : Option Block) :
    (block p).filterMap Resource.block? = p.toList := by
  cases p <;> rfl

@[simp] theorem blocks_scalar (s : Scalar) : blocks (.scalar s) = [] := rfl
@[simp] theorem blocks_emptyObject (o : ObjRef) : blocks (.emptyObject o) = [] := rfl
@[simp] theorem blocks_object (o : ObjRef) : blocks (.object o) = [] := rfl
@[simp] theorem blocks_weakObject (o : ObjRef) : blocks (.weakObject o) = [] := rfl
@[simp] theorem blocksList_nil : blocksList [] = [] := rfl
@[simp] theorem blocksCells_nil : blocksCells [] = [] := rfl

@[simp] theorem blocks_string (p : Option Block) (s : String) : blocks (.string p s) = p.toList :=
  filterMap_block p

@[simp] theorem blocks_array (t : DiType) (p : Option Block) (es : List Owned) :
    blocks (.array t p es) = blocksList es ++ p.toList := by
  simp [blocks, blocksList, Owned.resources]

@[simp] theorem blocks_tuple (p : Option Block) (cs : List (Option Block × Owned)) :
    blocks (.tuple p cs) = blocksCells cs ++ p.toList := by
  simp [blocks, blocksCells, Owned.resources]

@[simp] theorem blocks_variant (p : Option Block) (v : Owned) :
    blocks (.variant p v) = blocks v ++ p.toList := by
  simp [blocks, Owned.resources]

@[simp] theorem blocksList_cons (v : Owned) (vs : List Owned) :
    blocksList (v :: vs) = blocks v ++ blocksList vs := by
  simp [blocks, blocksList, Owned.resourcesList]

@[simp] theorem blocksCells_cons (p : Option Block) (v : Owned) (cs : List (Option Block × Owned)) :
    blocksCells ((p, v) :: cs) = blocks v ++ p.toList ++ blocksCells cs := by
  simp [blocks, blocksCells, Owned.resourcesCells]

/-- Blocks that were not in use, each named once. -/
structure Fresh (live : Finset Block) (bs : List Block) : Prop where
  nodup : bs.Nodup
  notMem : ∀ b ∈ bs, b ∉ live

theorem Fresh.nil (live : Finset Block) : Fresh live [] := ⟨List.nodup_nil, by simp⟩

theorem Fresh.append {live : Finset Block} {bs cs : List Block} (hb : Fresh live bs)
    (hc : Fresh (live ∪ bs.toFinset) cs) : Fresh live (bs ++ cs) := by
  have hsep : ∀ b ∈ cs, b ∉ live ∧ b ∉ bs := by
    intro b hbc
    have hn := hc.notMem b hbc
    rw [Finset.mem_union, List.mem_toFinset] at hn
    exact not_or.mp hn
  refine ⟨List.nodup_append'.mpr ⟨hb.nodup, hc.nodup, fun b hbs hcs => (hsep b hcs).2 hbs⟩, ?_⟩
  intro b hbc
  rcases List.mem_append.mp hbc with hbs | hcs
  · exact hb.notMem b hbs
  · exact (hsep b hcs).1

theorem Fresh.comm {live : Finset Block} {bs cs : List Block} (h : Fresh live (bs ++ cs)) :
    Fresh live (cs ++ bs) :=
  ⟨List.nodup_append_comm.mp h.nodup, fun b hb => h.notMem b (List.mem_append.mpr
    (List.mem_append.mp hb).symm)⟩

theorem malloc_spec (A : Allocator) (size : ℕ) (m : Memory) :
    ∃ p, malloc A size m = (p, ⟨m.heap, m.live ∪ p.toList.toFinset⟩) ∧ Fresh m.live p.toList := by
  unfold malloc
  split_ifs
  · exact ⟨none, by simp, .nil m.live⟩
  · exact ⟨some (A.fresh m.live), by simp, List.nodup_singleton _, by
      simpa using A.fresh_notMem m.live⟩

theorem free_eq {p : Option Block} {m : Memory} (hp : ∀ b ∈ p.toList, b ∈ m.live) :
    free p m = .ok ⟨m.heap, m.live \ p.toList.toFinset⟩ := by
  cases p with
  | none => simp [free]
  | some b =>
      rw [free, if_pos (hp b (by simp))]
      simp [Finset.sdiff_singleton_eq_erase]

theorem increment_eq {i : ℕ} (hi : i + 1 < 2 ^ 31) : increment i = .ok (i + 1) := if_pos hi

theorem checkSource_eq {t : DiType} {src : Option Block} (hsrc : t ≠ .nil → src.isSome) :
    checkSource t src = .ok () := by
  refine if_pos ?_
  by_cases ht : t = .nil
  · exact .inl ht
  · exact .inr (hsrc ht)

theorem onHeap_eq {m : Memory} (run : Heap → Except Fault Heap) {h : Heap}
    (hrun : run m.heap = .ok h) : onHeap m run = .ok ⟨h, m.live⟩ := by
  rw [onHeap, hrun]

/-- The type of a value has a size, and only nil has the size 0. -/
theorem diSizeofType_type (w : Owned) :
    ∃ size, diSizeofType w.type = .ok size ∧ (size = 0 → w.type = .nil) := by
  cases w with
  | scalar s => cases s <;> exact ⟨_, rfl, by simp [Owned.type, Owned.erase, Scalar.erase,
      Conversion.typeOf]⟩
  | emptyObject _ | object _ | weakObject _ | string _ _ | array _ _ _ | tuple _ _ | variant _ _ =>
      exact ⟨_, rfl, by simp⟩

theorem union_append (live : Finset Block) (bs cs : List Block) :
    live ∪ bs.toFinset ∪ cs.toFinset = live ∪ (bs ++ cs).toFinset := by
  rw [List.toFinset_append, Finset.union_assoc]

theorem toFinset_append_comm (bs cs : List Block) : (bs ++ cs).toFinset = (cs ++ bs).toFinset := by
  rw [List.toFinset_append, List.toFinset_append, Finset.union_comm]

/-- The types of elements are those of equal elements. -/
theorem types_of_erase {t : DiType} {es es' : List Owned}
    (herase : Owned.eraseList es' = Owned.eraseList es) (htype : ∀ e ∈ es, e.type = t) :
    ∀ e ∈ es', e.type = t := by
  rw [eraseList_eq, eraseList_eq] at herase
  intro e he
  have hmem := List.mem_map_of_mem (f := Owned.erase) he
  rw [herase, List.mem_map] at hmem
  obtain ⟨x, hx, heq⟩ := hmem
  rw [Owned.type, ← heq]
  exact htype x hx

theorem eraseList_ne_nil {es es' : List Owned}
    (herase : Owned.eraseList es' = Owned.eraseList es) (hne : es ≠ []) : es' ≠ [] := by
  rintro rfl
  rw [eraseList_eq, eraseList_eq, List.map_nil, eq_comm, List.map_eq_nil_iff] at herase
  exact hne herase

/-! ## Copying -/

/-- A copy of `w`: an equal value, in blocks of its own. -/
structure Copy (live : Finset Block) (w w' : Owned) : Prop where
  erase : w'.erase = w.erase
  wellFormed : w'.WellFormed
  fresh : Fresh live (blocks w')

mutual
theorem diCopyValue_spec (A : Allocator) {w : Owned} (hwf : w.WellFormed) (hst : Stored w)
    (hc : Copyable w.erase) {m : Memory} {h' : Heap}
    (hrun : ObjectHeap.diCopyValue w.erase m.heap = .ok h') :
    ∃ w', diCopyValue A w m = .ok (w', ⟨h', m.live ∪ (blocks w').toFinset⟩) ∧
      Copy m.live w w' := by
  cases w with
  | scalar s =>
      have hh : h' = m.heap := by
        cases s <;> exact (Except.ok.inj hrun).symm
      subst hh
      refine ⟨.scalar s, ?_, rfl, trivial, .nil _⟩
      rw [diCopyValue]
      simp
  | emptyObject o =>
      refine ⟨.emptyObject o, ?_, rfl, trivial, .nil _⟩
      rw [diCopyValue, onHeap_eq (diRefObject o) hrun, ok_bind]
      simp
  | object o =>
      refine ⟨.object o, ?_, rfl, trivial, .nil _⟩
      rw [diCopyValue, onHeap_eq (diRefObject o) hrun, ok_bind]
      simp
  | weakObject o =>
      refine ⟨.weakObject o, ?_, rfl, trivial, .nil _⟩
      rw [diCopyValue, onHeap_eq (diWeaklyRefObject o) hrun, ok_bind]
      simp
  | string p s =>
      cases hrun
      obtain ⟨d, hd, hfresh⟩ := malloc_spec A s.utf8ByteSize m
      refine ⟨.string d s, ?_, rfl, trivial, ?_⟩
      · rw [diCopyValue, hd, blocks_string]
      · rwa [blocks_string]
  | array t arr es =>
      obtain ⟨htype, hnull, hes⟩ := hwf
      obtain ⟨hsrc, hstes⟩ := hst
      obtain ⟨hnil, hlen, hces⟩ := hc
      rw [eraseList_eq, List.length_map] at hlen
      by_cases hempty : es = []
      · subst hempty
        cases hrun
        rw [hnull rfl]
        refine ⟨.array t none [], ?_, rfl, ⟨by simp, by simp, trivial⟩, .nil _⟩
        rw [diCopyValue]
        simp
      · have ht : t ≠ .nil := fun ht => hempty (by
          simpa [eraseList_eq] using hnil ht)
        obtain ⟨size, hsize, hpos⟩ : ∃ size, diSizeofType t = .ok size ∧ size ≠ 0 := by
          obtain ⟨e, he⟩ := List.exists_mem_of_ne_nil es hempty
          obtain ⟨size, hsize, hzero⟩ := diSizeofType_type e
          rw [htype e he] at hsize hzero
          exact ⟨size, hsize, fun h0 => ht (hzero h0)⟩
        obtain ⟨d, hd, hdfresh⟩ := malloc_spec A (es.length * size) m
        obtain ⟨es', hcopy, herase, hwf', hfresh⟩ := copyElements_spec A arr (i := 0)
          (fun _ => hsrc hempty ht) hes hstes hces (by omega)
          (m := ⟨m.heap, m.live ∪ d.toList.toFinset⟩) hrun
        have hall := hdfresh.append hfresh
        refine ⟨.array t d es', ?_, by simp only [Owned.erase, herase],
          ⟨types_of_erase herase htype, fun h0 => absurd h0 (eraseList_ne_nil herase hempty), hwf'⟩, ?_⟩
        · rw [diCopyValue.eq_2 _ _ _ _ _ hempty, hsize, ok_bind, if_neg hpos, hd]
          dsimp only
          rw [hcopy, ok_bind, blocks_array, toFinset_append_comm, ← union_append]
        · rw [blocks_array]
          exact hall.comm
  | tuple elements cs =>
      obtain ⟨hsrc, hstcs⟩ := hst
      obtain ⟨hlen, hccs⟩ := hc
      rw [eraseCells_eq, List.length_map] at hlen
      obtain ⟨d, hd, hdfresh⟩ := malloc_spec A (cs.length * 16) m
      obtain ⟨cs', hcopy, herase, hwf', hfresh⟩ := copyCells_spec A elements (i := 0)
        hsrc hwf hstcs hccs (by omega) (m := ⟨m.heap, m.live ∪ d.toList.toFinset⟩) hrun
      have hall := hdfresh.append hfresh
      refine ⟨.tuple d cs', ?_, by simp only [Owned.erase, herase], hwf', ?_⟩
      · rw [diCopyValue, hd]
        dsimp only
        rw [hcopy, ok_bind, blocks_tuple, toFinset_append_comm, ← union_append]
      · rw [blocks_tuple]
        exact hall.comm
  | variant value v =>
      obtain ⟨hsrc, hstv⟩ := hst
      obtain ⟨size, hsize, -⟩ := diSizeofType_type v
      obtain ⟨d, hd, hdfresh⟩ := malloc_spec A size m
      obtain ⟨v', hcopy, hv⟩ := diCopyValue_spec A (w := v) hwf hstv hc
        (m := ⟨m.heap, m.live ∪ d.toList.toFinset⟩) hrun
      have hall := hdfresh.append hv.fresh
      refine ⟨.variant d v', ?_, by simp only [Owned.erase, hv.erase], hv.wellFormed, ?_⟩
      · rw [diCopyValue, hsize, ok_bind, hd]
        dsimp only
        rw [checkSource_eq hsrc, ok_bind, hcopy, ok_bind, blocks_variant, toFinset_append_comm,
          ← union_append]
      · rw [blocks_variant]
        exact hall.comm

theorem copyElements_spec (A : Allocator) (arr : Option Block) {i : ℕ} {es : List Owned}
    (hsrc : es ≠ [] → arr.isSome) (hwf : Owned.WellFormedList es) (hst : StoredList es)
    (hc : CopyableList (Owned.eraseList es)) (hlen : i + es.length < 2 ^ 31) {m : Memory} {h' : Heap}
    (hrun : forRefsList diRefObject diWeaklyRefObject (Owned.eraseList es) m.heap = .ok h') :
    ∃ es', copyElements A arr i es m = .ok (es', ⟨h', m.live ∪ (blocksList es').toFinset⟩) ∧
      Owned.eraseList es' = Owned.eraseList es ∧ Owned.WellFormedList es' ∧
      Fresh m.live (blocksList es') := by
  match es with
  | [] =>
      cases hrun
      refine ⟨[], ?_, rfl, trivial, .nil _⟩
      rw [copyElements]
      simp
  | v :: vs =>
      rw [List.length_cons] at hlen
      obtain ⟨h, hfirst, hrest⟩ := bind_eq_ok hrun
      obtain ⟨v', hcopy, hv⟩ := diCopyValue_spec A hwf.1 hst.1 hc.1 hfirst
      obtain ⟨vs', hcopies, herase, hwf', hfresh⟩ := copyElements_spec A arr (i := i + 1)
        (fun _ => hsrc (List.cons_ne_nil v vs)) hwf.2 hst.2 hc.2 (by omega)
        (m := ⟨h, m.live ∪ (blocks v').toFinset⟩) hrest
      refine ⟨v' :: vs', ?_, by simp only [Owned.eraseList, hv.erase, herase],
        ⟨hv.wellFormed, hwf'⟩, ?_⟩
      · rw [copyElements, checkSource_eq (fun _ => hsrc (List.cons_ne_nil v vs)), ok_bind, hcopy,
          ok_bind, increment_eq (by omega), ok_bind, hcopies, ok_bind, blocksList_cons,
          ← union_append]
      · rw [blocksList_cons]
        exact hv.fresh.append hfresh

theorem copyCells_spec (A : Allocator) (elements : Option Block) {i : ℕ}
    {cs : List (Option Block × Owned)} (hsrc : cs ≠ [] → elements.isSome)
    (hwf : Owned.WellFormedCells cs) (hst : StoredCells cs)
    (hc : CopyableList (Owned.eraseCells cs)) (hlen : i + cs.length < 2 ^ 31) {m : Memory} {h' : Heap}
    (hrun : forRefsList diRefObject diWeaklyRefObject (Owned.eraseCells cs) m.heap = .ok h') :
    ∃ cs', copyCells A elements i cs m = .ok (cs', ⟨h', m.live ∪ (blocksCells cs').toFinset⟩) ∧
      Owned.eraseCells cs' = Owned.eraseCells cs ∧ Owned.WellFormedCells cs' ∧
      Fresh m.live (blocksCells cs') := by
  match cs with
  | [] =>
      cases hrun
      refine ⟨[], ?_, rfl, trivial, .nil _⟩
      rw [copyCells]
      simp
  | (value, v) :: cs =>
      rw [List.length_cons] at hlen
      have helements := hsrc (List.cons_ne_nil _ cs)
      obtain ⟨h, hfirst, hrest⟩ := bind_eq_ok hrun
      obtain ⟨size, hsize, -⟩ := diSizeofType_type v
      obtain ⟨d, hd, hdfresh⟩ := malloc_spec A size m
      obtain ⟨v', hcopy, hv⟩ := diCopyValue_spec A (w := v) hwf.1 hst.2.1 hc.1
        (m := ⟨m.heap, m.live ∪ d.toList.toFinset⟩) hfirst
      obtain ⟨cs', hcopies, herase, hwf', hfresh⟩ := copyCells_spec A elements
        (i := i + 1) (fun _ => helements) hwf.2 hst.2.2 hc.2 (by omega)
        (m := ⟨h, m.live ∪ (blocks v' ++ d.toList).toFinset⟩) hrest
      have hlive : m.live ∪ d.toList.toFinset ∪ (blocks v').toFinset =
          m.live ∪ (blocks v' ++ d.toList).toFinset := by
        rw [union_append, toFinset_append_comm]
      refine ⟨(d, v') :: cs', ?_, by simp only [Owned.eraseCells, hv.erase, herase],
        ⟨hv.wellFormed, hwf'⟩, ?_⟩
      · rw [copyCells, checkSource_eq (fun _ => helements), ok_bind, hsize, ok_bind, hd]
        dsimp only
        rw [checkSource_eq hst.1, ok_bind, hcopy, ok_bind, increment_eq (by omega), ok_bind, hlive,
          hcopies, ok_bind, blocksCells_cons, ← union_append _ (blocks v' ++ d.toList)]
      · rw [blocksCells_cons]
        exact (hdfresh.append hv.fresh).comm.append hfresh
end

/-! ## Freeing -/

theorem sdiff_append (live : Finset Block) (bs cs : List Block) :
    (live \ bs.toFinset) \ cs.toFinset = live \ (bs ++ cs).toFinset := by
  rw [List.toFinset_append, sdiff_sdiff_left, Finset.sup_eq_union]

/-- Blocks that are in use, each named once. -/
structure InUse (live : Finset Block) (bs : List Block) : Prop where
  nodup : bs.Nodup
  mem : ∀ b ∈ bs, b ∈ live

theorem InUse.left {live : Finset Block} {bs cs : List Block} (h : InUse live (bs ++ cs)) :
    InUse live bs :=
  ⟨(List.nodup_append'.mp h.nodup).1, fun b hb => h.mem b (List.mem_append_left cs hb)⟩

theorem InUse.right {live : Finset Block} {bs cs : List Block} (h : InUse live (bs ++ cs)) :
    InUse (live \ bs.toFinset) cs := by
  obtain ⟨-, hcs, hdisjoint⟩ := List.nodup_append'.mp h.nodup
  refine ⟨hcs, fun b hb => Finset.mem_sdiff.mpr ⟨h.mem b (List.mem_append_right bs hb), ?_⟩⟩
  rw [List.mem_toFinset]
  exact fun hbs => hdisjoint hbs hb

mutual
theorem diFreeValue_spec (fuel : ℕ) {w : Owned} (hwf : w.WellFormed) (hc : Copyable w.erase)
    {m : Memory} {h' : Heap} (hblocks : InUse m.live (blocks w))
    (hrun : ObjectHeap.diFreeValue (diUnrefObject fuel) w.erase m.heap = .ok h') :
    diFreeValue fuel w m = .ok ⟨h', m.live \ (blocks w).toFinset⟩ := by
  cases w with
  | scalar s =>
      have hh : h' = m.heap := by
        cases s <;> exact (Except.ok.inj hrun).symm
      rw [diFreeValue, hh]
      simp
  | emptyObject o | object o =>
      rw [diFreeValue, onHeap_eq (diUnrefObject fuel o) hrun]
      simp
  | weakObject o =>
      rw [diFreeValue, onHeap_eq (diDropWeakRef o) hrun]
      simp
  | string p s =>
      cases hrun
      rw [blocks_string] at hblocks ⊢
      rw [diFreeValue, free_eq hblocks.mem]
  | array t arr es =>
      obtain ⟨htype, hnull, hes⟩ := hwf
      obtain ⟨-, hlen, hces⟩ := hc
      rw [eraseList_eq, List.length_map] at hlen
      rw [diFreeValue]
      by_cases hempty : es = []
      · subst hempty
        cases hrun
        rw [List.length_nil, if_pos rfl, if_pos (hnull rfl), hnull rfl]
        simp
      · rw [blocks_array] at hblocks ⊢
        obtain ⟨e, he⟩ := List.exists_mem_of_ne_nil es hempty
        obtain ⟨size, hsize, -⟩ := diSizeofType_type e
        rw [htype e he] at hsize
        have hfree := freeElements_spec fuel (i := 0) hes hces (by omega) hblocks.left hrun
        rw [if_neg (by simpa using hempty), hsize, ok_bind, hfree, ok_bind,
          free_eq hblocks.right.mem, sdiff_append]
  | tuple elements cs =>
      obtain ⟨hlen, hccs⟩ := hc
      rw [eraseCells_eq, List.length_map] at hlen
      rw [blocks_tuple] at hblocks ⊢
      have hfree := freeCells_spec fuel (i := 0) hwf hccs (by omega) hblocks.left hrun
      rw [diFreeValue, hfree, ok_bind, free_eq hblocks.right.mem, sdiff_append]
  | variant value v =>
      rw [blocks_variant] at hblocks ⊢
      have hfree := diFreeValue_spec fuel (w := v) hwf hc hblocks.left hrun
      rw [diFreeValue, hfree, ok_bind, free_eq hblocks.right.mem, sdiff_append]

theorem freeElements_spec (fuel : ℕ) {i : ℕ} {es : List Owned} (hwf : Owned.WellFormedList es)
    (hc : CopyableList (Owned.eraseList es)) (hlen : i + es.length < 2 ^ 31) {m : Memory} {h' : Heap}
    (hblocks : InUse m.live (blocksList es))
    (hrun : forRefsList (diUnrefObject fuel) diDropWeakRef (Owned.eraseList es) m.heap = .ok h') :
    freeElements fuel i es m = .ok ⟨h', m.live \ (blocksList es).toFinset⟩ := by
  match es with
  | [] =>
      cases hrun
      rw [freeElements]
      simp
  | v :: vs =>
      rw [List.length_cons] at hlen
      rw [blocksList_cons] at hblocks ⊢
      obtain ⟨h, hfirst, hrest⟩ := bind_eq_ok hrun
      have hfree := diFreeValue_spec fuel hwf.1 hc.1 hblocks.left hfirst
      have hfrees := freeElements_spec fuel (i := i + 1) hwf.2 hc.2 (by omega)
        (m := ⟨h, m.live \ (blocks v).toFinset⟩) hblocks.right hrest
      rw [freeElements, hfree, ok_bind, increment_eq (by omega), ok_bind, hfrees, sdiff_append]

theorem freeCells_spec (fuel : ℕ) {i : ℕ} {cs : List (Option Block × Owned)}
    (hwf : Owned.WellFormedCells cs) (hc : CopyableList (Owned.eraseCells cs))
    (hlen : i + cs.length < 2 ^ 31) {m : Memory} {h' : Heap}
    (hblocks : InUse m.live (blocksCells cs))
    (hrun : forRefsList (diUnrefObject fuel) diDropWeakRef (Owned.eraseCells cs) m.heap = .ok h') :
    freeCells fuel i cs m = .ok ⟨h', m.live \ (blocksCells cs).toFinset⟩ := by
  match cs with
  | [] =>
      cases hrun
      rw [freeCells]
      simp
  | (value, v) :: cs =>
      rw [List.length_cons] at hlen
      rw [blocksCells_cons] at hblocks ⊢
      obtain ⟨h, hfirst, hrest⟩ := bind_eq_ok hrun
      have hfree := diFreeValue_spec fuel hwf.1 hc.1 hblocks.left.left hfirst
      have hvalue := free_eq (m := ⟨h, m.live \ (blocks v).toFinset⟩) hblocks.left.right.mem
      have hfrees := freeCells_spec fuel (i := i + 1) hwf.2 hc.2 (by omega)
        (m := ⟨h, m.live \ (blocks v ++ value.toList).toFinset⟩) hblocks.right hrest
      rw [freeCells, hfree, ok_bind, hvalue, ok_bind, increment_eq (by omega), ok_bind,
        sdiff_append, hfrees, sdiff_append]
end

/-! ## The counts -/

/-- What a reference needs to be counted up and down once more: its object is there, and for a
strong reference it is alive. -/
def Kept (h : Heap) : Ref → Prop
  | .strong o => (h.obj o).freed = false ∧ (h.obj o).destroyed = false ∧ 0 < (h.obj o).refCount ∧
      calmMark (h.obj o).mark = true
  | .weak o => (h.obj o).freed = false ∧ 0 < (h.obj o).weakRefCount

theorem Kept.freed {h : Heap} {r : Ref} (hr : Kept h r) : (h.obj r.target).freed = false := by
  cases r with
  | strong o | weak o => exact hr.1

/-- Every reference that somebody holds is kept. -/
theorem kept_of_counted {h : Heap} {R : Ref → ℕ} (hc : Counted h R) {r : Ref}
    (hr : 0 < held h r + R r) : Kept h r := by
  cases r with
  | strong o =>
      have hcount := hc.strong o
      have halive : (h.obj o).destroyed = false := by
        cases hd : (h.obj o).destroyed with
        | false => rfl
        | true =>
            have hzero := hc.dead o hd
            omega
      exact ⟨hc.not_freed halive, halive, by omega, hc.calm o⟩
  | weak o =>
      have hcount := hc.weak o
      have hpos : 0 < (h.obj o).weakRefCount := by omega
      refine ⟨?_, hpos⟩
      rw [← Bool.not_eq_true, hc.freed o]
      omega

/-- Dropping a reference that was taken before, while there is another one. -/
theorem dropRef_counted {h g : Heap} {r : Ref} {rs : List Ref} (hr : Kept h r)
    (hg : g.obj = fun o => counted (r :: rs) o (h.obj o)) (fuel : ℕ) :
    ∃ g', onRef (diUnrefObject (fuel + 1)) diDropWeakRef g r = .ok g' ∧
      g'.obj = fun o => counted rs o (h.obj o) := by
  cases r with
  | strong p =>
      obtain ⟨hfreed, halive, hpos, hcalm⟩ := hr
      have hp : g.obj p = counted (.strong p :: rs) p (h.obj p) := congrFun hg p
      have hcount : (g.obj p).refCount = (h.obj p).refCount + rs.count (.strong p) + 1 := by
        rw [hp]
        simp [counted, Nat.add_assoc]
      have hlow : (lowered g p).obj = fun o => counted rs o (h.obj o) := by
        funext o
        rw [lowered, Heap.modify_obj, hg]
        split_ifs with ho
        · subst ho
          simp [counted, ← Nat.add_assoc]
        · simp [counted, Ne.symm ho]
      have hgf : (g.obj p).freed = false := by rw [hp]; exact hfreed
      have hga : (g.obj p).destroyed = false := by rw [hp]; exact halive
      have hgm : calmMark (g.obj p).mark = true := by rw [hp]; exact hcalm
      rw [onRef, diUnrefObject, Heap.deref_ok hgf, ok_bind, if_neg (by omega), hga]
      dsimp only
      rw [if_neg (by simp), hgm, if_neg (by simp), if_neg (by omega)]
      split_ifs
      · exact ⟨_, rfl, hlow⟩
      · exact ⟨_, rfl, hlow⟩
  | weak p =>
      obtain ⟨hfreed, hpos⟩ := hr
      have hp : g.obj p = counted (.weak p :: rs) p (h.obj p) := congrFun hg p
      have hcount : (g.obj p).weakRefCount = (h.obj p).weakRefCount + rs.count (.weak p) + 1 := by
        rw [hp]
        simp [counted, Nat.add_assoc]
      have hgf : (g.obj p).freed = false := by rw [hp]; exact hfreed
      rw [onRef, diDropWeakRef, diDecrementWeakRefCount, Heap.deref_ok hgf, ok_bind]
      dsimp only
      rw [if_neg (by omega)]
      refine ⟨_, rfl, ?_⟩
      funext o
      rw [Heap.modify_obj, hg]
      split_ifs with ho
      · subst ho
        simp [counted, ← Nat.add_assoc]
      · simp [counted, Ne.symm ho]

theorem dropRefs_kept {h g : Heap} {rs : List Ref} (hrs : ∀ r ∈ rs, Kept h r)
    (hg : g.obj = fun o => counted rs o (h.obj o)) (fuel : ℕ) :
    ∃ g', rs.foldlM (onRef (diUnrefObject (fuel + 1)) diDropWeakRef) g = .ok g' ∧
      g'.obj = h.obj := by
  induction rs generalizing g with
  | nil => exact ⟨g, rfl, hg⟩
  | cons r rs ih =>
      obtain ⟨t, ht, hobj⟩ := dropRef_counted (hrs r List.mem_cons_self) hg fuel
      obtain ⟨g', hg', hend⟩ := ih (fun q hq => hrs q (List.mem_cons_of_mem r hq)) hobj
      refine ⟨g', ?_, hend⟩
      rw [List.foldlM_cons, ht]
      exact hg'

/-! ## Copying and freeing -/

/-- A copy of `w` in new blocks: `made` is the memory with the copy, `left` the memory after the
copy has been freed. -/
structure Neutral (m : Memory) (w w' : Owned) (made left : Memory) : Prop where
  equal : w'.erase = w.erase
  disjoint : ∀ b ∈ blocks w', b ∉ blocks w
  allocated : made.live = m.live ∪ (blocks w').toFinset ∧ Disjoint m.live (blocks w').toFinset
  released : left.live = m.live
  counts : left.heap.obj = m.heap.obj

/-- A well-formed value is copied without a fault, and freeing the copy releases what the copy
took and nothing else. -/
theorem copy_free_neutral (A : Allocator) (fuel : ℕ) {m : Memory} {R : Ref → ℕ} {w : Owned}
    (hwf : w.WellFormed) (hst : Stored w) (hc : Copyable w.erase)
    (hlive : ∀ b ∈ blocks w, b ∈ m.live) (hcounted : Counted m.heap R)
    (hheld : ∀ r ∈ w.erase.refs, 0 < held m.heap r + R r) :
    ∃ w' made left, diCopyValue A w m = .ok (w', made) ∧
      diFreeValue (fuel + 1) w' made = .ok left ∧ Neutral m w w' made left := by
  have hkept : ∀ r ∈ w.erase.refs, Kept m.heap r := fun r hr =>
    kept_of_counted hcounted (hheld r hr)
  obtain ⟨h, hcopied⟩ : ∃ h, ObjectHeap.diCopyValue w.erase m.heap = .ok h :=
    ⟨_, (diCopyValue_iff _ _ _).mpr ⟨fun r hr => (hkept r hr).freed, rfl⟩⟩
  obtain ⟨-, hh⟩ := (diCopyValue_iff _ _ _).mp hcopied
  obtain ⟨w', hcopy, hw'⟩ := diCopyValue_spec A hwf hst hc hcopied
  obtain ⟨h', hdropped, hobj⟩ := dropRefs_kept (g := h) hkept (by rw [hh]) fuel
  have hfreed : ObjectHeap.diFreeValue (diUnrefObject (fuel + 1)) w'.erase h = .ok h' := by
    rw [hw'.erase, ObjectHeap.diFreeValue, forRefs_eq]
    exact hdropped
  have hdisjoint : Disjoint m.live (blocks w').toFinset := by
    rw [Finset.disjoint_right]
    exact fun b hb => hw'.fresh.notMem b (List.mem_toFinset.mp hb)
  have huse : InUse (m.live ∪ (blocks w').toFinset) (blocks w') :=
    ⟨hw'.fresh.nodup, fun b hb => Finset.mem_union_right _ (List.mem_toFinset.mpr hb)⟩
  have hfree := diFreeValue_spec (fuel + 1) (m := ⟨h, m.live ∪ (blocks w').toFinset⟩)
    hw'.wellFormed (hw'.erase ▸ hc) huse hfreed
  refine ⟨w', _, _, hcopy, hfree, hw'.erase, ?_, ⟨rfl, hdisjoint⟩, ?_, hobj⟩
  · exact fun b hb hbw => hw'.fresh.notMem b hb (hlive b hbw)
  · exact Finset.union_sdiff_cancel_right hdisjoint

/-- An allocator that takes the next address, and nothing for a size of 0. -/
def nextAddress : Allocator where
  fresh live := live.sup id + 1
  fresh_notMem _ hmem := absurd (Finset.le_sup (f := id) hmem) (Nat.not_succ_le_self _)
  zeroSized := false

/-- A string, a variant with nil, two references in an array, and an empty array. -/
def nested : Owned :=
  .tuple (some 0)
    [(some 1, .string (some 2) "a"), (some 3, .variant none (.scalar .nil)),
      (some 4, .array .object (some 5) [.object 0, .object 1]), (some 6, .array .any none [])]

theorem copy_free_neutral_nested :
    ∃ w' made left,
      diCopyValue nextAddress nested ⟨threeObjects, {0, 1, 2, 3, 4, 5, 6}⟩ = .ok (w', made) ∧
        diFreeValue 1 w' made = .ok left ∧
        Neutral ⟨threeObjects, {0, 1, 2, 3, 4, 5, 6}⟩ nested w' made left := by
  refine copy_free_neutral nextAddress 0 (R := refsOf [.strong 0]) ?_ ?_ ?_ ?_
    threeObjects_collectable.counted ?_
  · simp [nested, Owned.WellFormed, Owned.WellFormedCells, Owned.WellFormedList, Owned.type,
      Owned.erase, Conversion.typeOf]
  · simp [nested, Stored, StoredCells, StoredList, Owned.type, Owned.erase, Scalar.erase,
      Conversion.typeOf]
  · simp [nested, Copyable, CopyableList, Owned.erase, Owned.eraseCells, Owned.eraseList,
      Scalar.erase]
  · decide
  · decide

/-- An array with one nil, as `tuple_to_array` makes it. -/
def arrayOfNil : Owned := .array .nil (some 0) [.scalar .nil]

/-- `di_copy_value` refuses an array of nil that is not empty. -/
theorem copy_free_not_neutral :
    ¬ ∀ (A : Allocator) (fuel : ℕ) (m : Memory) (R : Ref → ℕ) (w : Owned), w.WellFormed →
      Stored w → (∀ b ∈ blocks w, b ∈ m.live) → Counted m.heap R →
      (∀ r ∈ w.erase.refs, 0 < held m.heap r + R r) →
      ∃ w' made left, diCopyValue A w m = .ok (w', made) ∧
        diFreeValue (fuel + 1) w' made = .ok left ∧ Neutral m w w' made left := by
  intro hall
  obtain ⟨w', made, left, hcopy, -⟩ := hall nextAddress 0 ⟨threeObjects, {0}⟩ (refsOf [.strong 0])
    arrayOfNil (by simp [arrayOfNil, Owned.WellFormed, Owned.WellFormedList, Owned.type,
      Owned.erase, Scalar.erase, Conversion.typeOf])
    (by simp [arrayOfNil, Stored, StoredList]) (by decide) threeObjects_collectable.counted
    (by decide)
  cases hcopy

end Deai.CopiedStorage
