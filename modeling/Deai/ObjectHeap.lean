import Deai.Value
import Mathlib.Logic.Function.Basic

/-!
# Objects, reference counts and member tables

The heap is the state that `object.c` works on: every object with its member
table, its two counts and the collector's fields, and the list
`unreferred_objects`. An object is in at most one of the two lists that use its
`unreferred_siblings` node, so `list_del_init` on it takes it out of both.
`isolated` is the local list of `di_collect_garbage`; it is empty outside.

Destructors do nothing here, so a `dtor` is only a flag, and calling it an
entry of the log. The log also records each destruction and each release of
memory. Reading an object whose memory has been released is a fault, as is
every failed assertion. `size` bounds the addresses given out so far; a new
object gets the next one.

`di_unref_object`, `di_destroy_object` and `di_finalize_object_inner` call each
other. The last two take the first as a parameter, and the recursion of
`di_unref_object` runs on fuel.
-/
namespace Deai.ObjectHeap
open Value

/-- The ways a run can go wrong. Each but the first three is one assertion. -/
inductive Fault where
  | outOfFuel
  | useAfterFree (o : ObjRef)
  | nullListHead
  | unrefZero (o : ObjRef)
  | unrefDestroyed (o : ObjRef)
  | unexpectedMark (o : ObjRef)
  | destroyReferenced (o : ObjRef)
  | freeReferenced (o : ObjRef)
  | refCountTooLow (o : ObjRef)
  | candidateMarked (o : ObjRef)
  | rootNotScanned (o : ObjRef)
  | notPreFinalized (o : ObjRef)
  deriving DecidableEq, Repr

inductive Event where
  | dtor (o : ObjRef)
  | destroy (o : ObjRef)
  | destroyAgain (o : ObjRef)
  | free (o : ObjRef)
  deriving DecidableEq, Repr

/-- `di_object_internal`. Member tables keep the insertion order. -/
structure DiObject where
  members : List (String × DiValue) := []
  dtor : Bool := false
  refCount : ℕ := 0
  weakRefCount : ℕ := 0
  refCountScan : ℕ := 0
  mark : ℕ := 0
  destroyed : Bool := false
  freed : Bool := false

/-- What stands at an address that was never given out. -/
def DiObject.unallocated : DiObject := { destroyed := true, freed := true }

structure Heap where
  size : ℕ := 0
  obj : ObjRef → DiObject := fun _ => .unallocated
  unreferred : List ObjRef := []
  /-- `unreferred_objects.next != NULL` -/
  headInit : Bool := false
  isolated : List ObjRef := []
  log : List Event := []

namespace Heap

def modify (h : Heap) (o : ObjRef) (f : DiObject → DiObject) : Heap :=
  {h with obj := Function.update h.obj o (f (h.obj o))}

def record (h : Heap) (e : Event) : Heap := {h with log := e :: h.log}

def deref (h : Heap) (o : ObjRef) : Except Fault DiObject :=
  if (h.obj o).freed then .error (.useAfterFree o) else .ok (h.obj o)

/-- `list_del_init(&o->unreferred_siblings)` -/
def listDelInit (h : Heap) (o : ObjRef) : Heap :=
  {h with unreferred := h.unreferred.erase o, isolated := h.isolated.erase o}

/-- `list_empty(&o->unreferred_siblings)` -/
def unlisted (h : Heap) (o : ObjRef) : Bool :=
  !h.unreferred.contains o && !h.isolated.contains o

/-- `list_add(&o->unreferred_siblings, &unreferred_objects)`, after the list
head has been initialised if it was not. -/
def addUnreferred (h : Heap) (o : ObjRef) : Heap :=
  {h with unreferred := o :: h.unreferred, headInit := true}

/-- `HASH_DEL` of the member `name`. -/
def removeMember (h : Heap) (o : ObjRef) (name : String) : Heap :=
  h.modify o fun x => {x with members := x.members.eraseP (·.1 == name)}

/-- `HASH_ADD_KEYPTR` of a new member. -/
def insertMember (h : Heap) (o : ObjRef) (name : String) (v : DiValue) : Heap :=
  h.modify o fun x => {x with members := x.members ++ [(name, v)]}

end Heap

def diRefObject (o : ObjRef) (h : Heap) : Except Fault Heap := do
  let _ ← h.deref o
  .ok (h.modify o fun x => {x with refCount := x.refCount + 1})

def diWeaklyRefObject (o : ObjRef) (h : Heap) : Except Fault Heap := do
  let _ ← h.deref o
  .ok (h.modify o fun x => {x with weakRefCount := x.weakRefCount + 1})

def diDecrementWeakRefCount (o : ObjRef) (h : Heap) : Except Fault Heap := do
  let x ← h.deref o
  let h := h.modify o fun x => {x with weakRefCount := x.weakRefCount - 1}
  if x.weakRefCount - 1 = 0 then
    if x.refCount ≠ 0 then .error (.freeReferenced o)
    else .ok ((h.modify o fun x => {x with freed := true}).record (.free o))
  else .ok h

def diDropWeakRef (o : ObjRef) (h : Heap) : Except Fault Heap :=
  diDecrementWeakRefCount o h

/-- A mark the code allows outside the first collector pass. -/
def calmMark (m : ℕ) : Bool := m == 0 || m == 2 || m == 3

def diUpgradeWeakRef (o : ObjRef) (h : Heap) : Except Fault (Option ObjRef × Heap) := do
  let x ← h.deref o
  if !calmMark x.mark then .error (.unexpectedMark o)
  else if 0 < x.refCount ∧ x.destroyed = false ∧ x.mark ≠ 2 ∧ x.mark ≠ 3 then do
    let h ← diRefObject o h
    .ok (some o, h)
  else .ok (none, h)

/-- `di_free_value` -/
def diFreeValue (unref : ObjRef → Heap → Except Fault Heap) (v : DiValue) (h : Heap) :
    Except Fault Heap := forRefs unref diDropWeakRef v h

/-- `di_copy_value`: the copy is equal to its source, only the counts change. -/
def diCopyValue (v : DiValue) (h : Heap) : Except Fault Heap :=
  forRefs diRefObject diWeaklyRefObject v h

/-- The destructor is never called more than once. -/
def callDtor (o : ObjRef) (h : Heap) : Heap :=
  if (h.obj o).dtor then (h.modify o fun x => {x with dtor := false}).record (.dtor o) else h

def diFinalizeObjectInner (unref : ObjRef → Heap → Except Fault Heap) (o : ObjRef)
    (h : Heap) : Except Fault Heap :=
  let h := callDtor o h
  (h.obj o).members.foldlM (fun h m => diFreeValue unref m.2 (h.removeMember o m.1)) h

def diDestroyObject (unref : ObjRef → Heap → Except Fault Heap) (o : ObjRef) (h : Heap) :
    Except Fault Heap := do
  let x ← h.deref o
  if x.refCount ≠ 0 then .error (.destroyReferenced o)
  else
    let h := if x.destroyed then h.record (.destroyAgain o) else h
    let h := (h.modify o fun x => {x with destroyed := true}).record (.destroy o)
    let h ← diFinalizeObjectInner unref o h
    diDecrementWeakRefCount o h

def diUnrefObject : ℕ → ObjRef → Heap → Except Fault Heap
  | 0, _, _ => .error .outOfFuel
  | fuel + 1, o, h => do
      let x ← h.deref o
      if x.refCount = 0 then .error (.unrefZero o)
      else if x.destroyed then .error (.unrefDestroyed o)
      else
        let h := h.modify o fun x => {x with refCount := x.refCount - 1}
        if !calmMark x.mark then .error (.unexpectedMark o)
        else if x.refCount - 1 = 0 then
          diDestroyObject (diUnrefObject fuel) o (h.listDelInit o)
        else if h.unlisted o && x.mark == 0 then .ok (h.addUnreferred o)
        else .ok h

/-- `di_new_object`, for a size and an alignment it accepts. -/
def diNewObject (h : Heap) : ObjRef × Heap :=
  (h.size, {h with
    size := h.size + 1
    obj := Function.update h.obj h.size { refCount := 1, weakRefCount := 1 }})

inductive Errno where
  | einval | enoent | eexist
  deriving DecidableEq, Repr

def diLookup (o : ObjRef) (name : String) (h : Heap) : Option DiValue :=
  ((h.obj o).members.find? (·.1 == name)).map (·.2)

/-- A `di_string` used as a member name; `none` has a null data pointer. -/
abbrev Name := Option String

def diRemoveMemberRaw (o : ObjRef) (name : Name) (h : Heap) :
    Except Errno (DiValue × Heap) :=
  match name with
  | none => .error .enoent
  | some n =>
      match diLookup o n h with
      | none => .error .enoent
      | some v => .ok (v, h.removeMember o n)

def diDeleteMemberRaw (fuel : ℕ) (o : ObjRef) (name : Name) (h : Heap) :
    Except Fault (Option Errno × Heap) :=
  match diRemoveMemberRaw o name h with
  | .error e => .ok (some e, h)
  | .ok (v, h) => do
      let h ← diFreeValue (diUnrefObject fuel) v h
      .ok (none, h)

/-- `di_add_member` owns `v`. When the name is null it returns without
releasing it; when the name is taken it releases it. -/
def diAddMember (fuel : ℕ) (o : ObjRef) (name : Name) (v : DiValue) (h : Heap) :
    Except Fault (Option Errno × Heap) :=
  match name with
  | none => .ok (some .einval, h)
  | some n =>
      match diLookup o n h with
      | some _ => do
          let h ← diFreeValue (diUnrefObject fuel) v h
          .ok (some .eexist, h)
      | none => .ok (none, h.insertMember o n v)

/-- `di_sizeof_type(t) == 0` holds of `DI_TYPE_NIL` only. -/
def sizeofIsZero : DiValue → Bool
  | .nil => true
  | _ => false

def diAddMemberClone (fuel : ℕ) (o : ObjRef) (name : Name) (v : DiValue) (h : Heap) :
    Except Fault (Option Errno × Heap) :=
  if sizeofIsZero v then .ok (some .einval, h)
  else do
    let h ← diCopyValue v h
    diAddMember fuel o name v h

def diAddMemberMove (fuel : ℕ) (o : ObjRef) (name : Name) (v : DiValue) (h : Heap) :
    Except Fault (Option Errno × Heap) :=
  if sizeofIsZero v then .ok (some .einval, h)
  else diAddMember fuel o name v h

namespace Heap

/-! ## What the elementary updates do to each field -/

@[simp] theorem modify_obj_self (h : Heap) (o : ObjRef) (f : DiObject → DiObject) :
    (h.modify o f).obj o = f (h.obj o) := by simp [modify]

theorem modify_obj_ne (h : Heap) {o p : ObjRef} (f : DiObject → DiObject) (hp : p ≠ o) :
    (h.modify o f).obj p = h.obj p := by simp [modify, hp]

theorem modify_obj (h : Heap) (o p : ObjRef) (f : DiObject → DiObject) :
    (h.modify o f).obj p = if p = o then f (h.obj p) else h.obj p := by
  by_cases hp : p = o
  · subst hp; simp
  · simp [modify_obj_ne h f hp, hp]

/-- A field that the update leaves alone is the same for every object. -/
theorem modify_same {β : Type*} (g : DiObject → β) (h : Heap) (o : ObjRef)
    {f : DiObject → DiObject} (hf : g (f (h.obj o)) = g (h.obj o)) (x : ObjRef) :
    g ((h.modify o f).obj x) = g (h.obj x) := by
  rw [modify_obj]
  split_ifs with hx
  · rw [hx, hf]
  · rfl

@[simp] theorem modify_size (h : Heap) (o : ObjRef) (f) : (h.modify o f).size = h.size := rfl
@[simp] theorem modify_unreferred (h : Heap) (o : ObjRef) (f) :
    (h.modify o f).unreferred = h.unreferred := rfl
@[simp] theorem modify_headInit (h : Heap) (o : ObjRef) (f) :
    (h.modify o f).headInit = h.headInit := rfl
@[simp] theorem modify_isolated (h : Heap) (o : ObjRef) (f) :
    (h.modify o f).isolated = h.isolated := rfl
@[simp] theorem modify_log (h : Heap) (o : ObjRef) (f) : (h.modify o f).log = h.log := rfl
@[simp] theorem record_obj (h : Heap) (e : Event) : (h.record e).obj = h.obj := rfl
@[simp] theorem record_size (h : Heap) (e : Event) : (h.record e).size = h.size := rfl
@[simp] theorem record_unreferred (h : Heap) (e : Event) :
    (h.record e).unreferred = h.unreferred := rfl
@[simp] theorem record_headInit (h : Heap) (e : Event) :
    (h.record e).headInit = h.headInit := rfl
@[simp] theorem record_isolated (h : Heap) (e : Event) :
    (h.record e).isolated = h.isolated := rfl
@[simp] theorem record_log (h : Heap) (e : Event) : (h.record e).log = e :: h.log := rfl
@[simp] theorem listDelInit_obj (h : Heap) (o : ObjRef) : (h.listDelInit o).obj = h.obj := rfl
@[simp] theorem listDelInit_size (h : Heap) (o : ObjRef) :
    (h.listDelInit o).size = h.size := rfl
@[simp] theorem listDelInit_unreferred (h : Heap) (o : ObjRef) :
    (h.listDelInit o).unreferred = h.unreferred.erase o := rfl
@[simp] theorem listDelInit_headInit (h : Heap) (o : ObjRef) :
    (h.listDelInit o).headInit = h.headInit := rfl
@[simp] theorem listDelInit_isolated (h : Heap) (o : ObjRef) :
    (h.listDelInit o).isolated = h.isolated.erase o := rfl
@[simp] theorem listDelInit_log (h : Heap) (o : ObjRef) : (h.listDelInit o).log = h.log := rfl

theorem deref_ok {h : Heap} {o : ObjRef} (hf : (h.obj o).freed = false) :
    h.deref o = .ok (h.obj o) := by simp [deref, hf]

end Heap

end Deai.ObjectHeap
