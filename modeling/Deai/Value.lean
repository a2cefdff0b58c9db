import Mathlib.Data.List.Basic
import Mathlib.Tactic

/-!
# deai values and the walks over them

`di_value` with its type tag is one inductive type: the tag is the constructor.
`DI_TYPE_ANY` and `DI_LAST_TYPE` have no values, so they only occur as type ids.
Pointers to objects are addresses; the objects themselves live in the heap.

`di_free_value` and `di_copy_value` visit the same references of a value in the
same order and differ only in what they do there, so both are one walk with two
actions. `di_scan_type` is a walk of its own: it ignores weak references, and
also `DI_TYPE_EMPTY_OBJECT`, which the other two treat as a strong reference.
-/
namespace Deai.Value

/-- `di_type`. -/
inductive DiType where
  | nil | any | emptyObject | bool | nint | nuint | int | uint | float | pointer
  | object | weakObject | string | stringLiteral | array | tuple | variant | lastType
  deriving DecidableEq, Repr

/-- The address of an object. -/
abbrev ObjRef := ℕ

/-- A member of an object is known by the object and its name. -/
instance : LawfulBEq (ObjRef × String) := inferInstance

/-- A value with its type. Floats are bit patterns, raw pointers are numbers. -/
inductive DiValue where
  | nil
  | emptyObject (o : ObjRef)
  | bool (b : Bool)
  | nint (i : Int32)
  | nuint (n : UInt32)
  | int (i : Int64)
  | uint (n : UInt64)
  | float (bits : UInt64)
  | pointer (p : UInt64)
  | object (o : ObjRef)
  | weakObject (o : ObjRef)
  | string (s : String)
  | stringLiteral (s : String)
  | array (elemType : DiType) (elems : List DiValue)
  | tuple (elems : List DiValue)
  | variant (v : DiValue)
  deriving Repr

/-- A counted reference to an object: strong, or weak. -/
inductive Ref where
  | strong (o : ObjRef)
  | weak (o : ObjRef)
  deriving DecidableEq, Repr

def Ref.target : Ref → ObjRef
  | .strong o => o
  | .weak o => o

namespace DiValue

mutual
/-- The references a value holds, in the order the walks meet them. -/
def refs : DiValue → List Ref
  | .object o => [.strong o]
  | .emptyObject o => [.strong o]
  | .weakObject o => [.weak o]
  | .array _ es => refsList es
  | .tuple es => refsList es
  | .variant v => v.refs
  | _ => []

def refsList : List DiValue → List Ref
  | [] => []
  | v :: vs => v.refs ++ refsList vs
end

mutual
/-- The objects `di_scan_type` passes to its hooks directly from a value. -/
def scanned : DiValue → List ObjRef
  | .object o => [o]
  | .array _ es => scannedList es
  | .tuple es => scannedList es
  | .variant v => v.scanned
  | _ => []

def scannedList : List DiValue → List ObjRef
  | [] => []
  | v :: vs => v.scanned ++ scannedList vs
end

/-- Every strong reference of the value is one that `di_scan_type` visits. -/
def Visible (v : DiValue) : Prop := ∀ o, v.scanned.count o = v.refs.count (.strong o)

end DiValue

variable {σ ε : Type*}

/-- What a walk does at one reference. -/
def onRef (strong weak : ObjRef → σ → Except ε σ) (s : σ) : Ref → Except ε σ
  | .strong o => strong o s
  | .weak o => weak o s

mutual
/-- The common walk of `di_free_value` and `di_copy_value`. -/
def forRefs (strong weak : ObjRef → σ → Except ε σ) : DiValue → σ → Except ε σ
  | .object o, s => strong o s
  | .emptyObject o, s => strong o s
  | .weakObject o, s => weak o s
  | .array _ es, s => forRefsList strong weak es s
  | .tuple es, s => forRefsList strong weak es s
  | .variant v, s => forRefs strong weak v s
  | _, s => .ok s

def forRefsList (strong weak : ObjRef → σ → Except ε σ) : List DiValue → σ → Except ε σ
  | [], s => .ok s
  | v :: vs, s => do
      let s ← forRefs strong weak v s
      forRefsList strong weak vs s
end

mutual
/-- The value cases of `di_scan_type`; `visit` is its object case. -/
def diScanType (visit : ObjRef → σ → Except ε σ) : DiValue → σ → Except ε σ
  | .object o, s => visit o s
  | .array _ es, s => diScanTypeList visit es s
  | .tuple es, s => diScanTypeList visit es s
  | .variant v, s => diScanType visit v s
  | _, s => .ok s

def diScanTypeList (visit : ObjRef → σ → Except ε σ) : List DiValue → σ → Except ε σ
  | [], s => .ok s
  | v :: vs, s => do
      let s ← diScanType visit v s
      diScanTypeList visit vs s
end

mutual
theorem forRefs_eq (strong weak : ObjRef → σ → Except ε σ) (v : DiValue) (s : σ) :
    forRefs strong weak v s = v.refs.foldlM (onRef strong weak) s := by
  cases v with
  | array _ es => simpa only [forRefs, DiValue.refs] using forRefsList_eq strong weak es s
  | tuple es => simpa only [forRefs, DiValue.refs] using forRefsList_eq strong weak es s
  | variant v => simpa only [forRefs, DiValue.refs] using forRefs_eq strong weak v s
  | object o | emptyObject o | weakObject o =>
      simp [forRefs, DiValue.refs, onRef]
  | nil | bool _ | nint _ | nuint _ | int _ | uint _ | float _ | pointer _ | string _
  | stringLiteral _ =>
      simp [forRefs, DiValue.refs, pure, Except.pure]

theorem forRefsList_eq (strong weak : ObjRef → σ → Except ε σ) (vs : List DiValue) (s : σ) :
    forRefsList strong weak vs s = (DiValue.refsList vs).foldlM (onRef strong weak) s := by
  match vs with
  | [] => rfl
  | v :: vs =>
      rw [forRefsList, DiValue.refsList, List.foldlM_append, forRefs_eq strong weak v s]
      exact congrArg _ (funext fun t => forRefsList_eq strong weak vs t)
end

mutual
theorem diScanType_eq (visit : ObjRef → σ → Except ε σ) (v : DiValue) (s : σ) :
    diScanType visit v s = v.scanned.foldlM (fun s o => visit o s) s := by
  cases v with
  | array _ es => simpa only [diScanType, DiValue.scanned] using diScanTypeList_eq visit es s
  | tuple es => simpa only [diScanType, DiValue.scanned] using diScanTypeList_eq visit es s
  | variant v => simpa only [diScanType, DiValue.scanned] using diScanType_eq visit v s
  | object o => simp [diScanType, DiValue.scanned]
  | nil | bool _ | nint _ | nuint _ | int _ | uint _ | float _ | pointer _ | string _
  | stringLiteral _ | emptyObject _ | weakObject _ =>
      simp [diScanType, DiValue.scanned, pure, Except.pure]

theorem diScanTypeList_eq (visit : ObjRef → σ → Except ε σ) (vs : List DiValue) (s : σ) :
    diScanTypeList visit vs s =
      (DiValue.scannedList vs).foldlM (fun s o => visit o s) s := by
  match vs with
  | [] => rfl
  | v :: vs =>
      rw [diScanTypeList, DiValue.scannedList, List.foldlM_append, diScanType_eq visit v s]
      exact congrArg _ (funext fun t => diScanTypeList_eq visit vs t)
end

end Deai.Value
