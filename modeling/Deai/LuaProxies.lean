import Deai.Value
import Mathlib.Logic.Function.Basic
import Mathlib.Logic.Relation

/-!
# Proxies of objects in a Lua state

`di_lua_pushobject` and `di_lua_gc`. A proxy is a Lua userdata that holds the address of its
object. The object of the Lua state has a member for every proxy, which refers to the object
of the proxy, and a member for every object that has been pushed, which holds an index of the
Lua registry; there a weak table refers to the proxy.

The collector of Lua clears the weak references to a proxy, and runs its `__gc` at any moment
after that. It may do so while a new proxy is allocated, and user code runs when `__gc` has
dropped the last reference to an object; so these calls are frames of a stack. The memory of an
object can be used again after the object has been destroyed, and that of a userdata after its
`__gc`.

Fields under "history" are not read by any function: they record what happened.
-/
namespace Deai.LuaProxies

abbrev Address := ℕ

/-- A `di_object` in memory. Its destructor is running when there is no reference to it. -/
structure Object where
  refCount : ℕ
  -- history: which object it is, and its references that no proxy and no call holds
  id : ℕ
  outside : ℕ

/-- A userdata whose `__gc` has not ended. -/
structure Userdata where
  object : Address
  -- history: `__gc` has been called; the object, and the index of the weak table
  finalizing : Bool := false
  id : ℕ
  ref : ℕ

/-- An index of the registry: a table that `luaL_weakref` has made, or another value. -/
inductive Slot where
  | free
  | weak (value : Option Address)
  | other

/-- A call that goes on after the collector or user code: `di_lua_pushobject` that creates a
proxy, and `di_lua_gc` that has dropped the last reference to the object. -/
inductive Frame where
  | pushing (o : Address)
  | collecting (optr o : Address)

structure State where
  objects : Address → Option Object := fun _ => none
  userdata : Address → Option Userdata := fun _ => none
  registry : ℕ → Slot := fun _ => .free
  /-- The members `___lua_userdata_to_object_<userdata>`. -/
  userdataToObject : List (Address × Address) := []
  /-- The members `___di_object_to_ref_<object>`. -/
  objectToRef : Address → Option ℕ := fun _ => none
  stack : List Frame := []
  -- history: the proxy that was pushed last, and the last proxy of an object
  top : Option Address := none
  latest : ℕ → Option Address := fun _ => none
  created : ℕ := 0

/-- A `DI_CHECK` that fails, or an object that is not in memory any more. -/
inductive Failure where
  | freed
  | notATable
  | userdataMember
  | refMember
  | memberExists
  deriving DecidableEq

namespace State

def setObject (s : State) (o : Address) (x : Option Object) : State :=
  {s with objects := Function.update s.objects o x}

def setUserdata (s : State) (u : Address) (x : Option Userdata) : State :=
  {s with userdata := Function.update s.userdata u x}

def setSlot (s : State) (r : ℕ) (x : Slot) : State :=
  {s with registry := Function.update s.registry r x}

def setRef (s : State) (o : Address) (x : Option ℕ) : State :=
  {s with objectToRef := Function.update s.objectToRef o x}

end State

/-! ## The functions -/

/-- The value of the weak table, `none` when the reference is dead. -/
def luaLWeakrefGet (r : ℕ) (s : State) : Except Failure (Option Address) :=
  match s.registry r with
  | .weak value => .ok value
  | _ => .error .notATable

/-- `di_unref_object` on a reference from outside. -/
def diUnrefObject (o : Address) (s : State) : Except Failure State :=
  match s.objects o with
  | none => .error .freed
  | some x =>
      if x.refCount = 1 then .ok (s.setObject o none)
      else .ok (s.setObject o
        (some {x with refCount := x.refCount - 1, outside := x.outside - 1}))

/-- `di_delete_member_raw` on a member of a userdata, with the object that the member held. -/
def deleteUserdataMember (optr : Address) (s : State) : Except Failure (Address × State) :=
  match s.userdataToObject.find? (·.1 == optr) with
  | none => .error .userdataMember
  | some p => .ok (p.2, {s with userdataToObject := s.userdataToObject.erase p})

def deleteRefMember (o : Address) (s : State) : Except Failure State :=
  match s.objectToRef o with
  | none => .error .refMember
  | some _ => .ok (s.setRef o none)

/-- `di_lua_gc` after the reference to the object has been dropped. -/
def forgetRef (optr o : Address) (s : State) : Except Failure State :=
  match s.objectToRef o with
  | none => .ok s
  | some r => do
      let value ← luaLWeakrefGet r s
      -- a dead reference is taken for one to this userdata
      let current := value.getD optr
      if current = optr then deleteRefMember o s else .ok s

/-- The member of the userdata goes, and with it a reference to the object. -/
def diLuaGc (optr : Address) (y : Userdata) (s : State) : Except Failure State := do
  let (o, s) ← deleteUserdataMember optr s
  match s.objects o with
  | none => .error .freed
  | some x =>
      let s := s.setObject o (some {x with refCount := x.refCount - 1})
      if x.refCount = 1 then
        .ok {s.setUserdata optr (some {y with finalizing := true}) with
          stack := .collecting optr y.object :: s.stack}
      else forgetRef optr y.object (s.setUserdata optr none)

/-- The object is in memory until its destructor and the user code have ended. -/
def diLuaGcRest (optr o : Address) (s : State) : Except Failure State :=
  forgetRef optr o ((s.setObject o none).setUserdata optr none)

/-- `di_lua_pushobject` up to the creation of a proxy. -/
def diLuaPushobject (o : Address) (s : State) : Except Failure State := do
  let value ← match s.objectToRef o with
    | none => .ok none
    | some r => luaLWeakrefGet r s
  match value with
  | some optr => diUnrefObject o {s with top := some optr}
  | none =>
      match s.objects o with
      | none => .error .freed
      | some x =>
          .ok {s.setObject o (some {x with outside := x.outside - 1}) with
            stack := .pushing o :: s.stack}

/-- The rest of `di_lua_pushobject`; the call holds the reference that it was given. -/
def diLuaPushobjectRest (o optr : Address) (r : ℕ) (i : ℕ) (s : State) : Except Failure State :=
  let s := s.setUserdata optr (some {object := o, id := i, ref := r})
  let s := (s.setSlot r (.weak (some optr))).setRef o (some r)
  if optr ∈ s.userdataToObject.map Prod.fst then .error .memberExists
  else .ok {s with
    userdataToObject := s.userdataToObject ++ [(optr, o)]
    top := some optr
    latest := Function.update s.latest i (some optr)}

/-! ## The machine -/

inductive Action where
  | create (o : Address)
  | retain (o : Address)
  | release (o : Address)
  | ref (r : ℕ)
  | unref (r : ℕ)
  | push (o : Address)
  | pushed (optr : Address) (r : ℕ)
  | clear (optr : Address)
  | gc (optr : Address)
  | destroyed

/-- One step; `none` when it cannot be taken in this state. -/
def exec (a : Action) (s : State) : Option (Except Failure State) :=
  match a, s.stack with
  | .create o, _ =>
      match s.objects o with
      | some _ => none
      | none => some (.ok {s.setObject o (some ⟨1, s.created, 1⟩) with created := s.created + 1})
  | .retain o, _ =>
      match s.objects o with
      | none => none
      | some x =>
          if x.refCount = 0 then none
          else some (.ok (s.setObject o
            (some {x with refCount := x.refCount + 1, outside := x.outside + 1})))
  | .release o, _ =>
      match s.objects o with
      | none => none
      | some x => if x.outside = 0 then none else some (diUnrefObject o s)
  | .ref r, _ =>
      match s.registry r with
      | .free => some (.ok (s.setSlot r .other))
      | _ => none
  | .unref r, _ =>
      match s.registry r with
      | .other => some (.ok (s.setSlot r .free))
      | _ => none
  | .push o, _ =>
      match s.objects o with
      | none => none
      | some x => if x.outside = 0 then none else some (diLuaPushobject o s)
  | .pushed optr r, .pushing o :: stack =>
      match s.objects o, s.userdata optr, s.registry r with
      | some x, none, .free => some (diLuaPushobjectRest o optr r x.id {s with stack := stack})
      | _, _, _ => none
  | .clear optr, _ =>
      match s.userdata optr with
      | none => none
      | some y =>
          match s.registry y.ref with
          | .weak (some _) => some (.ok (s.setSlot y.ref (.weak none)))
          | _ => none
  | .gc optr, _ =>
      match s.userdata optr with
      | none => none
      | some y =>
          match y.finalizing, s.registry y.ref with
          | false, .weak none => some (diLuaGc optr y s)
          | _, _ => none
  | .destroyed, .collecting optr o :: stack => some (diLuaGcRest optr o {s with stack := stack})
  | _, _ => none

def Move (s s' : State) : Prop := ∃ a, exec a s = some (.ok s')

end Deai.LuaProxies
