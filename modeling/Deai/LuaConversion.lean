import Deai.LuaStack
import Deai.Numbers

/-!
# From Lua to deai

`di_lua_type_to_di` of the module `lua`, with the detection of arrays. The functions work on the Lua
stack and call each other; `depth` bounds how deep they do.
-/
namespace Deai.LuaConversion
open Fallible Value Numbers LuaStack

def enotsup : ℤ := -95
def intMax : ℕ := 2147483647

/-- What `di_lua_type_to_di` returns and writes. -/
structure Converted where
  rc : ℤ
  type : DiType
  value : DiValue := .nil

/-- Whether a value is wanted, the index, and the type hint. -/
abbrev Convert := Bool → ℤ → DiType → Stack → Except Stop (Converted × Stack)

variable (h : Lua)

def diLuaIsproxy (i : ℤ) (s : Stack) : Except Stop (Bool × Stack) :=
  match index i s with
  | some (.userdata u) =>
      match (h.userdata u).metatable with
      | none => do
          let s ← pop 2 s
          .ok (false, s)
      | some m => do
          let field := (h.tables m).get (.string "__is_deai_proxy")
          let s ← pop 2 (field :: .table m :: s)
          .ok (decide (field ≠ .nil), s)
  | _ => do
      let s ← pop 2 s
      .ok (false, s)

/-- The object of a table or a function. It is taken from the object cache when it lives there. -/
def luaTypeToDiObject (i : ℤ) (s : Stack) : Except Stop (ObjRef × Stack) :=
  match index i s with
  | some v@(.table _) | some v@(.function _) => do
      -- the cache, and in it a weak proxy or nil
      let proxy := if (h.cached v).isSome then .userdata h.nextUserdata else .nil
      let s ← pop 1 (proxy :: .table h.nextTable :: s)
      if h.cached v = some true then do
        let s ← pop 1 s
        .ok (h.wrap v, s)
      else do
        -- a reference to the value, and then a new entry of the cache
        let s ← pop 1 (v :: s)
        let s ← pop 2 (.userdata h.nextUserdata :: v :: s)
        let s ← pop 1 s
        .ok (h.wrap v, s)
  | _ => .error .assertion

/-! ## Arrays -/

/-- The element type after one more element of type `t`. -/
def joinType (elemt t : DiType) : Option DiType :=
  if t = elemt then some elemt
  else if t = .float ∧ elemt = .int then some .float
  else if (t = .array ∨ t = .tuple) ∧ elemt = .emptyObject then some t
  else if t ≠ .int ∨ elemt ≠ .float then none
  else some elemt

/-- The loop of `di_lua_checkarray`, with the next key on top. The element `intMax - left` is
next; a table with too many of them is cut off. -/
def scan (convert : Convert) (p : ℕ) :
    ℕ → DiType → Stack → Except Stop (Option (ℕ × DiType) × Stack)
  | 0, _, _ => .error .misuse
  | left + 1, elemt, s => do
      let i := intMax - (left + 1)
      let (more, s) ← luaNext h p s
      if more then do
        let s ← luaRawgeti h p i s
        let (c, s) ← convert true (-1) elemt s
        let s ← pop 2 s
        match joinType elemt c.type with
        | none => do
            let s ← pop 1 s
            .ok (none, s)
        | some elemt =>
            if left = 0 then do
              let s ← pop 1 s
              .ok (some (i, elemt), s)
            else scan convert p left elemt s
      else .ok (some (i - 1, elemt), s)

/-- The number of elements and their type, when the table is an array. -/
def diLuaCheckarray (convert : Convert) (i : ℤ) (s : Stack) :
    Except Stop (Option (ℕ × DiType) × Stack) := do
  let p := absolute i s
  let (more, s) ← luaNext h p (.nil :: s)
  if more then do
    let s ← luaRawgeti h p 1 s
    let (c, s) ← convert true (-1) .any s
    let s ← pop 2 s
    if c.type = .nil then do
      let s ← pop 1 s
      .ok (none, s)
    else scan h convert p (intMax - 2) c.type s
  else .ok (some (0, .any), s)

/-- The elements from `i` on. -/
def convertElements (convert : Convert) (index : ℤ) (elemt : DiType) :
    ℕ → ℕ → Stack → Except Stop (List DiValue × Stack)
  | 0, _, s => .ok ([], s)
  | left + 1, i, s => do
      let s ← luaRawgeti h index i s
      let (c, s) ← convert true (-1) elemt s
      let s ← pop 1 s
      if c.type = elemt then do
        let (rest, s) ← convertElements convert index elemt left (i + 1) s
        .ok (c.value :: rest, s)
      else
        -- integers in an array of floats
        match c.type, elemt, c.value with
        | .int, .float, .int n => do
            let (rest, s) ← convertElements convert index elemt left (i + 1) s
            .ok (.float (doubleBits n.toInt) :: rest, s)
        | _, _, _ => .error .assertion

/-- A type without a size, or that `di_sizeof_type` does not know. -/
def unsized (t : DiType) : Prop := t = .nil ∨ t = .any ∨ t = .lastType

instance (t : DiType) : Decidable (unsized t) := inferInstanceAs (Decidable (_ ∨ _))

def diLuaTableToArray (convert : Convert) (index : ℤ) (nelem : ℕ) (elemt : DiType) (s : Stack) :
    Except Stop (DiValue × Stack) :=
  if nelem = 0 then .ok (.array elemt [], s)
  else if unsized elemt then .error .assertion
  else do
    let (elems, s) ← convertElements h convert index elemt nelem 1 s
    .ok (.array elemt elems, s)

/-! ## Values -/

/-- A table becomes an object. -/
def tableObject (want : Bool) (i : ℤ) (type : DiType) (value : ObjRef → DiValue) (s : Stack) :
    Except Stop (Converted × Stack) :=
  if want then do
    let (o, s) ← luaTypeToDiObject h i s
    .ok ({rc := 0, type, value := value o}, s)
  else .ok ({rc := 0, type}, s)

/-- The case of a table. -/
def convertTable (convert : Convert) (want : Bool) (i : ℤ) (hint : DiType) (s : Stack) :
    Except Stop (Converted × Stack) := do
  let (hasMetatable, s) ← luaGetmetatable h i s
  let s ← if hasMetatable then pop 1 s else .ok s
  let (array, s) ← diLuaCheckarray h convert i s
  match array, hasMetatable with
  | some (nelem, elemt), false =>
      if nelem = 0 ∧ hint ≠ .array then
        if elemt ≠ .any then .error .assertion
        else tableObject h want i .emptyObject .emptyObject s
      else if want then do
        let (value, s) ← diLuaTableToArray h convert i nelem elemt s
        .ok ({rc := 0, type := .array, value}, s)
      else .ok ({rc := 0, type := .array}, s)
  | _, _ => tableObject h want i .object .object s

/-- A value that is not looked into. -/
def plain (want : Bool) (type : DiType) (value : DiValue) : Converted :=
  {rc := 0, type, value := if want then value else .nil}

def diLuaTypeToDi : ℕ → Convert
  | 0, _, _, _, _ => .error .depth
  | depth + 1, want, i, hint, s =>
      match index i s with
      | none => .error .misuse
      | some (.boolean b) => .ok (plain want .bool (.bool b), s)
      | some (.integer n) => .ok (plain want .int (.int n), s)
      | some (.float bits) => .ok (plain want .float (.float bits), s)
      | some (.string str) => .ok (plain want .string (.string str), s)
      | some (.userdata u) => do
          let (proxy, s) ← diLuaIsproxy h i s
          if proxy then .ok (plain want .object (.object (h.userdata u).object), s)
          else .ok ({rc := enotsup, type := .nil}, s)
      | some (.table _) => convertTable h (diLuaTypeToDi depth) want i hint s
      | some (.function _) =>
          if want then do
            let (o, s) ← luaTypeToDiObject h i s
            .ok (plain true .object (.object o), s)
          else .ok (plain false .object .nil, s)
      | some .nil => .ok ({rc := 0, type := .nil}, s)
      | some (.lightUserdata _) | some (.thread _) => .ok ({rc := enotsup, type := .nil}, s)

end Deai.LuaConversion
