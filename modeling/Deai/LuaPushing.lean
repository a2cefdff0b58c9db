import Deai.LuaConversion

/-!
# From deai to Lua

`di_lua_pushvariant` of the module `lua`, with the proxies of objects. Where the code raises a Lua
error, nothing is returned.
-/
namespace Deai.LuaPushing
open Fallible Value LuaStack LuaConversion

def ptrdiffMax : ℕ := 9223372036854775807

/-! ## Proxies -/

/-- The metatable of a proxy. Nothing here reads its functions. -/
def proxyMetatable : Table := Table.empty.set (.string "__is_deai_proxy") (.boolean true)

/-- `lua_pushcclosure` with the object and its name. -/
def pushMethodHandler (callable : Bool) (s : Stack) : Except Stop Stack :=
  if callable then do
    let s ← pop 2 s
    .ok (.function 0 :: s)
  else .ok s

/-- `__call` of the metatable on top, from the closure below. -/
def setCall (callable : Bool) (s : Stack) : Except Stop Stack :=
  if callable then do
    let s ← insert s
    let s ← insert (.string "__call" :: s)
    pop 2 s
  else .ok s

def diLuaCreateMetatableForObject (callable : Bool) (metatable : ℕ) (s : Stack) :
    Except Stop Stack := do
  let s ← pushMethodHandler callable s
  let s ← pop 2 (.boolean true :: .string "__is_deai_proxy" :: .table metatable :: s)
  let s ← setCall callable s
  pop 1 s

def diLuaPushproxy (callable : Bool) (name : String) (o : ObjRef) (h : Lua) (s : Stack) :
    Except Stop Stack :=
  let s := .userdata h.nextUserdata :: s
  let s := if callable then .string name :: .lightUserdata (.ofNat o) :: s else s
  diLuaCreateMetatableForObject callable h.nextTable s

/-- The new proxy with its metatable. -/
def addProxy (h : Lua) (o : ObjRef) : Lua :=
  (h.newTable proxyMetatable).newUserdata {metatable := some h.nextTable, object := o}

/-- The indirection is pushed, and then the proxy or nil; the indirection is removed. -/
def luaLWeakrefGet (h : Lua) (proxy : Option ℕ) (s : Stack) : Except Stop (Bool × Stack) := do
  let value := match proxy with
    | some u => .userdata u
    | none => .nil
  let s ← insert (value :: .table h.nextTable :: s)
  let s ← pop 1 s
  .ok (proxy.isSome, s)

/-- The value on top goes into a new weak table, and this into the registry. -/
def luaLWeakref (h : Lua) (v : LuaValue) (s : Stack) : Except Stop Stack := do
  let s := .table (h.nextTable + 1) :: .table h.nextTable :: s
  let s ← pop 2 (.string "v" :: .string "__mode" :: s)
  let s ← pop 1 s
  let s ← pop 1 (v :: s)
  let s ← insert s
  let s ← pop 1 s
  pop 1 s

def pushNewProxy (name : String) (o : ObjRef) (h : Lua) (s : Stack) :
    Except Stop (Lua × Stack) := do
  let s ← diLuaPushproxy true name o h s
  let s ← luaLWeakref (addProxy h o) (.userdata h.nextUserdata) (.userdata h.nextUserdata :: s)
  .ok ((addProxy h o).setProxy h.nextUserdata (Nat.lt_succ_self _), s)

/-- An object that was pushed before has a proxy, if this is not collected. -/
def diLuaPushobject (name : String) (o : ObjRef) (h : Lua) (s : Stack) :
    Except Stop (Lua × Stack) :=
  match h.proxies o with
  | none => pushNewProxy name o h s
  | some proxy => do
      let (alive, s) ← luaLWeakrefGet h proxy s
      if alive then .ok (h, s)
      else do
        let s ← pop 1 s
        pushNewProxy name o h s

/-! ## Values -/

mutual
/-- The number it returns, and what it pushes. `null` tells if an empty string has no data. -/
def diLuaPushvariant (null : Bool) (name : String) :
    DiValue → Lua → Stack → Except Stop (ℕ × Lua × Stack)
  | .object o, h, s =>
      if o = 0 then .ok (1, h, .nil :: s)
      else do
        let (h, s) ← diLuaPushobject name o h s
        .ok (1, h, s)
  | .string str, h, s =>
      if str = "" ∧ null then .ok (1, h, .nil :: s) else .ok (1, h, .string str :: s)
  | .pointer p, h, s =>
      if p = 0 then .ok (1, h, .nil :: s) else .ok (1, h, .lightUserdata p :: s)
  | .nuint n, h, s => .ok (1, h, .integer (.ofNat n.toNat) :: s)
  | .uint n, h, s =>
      if n.toNat < ptrdiffMax then .ok (1, h, .integer (.ofNat n.toNat) :: s)
      else .error .luaError
  | .nint i, h, s => .ok (1, h, .integer i.toInt64 :: s)
  | .int i, h, s => .ok (1, h, .integer i :: s)
  | .float bits, h, s => .ok (1, h, .float bits :: s)
  | .emptyObject o, h, s => do
      let (h, s) ← diLuaPushobject name o h s
      .ok (1, h, s)
  | .weakObject o, h, s => do
      let s ← diLuaPushproxy false name o h s
      .ok (1, addProxy h o, s)
  | .stringLiteral str, h, s => .ok (1, h, .string str :: s)
  | .array t elems, h, s =>
      if t = .any then .ok (1, h.newTable .empty, .table h.nextTable :: s)
      else if elems.length < intMax then do
        let (h, s) ← pushElements null elems 1 (h.newTable .empty) (.table h.nextTable :: s)
        .ok (1, h, s)
      else .error .luaError
  | .tuple elems, h, s =>
      if elems.length < intMax then do
        let (h, s) ← pushElements null elems 1 (h.newTable .empty) (.table h.nextTable :: s)
        .ok (1, h, s)
      else .error .luaError
  | .variant v, h, s => diLuaPushvariant null "" v h s
  | .bool b, h, s => .ok (1, h, .boolean b :: s)
  | .nil, h, s => .ok (0, h, .nil :: s)

/-- The elements from `i` on go into the table on top. -/
def pushElements (null : Bool) : List DiValue → ℕ → Lua → Stack → Except Stop (Lua × Stack)
  | [], _, h, s => .ok (h, s)
  | v :: vs, i, h, s => do
      let (_, h, s) ← diLuaPushvariant null "" v h s
      let (h, s) ← luaRawseti h i s
      pushElements null vs (i + 1) h s
end

/-! ## What is left alone -/

/-- Tables below `base` and all userdata stay as they are. -/
structure Grows (base : ℕ) (h h' : Lua) : Prop where
  nextTable : h.nextTable ≤ h'.nextTable
  nextUserdata : h.nextUserdata ≤ h'.nextUserdata
  tables : ∀ r < base, h'.tables r = h.tables r
  userdata : ∀ u < h.nextUserdata, h'.userdata u = h.userdata u

variable {h h' h'' : Lua} {s : Stack} {o : ObjRef} {name : String} {callable null : Bool}
  {base base' r : ℕ}

namespace Grows

theorem refl (base : ℕ) (h : Lua) : Grows base h h :=
  ⟨le_rfl, le_rfl, fun _ _ => rfl, fun _ _ => rfl⟩

theorem trans (h₁ : Grows base h h') (h₂ : Grows base h' h'') : Grows base h h'' where
  nextTable := h₁.nextTable.trans h₂.nextTable
  nextUserdata := h₁.nextUserdata.trans h₂.nextUserdata
  tables r hr := (h₂.tables r hr).trans (h₁.tables r hr)
  userdata u hu := (h₂.userdata u (hu.trans_le h₁.nextUserdata)).trans (h₁.userdata u hu)

theorem mono (hgrows : Grows base h h') (hle : base' ≤ base) : Grows base' h h' where
  nextTable := hgrows.nextTable
  nextUserdata := hgrows.nextUserdata
  tables r hr := hgrows.tables r (hr.trans_le hle)
  userdata := hgrows.userdata

theorem newTable (h : Lua) (t : Table) : Grows h.nextTable h (h.newTable t) where
  nextTable := Nat.le_succ _
  nextUserdata := le_rfl
  tables _ hr := Function.update_of_ne hr.ne _ _
  userdata _ _ := rfl

theorem setTable (h : Lua) (r : ℕ) (t : Table) : Grows r h (h.setTable r t) where
  nextTable := le_rfl
  nextUserdata := le_rfl
  tables _ hr := Function.update_of_ne hr.ne _ _
  userdata _ _ := rfl

theorem addProxy (h : Lua) (o : ObjRef) : Grows h.nextTable h (addProxy h o) where
  nextTable := Nat.le_succ _
  nextUserdata := Nat.le_succ _
  tables _ hr := Function.update_of_ne hr.ne _ _
  userdata _ hu := Function.update_of_ne hu.ne _ _

end Grows

/-! ## Proxies -/

theorem diLuaPushproxy_eq :
    diLuaPushproxy callable name o h s = .ok (.userdata h.nextUserdata :: s) := by
  cases callable <;> rfl

theorem pushNewProxy_eq : pushNewProxy name o h s
    = .ok ((addProxy h o).setProxy h.nextUserdata (Nat.lt_succ_self _),
      .userdata h.nextUserdata :: s) := by
  rw [pushNewProxy, diLuaPushproxy_eq]
  rfl

theorem addProxy_object (h : Lua) (o : ObjRef) :
    ((addProxy h o).userdata h.nextUserdata).object = o := by
  simp [addProxy, Lua.newUserdata, Lua.newTable]

/-- One proxy for the object is pushed. -/
theorem diLuaPushobject_spec (name : String) (o : ObjRef) (h : Lua) (s : Stack) :
    ∃ h' u, diLuaPushobject name o h s = .ok (h', .userdata u :: s) ∧
      u < h'.nextUserdata ∧ (h'.userdata u).object = o ∧ Grows h.nextTable h h' := by
  have hnew : ∃ h' u, pushNewProxy name o h s = .ok (h', .userdata u :: s) ∧
      u < h'.nextUserdata ∧ (h'.userdata u).object = o ∧ Grows h.nextTable h h' := by
    refine ⟨_, _, pushNewProxy_eq, Nat.lt_succ_self _, addProxy_object h o, ?_⟩
    exact ⟨Nat.le_succ _, Nat.le_succ _, (Grows.addProxy h o).tables, (Grows.addProxy h o).userdata⟩
  rw [diLuaPushobject]
  cases hproxy : h.proxies o with
  | none => exact hnew
  | some proxy =>
      cases proxy with
      | none => exact hnew
      | some u =>
          obtain ⟨hlt, hobject⟩ := h.proxied o u hproxy
          exact ⟨h, u, rfl, hlt, hobject, .refl _ h⟩

/-! ## Values -/

/-- The number of values that it says it has pushed. -/
def announced : DiValue → ℕ
  | .nil => 0
  | .variant v => announced v
  | _ => 1

/-- One value is pushed on top of the stack, or an error is raised. -/
def PushesOne (count : ℕ) (h : Lua) (s : Stack) (result : Except Stop (ℕ × Lua × Stack)) : Prop :=
  result = .error .luaError ∨
    ∃ h' w, result = .ok (count, h', w :: s) ∧ Grows h.nextTable h h'

theorem PushesOne.table {elems : List DiValue}
    (helements : pushElements null elems 1 (h.newTable .empty) (.table h.nextTable :: s)
        = .error .luaError ∨
      ∃ h', pushElements null elems 1 (h.newTable .empty) (.table h.nextTable :: s)
        = .ok (h', .table h.nextTable :: s) ∧ Grows h.nextTable (h.newTable .empty) h') :
    PushesOne 1 h s (pushElements null elems 1 (h.newTable .empty) (.table h.nextTable :: s)
      >>= fun x => .ok (1, x.1, x.2)) := by
  obtain hpush | ⟨h', hpush, hgrows⟩ := helements
  · rw [hpush]
    exact .inl rfl
  · rw [hpush]
    exact .inr ⟨h', _, rfl, (Grows.newTable h .empty).trans hgrows⟩

mutual
/-- By recursion over the value, with its elements. -/
theorem diLuaPushvariant_pushes (null : Bool) (name : String) (v : DiValue) (h : Lua) (s : Stack) :
    PushesOne (announced v) h s (diLuaPushvariant null name v h s) := by
  cases v with
  | object o =>
      rw [diLuaPushvariant]
      split_ifs
      · exact .inr ⟨h, .nil, rfl, .refl _ h⟩
      · obtain ⟨h', u, hpush, -, -, hgrows⟩ := diLuaPushobject_spec name o h s
        rw [hpush]
        exact .inr ⟨h', _, rfl, hgrows⟩
  | emptyObject o =>
      obtain ⟨h', u, hpush, -, -, hgrows⟩ := diLuaPushobject_spec name o h s
      rw [diLuaPushvariant, hpush]
      exact .inr ⟨h', _, rfl, hgrows⟩
  | weakObject o =>
      rw [diLuaPushvariant, diLuaPushproxy_eq]
      exact .inr ⟨_, _, rfl, .addProxy h o⟩
  | variant v =>
      rw [diLuaPushvariant]
      exact diLuaPushvariant_pushes null "" v h s
  | array t elems =>
      rw [diLuaPushvariant]
      split_ifs
      · exact .inr ⟨_, _, rfl, .newTable h .empty⟩
      · exact .table (pushElements_pushes null elems 1 _ _ (Nat.lt_succ_self _) s)
      · exact .inl rfl
  | tuple elems =>
      rw [diLuaPushvariant]
      split_ifs
      · exact .table (pushElements_pushes null elems 1 _ _ (Nat.lt_succ_self _) s)
      · exact .inl rfl
  | uint n =>
      rw [diLuaPushvariant]
      split_ifs
      · exact .inr ⟨h, _, rfl, .refl _ h⟩
      · exact .inl rfl
  | string str =>
      rw [diLuaPushvariant]
      split_ifs <;> exact .inr ⟨h, _, rfl, .refl _ h⟩
  | pointer p =>
      rw [diLuaPushvariant]
      split_ifs <;> exact .inr ⟨h, _, rfl, .refl _ h⟩
  | nil | bool b | nint i | nuint n | int i | float bits | stringLiteral str =>
      rw [diLuaPushvariant]
      exact .inr ⟨h, _, rfl, .refl _ h⟩

theorem pushElements_pushes (null : Bool) (vs : List DiValue) (i : ℕ) (h : Lua) (r : ℕ)
    (hr : r < h.nextTable) (s : Stack) :
    pushElements null vs i h (.table r :: s) = .error .luaError ∨
      ∃ h', pushElements null vs i h (.table r :: s) = .ok (h', .table r :: s) ∧ Grows r h h' := by
  cases vs with
  | nil => exact .inr ⟨h, rfl, .refl r h⟩
  | cons v vs =>
      rw [pushElements]
      obtain hpush | ⟨h₁, w, hpush, hgrows⟩ :=
        diLuaPushvariant_pushes null "" v h (.table r :: s)
      · rw [hpush]
        exact .inl rfl
      · rw [hpush, ok_bind]
        simp only [luaRawseti, ok_bind]
        have hset := Grows.setTable h₁ r
          ((h₁.tables r).set (.integer (.ofNat i)) w)
        obtain hrest | ⟨h₂, hrest, hgrows'⟩ := pushElements_pushes null vs (i + 1)
          (h₁.setTable r ((h₁.tables r).set (.integer (.ofNat i)) w)) r
          (hr.trans_le hgrows.nextTable) s
        · exact .inl hrest
        · exact .inr ⟨h₂, hrest, ((hgrows.mono hr.le).trans hset).trans hgrows'⟩
end

end Deai.LuaPushing
