import Deai.Fallible
import Deai.Value
import Deai.StringBuffer

/-!
# Enumerating a Lua table

`di_lua_di_next` walks over a table with `lua_next`, on the stack of the Lua state. Keys that are
no strings are passed over with the value popped. A string that starts with `__` is passed over
too, but its value stays on the stack, so `lua_next` is next called on the key. A number counts as
a string for `lua_isstring`, and `lua_tolstring` turns it into one in its place on the stack.

The head of a list is the top of the stack. A table is the list of its entries in the order
`lua_next` visits them. How a number is written and what becomes of a value are parameters.
-/
namespace Deai.LuaEnumeration
open Value StringBuffer Fallible

inductive LuaValue where
  | nil
  | boolean (b : Bool)
  | integer (i : ℤ)
  | float (bits : UInt64)
  | string (s : Bytes)
  | table (t : ℕ)
  | function (f : ℕ)
  | userdata (u : ℕ)
  | thread (t : ℕ)
  deriving DecidableEq

abbrev Entry := LuaValue × LuaValue

/-- No key is there twice, and none is `nil`. -/
structure LuaTable where
  entries : List Entry
  unique : (entries.map (·.1)).Nodup
  keys : ∀ e ∈ entries, e.1 ≠ .nil

/-- `lua_next` on something that is no table, a key that is not in the table, too few values on
the stack, the assertion of `CHECK_LUA_STACK`. -/
inductive Fault where
  | notTable
  | invalidKey
  | stackUnderflow
  | stackChanged
  | outOfFuel
  deriving DecidableEq

abbrev Stack := List LuaValue

/-- The entries behind the key. -/
def entriesAfter (t : LuaTable) (key : LuaValue) : Except Fault (List Entry) :=
  if key = .nil then .ok t.entries
  else if key ∈ t.entries.map (·.1) then .ok (t.entries.dropWhile (·.1 ≠ key)).tail
  else .error .invalidKey

section
variable (tables : ℕ → LuaTable) (numberText : LuaValue → Bytes) (toVariant : LuaValue → DiValue)

/-- `lua_next(L, -2)` -/
def luaNext : Stack → Except Fault (Option Entry × Stack)
  | key :: .table t :: rest => do
      match ← entriesAfter (tables t) key with
      | [] => .ok (none, .table t :: rest)
      | e :: _ => .ok (some e, e.2 :: e.1 :: .table t :: rest)
  | _ :: _ :: _ => .error .notTable
  | _ => .error .stackUnderflow

def luaIsstring : LuaValue → Bool
  | .string _ | .integer _ | .float _ => true
  | _ => false

/-- `lua_tolstring(L, -2, …)`, for a value that is a string or a number. -/
def luaTolstring : Stack → Except Fault (Bytes × Stack)
  | v :: .string s :: rest => .ok (s, v :: .string s :: rest)
  | v :: k :: rest => .ok (numberText k, v :: .string (numberText k) :: rest)
  | _ => .error .stackUnderflow

def luaPop (n : ℕ) (stack : Stack) : Except Fault Stack :=
  if n ≤ stack.length then .ok (stack.drop n) else .error .stackUnderflow

/-- `di_string_starts_with(key, "__")` -/
def hidden (key : Bytes) : Bool := [95, 95].isPrefixOf key

/-- The two elements of the returned tuple, and the entry they were made of. -/
structure Returned where
  entry : Entry
  key : Bytes
  value : DiValue

/-- `while (true)`, up to the entry it breaks at. -/
def nextLoop : ℕ → Stack → Except Fault (Option (Entry × Bytes) × Stack)
  | 0, _ => .error .outOfFuel
  | fuel + 1, stack => do
      match ← luaNext tables stack with
      | (none, stack) => .ok (none, stack)
      | (some e, stack) =>
          if !luaIsstring e.1 then do
            let stack ← luaPop 1 stack
            nextLoop fuel stack
          else do
            let (key, stack) ← luaTolstring numberText stack
            if !hidden key then .ok (some (e, key), stack) else nextLoop fuel stack

/-- The key on the stack for a name; a null name starts the walk. -/
def nameKey : Option Bytes → LuaValue
  | some s => .string s
  | none => .nil

/-- The body, after `CHECK_LUA_STACK`. `ref` is what the registry holds for `tref`, a null key is
`none`. -/
def nextBody (fuel : ℕ) (ref : LuaValue) (name : Option Bytes) (stack : Stack) :
    Except Fault (Option Returned × Stack) :=
  if ref = .nil then .ok (none, stack)
  else do
    match ← nextLoop tables numberText fuel (nameKey name :: ref :: stack) with
    | (none, stack) => do
        let stack ← luaPop 1 stack
        .ok (none, stack)
    | (some (e, key), stack) => do
        let stack ← luaPop 3 stack
        .ok (some ⟨e, key, toVariant e.2⟩, stack)

def diLuaDiNext (fuel : ℕ) (ref : LuaValue) (name : Option Bytes) (stack : Stack) :
    Except Fault (Option Returned × Stack) := do
  let (r, after) ← nextBody tables numberText toVariant fuel ref name stack
  if after.length = stack.length then .ok (r, after) else .error .stackChanged

/-- The calls from `name` on, until one returns the empty tuple. -/
def enumerate (fuel : ℕ) (ref : LuaValue) :
    ℕ → Option Bytes → Stack → Except Fault (List Returned × Stack)
  | 0, _, _ => .error .outOfFuel
  | calls + 1, name, stack => do
      match ← diLuaDiNext tables numberText toVariant fuel ref name stack with
      | (none, stack) => .ok ([], stack)
      | (some r, stack) => do
          let (rs, stack) ← enumerate fuel ref calls (some r.key) stack
          .ok (r :: rs, stack)

end

/-! ## The walk -/

/-- The text that `lua_tolstring` gives for a key. -/
def keyText (numberText : LuaValue → Bytes) : LuaValue → Bytes
  | .string s => s
  | k => numberText k

theorem entriesAfter_nil (t : LuaTable) : entriesAfter t .nil = .ok t.entries := if_pos rfl

theorem entriesAfter_key {t : LuaTable} {pre post : List Entry} {e : Entry}
    (ht : t.entries = pre ++ e :: post) : entriesAfter t e.1 = .ok post := by
  have hmem : e ∈ t.entries := by
    rw [ht]
    exact List.mem_append_right _ List.mem_cons_self
  have hpre : ∀ x ∈ pre, decide (x.1 ≠ e.1) = true := by
    intro x hx
    rw [decide_eq_true_eq]
    intro heq
    have hunique := t.unique
    rw [ht, List.map_append, List.map_cons] at hunique
    exact List.disjoint_of_nodup_append hunique (List.mem_map_of_mem hx) (heq ▸ List.mem_cons_self)
  unfold entriesAfter
  rw [if_neg (t.keys e hmem), if_pos (List.mem_map_of_mem hmem), ht,
    List.dropWhile_append_of_pos hpre]
  simp

section
variable {tables : ℕ → LuaTable} {numberText : LuaValue → Bytes} {toVariant : LuaValue → DiValue}
  {t fuel calls : ℕ} {pre post skipped rest : List Entry} {k : LuaValue} {e : Entry}
  {name : Option Bytes} {stack : Stack}

theorem no_string (hfind : post.find? (fun e => luaIsstring e.1) = none) :
    ∀ x ∈ post, luaIsstring x.1 = false := by
  intro x hx
  simpa using List.find?_eq_none.mp hfind x hx

theorem first_string (hfind : post.find? (fun e => luaIsstring e.1) = some e) :
    luaIsstring e.1 = true ∧ ∃ skipped rest, post = skipped ++ e :: rest ∧
      ∀ x ∈ skipped, luaIsstring x.1 = false := by
  obtain ⟨he, skipped, rest, rfl, hall⟩ := List.find?_eq_some_iff_append.mp hfind
  refine ⟨he, skipped, rest, rfl, fun x hx => ?_⟩
  simpa using hall x hx

theorem luaNext_eq (hk : entriesAfter (tables t) k = .ok post) :
    luaNext tables (k :: .table t :: stack) = .ok (match post with
      | [] => (none, .table t :: stack)
      | e :: _ => (some e, e.2 :: e.1 :: .table t :: stack)) := by
  simp only [luaNext, hk, ok_bind]
  cases post <;> rfl

theorem luaTolstring_eq (v k : LuaValue) (stack : Stack) :
    luaTolstring numberText (v :: k :: stack) =
      .ok (keyText numberText k, v :: .string (keyText numberText k) :: stack) := by
  cases k <;> rfl

/-- A key that is no string is left behind with the stack as it was. -/
theorem nextLoop_skip (hk : entriesAfter (tables t) k = .ok (e :: post))
    (he : luaIsstring e.1 = false) :
    nextLoop tables numberText (fuel + 1) (k :: .table t :: stack) =
      nextLoop tables numberText fuel (e.1 :: .table t :: stack) := by
  rw [nextLoop, luaNext_eq hk]
  simp only [ok_bind, he, Bool.not_false, if_true]
  rfl

/-- The loop comes to what stands behind the keys that are no strings. -/
theorem nextLoop_skipped (ht : (tables t).entries = pre ++ (skipped ++ post))
    (hk : entriesAfter (tables t) k = .ok (skipped ++ post))
    (hskipped : ∀ x ∈ skipped, luaIsstring x.1 = false) :
    ∃ k', entriesAfter (tables t) k' = .ok post ∧
      nextLoop tables numberText (skipped.length + fuel) (k :: .table t :: stack) =
        nextLoop tables numberText fuel (k' :: .table t :: stack) := by
  induction skipped generalizing pre k with
  | nil => exact ⟨k, hk, by rw [List.length_nil, Nat.zero_add]⟩
  | cons e skipped ih =>
      have hnext : (tables t).entries = pre ++ [e] ++ (skipped ++ post) := by
        rw [ht]
        simp
      obtain ⟨k', hk', hloop⟩ := ih hnext (entriesAfter_key ht)
        fun x hx => hskipped x (List.mem_cons_of_mem _ hx)
      refine ⟨k', hk', ?_⟩
      rw [List.length_cons, Nat.add_right_comm, nextLoop_skip hk (hskipped e List.mem_cons_self)]
      exact hloop

/-- After a string that starts with `__`, `lua_next` is called on the key. -/
theorem nextLoop_hidden (hk : entriesAfter (tables t) k = .ok (e :: post))
    (he : luaIsstring e.1 = true) (hhidden : hidden (keyText numberText e.1) = true) :
    nextLoop tables numberText (fuel + 2) (k :: .table t :: stack) = .error .notTable := by
  rw [nextLoop, luaNext_eq hk]
  simp only [ok_bind, he, Bool.not_true, Bool.false_eq_true, if_false, luaTolstring_eq, hhidden]
  rfl

theorem nextLoop_break (hk : entriesAfter (tables t) k = .ok (e :: post))
    (he : luaIsstring e.1 = true) (hhidden : hidden (keyText numberText e.1) = false) :
    nextLoop tables numberText (fuel + 1) (k :: .table t :: stack) =
      .ok (some (e, keyText numberText e.1),
        e.2 :: .string (keyText numberText e.1) :: .table t :: stack) := by
  rw [nextLoop, luaNext_eq hk]
  simp only [ok_bind, he, Bool.not_true, Bool.false_eq_true, if_false, luaTolstring_eq, hhidden,
    Bool.not_false, if_true]

theorem nextLoop_end (hk : entriesAfter (tables t) k = .ok []) :
    nextLoop tables numberText (fuel + 1) (k :: .table t :: stack) = .ok (none, .table t :: stack) := by
  rw [nextLoop, luaNext_eq hk]
  rfl

/-- What one call does is decided by the first string or number behind the key. -/
theorem diLuaDiNext_eq (ht : (tables t).entries = pre ++ post)
    (hk : entriesAfter (tables t) (nameKey name) = .ok post)
    (hfuel : (tables t).entries.length < fuel) :
    diLuaDiNext tables numberText toVariant fuel (.table t) name stack =
      match post.find? (fun e => luaIsstring e.1) with
      | none => .ok (none, stack)
      | some e =>
          if hidden (keyText numberText e.1) then .error .notTable
          else .ok (some ⟨e, keyText numberText e.1, toVariant e.2⟩, stack) := by
  have hlen : (tables t).entries.length = pre.length + post.length := by rw [ht, List.length_append]
  unfold diLuaDiNext nextBody
  rw [if_neg (by simp)]
  cases hfind : post.find? (fun e => luaIsstring e.1) with
  | none =>
      have hall := no_string hfind
      obtain ⟨n, rfl⟩ : ∃ n, fuel = post.length + (n + 1) := ⟨fuel - post.length - 1, by omega⟩
      rw [← List.append_nil post] at ht hk
      obtain ⟨k', hk', hloop⟩ := nextLoop_skipped ht hk hall
      rw [hloop, nextLoop_end hk']
      simp [ok_bind, luaPop]
  | some e =>
      obtain ⟨he, skipped, rest, rfl, hskipped⟩ := first_string hfind
      rw [List.length_append, List.length_cons] at hlen
      obtain ⟨n, rfl⟩ : ∃ n, fuel = skipped.length + (n + 2) :=
        ⟨fuel - skipped.length - 2, by omega⟩
      obtain ⟨k', hk', hloop⟩ := nextLoop_skipped ht hk hskipped
      rw [hloop]
      cases hhidden : hidden (keyText numberText e.1) with
      | true =>
          rw [nextLoop_hidden hk' he hhidden]
          simp only [hhidden, if_true]
          rfl
      | false =>
          rw [nextLoop_break hk' he hhidden]
          simp [ok_bind, luaPop, hhidden]

end

/-! ## The enumeration -/

/-- The key is a string that does not start with `__`. -/
def visibleKey : LuaValue → Option Bytes
  | .string s => if hidden s then none else some s
  | _ => none

/-- What a call has to return for an entry. -/
def returned (toVariant : LuaValue → DiValue) (e : Entry) : Option Returned :=
  (visibleKey e.1).map fun s => ⟨e, s, toVariant e.2⟩

/-- From the null key on, the calls return exactly the entries with visible keys in the order of
the table, and leave the stack as it was. -/
def Enumerated (tables : ℕ → LuaTable) (numberText : LuaValue → Bytes)
    (toVariant : LuaValue → DiValue) (t : ℕ) : Prop :=
  ∀ (fuel calls : ℕ) (stack : Stack), (tables t).entries.length < fuel →
    (tables t).entries.length < calls →
    enumerate tables numberText toVariant fuel (.table t) calls none stack =
      .ok ((tables t).entries.filterMap (returned toVariant), stack)

def isNumber : LuaValue → Bool
  | .integer _ | .float _ => true
  | _ => false

/-- The key is no number, and no string that starts with `__`. -/
def Walkable (e : Entry) : Prop :=
  isNumber e.1 = false ∧ ∀ s, e.1 = .string s → hidden s = false

theorem walkable_of_not_isstring {e : Entry} (he : luaIsstring e.1 = false) : Walkable e := by
  obtain ⟨k, v⟩ := e
  cases k with
  | string | integer | float => cases he
  | nil | boolean | table | function | userdata | thread => exact ⟨rfl, nofun⟩

theorem visibleKey_of_not_isstring {k : LuaValue} (hk : luaIsstring k = false) :
    visibleKey k = none := by
  cases k with
  | string | integer | float => cases hk
  | nil | boolean | table | function | userdata | thread => rfl

theorem isstring_cases {k : LuaValue} (hk : luaIsstring k = true) :
    (∃ s, k = .string s) ∨ isNumber k = true := by
  cases k with
  | string s => exact .inl ⟨s, rfl⟩
  | integer | float => exact .inr rfl
  | nil | boolean | table | function | userdata | thread => cases hk

section
variable {tables : ℕ → LuaTable} {numberText : LuaValue → Bytes} {toVariant : LuaValue → DiValue}
  {t fuel calls : ℕ} {pre post skipped rest : List Entry} {name : Option Bytes} {stack : Stack}

theorem visibleKey_of_isNumber {k : LuaValue} (hk : isNumber k = true) : visibleKey k = none := by
  cases k with
  | integer | float => rfl
  | nil | boolean | string | table | function | userdata | thread => cases hk

theorem after_string {s : Bytes} {v : LuaValue}
    (ht : (tables t).entries = pre ++ (skipped ++ (.string s, v) :: rest)) :
    (tables t).entries = (pre ++ skipped ++ [(LuaValue.string s, v)]) ++ rest ∧
      entriesAfter (tables t) (nameKey (some s)) = .ok rest := by
  have hnext : (tables t).entries = (pre ++ skipped) ++ (.string s, v) :: rest := by
    rw [ht, List.append_assoc]
  refine ⟨?_, entriesAfter_key hnext⟩
  rw [hnext]
  simp

theorem filterMap_returned_nil (hpost : ∀ e ∈ post, luaIsstring e.1 = false) :
    post.filterMap (returned toVariant) = [] := by
  rw [List.filterMap_eq_nil_iff]
  intro e he
  rw [returned, visibleKey_of_not_isstring (hpost e he)]
  rfl

theorem enumerate_walkable (hfuel : (tables t).entries.length < fuel)
    (ht : (tables t).entries = pre ++ post)
    (hk : entriesAfter (tables t) (nameKey name) = .ok post) (hcalls : post.length < calls)
    (hwalk : ∀ e ∈ post, Walkable e) :
    enumerate tables numberText toVariant fuel (.table t) calls name stack =
      .ok (post.filterMap (returned toVariant), stack) := by
  induction calls generalizing pre post name with
  | zero => omega
  | succ calls ih =>
      rw [enumerate, diLuaDiNext_eq ht hk hfuel]
      cases hfind : post.find? (fun e => luaIsstring e.1) with
      | none =>
          rw [filterMap_returned_nil (no_string hfind)]
          rfl
      | some e =>
          obtain ⟨he, skipped, rest, rfl, hskipped⟩ := first_string hfind
          obtain ⟨hnumber, hstring⟩ := hwalk e (List.mem_append_right _ List.mem_cons_self)
          obtain ⟨k, v⟩ := e
          obtain ⟨s, rfl⟩ | hn := isstring_cases he
          · have hs := hstring s rfl
            obtain ⟨hnext, hkey⟩ := after_string ht
            have hrest : enumerate tables numberText toVariant fuel (.table t) calls (some s) stack =
                .ok (rest.filterMap (returned toVariant), stack) := by
              apply ih hnext hkey
              · rw [List.length_append, List.length_cons] at hcalls
                omega
              · exact fun x hx => hwalk x (List.mem_append_right _ (List.mem_cons_of_mem _ hx))
            simp [keyText, hs, ok_bind, hrest, filterMap_returned_nil hskipped, returned, visibleKey]
          · rw [hn] at hnumber
            cases hnumber

/-- A walk that comes to a number, or to a string that starts with `__`, fails there or returns an
entry it should have passed over. -/
theorem enumerate_astray {rs : List Returned} {after : Stack}
    (hfuel : (tables t).entries.length < fuel) (ht : (tables t).entries = pre ++ post)
    (hk : entriesAfter (tables t) (nameKey name) = .ok post) (hbad : ∃ e ∈ post, ¬ Walkable e)
    (hrun : enumerate tables numberText toVariant fuel (.table t) calls name stack =
      .ok (rs, after)) : ∃ r ∈ rs, visibleKey r.entry.1 = none := by
  induction calls generalizing pre post name stack rs with
  | zero => cases hrun
  | succ calls ih =>
      obtain ⟨bad, hbadmem, hbad⟩ := hbad
      rw [enumerate, diLuaDiNext_eq ht hk hfuel] at hrun
      cases hfind : post.find? (fun e => luaIsstring e.1) with
      | none => exact absurd (walkable_of_not_isstring (no_string hfind bad hbadmem)) hbad
      | some e =>
          obtain ⟨he, skipped, rest, rfl, hskipped⟩ := first_string hfind
          rw [hfind] at hrun
          cases hhidden : hidden (keyText numberText e.1) with
          | true =>
              simp only [hhidden, if_true] at hrun
              cases hrun
          | false =>
              simp only [hhidden, Bool.false_eq_true, if_false, ok_bind] at hrun
              obtain ⟨⟨rs', after'⟩, hrest, heq⟩ := bind_eq_ok hrun
              cases heq
              obtain ⟨k, v⟩ := e
              obtain ⟨s, rfl⟩ | hn := isstring_cases he
              · obtain ⟨hnext, hkey⟩ := after_string ht
                have hlater : bad ∈ rest := by
                  rcases List.mem_append.mp hbadmem with hb | hb
                  · exact absurd (walkable_of_not_isstring (hskipped bad hb)) hbad
                  · rcases List.mem_cons.mp hb with rfl | hb
                    · exact absurd ⟨rfl, fun _ heq => by cases heq; exact hhidden⟩ hbad
                    · exact hb
                obtain ⟨r, hr, hnone⟩ := ih hnext hkey ⟨bad, hlater, hbad⟩ hrest
                exact ⟨r, List.mem_cons_of_mem _ hr, hnone⟩
              · exact ⟨_, List.mem_cons_self, visibleKey_of_isNumber hn⟩

end

/-- `{__a = true, b = false}` and `{false}` -/
def underscored : LuaTable where
  entries := [(.string [95, 95, 97], .boolean true), (.string [98], .boolean false)]
  unique := by decide
  keys := by decide

def sequence : LuaTable where
  entries := [(.integer 1, .boolean false)]
  unique := by decide
  keys := by decide

end Deai.LuaEnumeration
