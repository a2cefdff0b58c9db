import Deai.Fallible
import Deai.Value

/-!
# The Lua stack

What the module `lua` uses of the Lua C API: values, tables in the order of `lua_next`, and the
stack of a call. An API function that is called with a bad index, or pops more than there is, has no
result.
-/
namespace Deai.LuaStack
open Fallible Value

/-! ## Values and tables -/

/-- Tables, functions, userdata and threads are references. The bytes of a string are its
characters. -/
inductive LuaValue where
  | nil
  | boolean (b : Bool)
  | integer (n : Int64)
  | float (bits : UInt64)
  | string (s : String)
  | lightUserdata (p : UInt64)
  | table (r : ℕ)
  | function (r : ℕ)
  | userdata (r : ℕ)
  | thread (r : ℕ)
  deriving DecidableEq

/-- A table, in the order in which `lua_next` goes through it. -/
structure Table where
  entries : List (LuaValue × LuaValue) := []
  metatable : Option ℕ := none
  nodup : (entries.map Prod.fst).Nodup
  present : ∀ e ∈ entries, e.1 ≠ .nil ∧ e.2 ≠ .nil

namespace Table

def get (t : Table) (k : LuaValue) : LuaValue :=
  match t.entries.find? fun e => e.1 = k with
  | none => .nil
  | some e => e.2

/-- The entry behind a key, or the first one for `nil`. There must be such a key. -/
def next (t : Table) (k : LuaValue) : Option (Option (LuaValue × LuaValue)) :=
  if k = .nil then some t.entries.head?
  else
    match t.entries.dropWhile fun e => e.1 ≠ k with
    | [] => none
    | _ :: rest => some rest.head?

/-- A value of `nil` takes the key out. The new entry is the last one. -/
def set (t : Table) (k v : LuaValue) : Table where
  entries := t.entries.filter (fun e => e.1 ≠ k) ++ if k = .nil ∨ v = .nil then [] else [(k, v)]
  metatable := t.metatable
  nodup := by
    rw [List.map_append, List.nodup_append]
    refine ⟨(List.filter_sublist.map _).nodup t.nodup, ?_, ?_⟩
    · split_ifs <;> simp
    · intro a ha b hb
      obtain ⟨e, he, rfl⟩ := List.mem_map.mp ha
      have hne : e.1 ≠ k := by simpa using (List.mem_filter.mp he).2
      split_ifs at hb
      · cases hb
      · rw [List.map_singleton, List.mem_singleton] at hb
        rwa [hb]
  present := by
    intro e he
    obtain he | he := List.mem_append.mp he
    · exact t.present e (List.mem_of_mem_filter he)
    · split_ifs at he with hnil
      · cases he
      · rw [not_or] at hnil
        obtain rfl := List.mem_singleton.mp he
        exact hnil

def empty : Table := {entries := [], nodup := List.nodup_nil, present := by simp}

end Table

structure Userdata where
  metatable : Option ℕ
  object : ObjRef

/-- A Lua state besides its stack, and what the module keeps for it. -/
structure Lua where
  tables : ℕ → Table
  userdata : ℕ → Userdata
  nextTable : ℕ := 0
  nextUserdata : ℕ := 0
  /-- The object cache: whether there is a weak proxy for a value, and whether its object lives. -/
  cached : LuaValue → Option Bool
  /-- The object that stands for a table or a function. -/
  wrap : LuaValue → ObjRef
  /-- The weak reference to the proxy of an object, if there is one, and the proxy if it lives. -/
  proxies : ObjRef → Option (Option ℕ) := fun _ => none
  proxied : ∀ o u, proxies o = some (some u) → u < nextUserdata ∧ (userdata u).object = o := by simp

namespace Lua

def setTable (h : Lua) (r : ℕ) (t : Table) : Lua := {h with tables := Function.update h.tables r t}

def newTable (h : Lua) (t : Table) : Lua :=
  {h with tables := Function.update h.tables h.nextTable t, nextTable := h.nextTable + 1}

def newUserdata (h : Lua) (u : Userdata) : Lua where
  __ := h
  userdata := Function.update h.userdata h.nextUserdata u
  nextUserdata := h.nextUserdata + 1
  proxied o v hv := by
    obtain ⟨hlt, hobject⟩ := h.proxied o v hv
    refine ⟨Nat.lt_succ_of_lt hlt, ?_⟩
    rwa [Function.update_of_ne hlt.ne]

/-- The registry refers to the proxy of an object. -/
def setProxy (h : Lua) (u : ℕ) (hu : u < h.nextUserdata) : Lua where
  __ := h
  proxies := Function.update h.proxies (h.userdata u).object (some (some u))
  proxied o v hv := by
    by_cases ho : o = (h.userdata u).object
    · subst ho
      rw [Function.update_self] at hv
      cases hv
      exact ⟨hu, rfl⟩
    · rw [Function.update_of_ne ho] at hv
      exact h.proxied o v hv

end Lua

/-- The elements `1` to `n` of a table. -/
def Lua.element (h : Lua) (r i : ℕ) : LuaValue :=
  (h.tables r).get (.integer (.ofNat i))

/-! ## The stack -/

/-- The top comes first. -/
abbrev Stack := List LuaValue

/-- A call that does not return. -/
inductive Stop where
  /-- The depth of the recursion is too large. -/
  | depth
  /-- A bad call of the Lua API. -/
  | misuse
  /-- A failing assertion. -/
  | assertion
  /-- `lua_error` -/
  | luaError
  deriving DecidableEq

def pop (n : ℕ) (s : Stack) : Except Stop Stack :=
  if n ≤ s.length then .ok (s.drop n) else .error .misuse

/-- The position of an index, counted from the bottom. -/
def absolute (i : ℤ) (s : Stack) : ℕ := if i < 0 then (s.length + i + 1).toNat else i.toNat

def slot (p : ℕ) (s : Stack) : Option LuaValue := if p = 0 then none else s.reverse[p - 1]?

/-- The value at an index, from the top when it is negative. -/
def index (i : ℤ) (s : Stack) : Option LuaValue := slot (absolute i s) s

variable (h : Lua)

/-- `lua_next` pops a key; it pushes the next entry if there is one. -/
def luaNext (p : ℕ) (s : Stack) : Except Stop (Bool × Stack) :=
  match slot p s, s with
  | some (.table r), k :: s =>
      match (h.tables r).next k with
      | none => .error .luaError
      | some none => .ok (false, s)
      | some (some (k, v)) => .ok (true, v :: k :: s)
  | _, _ => .error .misuse

def luaRawgeti (i : ℤ) (n : ℕ) (s : Stack) : Except Stop Stack :=
  match index i s with
  | some (.table r) => .ok (h.element r n :: s)
  | _ => .error .misuse

/-- `lua_rawseti` of the table below the value pops the value. -/
def luaRawseti (n : ℕ) : Stack → Except Stop (Lua × Stack)
  | v :: .table r :: s =>
      .ok (h.setTable r ((h.tables r).set (.integer (.ofNat n)) v), .table r :: s)
  | _ => .error .misuse

/-- `lua_insert` of the top below the next value. -/
def insert : Stack → Except Stop Stack
  | v :: w :: s => .ok (w :: v :: s)
  | _ => .error .misuse

/-- `lua_getmetatable` pushes nothing when there is no metatable. -/
def luaGetmetatable (i : ℤ) (s : Stack) : Except Stop (Bool × Stack) :=
  match index i s with
  | none => .error .misuse
  | some v =>
      let metatable := match v with
        | .table r => (h.tables r).metatable
        | .userdata u => (h.userdata u).metatable
        | _ => none
      match metatable with
      | none => .ok (false, s)
      | some m => .ok (true, .table m :: s)

/-! ## Positions -/

variable {s s' : Stack} {v w : LuaValue} {p n : ℕ} {i : ℤ}

/-- A position does not move when values are pushed. -/
theorem slot_push (hp : slot p s = some v) (w : LuaValue) : slot p (w :: s) = some v := by
  rw [slot] at hp ⊢
  split_ifs at hp ⊢
  rw [List.reverse_cons, List.getElem?_append_left (List.getElem?_eq_some_iff.mp hp).1]
  exact hp

theorem slot_of_lt (hp : s.length < p) : slot p s = none := by
  rw [slot, if_neg (by omega), List.getElem?_eq_none (by rw [List.length_reverse]; omega)]

theorem slot_top : slot (v :: s).length (v :: s) = some v := by
  rw [slot, List.length_cons, if_neg (Nat.succ_ne_zero _), List.reverse_cons,
    List.getElem?_append_right (by simp)]
  simp

theorem absolute_top : absolute (-1) (v :: s) = (v :: s).length := by
  rw [absolute, if_pos (by norm_num)]
  simp

theorem index_top : index (-1) (v :: s) = some v := by
  rw [index, absolute_top, slot_top]

theorem pop_eq_ok (hpop : pop n s = .ok s') : s' = s.drop n ∧ n ≤ s.length := by
  rw [pop] at hpop
  split_ifs at hpop with hle
  cases hpop
  exact ⟨rfl, hle⟩

theorem pop_length (hpop : pop n s = .ok s') : s'.length + n = s.length := by
  obtain ⟨rfl, hle⟩ := pop_eq_ok hpop
  rw [List.length_drop, Nat.sub_add_cancel hle]

theorem luaNext_length {more : Bool} (hnext : luaNext h p s = .ok (more, s')) :
    (more = true ∧ s'.length = s.length + 1) ∨ (more = false ∧ s'.length + 1 = s.length) := by
  simp only [luaNext] at hnext
  split at hnext
  · split at hnext
    · cases hnext
    · cases hnext
      exact .inr ⟨rfl, rfl⟩
    · cases hnext
      exact .inl ⟨rfl, rfl⟩
  · cases hnext

theorem luaRawgeti_push (hget : luaRawgeti h i n s = .ok s') : ∃ v, s' = v :: s := by
  rw [luaRawgeti] at hget
  split at hget
  · cases hget
    exact ⟨_, rfl⟩
  · cases hget

theorem index_cast (p : ℕ) (s : Stack) : index p s = slot p s := by
  rw [index, absolute, if_neg (by omega), Int.toNat_natCast]

theorem luaRawgeti_eq {r : ℕ} (hi : index i s = some (.table r)) (n : ℕ) :
    luaRawgeti h i n s = .ok (h.element r n :: s) := by
  rw [luaRawgeti, hi]

/-- The key that stands behind the first entries of a table. -/
theorem Table.next_eq (t : Table) {before rest : List (LuaValue × LuaValue)}
    {e : LuaValue × LuaValue} (hsplit : t.entries = before ++ e :: rest) :
    t.next e.1 = some rest.head? := by
  have hnodup := t.nodup
  have hpresent := t.present e (hsplit ▸ List.mem_append_right _ List.mem_cons_self)
  rw [Table.next, if_neg hpresent.1]
  rw [hsplit, List.map_append, List.map_cons, List.nodup_append] at hnodup
  have hdrop : t.entries.dropWhile (fun e' => e'.1 ≠ e.1) = e :: rest := by
    rw [hsplit, List.dropWhile_append_of_pos, List.dropWhile_cons_of_neg (by simp)]
    intro e' he'
    simpa using hnodup.2.2 e'.1 (List.mem_map_of_mem he') e.1 List.mem_cons_self
  simp only [hdrop]

theorem luaNext_eq {r : ℕ} (hp : slot p s = some (.table r))
    {before rest : List (LuaValue × LuaValue)} {e : LuaValue × LuaValue}
    (hsplit : (h.tables r).entries = before ++ e :: rest) :
    luaNext h p (e.1 :: s) = match rest.head? with
      | none => .ok (false, s)
      | some (k, v) => .ok (true, v :: k :: s) := by
  simp only [luaNext, slot_push hp e.1, Table.next_eq _ hsplit]
  cases rest.head? with
  | none => rfl
  | some e' => rfl

theorem luaNext_nil {r : ℕ} (hp : slot p s = some (.table r)) :
    luaNext h p (.nil :: s) = match (h.tables r).entries.head? with
      | none => .ok (false, s)
      | some (k, v) => .ok (true, v :: k :: s) := by
  simp only [luaNext, slot_push hp .nil, Table.next, if_pos]
  cases (h.tables r).entries.head? with
  | none => rfl
  | some e => rfl

/-! ## Changes of a table -/

namespace Table

variable (t : Table) {k k' : LuaValue}

theorem get_of_mem (hmem : (k, v) ∈ t.entries) : t.get k = v := by
  rw [get]
  cases hfind : t.entries.find? fun e => e.1 = k with
  | none => exact absurd (by simp) (List.find?_eq_none.mp hfind (k, v) hmem)
  | some e =>
      have hkey : e.1 = k := by simpa using List.find?_some hfind
      have he := List.mem_of_find?_eq_some hfind
      exact congrArg Prod.snd (List.inj_on_of_nodup_map t.nodup he hmem hkey)

theorem get_eq_nil (hmem : k ∉ t.entries.map Prod.fst) : t.get k = .nil := by
  rw [get]
  cases hfind : t.entries.find? fun e => e.1 = k with
  | none => rfl
  | some e =>
      have hkey : e.1 = k := by simpa using List.find?_some hfind
      exact absurd (hkey ▸ List.mem_map_of_mem (List.mem_of_find?_eq_some hfind)) hmem

theorem mem_entries_set {e : LuaValue × LuaValue} (hk : k ≠ .nil) (hv : v ≠ .nil) :
    e ∈ (t.set k v).entries ↔ e = (k, v) ∨ (e.1 ≠ k ∧ e ∈ t.entries) := by
  have hnil : ¬ (k = .nil ∨ v = .nil) := by simp [hk, hv]
  simp only [set, if_neg hnil, List.mem_append, List.mem_filter, List.mem_singleton,
    decide_eq_true_eq]
  tauto

theorem get_set_self (hk : k ≠ .nil) (hv : v ≠ .nil) : (t.set k v).get k = v :=
  get_of_mem _ ((mem_entries_set t hk hv).mpr (.inl rfl))

theorem get_set_of_ne (hk : k ≠ .nil) (hv : v ≠ .nil) (hne : k' ≠ k) :
    (t.set k v).get k' = t.get k' := by
  by_cases hmem : k' ∈ t.entries.map Prod.fst
  · obtain ⟨⟨_, w⟩, he, rfl⟩ := List.mem_map.mp hmem
    rw [get_of_mem t he]
    exact get_of_mem _ ((mem_entries_set t hk hv).mpr (.inr ⟨hne, he⟩))
  · rw [get_eq_nil t hmem]
    refine get_eq_nil _ fun hmem' => hmem ?_
    obtain ⟨e, he, rfl⟩ := List.mem_map.mp hmem'
    obtain rfl | ⟨-, he⟩ := (mem_entries_set t hk hv).mp he
    · exact absurd rfl hne
    · exact List.mem_map_of_mem he

theorem mem_keys_set (hk : k ≠ .nil) (hv : v ≠ .nil) :
    k' ∈ (t.set k v).entries.map Prod.fst ↔ k' = k ∨ k' ∈ t.entries.map Prod.fst := by
  simp only [List.mem_map, mem_entries_set t hk hv]
  constructor
  · rintro ⟨e, rfl | ⟨-, he⟩, rfl⟩
    · exact .inl rfl
    · exact .inr ⟨e, he, rfl⟩
  · rintro (rfl | ⟨e, he, rfl⟩)
    · exact ⟨(k', v), .inl rfl, rfl⟩
    · by_cases hek : e.1 = k
      · exact ⟨(k, v), .inl rfl, hek.symm⟩
      · exact ⟨e, .inr ⟨hek, he⟩, rfl⟩

end Table

end Deai.LuaStack
