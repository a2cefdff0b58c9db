import Deai.LuaConversion

/-!
# What a Lua value becomes

The conversion without the stack: the type of a value, and the value itself. The functions that work
on the stack do the same, and leave the stack as it was, unless they come to a userdata without a
metatable.
-/
namespace Deai.LuaWalk
open Fallible Value Numbers LuaStack LuaConversion

/-! ## Types -/

/-- The type of a value, if it has one. -/
inductive Walk where
  /-- The recursion is too deep. -/
  | depth
  /-- There is a userdata without a metatable. -/
  | bare
  | unsupported
  | of (t : DiType)
  deriving DecidableEq

def Walk.type : Walk → DiType
  | .of t => t
  | _ => .nil

/-- What the elements of a table have in common. -/
inductive Check where
  | depth
  | bare
  | no
  | yes (elemt : DiType)
  deriving DecidableEq

/-- An empty table is an array when it should be one. -/
def under (hint t : DiType) : DiType := if t = .emptyObject ∧ hint = .array then .array else t

def scanTypes (type : LuaValue → Walk) : DiType → List LuaValue → Check
  | elemt, [] => .yes elemt
  | elemt, v :: vs =>
      match type v with
      | .depth => .depth
      | .bare => .bare
      | w =>
          match joinType elemt (under elemt w.type) with
          | none => .no
          | some elemt => scanTypes type elemt vs

def checkTypes (type : LuaValue → Walk) : List LuaValue → Check
  | [] => .yes .any
  | v :: vs =>
      match type v with
      | .depth => .depth
      | .bare => .bare
      | w => if w.type = .nil then .no else scanTypes type w.type vs

variable (h : Lua)

/-- The elements that are looked at. -/
def elements (r : ℕ) : List LuaValue :=
  (List.range (min (h.tables r).entries.length (intMax - 1))).map fun i => h.element r (i + 1)

/-- A userdata that has a metatable. -/
def isProxy (m : ℕ) : Prop := (h.tables m).get (.string "__is_deai_proxy") ≠ .nil

instance (m : ℕ) : Decidable (isProxy h m) := inferInstanceAs (Decidable (_ ≠ _))

def typeOf : ℕ → LuaValue → Walk
  | 0, _ => .depth
  | n + 1, v =>
      match v with
      | .boolean _ => .of .bool
      | .integer _ => .of .int
      | .float _ => .of .float
      | .string _ => .of .string
      | .function _ => .of .object
      | .nil => .of .nil
      | .lightUserdata _ | .thread _ => .unsupported
      | .userdata u =>
          match (h.userdata u).metatable with
          | none => .bare
          | some m => if isProxy h m then .of .object else .unsupported
      | .table r =>
          match checkTypes (typeOf n) (elements h r) with
          | .depth => .depth
          | .bare => .bare
          | .no => .of .object
          | .yes _ =>
              if (h.tables r).metatable.isSome then .of .object
              else if elements h r = [] then .of .emptyObject
              else .of .array

/-! ## Values -/

/-- An integer in an array of floats becomes a float. -/
def elementOf (value : DiType → LuaValue → DiValue) (elemt : DiType) (v : LuaValue) : DiValue :=
  match v, elemt with
  | .integer n, .float => .float (doubleBits n.toInt)
  | v, elemt => value elemt v

def valueOf : ℕ → DiType → LuaValue → DiValue
  | 0, _, _ => .nil
  | n + 1, hint, v =>
      match v with
      | .boolean b => .bool b
      | .integer n => .int n
      | .float bits => .float bits
      | .string s => .string s
      | .function r => .object (h.wrap (.function r))
      | .userdata u => .object (h.userdata u).object
      | .table r =>
          match checkTypes (typeOf h n) (elements h r), (h.tables r).metatable with
          | .yes elemt, none =>
              if elements h r = [] then
                if hint = .array then .array .any [] else .emptyObject (h.wrap (.table r))
              else .array elemt ((elements h r).map (elementOf (valueOf n) elemt))
          | _, _ => .object (h.wrap (.table r))
      | _ => .nil

/-- The result for a value whose type is known. -/
def converted (n : ℕ) (want : Bool) (hint : DiType) (v : LuaValue) : Converted :=
  match typeOf h n v with
  | .of t =>
      {rc := 0, type := under hint t, value := if want then valueOf h n hint v else .nil}
  | _ => {rc := enotsup, type := .nil}

variable {h} {n : ℕ} {v : LuaValue} {t t' elemt : DiType} {r : ℕ}

theorem under_plain (ht : t ≠ .emptyObject) (hint : DiType) : under hint t = t := by
  rw [under, if_neg (by simp [ht])]

theorem typeOf_userdata (h : Lua) (n u : ℕ) :
    typeOf h (n + 1) (.userdata u) = match (h.userdata u).metatable with
      | none => .bare
      | some m => if isProxy h m then .of .object else .unsupported := rfl

theorem typeOf_table (h : Lua) (n r : ℕ) :
    typeOf h (n + 1) (.table r) = match checkTypes (typeOf h n) (elements h r) with
      | .depth => .depth
      | .bare => .bare
      | .no => .of .object
      | .yes _ =>
          if (h.tables r).metatable.isSome then .of .object
          else if elements h r = [] then .of .emptyObject
          else .of .array := rfl

theorem valueOf_table (h : Lua) (n : ℕ) (hint : DiType) (r : ℕ) :
    valueOf h (n + 1) hint (.table r) =
      match checkTypes (typeOf h n) (elements h r), (h.tables r).metatable with
      | .yes elemt, none =>
          if elements h r = [] then
            if hint = .array then .array .any [] else .emptyObject (h.wrap (.table r))
          else .array elemt ((elements h r).map (elementOf (valueOf h n) elemt))
      | _, _ => .object (h.wrap (.table r)) := rfl

theorem typeOf_userdata_bare_iff {u : ℕ} :
    typeOf h (n + 1) (.userdata u) = .bare ↔ (h.userdata u).metatable = none := by
  rw [typeOf_userdata]
  cases (h.userdata u).metatable with
  | none => simp
  | some m =>
      simp only
      split_ifs <;> simp

theorem typeOf_userdata_ne_depth (u : ℕ) : typeOf h (n + 1) (.userdata u) ≠ .depth := by
  rw [typeOf_userdata]
  cases (h.userdata u).metatable with
  | none => rintro ⟨⟩
  | some m =>
      dsimp only
      split_ifs
      · rintro ⟨⟩
      · rintro ⟨⟩

theorem typeOf_int (hv : typeOf h n v = .of .int) :
    ∃ m, v = .integer m ∧ ∀ hint, valueOf h n hint v = .int m := by
  cases n with
  | zero => cases hv
  | succ n =>
      cases v with
      | integer m => exact ⟨m, rfl, fun _ => rfl⟩
      | userdata u =>
          rw [typeOf_userdata] at hv
          cases hm : (h.userdata u).metatable with
          | none =>
              rw [hm] at hv
              cases hv
          | some m =>
              rw [hm] at hv
              dsimp only at hv
              split_ifs at hv
              cases hv
      | table r =>
          rw [typeOf_table] at hv
          cases hcheck : checkTypes (typeOf h n) (elements h r) with
          | depth | bare | no =>
              rw [hcheck] at hv
              cases hv
          | yes elemt =>
              rw [hcheck] at hv
              dsimp only at hv
              split_ifs at hv <;> cases hv
      | nil | boolean b | float bits | string s | lightUserdata p | function r | thread r =>
          cases hv

/-- The types that values have. -/
def luaTypes : List DiType := [.nil, .emptyObject, .bool, .int, .float, .object, .string, .array]

theorem typeOf_mem (hv : typeOf h n v = .of t) : t ∈ luaTypes := by
  cases n with
  | zero => cases hv
  | succ n =>
      cases v with
      | userdata u =>
          rw [typeOf_userdata] at hv
          cases hm : (h.userdata u).metatable with
          | none =>
              rw [hm] at hv
              cases hv
          | some m =>
              rw [hm] at hv
              dsimp only at hv
              split_ifs at hv
              cases hv
              decide
      | table r =>
          rw [typeOf_table] at hv
          cases hcheck : checkTypes (typeOf h n) (elements h r) with
          | depth | bare =>
              rw [hcheck] at hv
              cases hv
          | no =>
              rw [hcheck] at hv
              cases hv
              decide
          | yes elemt =>
              rw [hcheck] at hv
              dsimp only at hv
              split_ifs at hv
              all_goals
                cases hv
                decide
      | lightUserdata p | thread r => cases hv
      | nil | boolean b | integer m | float bits | string s | function r =>
          cases hv
          decide

theorem typeOf_ne_tuple (v : LuaValue) : typeOf h n v ≠ .of .tuple := by
  intro hv
  have hmem := typeOf_mem hv
  revert hmem
  decide

/-! ## The first pass -/

theorem scanTypes_typed {type : LuaValue → Walk} (hdepth : type v ≠ .depth)
    (hbare : type v ≠ .bare) (elemt : DiType) (vs : List LuaValue) :
    scanTypes type elemt (v :: vs) = match joinType elemt (under elemt (type v).type) with
      | none => .no
      | some elemt => scanTypes type elemt vs := by
  rw [scanTypes]
  cases hv : type v with
  | depth => exact absurd hv hdepth
  | bare => exact absurd hv hbare
  | unsupported => rfl
  | of t => rfl

theorem checkTypes_typed {type : LuaValue → Walk} (hdepth : type v ≠ .depth)
    (hbare : type v ≠ .bare) (vs : List LuaValue) :
    checkTypes type (v :: vs)
      = if (type v).type = .nil then .no else scanTypes type (type v).type vs := by
  rw [checkTypes]
  cases hv : type v with
  | depth => exact absurd hv hdepth
  | bare => exact absurd hv hbare
  | unsupported => rfl
  | of t => rfl

/-! ## The second pass -/

/-- A type that an element of the array may have. -/
def Admits (elemt t : DiType) : Prop := under elemt t = elemt ∨ (t = .int ∧ elemt = .float)

theorem under_of_ne (hint : elemt ≠ .array) (t : DiType) : under elemt t = t := by
  rw [under, if_neg (by simp [hint])]

theorem under_any (t : DiType) : under .any t = t := under_of_ne (by simp) t

theorem admits_self (t : DiType) : Admits t t := by
  refine .inl ?_
  rw [under]
  split_ifs with h
  · exact h.2.symm
  · rfl

theorem Admits.eq_of_ne {k : DiType} (hadmits : Admits elemt k) (hfloat : elemt ≠ .float)
    (harray : elemt ≠ .array) : k = elemt := by
  obtain hunder | ⟨-, h⟩ := hadmits
  · rwa [under_of_ne harray] at hunder
  · exact absurd h hfloat

theorem Admits.ne_nil {k : DiType} (hadmits : Admits elemt k) (helemt : elemt ≠ .nil) :
    k ≠ .nil := by
  rintro rfl
  obtain hunder | ⟨h, -⟩ := hadmits
  · rw [under, if_neg (by simp)] at hunder
    exact helemt hunder.symm
  · cases h

theorem joinType_admits (hjoin : joinType elemt (under elemt t) = some t') (ht : t ≠ .tuple) :
    Admits t' t ∧ ∀ k, Admits elemt k → Admits t' k := by
  rw [joinType] at hjoin
  split_ifs at hjoin with hsame hfloat harray hint
  · cases hjoin
    exact ⟨.inl hsame, fun _ => id⟩
  · -- the first float among integers
    cases hjoin
    obtain ⟨hunder, rfl⟩ := hfloat
    rw [under_of_ne (by simp)] at hunder
    subst hunder
    exact ⟨admits_self _, fun k hk => .inr ⟨hk.eq_of_ne (by simp) (by simp), rfl⟩⟩
  · -- the first array among empty tables
    cases hjoin
    obtain ⟨hunder, rfl⟩ := harray
    rw [under_of_ne (by simp)] at hunder ⊢
    obtain rfl := hunder.resolve_right ht
    exact ⟨admits_self _, fun k hk => .inl (by rw [hk.eq_of_ne (by simp) (by simp)]; rfl)⟩
  · -- an integer among floats
    cases hjoin
    rw [not_or, not_not, not_not] at hint
    obtain ⟨hunder, rfl⟩ := hint
    rw [under_of_ne (by simp)] at hunder
    exact ⟨.inr ⟨hunder, rfl⟩, fun _ => id⟩

theorem joinType_ne_nil (hjoin : joinType elemt t = some t') (helemt : elemt ≠ .nil) :
    t ≠ .nil ∧ t' ≠ .nil := by
  rw [joinType] at hjoin
  split_ifs at hjoin with hsame hfloat harray hint
  · cases hjoin
    exact ⟨hsame ▸ helemt, helemt⟩
  · cases hjoin
    exact ⟨by simp [hfloat.1], by simp⟩
  · cases hjoin
    obtain ⟨rfl | rfl, -⟩ := harray
    all_goals exact ⟨by simp, by simp⟩
  · cases hjoin
    rw [not_or, not_not, not_not] at hint
    exact ⟨by simp [hint.1], helemt⟩

section Yes

variable {type : LuaValue → Walk} (htuple : ∀ v, type v ≠ .of .tuple) {vs : List LuaValue}

include htuple

/-- The elements of an array have types that its element type admits. -/
theorem scanTypes_yes (hscan : scanTypes type elemt vs = .yes t) (helemt : elemt ≠ .nil) :
    t ≠ .nil ∧ (∀ k, Admits elemt k → Admits t k) ∧
      ∀ v ∈ vs, ∃ k, type v = .of k ∧ Admits t k := by
  induction vs generalizing elemt with
  | nil =>
      cases hscan
      exact ⟨helemt, fun _ => id, fun _ hv => absurd hv List.not_mem_nil⟩
  | cons v vs ih =>
      simp only [scanTypes] at hscan
      split at hscan
      · cases hscan
      · cases hscan
      · split at hscan
        · cases hscan
        · rename_i hjoin
          obtain ⟨hne, hne'⟩ := joinType_ne_nil hjoin helemt
          obtain ⟨ht, hmono, hrest⟩ := ih hscan hne'
          cases hv : type v with
          | of k =>
              rw [hv] at hjoin
              have hk : k ≠ .tuple := fun h => htuple v (h ▸ hv)
              obtain ⟨hadmits, hmono'⟩ := joinType_admits hjoin hk
              refine ⟨ht, fun k hk => hmono k (hmono' k hk), fun w hw => ?_⟩
              obtain rfl | hw := List.mem_cons.mp hw
              · exact ⟨k, hv, hmono k hadmits⟩
              · exact hrest w hw
          | depth | bare | unsupported =>
              rw [hv] at hne
              exact absurd (by rw [under, if_neg (by simp [Walk.type])]; rfl) hne

theorem checkTypes_yes (hcheck : checkTypes type vs = .yes t) (hvs : vs ≠ []) :
    t ≠ .nil ∧ ∀ v ∈ vs, ∃ k, type v = .of k ∧ Admits t k := by
  cases vs with
  | nil => exact absurd rfl hvs
  | cons v vs =>
      simp only [checkTypes] at hcheck
      split at hcheck
      · cases hcheck
      · cases hcheck
      · split_ifs at hcheck with hnil
        obtain ⟨ht, hmono, hrest⟩ := scanTypes_yes htuple hcheck hnil
        refine ⟨ht, fun w hw => ?_⟩
        obtain rfl | hw := List.mem_cons.mp hw
        · cases hw : type w with
          | of k =>
              rw [hw] at hmono
              exact ⟨k, rfl, hmono k (admits_self k)⟩
          | depth | bare | unsupported =>
              rw [hw] at hnil
              exact absurd rfl hnil
        · exact hrest w hw

end Yes

/-- The elements of an array have a type with a size. -/
theorem Admits.sized {k : DiType} (hadmits : Admits elemt k) (hk : k ∈ luaTypes)
    (helemt : elemt ≠ .nil) : ¬ unsized elemt := by
  have hmem : elemt ∈ luaTypes := by
    obtain hunder | ⟨-, rfl⟩ := hadmits
    · rw [under] at hunder
      split_ifs at hunder
      · rw [← hunder]
        decide
      · exact hunder ▸ hk
    · decide
  rintro (rfl | rfl | rfl)
  · exact helemt rfl
  all_goals
    revert hmem
    decide

theorem elementOf_eq (value : DiType → LuaValue → DiValue) (hv : typeOf h n v = .of t)
    (hunder : under elemt t = elemt) : elementOf value elemt v = value elemt v := by
  rw [elementOf]
  rintro m rfl rfl
  cases n with
  | zero => cases hv
  | succ n =>
      cases hv
      cases hunder

end Deai.LuaWalk
