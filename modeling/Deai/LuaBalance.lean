import Deai.LuaPushing
import Deai.LuaTermination

/-!
# The height of the stack

The functions that look at the Lua stack should leave it as high as it was, and those that push a
value one higher. `CHECK_LUA_STACK` compares the heights when a function returns.
-/
namespace Deai.LuaBalance
open Fallible Value LuaStack LuaConversion LuaWalk LuaReading LuaTermination LuaPushing

def einval : ℤ := -22

/-! ## Members of a table -/

/-- The rest of Lua: the table or function of a `di_lua_ref`, and access with its metamethods,
which may raise an error. -/
structure Interpreter where
  registry : ObjRef → LuaValue
  gettable : Lua → LuaValue → LuaValue → Option (Lua × LuaValue)
  settable : Lua → LuaValue → LuaValue → LuaValue → Option Lua

/-- `CHECK_LUA_STACK` -/
def checkLuaStack {α : Type} (s : Stack) (result : Except Stop (α × Stack)) :
    Except Stop (α × Stack) := do
  let (a, s') ← result
  if s'.length = s.length then .ok (a, s') else .error .assertion

def memberName : DiValue → Option String
  | .string name | .stringLiteral name => some name
  | _ => none

/-- The object and the name that a getter is called with. -/
def getterArguments : List DiValue → Option (ObjRef × String)
  | [.object o, name] => (memberName name).map fun name => (o, name)
  | _ => none

def setterArguments : List DiValue → Option (ObjRef × String × DiValue)
  | [.object o, name, value] => (memberName name).map fun name => (o, name, value)
  | _ => none

variable (I : Interpreter)

/-- The code after the arguments are checked. -/
def getMember (n : ℕ) (o : ObjRef) (name : String) (h : Lua) (s : Stack) :
    Except Stop ((Converted × Lua) × Stack) := do
  let s := .string name :: I.registry o :: s
  match I.gettable h (I.registry o) (.string name) with
  | none => .error .luaError
  | some (h, value) => do
      let s ← pop 1 s
      let (c, s) ← diLuaTypeToDi h n true (-1) .any (value :: s)
      if c.rc ≠ 0 then .ok ((c, h), s)
      else do
        let s ← pop 2 s
        -- a member that is nil is missing
        .ok (({c with type := if c.type = .nil then .lastType else c.type}, h), s)

def diLuaDiGetter (n : ℕ) (arguments : List DiValue) (h : Lua) (s : Stack) :
    Except Stop ((Converted × Lua) × Stack) :=
  match getterArguments arguments with
  | none => .ok (({rc := einval, type := .nil}, h), s)
  | some (o, name) => checkLuaStack s (getMember I n o name h s)

def setMember (null : Bool) (o : ObjRef) (name : String) (value : DiValue) (h : Lua) (s : Stack) :
    Except Stop ((ℤ × Lua) × Stack) := do
  let s := .string name :: I.registry o :: s
  let (pushed, h, s) ← diLuaPushvariant null "" value h s
  if pushed ≠ 1 then do
    let s ← pop 2 s
    .ok ((einval, h), s)
  else
    match s with
    | value :: key :: table :: _ =>
        match I.settable h table key value with
        | none => .error .luaError
        | some h => do
            let s ← pop 2 s
            let s ← pop 1 s
            .ok ((0, h), s)
    | _ => .error .misuse

def diLuaDiSetter (null : Bool) (arguments : List DiValue) (h : Lua) (s : Stack) :
    Except Stop ((ℤ × Lua) × Stack) :=
  match setterArguments arguments with
  | none => .ok ((einval, h), s)
  | some (o, name, value) => checkLuaStack s (setMember I null o name value h s)

/-! ## Heights -/

variable {I} {h : Lua} {s s' : Stack} {v : LuaValue} {i : ℤ} {n : ℕ} {α : Type}

/-- The function returns, and the stack is as high as it was. -/
def Keeps (s : Stack) (result : Except Stop (α × Stack)) : Prop :=
  ∃ a s', result = .ok (a, s') ∧ s'.length = s.length

theorem not_keeps {result : Except Stop (α × Stack)}
    (hresult : ∀ a s', result = .ok (a, s') → s'.length ≠ s.length) : ¬ Keeps s result := by
  rintro ⟨a, s', h, hlength⟩
  exact hresult a s' h hlength

theorem keeps_checkLuaStack {result : Except Stop (α × Stack)} :
    Keeps s (checkLuaStack s result) ↔ Keeps s result := by
  constructor
  · rintro ⟨a, s', hresult, hlength⟩
    obtain ⟨⟨b, s₁⟩, hbody, hresult⟩ := bind_eq_ok hresult
    dsimp only at hresult
    split_ifs at hresult with hsame
    exact ⟨b, s₁, hbody, hsame⟩
  · rintro ⟨a, s', rfl, hlength⟩
    exact ⟨a, s', if_pos hlength, hlength⟩

theorem diLuaIsproxy_keeps_iff : Keeps s (diLuaIsproxy h i s)
    ↔ ∃ u m, index i s = some (.userdata u) ∧ (h.userdata u).metatable = some m := by
  have hpop : ¬ Keeps s (do
      let s ← pop 2 s
      .ok (false, s)) := by
    refine not_keeps fun b s' hresult => ?_
    obtain ⟨s₁, hpop, hresult⟩ := bind_eq_ok hresult
    have hlength := pop_length hpop
    cases hresult
    omega
  constructor
  · intro hkeeps
    simp only [diLuaIsproxy] at hkeeps
    split at hkeeps
    · rename_i u hindex
      split at hkeeps
      · exact absurd hkeeps hpop
      · exact ⟨u, _, hindex, by assumption⟩
    · exact absurd hkeeps hpop
  · rintro ⟨u, m, hindex, hmetatable⟩
    exact ⟨_, s, diLuaIsproxy_some hindex hmetatable, rfl⟩

/-- The conversion keeps the stack as it is, if it does not meet a userdata without a metatable. -/
theorem diLuaTypeToDi_keeps_iff {want : Bool} {hint : DiType} (hindex : index i s = some v)
    (hdone : diLuaTypeToDi h n want i hint s ≠ .error .depth) :
    Keeps s (diLuaTypeToDi h n want i hint s) ↔ ¬ MeetsBare h v := by
  have hgives := diLuaTypeToDi_reads (h := h) n want i hint s v hindex
  have hdepth : typeOf h n v ≠ .depth := fun hv => hdone (hgives.depth hv)
  by_cases hbare : typeOf h n v = .bare
  · refine iff_of_false (not_keeps fun c s' hresult => ?_) ?_
    · have hlength := hgives.bare hbare hresult
      omega
    · exact not_not.mpr (typeOf_bare_iff.mp ⟨n, hbare⟩)
  · refine iff_of_true ⟨_, s, hgives.eq hdepth hbare, rfl⟩ fun hmeets => ?_
    obtain ⟨m, hm⟩ := typeOf_bare_iff.mpr hmeets
    rw [typeOf_unique hdepth (by rw [hm]; simp), hm] at hbare
    exact hbare rfl

variable (h) in
/-- A value that has no type in deai. -/
def Unsupported : LuaValue → Prop
  | .lightUserdata _ | .thread _ => True
  | .userdata u => ∃ m, (h.userdata u).metatable = some m ∧ ¬ isProxy h m
  | _ => False

theorem typeOf_unsupported_iff :
    typeOf h (n + 1) v = .unsupported ↔ Unsupported h v := by
  cases v with
  | table r =>
      rw [typeOf_table]
      simp only [Unsupported, iff_false]
      split
      · simp
      · simp
      · simp
      · split_ifs <;> simp
  | userdata u =>
      rw [typeOf_userdata]
      simp only [Unsupported]
      cases (h.userdata u).metatable with
      | none => simp
      | some m => simp
  | nil | boolean b | integer m | float bits | string str | lightUserdata p | function r
  | thread r => simp [typeOf, Unsupported]

theorem diLuaTypeToDi_table_rc {want : Bool} {hint : DiType} {r : ℕ} {c : Converted}
    (hindex : index i s = some (.table r))
    (hresult : diLuaTypeToDi h n want i hint s = .ok (c, s')) : c.rc = 0 := by
  have hobject : ∀ {t value s₁}, tableObject h want i t value s₁ = .ok (c, s') → c.rc = 0 := by
    intro t value s₁ hobject
    rw [tableObject] at hobject
    split_ifs at hobject
    · obtain ⟨⟨o, s₂⟩, -, hobject⟩ := bind_eq_ok hobject
      cases hobject
      rfl
    · cases hobject
      rfl
  cases n with
  | zero => cases hresult
  | succ n =>
      rw [diLuaTypeToDi, hindex] at hresult
      simp only [convertTable_eq hindex] at hresult
      obtain ⟨⟨array, s₁⟩, -, hresult⟩ := bind_eq_ok hresult
      dsimp only at hresult
      split at hresult
      · split_ifs at hresult
        · exact hobject hresult
        · obtain ⟨⟨a, s₂⟩, -, hresult⟩ := bind_eq_ok hresult
          cases hresult
          rfl
        · cases hresult
          rfl
      · exact hobject hresult

/-- The values of members that are returned with the stack as it was. -/
def Gettable (h : Lua) (v : LuaValue) : Prop :=
  ¬ Unsupported h v ∧ (¬ MeetsBare h v ∨ ∃ u, v = .userdata u)

theorem getMember_keeps_iff {o : ObjRef} {name : String} {h' : Lua}
    (hget : I.gettable h (I.registry o) (.string name) = some (h', v))
    (hdone : getMember I n o name h s ≠ .error .depth) :
    Keeps s (getMember I n o name h s) ↔ Gettable h' v := by
  have heq : getMember I n o name h s =
      (diLuaTypeToDi h' n true (-1) .any (v :: I.registry o :: s) >>= fun x =>
        if x.1.rc ≠ 0 then .ok ((x.1, h'), x.2)
        else pop 2 x.2 >>= fun s =>
          .ok (({x.1 with type := if x.1.type = .nil then .lastType else x.1.type}, h'), s)) := by
    simp only [getMember, hget, pop_one, ok_bind]
  rw [heq] at hdone ⊢
  have hindex : index (-1) (v :: I.registry o :: s) = some v := index_top
  have hgives := diLuaTypeToDi_reads (h := h') n true (-1) .any _ _ hindex
  have hmeets := typeOf_bare_iff (h := h') (v := v)
  cases hv : typeOf h' n v with
  | depth =>
      rw [hgives.depth hv] at hdone
      exact absurd rfl hdone
  | unsupported =>
      -- the value and its table are left behind
      have hconverted : converted h' n true .any v = {rc := enotsup, type := .nil} := by
        simp only [converted, hv]
      rw [hgives.unsupported hv, hconverted, ok_bind, if_pos (by decide : enotsup ≠ 0)]
      refine iff_of_false (not_keeps fun c s' hresult => ?_) fun hgettable => ?_
      · cases hresult
        simp only [List.length_cons]
        omega
      · cases n with
        | zero => cases hv
        | succ n => exact hgettable.1 (typeOf_unsupported_iff.mp hv)
  | of t =>
      rw [hgives.of_type hv, converted, hv, ok_bind, if_neg (by simp), pop_two, ok_bind]
      refine iff_of_true ⟨_, s, rfl, rfl⟩ ⟨fun hunsupported => ?_, .inl fun hbare => ?_⟩
      · cases n with
        | zero => cases hv
        | succ n =>
            rw [typeOf_unsupported_iff.mpr hunsupported] at hv
            cases hv
      · obtain ⟨m, hm⟩ := hmeets.mpr hbare
        rw [typeOf_unique (by rw [hv]; simp) (by rw [hm]; simp), hm] at hv
        cases hv
  | bare =>
      have hbare := hmeets.mp ⟨n, hv⟩
      by_cases huserdata : ∃ u, v = .userdata u
      · -- what is taken off the stack are the value and its table
        obtain ⟨u, rfl⟩ := huserdata
        cases n with
        | zero => cases hv
        | succ n =>
            have hmetatable := typeOf_userdata_bare_iff.mp hv
            have hunsupported : ¬ Unsupported h' (.userdata u) := fun hunsupported => by
              rw [typeOf_unsupported_iff.mpr hunsupported] at hv
              cases hv
            rw [diLuaTypeToDi, hindex]
            simp only [diLuaIsproxy_none hindex hmetatable, pop_two, ok_bind, Bool.false_eq_true,
              if_false]
            rw [if_pos (by decide : enotsup ≠ 0)]
            exact iff_of_true ⟨_, s, rfl, rfl⟩ ⟨hunsupported, .inr ⟨u, rfl⟩⟩
      · -- the conversion returns, but too much is taken off the stack
        obtain ⟨r, rfl⟩ : ∃ r, v = .table r := by
          cases v with
          | table r => exact ⟨r, rfl⟩
          | userdata u => exact absurd ⟨u, rfl⟩ huserdata
          | _ =>
              cases n with
              | zero => cases hv
              | succ n => cases hv
        refine iff_of_false (not_keeps fun c s' hresult => ?_) fun hgettable => ?_
        · obtain ⟨⟨c₁, s₁⟩, hconvert, hresult⟩ := bind_eq_ok hresult
          have hlength := hgives.bare hv hconvert
          have hrc : ¬ c₁.rc ≠ 0 := not_not.mpr (diLuaTypeToDi_table_rc hindex hconvert)
          rw [if_neg hrc] at hresult
          obtain ⟨s₂, hpop : pop 2 s₁ = .ok s₂, hresult⟩ := bind_eq_ok hresult
          have hlength₂ := pop_length hpop
          cases hresult
          simp only [List.length_cons] at hlength
          omega
        · exact hgettable.2.elim (fun h => h hbare) huserdata

/-- `DI_TYPE_NIL`, also in a variant. -/
def IsNil : DiValue → Prop
  | .nil => True
  | .variant v => IsNil v
  | _ => False

theorem announced_eq_one_iff (v : DiValue) : announced v = 1 ↔ ¬ IsNil v := by
  fun_induction announced v with
  | case1 => simp [IsNil]
  | case2 v ih => rwa [IsNil]
  | case3 v hnil hvariant =>
      cases v with
      | nil => exact absurd rfl hnil
      | variant v => exact absurd rfl (hvariant v)
      | _ => simp [IsNil]

theorem diLuaPushvariant_of_isNil {value : DiValue} (hnil : IsNil value) (null : Bool)
    (name : String) (h : Lua) (s : Stack) :
    diLuaPushvariant null name value h s = .ok (0, h, .nil :: s) := by
  fun_induction IsNil value generalizing name with
  | case1 => rw [diLuaPushvariant]
  | case2 v ih =>
      rw [diLuaPushvariant]
      exact ih hnil ""
  | case3 => exact hnil.elim

theorem setMember_keeps_iff {null : Bool} {o : ObjRef} {name : String} {value : DiValue} :
    (Keeps s (setMember I null o name value h s) ∨ setMember I null o name value h s
      = .error .luaError) ↔ ¬ IsNil value := by
  rw [setMember]
  obtain hpush | ⟨h', w, hpush, -⟩ := diLuaPushvariant_pushes null "" value h
    (.string name :: I.registry o :: s)
  · rw [hpush]
    refine iff_of_true (.inr rfl) fun hnil => ?_
    rw [diLuaPushvariant_of_isNil hnil] at hpush
    cases hpush
  · rw [hpush, ok_bind, ← announced_eq_one_iff]
    dsimp only
    split_ifs with hannounced
    · refine iff_of_false ?_ hannounced
      rw [pop_two, ok_bind]
      rintro (⟨a, s', hresult, hlength⟩ | hresult)
      · cases hresult
        simp only [List.length_cons] at hlength
        omega
      · cases hresult
    · refine iff_of_true ?_ (not_not.mp hannounced)
      cases hset : I.settable h' (I.registry o) (.string name) w with
      | none => exact .inr rfl
      | some h' => exact .inl ⟨_, s, rfl, rfl⟩

/-! ## All of them -/

theorem diLuaDiGetter_keeps_iff {arguments : List DiValue} {o : ObjRef} {name : String} {h' : Lua}
    (harguments : getterArguments arguments = some (o, name))
    (hget : I.gettable h (I.registry o) (.string name) = some (h', v))
    (hdone : diLuaDiGetter I n arguments h s ≠ .error .depth) :
    Keeps s (diLuaDiGetter I n arguments h s) ↔ Gettable h' v := by
  simp only [diLuaDiGetter, harguments] at hdone ⊢
  rw [keeps_checkLuaStack]
  refine getMember_keeps_iff hget fun hdepth => hdone ?_
  rw [hdepth]
  rfl

theorem diLuaDiSetter_keeps_iff {null : Bool} {arguments : List DiValue} {o : ObjRef}
    {name : String} {value : DiValue}
    (harguments : setterArguments arguments = some (o, name, value)) :
    (Keeps s (diLuaDiSetter I null arguments h s) ∨ diLuaDiSetter I null arguments h s
      = .error .luaError) ↔ ¬ IsNil value := by
  have herror : ∀ {result : Except Stop ((ℤ × Lua) × Stack)},
      checkLuaStack s result = .error .luaError ↔ result = .error .luaError := by
    rintro (x | ⟨a, s'⟩)
    · rfl
    · rw [checkLuaStack, ok_bind]
      dsimp only
      split_ifs <;> simp
  simp only [diLuaDiSetter, harguments]
  rw [keeps_checkLuaStack, herror]
  exact setMember_keeps_iff

def emptyLua : Lua where
  tables _ := .empty
  userdata _ := {metatable := none, object := 0}
  cached _ := none
  wrap _ := 0
  proxied := selfTable.proxied

/-- All members of all tables are threads. -/
def threads : Interpreter where
  registry _ := .table 0
  gettable h _ _ := some (h, .thread 0)
  settable h _ _ _ := some h

end Deai.LuaBalance
