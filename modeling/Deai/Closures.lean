import Deai.Conversion
import Deai.Fallible
import Deai.MethodCalls

/-!
# Closures

`di_create_closure` wraps a C function so that it can be called with deai values. The values that
it captures lie in the member `captures`, and the trampoline goes by the member `__type`: members
like any other, which scripts can read, set and delete. What the function is called with is
decided by the types that are stored in the closure itself.
-/
namespace Deai.Closures
open Value Numbers Conversion Fallible MemberHandlers MethodCalls

/-- Why the function is not called: the caller gets an error code, an assertion fails, or the
behaviour of a conversion is undefined. -/
inductive Stop where
  | code (rc : ℤ)
  | assertion
  | trap (t : Trap)
  deriving DecidableEq

def e2big : ℤ := -7

/-- `di_sizeof_type` -/
def diSizeofType : DiType → Except Stop ℕ
  | .nil => .ok 0
  | .any | .lastType => .error .assertion
  | .bool => .ok 1
  | .nint | .nuint => .ok 4
  | .int | .uint | .float | .pointer | .object | .weakObject | .emptyObject
  | .stringLiteral => .ok 8
  | .string | .tuple | .variant => .ok 16
  | .array => .ok 24

/-- `di_type_to_ffi` -/
def diTypeToFfi : DiType → Except Stop Unit
  | .any | .emptyObject | .lastType => .error .assertion
  | _ => .ok ()

/-- `struct di_closure`. A function is known by a number. -/
structure Closure where
  fn : ℕ
  nargs : ℕ
  rtype : DiType
  atypes : List DiType
  sized : atypes.length = nargs

/-- The members of an object. -/
abbrev Members := String → Option DiValue

/-- The function is called. -/
structure Call where
  fn : ℕ
  args : List DiValue
  rtype : DiType

def closureType : String := "deai:closure"

/-- `di_get_type`. Without a value it is an error pointer. -/
def diGetType (E : Env) (members : Members) : Except Stop (Option String) :=
  match members "__type" with
  | none => .ok (some "deai:object")
  | some v =>
      match diTypeConversion E false .stringLiteral v with
      | .error t => .error (.trap t)
      | .ok (some (.stringLiteral s)) => .ok (some s)
      | .ok _ => .ok none

/-- `di_check_type` -/
def diCheckType (E : Env) (members : Members) (type : String) : Except Stop Bool := do
  let t ← diGetType E members
  .ok (t = some type)

/-- The loop of `di_typed_trampoline`. -/
def convertArgs (E : Env) : List DiValue → List DiType → Except Stop (List DiValue)
  | v :: vs, t :: ts =>
      match diTypeConversion E true t v with
      | .error trap => .error (.trap trap)
      | .ok none => .error (.code einval)
      | .ok (some w) => do
          let ws ← convertArgs E vs ts
          .ok (w :: ws)
  | _, _ => .ok []

/-- `di_typed_trampoline` -/
def diTypedTrampoline (E : Env) (cl : Closure) (args : List DiValue) : Except Stop Call :=
  if maxNargs < args.length then .error .assertion
  else do
    let xargs ← convertArgs E args cl.atypes
    .ok ⟨cl.fn, xargs, cl.rtype⟩

def closureTrampoline (E : Env) (cl : Closure) (members : Members) (args : List DiValue) :
    Except Stop Call := do
  let isClosure ← diCheckType E members closureType
  if isClosure = false then .error (.code einval)
  else if args.length ≠ cl.nargs then .error (.code einval)
  else diTypedTrampoline E cl args

/-- What `raw_closure_trampoline` puts before the arguments. A member of another type is left
alone. -/
def captured (members : Members) : List DiValue :=
  match members "captures" with
  | some (.tuple captures) => captures
  | _ => []

def rawClosureTrampoline (E : Env) (cl : Closure) (members : Members) (args : List DiValue) :
    Except Stop Call :=
  closureTrampoline E cl members (captured members ++ args)

/-- `di_call_object`, for a closure. -/
def diCallObject (E : Env) (cl : Closure) (members : Members) (args : List DiValue) :
    Except Stop Call := rawClosureTrampoline E cl members args

/-- The sizes of types that are to be stored. -/
def checkSizes : List DiType → Except Stop Unit
  | [] => .ok ()
  | t :: ts => do
      let size ← diSizeofType t
      if size = 0 then .error (.code einval) else checkSizes ts

def checkFfi : List DiType → Except Stop Unit
  | [] => .ok ()
  | t :: ts => do
      diTypeToFfi t
      checkFfi ts

/-- `di_create_raw_closure`, as far as its members. -/
def diCreateRawClosure (captures : List DiValue) : Except Stop Members :=
  if maxNargs < captures.length then .error (.code e2big)
  else do
    checkSizes (captures.map typeOf)
    .ok fun name =>
      if name = "__type" then some (.stringLiteral "deai:raw_closure")
      else if name = "captures" then some (.tuple captures) else none

/-- `di_create_closure`. `prepared` is what `ffi_prep_cif` says of the types. -/
def diCreateClosure (prepared : Bool) (fn : ℕ) (rtype : DiType) (captures : List DiValue)
    (argTypes : List DiType) : Except Stop (Closure × Members) :=
  if maxNargs < captures.length + argTypes.length then .error (.code e2big)
  else do
    checkSizes (captures.map typeOf)
    checkSizes argTypes
    let members ← diCreateRawClosure captures
    let cl : Closure := ⟨fn, argTypes.length + captures.length, rtype,
      captures.map typeOf ++ argTypes, by rw [List.length_append, List.length_map, Nat.add_comm]⟩
    diTypeToFfi rtype
    checkFfi cl.atypes
    if prepared = false then .error (.code einval)
    else .ok (cl, Function.update members "__type" (some (.stringLiteral closureType)))

/-- `di_add_method`, with what is stored as the member. -/
def diAddMethod (prepared : Bool) (fn : ℕ) (rtype : DiType) (argTypes : List DiType) :
    Except Stop (Closure × Members) :=
  if maxNargs < argTypes.length + 1 then .error (.code einval)
  else if DiType.nil ∈ argTypes then .error (.code einval)
  else diCreateClosure prepared fn rtype [] (.object :: argTypes)

/-- `di_call_internal`: the object itself is the first argument. -/
def diCallInternal (E : Env) (self : ObjRef) (cl : Closure) (members : Members)
    (args : List DiValue) : Except Stop Call :=
  if maxNargs < args.length + 1 then .error .assertion
  else diCallObject E cl members (.object self :: args)

/-! ## What scripts do to a closure -/

/-- A member is set or deleted. -/
structure Edit where
  name : String
  value : Option DiValue

def applyEdits (edits : List Edit) (members : Members) : Members :=
  edits.foldl (fun members e => Function.update members e.name e.value) members

theorem applyEdits_of_forall_ne {edits : List Edit} {name : String}
    (h : ∀ e ∈ edits, e.name ≠ name) (members : Members) :
    applyEdits edits members name = members name := by
  induction edits generalizing members with
  | nil => rfl
  | cons e edits ih =>
      rw [applyEdits, List.foldl_cons, ← applyEdits,
        ih (fun e' he' => h e' (List.mem_cons_of_mem e he')),
        Function.update_of_ne (h e List.mem_cons_self).symm]

/-! ## The types of the arguments -/

variable {E : Env} {borrow : Bool} {t : DiType} {v w : DiValue}

theorem numberOperator_ok {α : Type} {number : ℤ → Except Trap α} {float : UInt64 → Option α}
    {x : α} (h : numberOperator number float v = some (.ok (some x))) :
    (∃ n, number n = .ok x) ∨ ∃ bits, float bits = some x := by
  have hmap : ∀ n, (number n).map some = .ok (some x) → number n = .ok x := by
    intro n hn
    cases hx : number n with
    | error e =>
        rw [hx] at hn
        cases hn
    | ok y => exact congrArg Except.ok (Option.some.inj (Except.ok.inj (hx ▸ hn)))
  cases v with
  | nint i => exact .inl ⟨_, hmap _ (Option.some.inj h)⟩
  | nuint n => exact .inl ⟨_, hmap _ (Option.some.inj h)⟩
  | int i => exact .inl ⟨_, hmap _ (Option.some.inj h)⟩
  | uint n => exact .inl ⟨_, hmap _ (Option.some.inj h)⟩
  | float bits => exact .inr ⟨bits, Except.ok.inj (Option.some.inj h)⟩
  | _ => cases h

/-- A number of an integer type. -/
theorem integer_typed {ty : IntType} (hty : intType t = some ty)
    (h : numberOperator (fun x => (checkedInt ty x).map (ofInteger t)) (fun _ => none) v =
      some (.ok (some w))) : typeOf w = t := by
  obtain ⟨n, hn⟩ | ⟨_, hfloat⟩ := numberOperator_ok h
  · cases hx : checkedInt ty n with
    | error e =>
        rw [hx] at hn
        cases hn
    | ok x =>
        obtain rfl : ofInteger t x = w := Except.ok.inj (hx ▸ hn)
        cases t <;> first | rfl | cases hty
  · cases hfloat

theorem array_typed (h : arrayOperator borrow v = some (.ok (some w))) : typeOf w = .array := by
  cases v with
  | nil => exact Option.some.inj (Except.ok.inj (Option.some.inj h)) ▸ rfl
  | emptyObject o => exact Option.some.inj (Except.ok.inj (Option.some.inj h)) ▸ rfl
  | array t es => exact Option.some.inj (Except.ok.inj (Option.some.inj h)) ▸ rfl
  | tuple es =>
      have htuple : tupleToArray borrow es = some w := Except.ok.inj (Option.some.inj h)
      match es with
      | [] => exact Option.some.inj htuple ▸ rfl
      | [x] => exact Option.some.inj htuple ▸ rfl
      | x :: y :: rest =>
          simp only [tupleToArray] at htuple
          split_ifs at htuple
          exact Option.some.inj htuple ▸ rfl
  | _ => cases h

theorem tuple_typed (h : tupleOperator borrow v = some (.ok (some w))) : typeOf w = .tuple := by
  cases v with
  | nil => exact Option.some.inj (Except.ok.inj (Option.some.inj h)) ▸ rfl
  | emptyObject o => exact Option.some.inj (Except.ok.inj (Option.some.inj h)) ▸ rfl
  | tuple es => exact Option.some.inj (Except.ok.inj (Option.some.inj h)) ▸ rfl
  | array t es =>
      have harray : arrayToTuple borrow es = some w := Except.ok.inj (Option.some.inj h)
      match es with
      | [] => exact Option.some.inj harray ▸ rfl
      | x :: rest =>
          simp only [arrayToTuple] at harray
          split_ifs at harray
          exact Option.some.inj harray ▸ rfl
  | _ => cases h

theorem object_typed (h : objectOperator E borrow v = some (.ok (some w))) :
    typeOf w = .object := by
  cases v with
  | object o => exact Option.some.inj (Except.ok.inj (Option.some.inj h)) ▸ rfl
  | emptyObject o => exact Option.some.inj (Except.ok.inj (Option.some.inj h)) ▸ rfl
  | weakObject o =>
      simp only [objectOperator] at h
      split_ifs at h
      · exact Option.some.inj (Except.ok.inj (Option.some.inj h)) ▸ rfl
      · cases h
  | _ => cases h

/-- An operator makes values of its type only. -/
theorem operatorFor_typed (h : operatorFor E borrow t v = some (.ok (some w))) : typeOf w = t := by
  cases t with
  | int => exact integer_typed (t := .int) rfl h
  | uint => exact integer_typed (t := .uint) rfl h
  | nint => exact integer_typed (t := .nint) rfl h
  | nuint => exact integer_typed (t := .nuint) rfl h
  | float =>
      have hnumber : numberOperator (fun x => .ok (.float (doubleBits x)))
          (fun bits => some (.float bits)) v = some (.ok (some w)) := h
      obtain ⟨n, hn⟩ | ⟨bits, hbits⟩ := numberOperator_ok hnumber
      · exact Except.ok.inj hn ▸ rfl
      · exact Option.some.inj hbits ▸ rfl
  | array => exact array_typed h
  | tuple => exact tuple_typed h
  | nil | emptyObject | any | lastType => cases h
  | variant => exact Option.some.inj (Except.ok.inj (Option.some.inj h)) ▸ rfl
  | bool | string | stringLiteral | pointer =>
      cases v <;> first
        | exact Option.some.inj (Except.ok.inj (Option.some.inj h)) ▸ rfl
        | cases h
  | object => exact object_typed h
  | weakObject =>
      cases v <;> first
        | exact Option.some.inj (Except.ok.inj (Option.some.inj h)) ▸ rfl
        | cases h

/-- An operator that knows the value, or what it goes on with. -/
theorem getD_typed {o : Option (Except Trap (Option DiValue))} {r : Except Trap (Option DiValue)}
    (ho : ∀ w, o = some (.ok (some w)) → typeOf w = t) (hr : ∀ w, r = .ok (some w) → typeOf w = t)
    (h : o.getD r = .ok (some w)) : typeOf w = t := by
  cases o with
  | none => exact hr w h
  | some x => exact ho w (congrArg some h)

theorem convertWith_typed (h : convertWith borrow (operatorFor E borrow t) v = .ok (some w)) :
    typeOf w = t := by
  induction v using convertWith.induct generalizing w with
  | case1 x ih => exact getD_typed (fun _ => operatorFor_typed) (fun _ => ih) h
  | case2 x ih =>
      refine getD_typed (fun _ => operatorFor_typed) (fun w hw => ?_) h
      split_ifs at hw
      exact ih hw
  | case3 u x ih =>
      refine getD_typed (fun _ => operatorFor_typed) (fun w hw => ?_) h
      split_ifs at hw
      exact ih hw
  | case4 v h₁ h₂ h₃ =>
      rw [convertWith] at h
      · exact getD_typed (r := .ok none) (fun _ => operatorFor_typed) (fun _ hw => by cases hw) h
      · exact h₁
      · exact h₂
      · exact h₃

/-- What a conversion returns has the type that was asked for. -/
theorem conversion_typed (h : diTypeConversion E borrow t v = .ok (some w)) : typeOf w = t := by
  rw [diTypeConversion] at h
  split_ifs at h with hsame
  · exact Option.some.inj (Except.ok.inj h) ▸ hsame
  · exact convertWith_typed h

theorem conversion_self : diTypeConversion E borrow (typeOf v) v = .ok (some v) := if_pos rfl

theorem convertArgs_typed {vs ws : List DiValue} {ts : List DiType} (hlen : vs.length = ts.length)
    (h : convertArgs E vs ts = .ok ws) : ws.map typeOf = ts := by
  induction vs generalizing ts ws with
  | nil =>
      obtain rfl := List.length_eq_zero_iff.mp hlen.symm
      obtain rfl := Except.ok.inj h
      rfl
  | cons v vs ih =>
      cases ts with
      | nil => cases hlen
      | cons t ts =>
          rw [convertArgs] at h
          cases hv : diTypeConversion E true t v with
          | error trap =>
              rw [hv] at h
              cases h
          | ok r =>
              rw [hv] at h
              cases r with
              | none => cases h
              | some w =>
                  obtain ⟨ws', hws, hcons⟩ := bind_eq_ok h
                  obtain rfl := Except.ok.inj hcons
                  rw [List.map_cons, conversion_typed hv, ih (Nat.succ.inj hlen) hws]

/-- Values that have their types already come first as they are. -/
theorem convertArgs_append (vs us : List DiValue) (ts : List DiType) :
    convertArgs E (vs ++ us) (vs.map typeOf ++ ts) = (convertArgs E us ts).map (vs ++ ·) := by
  induction vs with
  | nil =>
      cases hrest : convertArgs E us ts with
      | error e => exact hrest
      | ok ws => exact hrest
  | cons v vs ih =>
      rw [List.cons_append, List.map_cons, List.cons_append, convertArgs, conversion_self]
      simp only [ih]
      cases convertArgs E us ts with
      | error e => rfl
      | ok ws => rfl

/-! ## Calls -/

variable {cl : Closure} {members : Members} {fn : ℕ} {rtype : DiType} {captures args : List DiValue}
  {argTypes : List DiType} {prepared : Bool} {call : Call}

/-- What a new closure has in it. -/
theorem diCreateClosure_spec
    (h : diCreateClosure prepared fn rtype captures argTypes = .ok (cl, members)) :
    captures.length + argTypes.length ≤ maxNargs ∧ cl.fn = fn ∧ cl.rtype = rtype ∧
      cl.atypes = captures.map typeOf ++ argTypes ∧ members "captures" = some (.tuple captures) ∧
      members "__type" = some (.stringLiteral closureType) := by
  rw [diCreateClosure] at h
  by_cases hnargs : maxNargs < captures.length + argTypes.length
  · rw [if_pos hnargs] at h
    cases h
  rw [if_neg hnargs] at h
  obtain ⟨_, -, h⟩ := bind_eq_ok h
  obtain ⟨_, -, h⟩ := bind_eq_ok h
  obtain ⟨raw, hraw, h⟩ := bind_eq_ok h
  obtain ⟨_, -, h⟩ := bind_eq_ok h
  obtain ⟨_, -, h⟩ := bind_eq_ok h
  split_ifs at h
  obtain ⟨rfl, rfl⟩ := Prod.mk.inj (Except.ok.inj h)
  refine ⟨Nat.le_of_not_lt hnargs, rfl, rfl, rfl, ?_, Function.update_self ..⟩
  rw [diCreateRawClosure, if_neg (by omega)] at hraw
  obtain ⟨_, -, hraw⟩ := bind_eq_ok hraw
  obtain rfl := Except.ok.inj hraw
  rfl

/-- Whatever the members are, a call has as many arguments as there are types, of these types. -/
theorem diCallObject_typed (h : diCallObject E cl members args = .ok call) :
    call.fn = cl.fn ∧ call.rtype = cl.rtype ∧ call.args.map typeOf = cl.atypes := by
  rw [diCallObject, rawClosureTrampoline, closureTrampoline] at h
  obtain ⟨isClosure, -, h⟩ := bind_eq_ok h
  split_ifs at h with htype hlen
  rw [diTypedTrampoline] at h
  split_ifs at h with hmax
  obtain ⟨ws, hws, h⟩ := bind_eq_ok h
  obtain rfl := Except.ok.inj h
  exact ⟨rfl, rfl, convertArgs_typed (by rw [cl.sized]; exact not_not.mp hlen) hws⟩

/-- With the members that it was made with, a closure prepends its captures. -/
theorem diCallObject_untouched
    (h : diCreateClosure prepared fn rtype captures argTypes = .ok (cl, members))
    {members' : Members} (hcaptures : members' "captures" = members "captures")
    (htype : members' "__type" = members "__type") :
    diCallObject E cl members' args =
      if args.length ≠ argTypes.length then .error (.code einval)
      else (convertArgs E args argTypes).map fun ws => ⟨fn, captures ++ ws, rtype⟩ := by
  obtain ⟨hmax, rfl, rfl, hatypes, hcap, hclosure⟩ := diCreateClosure_spec h
  have hcaptured : captured members' = captures := by
    rw [captured, hcaptures, hcap]
  have hcheck : diCheckType E members' closureType = .ok true := by
    rw [diCheckType, diGetType, htype, hclosure]
    rfl
  have hnargs : cl.nargs = captures.length + argTypes.length := by
    rw [← cl.sized, hatypes, List.length_append, List.length_map]
  rw [diCallObject, rawClosureTrampoline, hcaptured, closureTrampoline, hcheck, ok_bind,
    if_neg (by simp), hnargs, List.length_append]
  by_cases hlen : args.length = argTypes.length
  · rw [if_neg (by omega), if_neg (by omega), diTypedTrampoline, hatypes, List.length_append,
      if_neg (by omega), convertArgs_append]
    cases convertArgs E args argTypes with
    | error e => rfl
    | ok ws => rfl
  · rw [if_pos (by omega), if_pos hlen]

/-- Whatever scripts have done to its members, a closure calls its own function only, and with as
many values of the very types that it was declared for, or it does not call it. While they have
left `captures` and `__type` alone, a call with the right number of arguments is the function
applied to the captures and the converted arguments, and fails when a conversion does. -/
theorem closure_calls_typed
    (hcreate : diCreateClosure prepared fn rtype captures argTypes = .ok (cl, members))
    (E : Env) (edits : List Edit) (args : List DiValue) :
    (∀ call, diCallObject E cl (applyEdits edits members) args = .ok call →
      call.fn = fn ∧ call.rtype = rtype ∧
      call.args.map typeOf = captures.map typeOf ++ argTypes) ∧
    ((∀ e ∈ edits, e.name ≠ "captures" ∧ e.name ≠ "__type") →
      diCallObject E cl (applyEdits edits members) args =
        if args.length ≠ argTypes.length then .error (.code einval)
        else (convertArgs E args argTypes).map fun ws => ⟨fn, captures ++ ws, rtype⟩) := by
  obtain ⟨-, hfn, hrtype, hatypes, -⟩ := diCreateClosure_spec hcreate
  refine ⟨fun call hcall => ?_, fun hedits => diCallObject_untouched hcreate ?_ ?_⟩
  · obtain ⟨hf, hr, ht⟩ := diCallObject_typed hcall
    exact ⟨hf.trans hfn, hr.trans hrtype, ht.trans hatypes⟩
  · exact applyEdits_of_forall_ne (fun e he => (hedits e he).1) members
  · exact applyEdits_of_forall_ne (fun e he => (hedits e he).2) members

/-- A function of an object and an integer that has captured a string. -/
def exampleClosure : Except Stop (Closure × Members) :=
  diCreateClosure true 7 .nil [.string "a"] [.object, .int]

theorem closure_calls_typed_example : ∃ cl members, exampleClosure = .ok (cl, members) ∧
    ∀ (E : Env) (captures : DiValue) (args : List DiValue) (call : Call),
      diCallObject E cl (applyEdits [⟨"captures", some captures⟩] members) args = .ok call →
        call.args.map typeOf = [.string, .object, .int] := by
  obtain ⟨cl, members, hcreate⟩ : ∃ cl members, exampleClosure = .ok (cl, members) := ⟨_, _, rfl⟩
  refine ⟨cl, members, hcreate, fun E captures args call hcall => ?_⟩
  exact ((closure_calls_typed hcreate E [⟨"captures", some captures⟩] args).1 call hcall).2.2

/-- A method gets its object first. -/
theorem method_call (hadd : diAddMethod prepared fn rtype argTypes = .ok (cl, members)) (E : Env)
    (self : ObjRef) (args : List DiValue) :
    diCallInternal E self cl members args =
      if maxNargs < args.length + 1 then .error .assertion
      else if args.length ≠ argTypes.length then .error (.code einval)
      else (convertArgs E args argTypes).map fun ws => ⟨fn, .object self :: ws, rtype⟩ := by
  rw [diAddMethod] at hadd
  by_cases hnargs : maxNargs < argTypes.length + 1
  · rw [if_pos hnargs] at hadd
    cases hadd
  rw [if_neg hnargs] at hadd
  split_ifs at hadd
  rw [diCallInternal, diCallObject_untouched hadd rfl rfl]
  refine if_congr Iff.rfl rfl (if_congr ?_ rfl ?_)
  · rw [List.length_cons, List.length_cons, ne_eq, ne_eq, Nat.succ_inj]
  · have hself := convertArgs_append (E := E) [.object self] args argTypes
    rw [show .object :: argTypes = [DiValue.object self].map typeOf ++ argTypes from rfl]
    rw [show DiValue.object self :: args = [.object self] ++ args from rfl, hself]
    cases convertArgs E args argTypes with
    | error e => rfl
    | ok ws => rfl

end Deai.Closures
