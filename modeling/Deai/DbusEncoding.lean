import Deai.DbusSignatures
import Deai.Conversion

/-!
# Encoding D-Bus messages

`signature.c` makes a type signature out of a deai value, and the encoder of `sedes.c` appends
the value to a message as the signature says. The functions of libdbus append what they are
given. What they check is that a string is not a null pointer and that a signature is valid;
these checks are fatal.
-/
namespace Deai.DbusEncoding
open Value Numbers Conversion DbusMessage

/-- What is undefined in C, or ends the program. A container is broken if its content is not what
it was opened for. -/
inductive Trap where
  | conversion (t : Conversion.Trap)
  | overflow
  | uninitialized
  | assertion
  | abort
  | badRead
  | bufferOverflow
  | useAfterFree
  | checkFailed
  | brokenContainer
  deriving DecidableEq

/-! ## Integers -/

/-- The signed type with as many bits. -/
def signedType (t : DbusInteger) : IntType := ⟨t.type.bits, false⟩

/-- The number that the type reads from the bytes of a signed integer. -/
def readAs (t : DbusInteger) (y : ℤ) : ℤ :=
  if t.type.unsigned then y % 2 ^ t.type.bits else y

/-- `dbus_serialize_integer`: the number that is appended, or none if false is returned.
`dbus_unsigned` is false for every type, and the result of `di_int_conversion` is not looked at.
The bytes that it stores are those of a signed integer. -/
def dbusSerializeInteger (v : DiValue) (t : DbusInteger) : Except Trap (Option ℤ) :=
  if t = .unixFd then .ok none
  else
    match diIntConversion t.type.bits false v with
    | .error e => .error (.conversion e)
    | .ok none => .error .uninitialized
    | .ok (some y) => .ok (some (readAs t y))

/-- A value that the D-Bus type can hold is appended, and any other value is refused. -/
def SentExactly (t : DbusInteger) (x : ℤ) (r : Except Trap (Option ℤ)) : Prop :=
  (t.type.Fits x → r = .ok (some x)) ∧ (¬ t.type.Fits x → r = .ok none)

theorem bits_mem {t : DbusInteger} : t.type.bits ∈ [8, 16, 32, 64] := by
  cases t <;> decide

theorem diIntConversion_integer {v : DiValue} {x : ℤ} (hx : integerOf (strip v) = some x)
    (t : DbusInteger) :
    diIntConversion t.type.bits false v = (checkedInt (signedType t) x).map some := by
  unfold diIntConversion
  rw [if_pos bits_mem, convertWith_integer hx]
  rfl

/-- An integer is appended through the signed type, as the double next to it. -/
theorem dbusSerializeInteger_eq {v : DiValue} {x : ℤ} (hx : integerOf (strip v) = some x)
    {t : DbusInteger} (ht : t ≠ .unixFd) :
    dbusSerializeInteger v t =
      if (signedType t).Fits (toDouble x) then .ok (some (readAs t (toDouble x)))
      else .error (.conversion .overflow) := by
  unfold dbusSerializeInteger
  rw [if_neg ht, diIntConversion_integer hx]
  unfold checkedInt
  split_ifs <;> rfl

/-- A number that both types hold has the same bytes in both. -/
theorem readAs_of_fits {t : DbusInteger} {x : ℤ} (hfits : t.type.Fits x) : readAs t x = x := by
  cases t <;>
    simp only [readAs, DbusInteger.type, IntType.Fits, IntType.min, IntType.max, Bool.false_eq_true, if_false,
      if_true] at hfits ⊢ <;> omega

/-- What is appended is always in the range of the type. -/
theorem fits_readAs {t : DbusInteger} {y : ℤ} (hy : (signedType t).Fits y) :
    t.type.Fits (readAs t y) := by
  cases t <;>
    simp only [readAs, signedType, DbusInteger.type, IntType.Fits, IntType.min, IntType.max,
      Bool.false_eq_true, if_false, if_true] at hy ⊢ <;> omega

/-- A number that comes out unchanged was not changed by its sign. -/
theorem eq_of_readAs {t : DbusInteger} {x y : ℤ} (hy : (signedType t).Fits y)
    (hsign : 0 ≤ x → 0 ≤ y) (h : readAs t y = x) : y = x := by
  cases t <;>
    simp only [readAs, signedType, DbusInteger.type, IntType.Fits, IntType.min, IntType.max,
      Bool.false_eq_true, if_false, if_true] at hy h ⊢ <;> omega

/-- An integer that is appended is unchanged, if and only if it is a double. -/
theorem dbusSerializeInteger_eq_self {v : DiValue} {x : ℤ} (hx : integerOf (strip v) = some x)
    {t : DbusInteger} (ht : t ≠ .unixFd) :
    dbusSerializeInteger v t = .ok (some x) ↔
      t.type.Fits x ∧ (signedType t).Fits x ∧ toDouble x = x := by
  rw [dbusSerializeInteger_eq hx ht]
  constructor
  · intro h
    split_ifs at h with hround
    · have hsame := Option.some.inj (Except.ok.inj h)
      have hdouble := eq_of_readAs hround toDouble_nonneg hsame
      refine ⟨?_, hdouble ▸ hround, hdouble⟩
      rw [← hsame]
      exact fits_readAs hround
  · rintro ⟨hfits, hsigned, hdouble⟩
    rw [hdouble, if_pos hsigned, readAs_of_fits hfits]

/-- An integer is appended exactly or refused, if and only if the D-Bus type and the signed type
with as many bits can hold it and it is a double. -/
theorem integer_sent_exactly {v : DiValue} {x : ℤ} (hx : integerOf (strip v) = some x)
    {t : DbusInteger} (ht : t ≠ .unixFd) :
    SentExactly t x (dbusSerializeInteger v t) ↔
      t.type.Fits x ∧ (signedType t).Fits x ∧ toDouble x = x := by
  rw [← dbusSerializeInteger_eq_self hx ht]
  constructor
  · rintro ⟨hexact, hrefused⟩
    by_cases hfits : t.type.Fits x
    · exact hexact hfits
    · -- nothing is ever refused
      have hnone := hrefused hfits
      rw [dbusSerializeInteger_eq hx ht] at hnone
      split_ifs at hnone
      cases hnone
  · intro h
    have hfits := ((dbusSerializeInteger_eq_self hx ht).mp h).1
    exact ⟨fun _ => h, fun hnot => absurd hfits hnot⟩

theorem integer_sent_exactly_five :
    SentExactly .uint16 5 (dbusSerializeInteger (.int 5) .uint16) :=
  (integer_sent_exactly (v := .int 5) rfl (by decide)).mpr
    ⟨by decide, by decide, toDouble_of_natAbs_lt (by decide)⟩

/-- A negative number becomes a positive one, and a number that does not fit is not refused. -/
theorem integer_not_sent_exactly :
    ¬ SentExactly .uint16 (-1) (dbusSerializeInteger (.int (-1)) .uint16) ∧
    dbusSerializeInteger (.int (-1)) .uint16 = .ok (some 65535) ∧
    ¬ SentExactly .int16 70000 (dbusSerializeInteger (.int 70000) .int16) ∧
    ¬ SentExactly .uint32 3000000000 (dbusSerializeInteger (.nuint 3000000000) .uint32) := by
  have hnegative : dbusSerializeInteger (.int (-1)) .uint16 = .ok (some 65535) := by decide
  have hlarge : dbusSerializeInteger (.int 70000) .int16 = .error (.conversion .overflow) := by
    decide
  have hunsigned : dbusSerializeInteger (.nuint 3000000000) .uint32 =
      .error (.conversion .overflow) := by decide
  refine ⟨fun h => ?_, hnegative, fun h => ?_, fun h => ?_⟩
  · cases (h.2 (by decide)).symm.trans hnegative
  · cases (h.2 (by decide)).symm.trans hlarge
  · cases (h.1 (by decide)).symm.trans hunsigned

/-! ## Signatures -/

/-- The basic types among those that `di_type_to_dbus_basic` returns. -/
def basicType : DiType → Option DbusBasic
  | .bool => some .boolean
  | .int => some (.integer .int64)
  | .uint => some (.integer .uint64)
  | .nint => some (.integer .int32)
  | .nuint => some (.integer .uint32)
  | .float => some .double
  | .string | .stringLiteral => some .string
  | _ => none

/-- `di_type_to_dbus_basic`, which panics for the types that no value has. -/
def diTypeToDbusBasic (t : DiType) : Except Trap (Option DbusBasic) :=
  if t = .any ∨ t = .lastType then .error .abort else .ok (basicType t)

/-- The sum of two `int`s that are not below -1. -/
def addInt (x y : ℤ) : Except Trap ℤ :=
  if x + y ≤ DbusSignatures.intMax then .ok (x + y) else .error .overflow

mutual
/-- `type_signature_length_of_di_value`: the size of the buffer for a signature, or a negative
number. A variant counts as what it contains. The loop over an array computes the number of its
first element again, so nothing else can come out of it. -/
def typeSignatureLength : DiValue → Except Trap ℤ
  | .array _ [] => .error .badRead
  | .array _ (e :: _) => do
      let n ← typeSignatureLength e
      addInt 1 n
  | .tuple es => do
      let n ← typeSignatureLengths 0 0 es
      if n < 0 then .ok n else addInt n 2
  | .variant v => typeSignatureLength v
  | v => .ok (if (basicType (typeOf v)).isSome then 1 else -1)

/-- The sum of the sizes, or the first negative number. -/
def typeSignatureLengths : (i ret : ℤ) → List DiValue → Except Trap ℤ
  | _, ret, [] => .ok ret
  | i, ret, v :: vs => do
      let tmp ← typeSignatureLength v
      if tmp < 0 then .ok tmp
      else do
        let ret ← addInt ret tmp
        let i ← addInt i 1
        typeSignatureLengths i ret vs
end

mutual
/-- The number of characters of a signature. -/
def textLength : DbusType → ℕ
  | .basic _ => 1
  | .variant => 1
  | .array elem => textLength elem + 1
  | .dict _ value => textLength value + 4
  | .struct fields => textLengths fields + 2

def textLengths : List DbusType → ℕ
  | [] => 0
  | t :: ts => textLength t + textLengths ts
end

/-- `is_basic_type_compatible`. The assertion is for the characters of containers; that of
a struct is not the one a signature has for it. -/
def isBasicTypeCompatible (t : DiType) : DbusType → Except Trap Bool
  | .basic .boolean => .ok (t = .bool)
  | .basic (.integer .unixFd) => .ok false
  | .basic (.integer _) => .ok (t ∈ [DiType.uint, .int, .nint, .nuint])
  | .basic .double => .ok (t = .float)
  | .basic .string | .basic .objectPath => .ok (t = .string)
  | .basic .byte | .basic .signature => .ok false
  | .array _ | .dict _ _ | .variant => .error .assertion
  | .struct _ => .ok false

mutual
/-- `verify_type_signature` -/
def verifyTypeSignature : DiValue → DbusType → Except Trap Bool
  | .variant v, s =>
      match s with
      | .variant => .ok true
      | s => verifyTypeSignature v s
  | .array t es, s =>
      match s with
      | .variant => .ok true
      | .array elem =>
          match es with
          | [] => .error .badRead
          | e :: es => do
              let first ← verifyTypeSignature e elem
              if t ∈ [DiType.array, .tuple, .variant] then verifyElements first 1 es elem
              else .ok first
      | .struct fields => verifyFields 0 es fields
      | _ => .ok false
  | .tuple es, s =>
      match s with
      | .variant => .ok true
      | .struct fields => verifyFields 0 es fields
      | _ => .ok false
  | v, s =>
      if (basicType (typeOf v)).isSome then isBasicTypeCompatible (typeOf v) s
      else
        match s with
        | .variant => .ok true
        | _ => .ok false

/-- The elements after the first one. -/
def verifyElements (first : Bool) : (i : ℤ) → List DiValue → DbusType → Except Trap Bool
  | _, [], _ => .ok first
  | i, e :: es, elem => do
      let ok ← verifyTypeSignature e elem
      if ok && first then do
        let i ← addInt i 1
        verifyElements first i es elem
      else .ok false

def verifyFields : (i : ℤ) → List DiValue → List DbusType → Except Trap Bool
  | _, [], fields => .ok fields.isEmpty
  | _, _ :: _, [] => .ok false
  | i, e :: es, field :: fields => do
      let ok ← verifyTypeSignature e field
      if ok then do
        let i ← addInt i 1
        verifyFields i es fields
      else .ok false
end

mutual
/-- `type_signature_of_di_value_to_buffer`, or none for `-EINVAL`. An array has the signature of
its first element; if there is none for that, its text ends where the array is found not to
match it. -/
def typeSignatureToBuffer : DiValue → Except Trap (Option DbusType)
  | .array _ [] => .error .badRead
  | .array t (e :: es) => do
      match ← typeSignatureToBuffer e with
      | none => .ok none
      | some elem =>
          let ok ← verifyTypeSignature (.array t (e :: es)) (.array elem)
          .ok (if ok then some (.array elem) else none)
  | .tuple es => do
      let fields ← typeSignaturesToBuffer 0 es
      .ok (fields.map .struct)
  | .variant _ => .ok (some .variant)
  | v => .ok ((basicType (typeOf v)).map .basic)

def typeSignaturesToBuffer : (i : ℤ) → List DiValue → Except Trap (Option (List DbusType))
  | _, [] => .ok (some [])
  | i, v :: vs => do
      match ← typeSignatureToBuffer v with
      | none => .ok none
      | some t =>
          let i ← addInt i 1
          let ts ← typeSignaturesToBuffer i vs
          .ok (ts.map (t :: ·))
end

/-- `type_signature_of_di_value`, and whether its text ends where the null character is put. The
null character is put there also if the buffer was freed. -/
def typeSignatureOfDiValue (v : DiValue) : Except Trap (Option (DbusType × Bool)) := do
  let len ← typeSignatureLength v
  if len < 0 then .ok none
  else do
    let size ← addInt len 1
    match ← typeSignatureToBuffer v with
    | none => .error .useAfterFree
    | some t =>
        if size < textLength t then .error .bufferOverflow
        else .ok (some (t, len = textLength t))

/-! ## The encoder -/

/-- The characters of a string that C sees. -/
def cString (s : String) : String := String.ofList (s.toList.takeWhile fun c => c ≠ Char.ofNat 0)

/-- What libdbus takes for the path of an object. -/
def isObjectPath (s : String) : Bool :=
  s = "/" ||
    match s.splitOn "/" with
    | "" :: e :: es => (e :: es).all fun e => e ≠ "" && e.toList.all fun c => c.isAlphanum || c = '_'
    | _ => false

/-- What is appended, or none if an error is returned. -/
abbrev Result := Except Trap (Option DbusValue)

/-- `dbus_serialize_basic_with_type`. An empty string becomes a null pointer. -/
def dbusSerializeBasicWithType (v : DiValue) : DbusBasic → Result
  | .boolean =>
      match v with
      | .bool b => .ok (some (.boolean b))
      | _ => .ok none
  | .integer t => do
      let x ← dbusSerializeInteger v t
      .ok (x.map (.integer t))
  | .double =>
      match v with
      | .float bits => .ok (some (.double bits))
      | _ => .ok none
  | .string =>
      match v with
      | .string s => if s = "" then .error .checkFailed else .ok (some (.string (cString s)))
      | _ => .ok none
  | .objectPath =>
      match v with
      | .string s =>
          if isObjectPath (cString s) then .ok (some (.objectPath (cString s)))
          else .error .checkFailed
      | _ => .ok none
  | .byte | .signature => .ok none

-- The signatures that `dbus_message_iter_open_container` takes for the content of an array or a
-- variant. It is a part of libdbus.
variable (valid : DbusType → Bool)

/-- A D-Bus variant with the value in it, which `content` appends by the signature of the value.
The error that it may return is ignored. -/
def serializeVariant (v : DiValue) (content : DbusType → Result) : Result := do
  match ← typeSignatureOfDiValue v with
  | none => .error .checkFailed
  | some (_, false) => .error .uninitialized
  | some (s, true) =>
      if valid s then do
        match ← content s with
        | none => .error .brokenContainer
        | some c => .ok (some (.variant c))
      else .error .checkFailed

/-- An element as it is in memory. A `bool` has one byte, and `dbus_bool_t` four. -/
def fixedElement : DiValue → Except Trap DbusValue
  | .nint i => .ok (.integer .int32 i.toInt)
  | .nuint n => .ok (.integer .uint32 n.toNat)
  | .int i => .ok (.integer .int64 i.toInt)
  | .uint n => .ok (.integer .uint64 n.toNat)
  | .float bits => .ok (.double bits)
  | _ => .error .badRead

def fixedElements : List DiValue → Except Trap (List DbusValue)
  | [] => .ok []
  | e :: es => do
      let d ← fixedElement e
      let ds ← fixedElements es
      .ok (d :: ds)

/-- An array for the signature of an array; `elements` appends the elements one by one. -/
def serializeArray (t : DiType) (es : List DiValue) (elem : DbusType)
    (elements : DbusType → Except Trap (Option (List DbusValue))) : Result := do
  let atype ← diTypeToDbusBasic t
  if valid elem then
    match atype, elem with
    | some atype, .basic b =>
        if atype ≠ .string ∧ atype = b then do
          let ds ← fixedElements es
          .ok (some (.array elem ds))
        else do
          let ds ← elements elem
          .ok (ds.map (.array elem))
    | _, elem => do
        let ds ← elements elem
        .ok (ds.map (.array elem))
  else .error .checkFailed

/-- The elements of an array or a tuple for the signature of a struct. There must be as many as the
signature has. -/
def serializeStruct (es : List DiValue) (fields : List DbusType)
    (elements : List DbusType → Except Trap (Option (List DbusValue))) : Result :=
  if fields.length = es.length then do
    let ds ← elements fields
    .ok (ds.map .struct)
  else .ok none

/-- A value that is not a variant: for the signature of a variant it is wrapped in one. -/
def wrapped (v : DiValue) (plain : DbusType → Result) : DbusType → Result
  | .variant => serializeVariant valid v plain
  | s => plain s

mutual
/-- `dbus_serialize_with_signature` -/
def dbusSerializeWithSignature : DiValue → DbusType → Result
  | .variant v, s =>
      match s with
      | .basic b => dbusSerializeBasicWithType (.variant v) b
      | .variant => serializeVariant valid v (dbusSerializeWithSignature v)
      | s => dbusSerializeWithSignature v s
  | .array t es, s =>
      wrapped valid (.array t es) (fun
        | .basic b => dbusSerializeBasicWithType (.array t es) b
        | .array elem => serializeArray valid t es elem (serializeElements es)
        | .struct fields => serializeStruct es fields (serializeFields es)
        | _ => .ok none) s
  | .tuple es, s =>
      wrapped valid (.tuple es) (fun
        | .basic b => dbusSerializeBasicWithType (.tuple es) b
        | .struct fields => serializeStruct es fields (serializeFields es)
        | _ => .ok none) s
  | v, s =>
      wrapped valid v (fun
        | .basic b => dbusSerializeBasicWithType v b
        -- the struct is opened, and closed with nothing in it
        | .struct _ => .error .brokenContainer
        | _ => .ok none) s

def serializeElements : List DiValue → DbusType → Except Trap (Option (List DbusValue))
  | [], _ => .ok (some [])
  | e :: es, elem => do
      match ← dbusSerializeWithSignature e elem with
      | none => .ok none
      | some d =>
          let ds ← serializeElements es elem
          .ok (ds.map (d :: ·))

def serializeFields : List DiValue → List DbusType → Except Trap (Option (List DbusValue))
  | [], [] => .ok (some [])
  | e :: es, field :: fields => do
      match ← dbusSerializeWithSignature e field with
      | none => .ok none
      | some d =>
          let ds ← serializeFields es fields
          .ok (ds.map (d :: ·))
  | _, _ => .ok none
end

/-- `dbus_serialize_struct` with an empty signature: the body of the message. -/
def dbusSerializeStruct (es : List DiValue) : Except Trap (Option (List DbusValue)) := do
  match ← typeSignatureOfDiValue (.tuple es) with
  | some (.struct fields, _) => serializeFields valid es fields
  | _ => .ok none

end Deai.DbusEncoding
