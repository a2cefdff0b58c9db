import Deai.DbusEncoding
import Deai.DbusDecoding

/-!
# From a deai value to a message and back

A tuple is encoded with the signature made out of it, and the message is decoded again. The
signature of an array is that of its first element, so the other elements are encoded with
a signature that need not be their own.
-/
namespace Deai.DbusRoundTrip
open Fallible Value Numbers DbusMessage DbusDecoding DbusEncoding
open Conversion hiding Trap

mutual
/-- Booleans, integers, floats and strings, arrays of one element type that are not empty, tuples
and variants. -/
def Sendable : DiValue → Prop
  | .bool _ | .nint _ | .nuint _ | .int _ | .uint _ | .float _ | .string _ => True
  | .array t es => es ≠ [] ∧ SendableElements t es
  | .tuple es => SendableFields es
  | .variant v => Sendable v
  | _ => False

def SendableElements (t : DiType) : List DiValue → Prop
  | [] => True
  | e :: es => typeOf e = t ∧ Sendable e ∧ SendableElements t es

def SendableFields : List DiValue → Prop
  | [] => True
  | e :: es => Sendable e ∧ SendableFields es
end

theorem sendableFields_of_elements {t : DiType} {es : List DiValue} (h : SendableElements t es) :
    SendableFields es := by
  induction es with
  | nil => trivial
  | cons e es ih => exact ⟨h.2.1, ih h.2.2⟩

/-- The same number, signed or unsigned. -/
def SameInteger (x : ℤ) : Decoded → Prop
  | .int i => i.toInt = x
  | .uint n => n.toNat = x
  | _ => False

mutual
/-- What comes back is the value: an integer has one of the two wide types, every array has the
type of its elements, and nothing lies in the message. -/
def Same : DiValue → Decoded → Prop
  | .bool b, d => d = .bool b
  | .nint i, d => SameInteger i.toInt d
  | .nuint n, d => SameInteger n.toNat d
  | .int i, d => SameInteger i.toInt d
  | .uint n, d => SameInteger n.toNat d
  | .float bits, d => d = .float bits
  | .string s, d => d = .string s
  | .array _ es, d => ∃ t ds, d = .array t ds ∧ SameElements es t ds
  | .tuple es, d => ∃ cells, d = .tuple cells ∧ SameFields es cells
  | .variant v, d => ∃ d', d = .variant d'.type d' ∧ Same v d'
  | _, _ => False

def SameElements : List DiValue → DiType → List Decoded → Prop
  | [], _, ds => ds = []
  | e :: es, t, ds => ∃ d rest, ds = d :: rest ∧ t = d.type ∧ Same e d ∧ SameElements es t rest

def SameFields : List DiValue → List (DiType × Decoded) → Prop
  | [], cells => cells = []
  | e :: es, cells => ∃ d rest, cells = (d.type, d) :: rest ∧ Same e d ∧ SameFields es rest
end

section
variable {t : DiType} {e v : DiValue} {es : List DiValue} {d : Decoded} {ds : List Decoded}
  {cells : List (DiType × Decoded)}

@[simp] theorem same_bool {b : Bool} : Same (.bool b) d ↔ d = .bool b := .rfl
@[simp] theorem same_float {bits : UInt64} : Same (.float bits) d ↔ d = .float bits := .rfl
@[simp] theorem same_string {x : String} : Same (.string x) d ↔ d = .string x := .rfl
@[simp] theorem same_array :
    Same (.array t es) d ↔ ∃ t' ds, d = .array t' ds ∧ SameElements es t' ds := .rfl
@[simp] theorem same_tuple :
    Same (.tuple es) d ↔ ∃ cells, d = .tuple cells ∧ SameFields es cells := .rfl
@[simp] theorem same_variant :
    Same (.variant v) d ↔ ∃ d', d = .variant d'.type d' ∧ Same v d' := .rfl
@[simp] theorem sameElements_nil : SameElements [] t ds ↔ ds = [] := .rfl
@[simp] theorem sameFields_nil : SameFields [] cells ↔ cells = [] := .rfl

@[simp] theorem sameElements_cons : SameElements (e :: es) t (d :: ds) ↔
    t = d.type ∧ Same e d ∧ SameElements es t ds := by
  constructor
  · rintro ⟨d', rest, heq, htype, hd, hrest⟩
    cases heq
    exact ⟨htype, hd, hrest⟩
  · rintro ⟨htype, hd, hrest⟩
    exact ⟨d, ds, rfl, htype, hd, hrest⟩

@[simp] theorem sameFields_cons :
    SameFields (e :: es) ((d.type, d) :: cells) ↔ Same e d ∧ SameFields es cells := by
  constructor
  · rintro ⟨d', rest, heq, hd, hrest⟩
    obtain ⟨hcell, rfl⟩ := List.cons.inj heq
    obtain rfl := (Prod.mk.inj hcell).2
    exact ⟨hd, hrest⟩
  · rintro ⟨hd, hrest⟩
    exact ⟨d, cells, rfl, hd, hrest⟩

end

/-- An integer that is appended unchanged. -/
def FaithfulInteger (x : ℤ) (s : DbusType) : Prop :=
  ∃ t, s = .basic (.integer t) ∧ t.type.Fits x ∧ (signedType t).Fits x ∧ toDouble x = x

mutual
/-- The values that survive being encoded with a signature. Integers are doubles, and they fit the
signed type as well. Strings have no null character. A variant is there where the signature has
one, an array where it has an array, and a tuple where it has a struct. No array has elements of
a fixed size. -/
def Faithful : DiValue → DbusType → Prop
  | .bool _, s => s = .basic .boolean
  | .nint i, s => FaithfulInteger i.toInt s
  | .nuint n, s => FaithfulInteger n.toNat s
  | .int i, s => FaithfulInteger i.toInt s
  | .uint n, s => FaithfulInteger n.toNat s
  | .float _, s => s = .basic .double
  | .string x, s => (s = .basic .string ∨ s = .basic .objectPath) ∧ cString x = x
  | .array _ es, s => ∃ elem, s = .array elem ∧ dbusTypeIsFixed elem = false ∧
      FaithfulElements es elem
  | .tuple es, s => ∃ fields, s = .struct fields ∧ FaithfulFields es fields
  | .variant v, s => s = .variant ∧ ∃ sv, typeSignatureToBuffer v = .ok (some sv) ∧ Faithful v sv
  | _, _ => False

def FaithfulElements : List DiValue → DbusType → Prop
  | [], _ => True
  | e :: es, elem => Faithful e elem ∧ FaithfulElements es elem

def FaithfulFields : List DiValue → List DbusType → Prop
  | [], fields => fields = []
  | e :: es, fields => ∃ field rest, fields = field :: rest ∧ Faithful e field ∧
      FaithfulFields es rest
end

section
variable {t : DiType} {e v : DiValue} {es : List DiValue} {s : DbusType} {fields : List DbusType}

@[simp] theorem faithful_bool {b : Bool} : Faithful (.bool b) s ↔ s = .basic .boolean := .rfl
@[simp] theorem faithful_float {bits : UInt64} :
    Faithful (.float bits) s ↔ s = .basic .double := .rfl
@[simp] theorem faithful_string {x : String} : Faithful (.string x) s ↔
    (s = .basic .string ∨ s = .basic .objectPath) ∧ cString x = x := .rfl
@[simp] theorem faithful_array : Faithful (.array t es) s ↔
    ∃ elem, s = .array elem ∧ dbusTypeIsFixed elem = false ∧ FaithfulElements es elem := .rfl
@[simp] theorem faithful_tuple :
    Faithful (.tuple es) s ↔ ∃ fields, s = .struct fields ∧ FaithfulFields es fields := .rfl
@[simp] theorem faithful_variant : Faithful (.variant v) s ↔
    s = .variant ∧ ∃ sv, typeSignatureToBuffer v = .ok (some sv) ∧ Faithful v sv := .rfl
@[simp] theorem faithfulElements_nil : FaithfulElements [] s ↔ True := .rfl
@[simp] theorem faithfulElements_cons :
    FaithfulElements (e :: es) s ↔ Faithful e s ∧ FaithfulElements es s := .rfl
@[simp] theorem faithfulFields_nil : FaithfulFields [] fields ↔ fields = [] := .rfl

@[simp] theorem faithfulFields_cons :
    FaithfulFields (e :: es) (s :: fields) ↔ Faithful e s ∧ FaithfulFields es fields := by
  constructor
  · rintro ⟨field, rest, heq, he, hrest⟩
    cases heq
    exact ⟨he, hrest⟩
  · rintro ⟨he, hrest⟩
    exact ⟨s, fields, rfl, he, hrest⟩

end

/-- What becomes of a value that is encoded as `m`. -/
structure Transmitted (v : DiValue) (s : DbusType) (m : DbusValue) : Prop where
  type : m.type = s
  notObject : isObject m = false
  decoded : ∃ d, dbusDeserializeOne m = .ok (d.type, d) ∧ (Same v d ↔ Faithful v s)

/-! ## Basic values -/

/-- Every D-Bus integer fits one of the two wide types. -/
theorem fits_wide {t : DbusInteger} {y : ℤ} (hy : t.type.Fits y) :
    IntType.Fits ⟨64, t.type.unsigned⟩ y := by
  cases t <;>
    simp only [DbusInteger.type, IntType.Fits, IntType.min, IntType.max, Bool.false_eq_true, if_false,
      if_true] at hy ⊢ <;> omega

theorem decodeInteger_same {t : DbusInteger} {x y : ℤ} (hy : t.type.Fits y) :
    SameInteger x (decodeInteger t y) ↔ y = x := by
  have hwide := fits_wide hy
  have hint : IntType.Fits ⟨64, false⟩ y → (Int64.ofInt y).toInt = y := fun h =>
    Option.some.inj (integerOf_ofInteger (rfl : intType .int = some ⟨64, false⟩) h)
  have huint : IntType.Fits ⟨64, true⟩ y → ((UInt64.ofInt y).toNat : ℤ) = y := fun h =>
    Option.some.inj (integerOf_ofInteger (rfl : intType .uint = some ⟨64, true⟩) h)
  cases t with
  | int16 | int32 | int64 | unixFd => simp only [decodeInteger, SameInteger, hint hwide]
  | uint16 | uint32 | uint64 => simp only [decodeInteger, SameInteger, huint hwide]

/-- The integer types and their values. -/
theorem same_integer {v : DiValue} {x : ℤ} (hx : integerOf v = some x) (d : Decoded) :
    Same v d ↔ SameInteger x d := by
  unfold integerOf at hx
  split at hx <;> cases hx <;> rfl

theorem faithful_integer {v : DiValue} {x : ℤ} (hx : integerOf v = some x) (s : DbusType) :
    Faithful v s ↔ FaithfulInteger x s := by
  unfold integerOf at hx
  split at hx <;> cases hx <;> rfl

theorem strip_integer {v : DiValue} {x : ℤ} (hx : integerOf v = some x) : strip v = v := by
  unfold integerOf at hx
  split at hx <;> cases hx <;> rfl

theorem decode_integer {t : DbusInteger} {x : ℤ} :
    dbusDeserializeOne (.integer t x) = .ok ((decodeInteger t x).type, decodeInteger t x) := rfl

/-- An integer is appended as a number that the type can hold. -/
theorem dbusSerializeInteger_fits {v : DiValue} {x y : ℤ} (hx : integerOf (strip v) = some x)
    {t : DbusInteger} (h : dbusSerializeInteger v t = .ok (some y)) :
    t ≠ .unixFd ∧ t.type.Fits y := by
  have ht : t ≠ .unixFd := by
    rintro rfl
    cases h
  refine ⟨ht, ?_⟩
  rw [dbusSerializeInteger_eq hx ht] at h
  split_ifs at h with hround
  have hy := Option.some.inj (Except.ok.inj h)
  rw [← hy]
  exact fits_readAs hround

theorem transmitted_integer {v : DiValue} {x : ℤ} (hx : integerOf v = some x) {t : DbusInteger}
    {m : DbusValue} (h : dbusSerializeBasicWithType v (.integer t) = .ok (some m)) :
    Transmitted v (.basic (.integer t)) m := by
  have hstrip : integerOf (strip v) = some x := by rw [strip_integer hx, hx]
  obtain ⟨r, hr, h⟩ := bind_eq_ok h
  cases r with
  | none => cases h
  | some y =>
      cases h
      obtain ⟨ht, hfits⟩ := dbusSerializeInteger_fits hstrip hr
      refine ⟨rfl, rfl, _, decode_integer, ?_⟩
      rw [same_integer hx, faithful_integer hx, decodeInteger_same hfits]
      have hexact := dbusSerializeInteger_eq_self hstrip ht
      rw [hr] at hexact
      simp only [Except.ok.injEq, Option.some.injEq] at hexact
      simp [hexact, FaithfulInteger]

/-- What is not an integer does not come back from one. -/
theorem not_same_decodeInteger {v : DiValue} (hv : integerOf v = none) (t : DbusInteger) (y : ℤ) :
    ¬ Same v (decodeInteger t y) ∧ ¬ Faithful v (.basic (.integer t)) := by
  have hdecoded : ∃ i n, decodeInteger t y = .int i ∨ decodeInteger t y = .uint n := by
    cases t <;> simp [decodeInteger]
  obtain ⟨i, n, hdecoded⟩ := hdecoded
  cases v with
  | nint i | nuint n | int i | uint n => cases hv
  | nil | emptyObject o | pointer p | object o | weakObject o | stringLiteral x => exact ⟨id, id⟩
  | bool b | float bits | string x | array t es | tuple es | variant v =>
      rcases hdecoded with h | h <;> simp [h]

theorem transmitted_basic {v : DiValue} {b : DbusBasic} {m : DbusValue}
    (h : dbusSerializeBasicWithType v b = .ok (some m)) : Transmitted v (.basic b) m := by
  cases b with
  | byte | signature => cases h
  | boolean =>
      cases v with
      | bool b =>
          cases h
          exact ⟨rfl, rfl, .bool b, rfl, by simp⟩
      | _ => cases h
  | double =>
      cases v with
      | float bits =>
          cases h
          exact ⟨rfl, rfl, .float bits, rfl, by simp⟩
      | _ => cases h
  | string =>
      cases v with
      | string x =>
          simp only [dbusSerializeBasicWithType] at h
          split_ifs at h
          cases h
          exact ⟨rfl, rfl, .string (cString x), rfl, by simp⟩
      | _ => cases h
  | objectPath =>
      cases v with
      | string x =>
          simp only [dbusSerializeBasicWithType] at h
          split_ifs at h
          cases h
          exact ⟨rfl, rfl, .string (cString x), rfl, by simp⟩
      | _ => cases h
  | integer t =>
      cases hx : integerOf v with
      | some x => exact transmitted_integer hx h
      | none =>
          obtain ⟨r, -, h⟩ := bind_eq_ok h
          cases r with
          | none => cases h
          | some y =>
              cases h
              have hnot := not_same_decodeInteger hx t y
              exact ⟨rfl, rfl, _, decode_integer, iff_of_false hnot.1 hnot.2⟩

/-! ## Variants -/

variable {valid : DbusType → Bool}

theorem toBuffer_of_typeSignature {v : DiValue} {s : DbusType} {terminated : Bool}
    (h : typeSignatureOfDiValue v = .ok (some (s, terminated))) : typeSignatureToBuffer v = .ok (some s) := by
  obtain ⟨len, -, h⟩ := bind_eq_ok h
  split_ifs at h
  · cases h
  · obtain ⟨size, -, h⟩ := bind_eq_ok h
    obtain ⟨t, ht, h⟩ := bind_eq_ok h
    cases t with
    | none => cases h
    | some t =>
        dsimp only at h
        split_ifs at h
        cases h
        exact ht

theorem serializeVariant_eq_ok {v : DiValue} {content : DbusType → Result} {m : DbusValue}
    (h : serializeVariant valid v content = .ok (some m)) :
    ∃ s c, typeSignatureToBuffer v = .ok (some s) ∧ content s = .ok (some c) ∧ m = .variant c := by
  obtain ⟨r, hr, h⟩ := bind_eq_ok h
  match r, h with
  | some (s, true), h =>
      dsimp only at h
      split_ifs at h
      obtain ⟨c, hc, h⟩ := bind_eq_ok h
      cases c with
      | none => cases h
      | some c =>
          cases h
          exact ⟨s, c, toBuffer_of_typeSignature hr, hc, rfl⟩

theorem decode_variant {m : DbusValue} {d : Decoded} (hm : isObject m = false)
    (hd : dbusDeserializeOne m = .ok (d.type, d)) :
    dbusDeserializeOne (.variant m) = .ok (.variant, .variant d.type d) := storeVariant_ok hm hd

theorem transmitted_variant {v : DiValue} {s : DbusType} {m : DbusValue}
    (hs : typeSignatureToBuffer v = .ok (some s)) (h : Transmitted v s m) :
    Transmitted (.variant v) .variant (.variant m) := by
  obtain ⟨d, hd, hiff⟩ := h.decoded
  refine ⟨rfl, rfl, .variant d.type d, decode_variant h.notObject hd, ?_⟩
  constructor
  · rintro ⟨d', hd', hsame⟩
    injection hd' with htype heq
    subst heq
    exact ⟨rfl, s, hs, hiff.mp hsame⟩
  · rintro ⟨-, s', hs', hfaithful⟩
    rw [hs] at hs'
    cases hs'
    exact ⟨d, rfl, hiff.mpr hfaithful⟩

/-- A value that is not a variant does not come back from one. -/
theorem transmitted_wrapped {v : DiValue} (hv : ∀ x, v ≠ .variant x) {s : DbusType} {m : DbusValue}
    (h : Transmitted v s m) : Transmitted v .variant (.variant m) := by
  obtain ⟨d, hd, -⟩ := h.decoded
  refine ⟨rfl, rfl, .variant d.type d, decode_variant h.notObject hd, ?_⟩
  cases v with
  | variant x => exact absurd rfl (hv x)
  | nil | emptyObject o | pointer p | object o | weakObject o | stringLiteral x => exact .rfl
  | nint i | nuint n | int i | uint n =>
      refine iff_of_false id ?_
      rintro ⟨t, ht, -⟩
      cases ht
  | bool b | float bits | string x | array t es | tuple es => simp

/-- A variant does not come back from anything else. -/
theorem transmitted_unwrapped {v : DiValue} {s : DbusType} {m : DbusValue} (hs : s ≠ .variant)
    (h : Transmitted v s m) : Transmitted (.variant v) s m := by
  obtain ⟨d, hd, -⟩ := h.decoded
  refine ⟨h.type, h.notObject, d, hd, ?_⟩
  have htype := (dbusDeserializeOne_type hd).2
  rw [reportedType, h.notObject, h.type] at htype
  refine iff_of_false ?_ fun hfaithful => hs hfaithful.1
  rintro ⟨d', rfl, -⟩
  simp only [Bool.false_eq_true, if_false, Decoded.type] at htype
  unfold dbusTypeToDi at htype
  split at htype <;> first | exact hs rfl | cases htype

/-! ## Arrays and tuples -/

theorem fixedElements_cons {e : DiValue} {es : List DiValue} {ds : List DbusValue}
    (h : fixedElements (e :: es) = .ok ds) :
    ∃ d rest, ds = d :: rest ∧ dbusTypeIsFixed d.type = true := by
  unfold fixedElements at h
  obtain ⟨d, hd, h⟩ := bind_eq_ok h
  obtain ⟨rest, -, h⟩ := bind_eq_ok h
  cases h
  refine ⟨d, rest, rfl, ?_⟩
  cases e with
  | nint i | nuint n | int i | uint n | float bits =>
      cases hd
      rfl
  | _ => cases hd

/-- An array of elements of a fixed size is decoded into a pointer. -/
theorem transmitted_fixedArray {t : DiType} {es : List DiValue} {elem : DbusType} {d : DbusValue}
    {ds : List DbusValue} (hfixed : dbusTypeIsFixed d.type = true)
    (helem : dbusTypeIsFixed elem = true) :
    Transmitted (.array t es) (.array elem) (.array elem (d :: ds)) := by
  refine ⟨rfl, rfl, .fixedArray (d :: ds), ?_, ?_⟩
  · rw [dbusDeserializeOne_array, if_pos hfixed]
    rfl
  · simp [helem]

/-- What becomes of the elements of an array. -/
structure TransmittedElements (es : List DiValue) (elem : DbusType) (ms : List DbusValue) :
    Prop where
  types : ∀ m ∈ ms, m.type = elem
  length : ms.length = es.length
  decoded : ∃ ds, dbusDeserializeArray ms = .ok ds ∧
    (SameElements es (dbusTypeToDi elem) ds ↔ FaithfulElements es elem)

/-- What becomes of the elements of a tuple. -/
structure TransmittedFields (es : List DiValue) (fields : List DbusType) (ms : List DbusValue) :
    Prop where
  types : DbusValue.types ms = fields
  decoded : ∃ cells, dbusDeserializeStruct ms = .ok cells ∧
    (SameFields es cells ↔ FaithfulFields es fields)

theorem transmittedElements_cons {e : DiValue} {es : List DiValue} {elem : DbusType} {m : DbusValue}
    {ms : List DbusValue} (h : Transmitted e elem m) (hs : TransmittedElements es elem ms) :
    TransmittedElements (e :: es) elem (m :: ms) := by
  obtain ⟨d, hd, hiff⟩ := h.decoded
  obtain ⟨ds, hds, hiffs⟩ := hs.decoded
  refine ⟨?_, congrArg (· + 1) hs.length, d :: ds, ?_, ?_⟩
  · intro x hx
    rcases List.mem_cons.mp hx with rfl | hx
    · exact h.type
    · exact hs.types x hx
  · unfold dbusDeserializeArray
    rw [hd, hds]
    rfl
  · have htype := (dbusDeserializeOne_type hd).2
    rw [reportedType, h.notObject, h.type] at htype
    simp only [Bool.false_eq_true, if_false] at htype
    simp [htype, hiff, hiffs]

theorem transmittedFields_cons {e : DiValue} {es : List DiValue} {field : DbusType}
    {fields : List DbusType} {m : DbusValue} {ms : List DbusValue} (h : Transmitted e field m)
    (hs : TransmittedFields es fields ms) :
    TransmittedFields (e :: es) (field :: fields) (m :: ms) := by
  obtain ⟨d, hd, hiff⟩ := h.decoded
  obtain ⟨cells, hcells, hiffs⟩ := hs.decoded
  refine ⟨?_, (d.type, d) :: cells, ?_, ?_⟩
  · rw [DbusValue.types, h.type, hs.types]
  · unfold dbusDeserializeStruct
    rw [storeField_ok hd, hcells]
    rfl
  · simp [hiff, hiffs]

/-- An array whose elements are appended one by one. -/
theorem transmitted_array {t : DiType} {es : List DiValue} (hes : es ≠ []) {elem : DbusType}
    {ms : List DbusValue} (h : TransmittedElements es elem ms) :
    Transmitted (.array t es) (.array elem) (.array elem ms) := by
  cases ms with
  | nil => exact absurd (List.length_eq_zero_iff.mp h.length.symm) hes
  | cons m ms =>
      have hm : m.type = elem := h.types m List.mem_cons_self
      cases hfixed : dbusTypeIsFixed elem with
      | true => exact transmitted_fixedArray (hm ▸ hfixed) hfixed
      | false =>
          obtain ⟨ds, hds, hiff⟩ := h.decoded
          refine ⟨rfl, rfl, .array (dbusTypeToDi elem) ds, ?_, ?_⟩
          · have hone : ∃ r, dbusDeserializeOne m = .ok r := by
              obtain ⟨⟨t, d⟩, hd, -⟩ := bind_eq_ok hds
              exact ⟨_, hd⟩
            obtain ⟨r, hr⟩ := hone
            rw [dbusDeserializeOne_array, hm, if_neg (Bool.eq_false_iff.mp hfixed), ← hm,
              diSizeofType_of_decoded hr, hds]
            rfl
          · simp [hfixed, hiff]

/-- An array or a tuple that is appended as a struct. -/
theorem decode_struct {es : List DiValue} {fields : List DbusType} {ms : List DbusValue}
    (h : TransmittedFields es fields ms) :
    ∃ cells, dbusDeserializeOne (.struct ms) = .ok (.tuple, .tuple cells) ∧
      (SameFields es cells ↔ FaithfulFields es fields) := by
  obtain ⟨cells, hcells, hiff⟩ := h.decoded
  refine ⟨cells, ?_, hiff⟩
  show dbusDeserializeStruct ms >>= _ = _
  rw [hcells]
  rfl

theorem transmitted_struct {es : List DiValue} {fields : List DbusType} {ms : List DbusValue}
    (h : TransmittedFields es fields ms) :
    Transmitted (.tuple es) (.struct fields) (.struct ms) := by
  obtain ⟨cells, hcells, hiff⟩ := decode_struct h
  refine ⟨by rw [DbusValue.type, h.types], rfl, .tuple cells, hcells, ?_⟩
  simp [hiff]

/-- An array does not come back from a struct. -/
theorem transmitted_arrayAsStruct {t : DiType} {es : List DiValue} {fields : List DbusType}
    {ms : List DbusValue} (h : TransmittedFields es fields ms) :
    Transmitted (.array t es) (.struct fields) (.struct ms) := by
  obtain ⟨cells, hcells, -⟩ := decode_struct h
  refine ⟨by rw [DbusValue.type, h.types], rfl, .tuple cells, hcells, ?_⟩
  simp

/-! ## Every value -/

/-- What holds without a variant in the signature holds with it. -/
theorem transmitted_of_wrapped {v : DiValue} (hv : ∀ x, v ≠ .variant x)
    {plain : DbusType → Result}
    (hplain : ∀ s m, s ≠ .variant → plain s = .ok (some m) → Transmitted v s m)
    (hsignature : typeSignatureToBuffer v ≠ .ok (some .variant)) {s : DbusType} {m : DbusValue}
    (h : wrapped valid v plain s = .ok (some m)) : Transmitted v s m := by
  cases s with
  | variant =>
      obtain ⟨s, c, hs, hc, rfl⟩ := serializeVariant_eq_ok h
      have hne : s ≠ .variant := by
        rintro rfl
        exact hsignature hs
      exact transmitted_wrapped hv (hplain s c hne hc)
  | basic b | array elem | dict key value | struct fields => exact hplain _ m nofun h

theorem dbusTypeIsFixed_of_basicType {t : DiType} {b : DbusBasic}
    (h : diTypeToDbusBasic t = .ok (some b)) (hb : b ≠ .string) :
    dbusTypeIsFixed (.basic b) = true := by
  unfold diTypeToDbusBasic at h
  split_ifs at h
  have hbasic := Except.ok.inj h
  cases t <;> cases hbasic <;> first | rfl | exact absurd rfl hb

theorem serializeArray_eq_ok {t : DiType} {es : List DiValue} {elem : DbusType}
    {elements : DbusType → Except Trap (Option (List DbusValue))} {m : DbusValue}
    (h : serializeArray valid t es elem elements = .ok (some m)) :
    (dbusTypeIsFixed elem = true ∧ ∃ ds, fixedElements es = .ok ds ∧ m = .array elem ds) ∨
    ∃ ds, elements elem = .ok (some ds) ∧ m = .array elem ds := by
  have hslow : ∀ r : Except Trap (Option (List DbusValue)),
      (do let ds ← r; .ok (ds.map (DbusValue.array elem))) = Except.ok (some m) →
      ∃ ds, r = .ok (some ds) ∧ m = .array elem ds := by
    intro r hr
    obtain ⟨ds, hds, hr⟩ := bind_eq_ok hr
    cases ds with
    | none => cases hr
    | some ds =>
        cases hr
        exact ⟨ds, hds, rfl⟩
  obtain ⟨atype, hatype, h⟩ := bind_eq_ok h
  split_ifs at h
  split at h
  · split_ifs at h with hfast
    · obtain ⟨ds, hds, h⟩ := bind_eq_ok h
      cases h
      refine .inl ⟨?_, ds, hds, rfl⟩
      obtain ⟨hstring, rfl⟩ := hfast
      exact dbusTypeIsFixed_of_basicType hatype hstring
    · exact .inr (hslow _ h)
  · exact .inr (hslow _ h)

theorem serializeStruct_eq_ok {es : List DiValue} {fields : List DbusType}
    {elements : List DbusType → Except Trap (Option (List DbusValue))} {m : DbusValue}
    (h : serializeStruct es fields elements = .ok (some m)) :
    ∃ ds, elements fields = .ok (some ds) ∧ m = .struct ds := by
  unfold serializeStruct at h
  split_ifs at h
  · obtain ⟨ds, hds, h⟩ := bind_eq_ok h
    cases ds with
    | none => cases h
    | some ds =>
        cases h
        exact ⟨ds, hds, rfl⟩
  · cases h

/-- The signature of an array is that of an array. -/
theorem typeSignature_array_ne (t : DiType) (es : List DiValue) :
    typeSignatureToBuffer (.array t es) ≠ .ok (some .variant) := by
  intro h
  cases es with
  | nil => cases h
  | cons e es =>
      unfold typeSignatureToBuffer at h
      obtain ⟨elem, -, h⟩ := bind_eq_ok h
      cases elem with
      | none => cases h
      | some elem =>
          obtain ⟨ok, -, h⟩ := bind_eq_ok h
          cases ok <;> cases h

theorem typeSignature_tuple_ne (es : List DiValue) :
    typeSignatureToBuffer (.tuple es) ≠ .ok (some .variant) := by
  intro h
  unfold typeSignatureToBuffer at h
  obtain ⟨fields, -, h⟩ := bind_eq_ok h
  cases fields <;> cases h

/-- A value that has neither elements nor a content. -/
theorem transmitted_plain {v : DiValue} (hv : ∀ x, v ≠ .variant x)
    (hsignature : typeSignatureToBuffer v ≠ .ok (some .variant)) {s : DbusType} {m : DbusValue}
    (h : wrapped valid v (fun
        | .basic b => dbusSerializeBasicWithType v b
        | .struct _ => .error .brokenContainer
        | _ => .ok none) s = .ok (some m)) : Transmitted v s m := by
  refine transmitted_of_wrapped hv ?_ hsignature h
  intro s m hs h
  cases s with
  | basic b => exact transmitted_basic h
  | variant | array elem | dict key value | struct fields => cases h

mutual
/-- Every value that is appended comes back, and it is the same if and only if it is faithful. -/
theorem transmitted (v : DiValue) (hv : Sendable v) (s : DbusType) (m : DbusValue)
    (h : dbusSerializeWithSignature valid v s = .ok (some m)) : Transmitted v s m := by
  cases v with
  | nil | emptyObject o | pointer p | object o | weakObject o | stringLiteral x => exact hv.elim
  | bool b | nint i | nuint n | int i | uint n | float bits | string x =>
      unfold dbusSerializeWithSignature at h
      refine transmitted_plain ?_ ?_ h
      · exact nofun
      · exact nofun
  | variant v =>
      unfold dbusSerializeWithSignature at h
      cases s with
      | basic b => exact transmitted_basic h
      | variant =>
          obtain ⟨s, c, hs, hc, rfl⟩ := serializeVariant_eq_ok h
          exact transmitted_variant hs (transmitted v hv s c hc)
      | array elem | dict key value | struct fields =>
          exact transmitted_unwrapped nofun (transmitted v hv _ m h)
  | array t es =>
      unfold dbusSerializeWithSignature at h
      refine transmitted_of_wrapped ?_ ?_ (typeSignature_array_ne t es) h
      · exact nofun
      intro s m hs h
      cases s with
      | basic b => exact transmitted_basic h
      | variant | dict key value => cases h
      | struct fields =>
          obtain ⟨ms, hms, rfl⟩ := serializeStruct_eq_ok h
          exact transmitted_arrayAsStruct
            (transmitted_fields es (sendableFields_of_elements hv.2) fields ms hms)
      | array elem =>
          rcases serializeArray_eq_ok h with ⟨hfixed, ds, hds, rfl⟩ | ⟨ms, hms, rfl⟩
          · obtain ⟨e, es, rfl⟩ := List.exists_cons_of_ne_nil hv.1
            obtain ⟨d, rest, rfl, hd⟩ := fixedElements_cons hds
            exact transmitted_fixedArray hd hfixed
          · exact transmitted_array hv.1
              (transmitted_elements es (sendableFields_of_elements hv.2) elem ms hms)
  | tuple es =>
      unfold dbusSerializeWithSignature at h
      refine transmitted_of_wrapped ?_ ?_ (typeSignature_tuple_ne es) h
      · exact nofun
      intro s m hs h
      cases s with
      | basic b => exact transmitted_basic h
      | variant | dict key value | array elem => cases h
      | struct fields =>
          obtain ⟨ms, hms, rfl⟩ := serializeStruct_eq_ok h
          exact transmitted_struct (transmitted_fields es hv fields ms hms)

theorem transmitted_elements (es : List DiValue) (hes : SendableFields es) (elem : DbusType)
    (ms : List DbusValue) (h : serializeElements valid es elem = .ok (some ms)) :
    TransmittedElements es elem ms := by
  match es with
  | [] =>
      cases h
      exact ⟨nofun, rfl, [], rfl, by simp⟩
  | e :: es =>
      unfold serializeElements at h
      obtain ⟨d, hd, h⟩ := bind_eq_ok h
      cases d with
      | none => cases h
      | some d =>
          obtain ⟨ds, hds, h⟩ := bind_eq_ok h
          cases ds with
          | none => cases h
          | some ds =>
              cases h
              exact transmittedElements_cons (transmitted e hes.1 elem d hd)
                (transmitted_elements es hes.2 elem ds hds)

theorem transmitted_fields (es : List DiValue) (hes : SendableFields es) (fields : List DbusType)
    (ms : List DbusValue) (h : serializeFields valid es fields = .ok (some ms)) :
    TransmittedFields es fields ms := by
  match es, fields with
  | [], [] =>
      cases h
      exact ⟨rfl, [], rfl, by simp⟩
  | [], field :: fields => cases h
  | e :: es, [] => cases h
  | e :: es, field :: fields =>
      unfold serializeFields at h
      obtain ⟨d, hd, h⟩ := bind_eq_ok h
      cases d with
      | none => cases h
      | some d =>
          obtain ⟨ds, hds, h⟩ := bind_eq_ok h
          cases ds with
          | none => cases h
          | some ds =>
              cases h
              exact transmittedFields_cons (transmitted e hes.1 field d hd)
                (transmitted_fields es hes.2 fields ds hds)
end

/-- The message is decoded into the tuple that was encoded. -/
def RoundTrips (es : List DiValue) (body : List DbusValue) : Prop :=
  ∃ cells, dbusDeserializeStruct body = .ok cells ∧ SameFields es cells

/-- Every element of the tuple is faithful to its own signature. -/
def FaithfulTuple (es : List DiValue) : Prop :=
  ∃ fields, typeSignaturesToBuffer 0 es = .ok (some fields) ∧ FaithfulFields es fields

theorem dbusSerializeStruct_eq_ok {es : List DiValue} {body : List DbusValue}
    (h : dbusSerializeStruct valid es = .ok (some body)) :
    ∃ fields, typeSignaturesToBuffer 0 es = .ok (some fields) ∧
      serializeFields valid es fields = .ok (some body) := by
  obtain ⟨r, hr, h⟩ := bind_eq_ok h
  match r, h with
  | some (.struct fields, terminated), h =>
      refine ⟨fields, ?_, h⟩
      have ht := toBuffer_of_typeSignature hr
      unfold typeSignatureToBuffer at ht
      obtain ⟨ts, hts, ht⟩ := bind_eq_ok ht
      cases ts with
      | none => cases ht
      | some ts =>
          cases ht
          exact hts

/-- A tuple that is encoded comes back the same if and only if all its elements are faithful. -/
theorem round_trip_iff_faithful {es : List DiValue} (hes : SendableFields es)
    {body : List DbusValue} (h : dbusSerializeStruct valid es = .ok (some body)) :
    RoundTrips es body ↔ FaithfulTuple es := by
  obtain ⟨fields, hfields, hbody⟩ := dbusSerializeStruct_eq_ok h
  obtain ⟨cells, hcells, hiff⟩ := (transmitted_fields es hes fields body hbody).decoded
  constructor
  · rintro ⟨cells', hcells', hsame⟩
    rw [hcells] at hcells'
    cases hcells'
    exact ⟨fields, hfields, hiff.mp hsame⟩
  · rintro ⟨fields', hfields', hfaithful⟩
    rw [hfields] at hfields'
    cases hfields'
    exact ⟨cells, hcells, hiff.mpr hfaithful⟩

/-- A string, an array of strings, and a variant with a tuple in it. -/
theorem round_trip_strings :
    ∃ body, dbusSerializeStruct (fun _ => true) [.string "a", .array .string [.string "b"],
        .variant (.tuple [.nint 3])] = .ok (some body) ∧
      RoundTrips [.string "a", .array .string [.string "b"], .variant (.tuple [.nint 3])] body := by
  have hbody : dbusSerializeStruct (fun _ => true) [.string "a", .array .string [.string "b"],
      .variant (.tuple [.nint 3])] = .ok (some [.string "a", .array (.basic .string) [.string "b"],
        .variant (.struct [.integer .int32 3])]) := rfl
  refine ⟨_, hbody, (round_trip_iff_faithful ?_ hbody).mpr ?_⟩
  · exact ⟨trivial, ⟨nofun, rfl, trivial, trivial⟩, ⟨trivial, trivial⟩, trivial⟩
  · refine ⟨[.basic .string, .array (.basic .string), .variant], rfl, ?_⟩
    have hthree : FaithfulInteger 3 (.basic (.integer .int32)) :=
      ⟨.int32, rfl, by decide, by decide, toDouble_of_natAbs_lt (by decide)⟩
    refine ⟨_, _, rfl, ⟨.inl rfl, by decide⟩, _, _, rfl, ?_, _, _, rfl, ?_, rfl⟩
    · exact ⟨_, rfl, rfl, ⟨.inl rfl, by decide⟩, trivial⟩
    · exact ⟨rfl, _, rfl, _, rfl, _, _, rfl, hthree, rfl⟩

/-- An array of integers, an integer that is not a double, and a string with a null character. -/
theorem round_trip_fails :
    (∃ body, dbusSerializeStruct (fun _ => true) [.array .int [.int 1, .int 2]] = .ok (some body) ∧
      ¬ RoundTrips [.array .int [.int 1, .int 2]] body) ∧
    (∃ body, dbusSerializeStruct (fun _ => true) [.int 9007199254740993] = .ok (some body) ∧
      ¬ RoundTrips [.int 9007199254740993] body) ∧
    (∃ body, dbusSerializeStruct (fun _ => true) [.string (String.ofList ['a', Char.ofNat 0, 'b'])] =
        .ok (some body) ∧
      ¬ RoundTrips [.string (String.ofList ['a', Char.ofNat 0, 'b'])] body) := by
  refine ⟨⟨[.array (.basic (.integer .int64)) [.integer .int64 1, .integer .int64 2]], rfl, ?_⟩,
    ⟨[.integer .int64 9007199254740992], rfl, ?_⟩, ⟨[.string "a"], rfl, ?_⟩⟩
  · rintro ⟨cells, h, hsame⟩
    cases h
    obtain ⟨d, rest, hcells, ⟨t, ds, hd, -⟩, -⟩ := hsame
    injection hcells with hcell
    injection hcell with _ hd'
    rw [hd] at hd'
    cases hd'
  · rintro ⟨cells, h, hsame⟩
    cases h
    obtain ⟨d, rest, hcells, hd, -⟩ := hsame
    injection hcells with hcell
    injection hcell with _ hd'
    rw [← hd'] at hd
    change (Int64.ofInt 9007199254740992).toInt = (9007199254740993 : Int64).toInt at hd
    revert hd
    decide
  · rintro ⟨cells, h, hsame⟩
    cases h
    obtain ⟨d, rest, hcells, hd, -⟩ := hsame
    injection hcells with hcell
    injection hcell with _ hd'
    rw [← hd'] at hd
    injection hd with hd
    revert hd
    decide

end Deai.DbusRoundTrip
