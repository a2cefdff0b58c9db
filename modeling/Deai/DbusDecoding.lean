import Deai.DbusMessage
import Deai.Fallible

/-!
# Decoding D-Bus messages

The decoder of `sedes.c`. A tag is stored before the value that it belongs to is decoded, and it
is made out of the D-Bus type alone. The decoder can come to another type: a dictionary becomes
an object, and its D-Bus type is that of an array. Hence a decoded value here has the tag and
the value side by side.
-/
namespace Deai.DbusDecoding
open Fallible Value Numbers DbusMessage

/-- What the decoder leaves in memory. A tuple is an array of `struct di_variant`, each with a tag
and a value. An array of fixed size elements points into the message, and nothing is written to
its `elem_type`. An entry of a dictionary whose key is taken is refused by the object, and its
value is freed. -/
inductive Decoded where
  | bool (b : Bool)
  | int (i : Int64)
  | uint (n : UInt64)
  | float (bits : UInt64)
  | string (s : String)
  | array (elemType : DiType) (elems : List Decoded)
  | fixedArray (elems : List DbusValue)
  | tuple (cells : List (DiType × Decoded))
  | variant (tag : DiType) (v : Decoded)
  | object (members : List (String × DiType × Decoded)) (refused : List (DiType × Decoded))

namespace Decoded

def type : Decoded → DiType
  | .bool _ => .bool
  | .int _ => .int
  | .uint _ => .uint
  | .float _ => .float
  | .string _ => .string
  | .array _ _ => .array
  | .fixedArray _ => .array
  | .tuple _ => .tuple
  | .variant _ _ => .variant
  | .object _ _ => .object

mutual
/-- Every tag is the type of the value stored with it, and every `elem_type` is written. -/
def WellTagged : Decoded → Prop
  | .array elemType elems => WellTaggedElements elemType elems
  | .fixedArray _ => False
  | .tuple cells => WellTaggedCells cells
  | .variant tag v => tag = v.type ∧ v.WellTagged
  | .object members refused => WellTaggedMembers members ∧ WellTaggedCells refused
  | _ => True

def WellTaggedElements (elemType : DiType) : List Decoded → Prop
  | [] => True
  | d :: ds => elemType = d.type ∧ d.WellTagged ∧ WellTaggedElements elemType ds

def WellTaggedCells : List (DiType × Decoded) → Prop
  | [] => True
  | (tag, d) :: cells => tag = d.type ∧ d.WellTagged ∧ WellTaggedCells cells

def WellTaggedMembers : List (String × DiType × Decoded) → Prop
  | [] => True
  | (_, tag, d) :: members => tag = d.type ∧ d.WellTagged ∧ WellTaggedMembers members
end

end Decoded

/-- The ways the decoder and `dbus_filter` fail: a call of `abort`, an assertion, a read of an
element that is not there or is something else than the string that is read, and `strcmp` of a
null pointer. -/
inductive Fault where
  | abort
  | assertion
  | badRead
  | nullString
  deriving DecidableEq

/-! ## The decoder -/

/-- `dbus_type_is_fixed` -/
def dbusTypeIsFixed : DbusType → Bool
  | .basic .byte | .basic .boolean | .basic .double | .basic (.integer _) => true
  | _ => false

def dbusTypeToDi : DbusType → DiType
  | .basic .boolean => .bool
  | .basic (.integer .int16) | .basic (.integer .int32) | .basic (.integer .int64) => .int
  | .basic (.integer .uint16) | .basic (.integer .uint32) | .basic (.integer .uint64) => .uint
  | .basic .double => .float
  | .basic .string | .basic .objectPath => .string
  | .basic (.integer .unixFd) => .int
  | .array _ | .dict _ _ => .array
  | .struct _ => .tuple
  | .variant => .variant
  | .basic .byte | .basic .signature => .lastType

/-- `di_sizeof_type`, which aborts for `DI_LAST_TYPE`. -/
def diSizeofType (t : DiType) : Except Fault Unit :=
  if t = .any ∨ t = .lastType then .error .abort else .ok ()

def decodeInteger (t : DbusInteger) (x : ℤ) : Decoded :=
  match t with
  | .int16 | .int32 | .int64 | .unixFd => .int (Int64.ofInt x)
  | .uint16 | .uint32 | .uint64 => .uint (UInt64.ofInt x)

/-- The next element of a tuple: its tag and the memory for it, then the value. The tag of a
dictionary is corrected afterwards. -/
def storeField (t : DbusType) (one : Except Fault (DiType × Decoded)) :
    Except Fault (DiType × Decoded) := do
  let tag := dbusTypeToDi t
  diSizeofType tag
  let (rtype, d) ← one
  let tag := if rtype = .object ∧ tag = .array then rtype else tag
  if rtype = tag then .ok (tag, d) else .error .assertion

/-- The content of a variant. -/
def storeVariant (t : DbusType) (one : Except Fault (DiType × Decoded)) :
    Except Fault (DiType × Decoded) := do
  let tag := dbusTypeToDi t
  diSizeofType tag
  let (type, d) ← one
  if type = tag then .ok (.variant, .variant tag d) else .error .assertion

/-- The members of the object that a dictionary becomes, and the values it refused. -/
structure Entries where
  members : List (String × DiType × Decoded)
  refused : List (DiType × Decoded)

def Entries.WellTagged (e : Entries) : Prop :=
  Decoded.WellTaggedMembers e.members ∧ Decoded.WellTaggedCells e.refused

/-- `di_add_member_move` -/
def diAddMemberMove (e : Entries) (name : String) (value : DiType × Decoded) : Entries :=
  if e.members.any (fun m => m.1 = name) then { e with refused := e.refused ++ [value] }
  else { e with members := e.members ++ [(name, value)] }

/-- One entry of a dictionary: `dbus_deserialize_struct`, and the member that is made out of the
two elements. -/
def storeEntry (e : Entries) (key value : Except Fault (DiType × Decoded)) :
    Except Fault Entries := do
  let k ← key
  let v ← value
  match k with
  | (.string, .string name) => .ok (diAddMemberMove e name v)
  | _ => .error .assertion

mutual
/-- `dbus_deserialize_one`: the type that is reported, and the value. -/
def dbusDeserializeOne : DbusValue → Except Fault (DiType × Decoded)
  | .byte _ => .error .assertion
  | .boolean b => .ok (.bool, .bool b)
  | .integer t x => .ok ((decodeInteger t x).type, decodeInteger t x)
  | .double bits => .ok (.float, .float bits)
  | .string s => .ok (.string, .string s)
  | .objectPath s => .ok (.string, .string s)
  | .signature _ => .error .assertion
  | .variant v => storeVariant v.type (dbusDeserializeOne v)
  | .array _ [] => .ok (.array, .array .any [])
  | .array _ (v :: vs) =>
      if dbusTypeIsFixed v.type then .ok (.array, .fixedArray (v :: vs))
      else do
        diSizeofType (dbusTypeToDi v.type)
        let elems ← dbusDeserializeArray (v :: vs)
        .ok (.array, .array (dbusTypeToDi v.type) elems)
  | .dict _ _ [] => .ok (.array, .array .any [])
  | .dict _ _ ((k, v) :: entries) =>
      match k.type with
      | .basic .string => do
          let e ← dbusDeserializeDict ⟨[], []⟩ ((k, v) :: entries)
          .ok (.object, .object e.members e.refused)
      -- an array whose elements are dictionary entries, which have no type here
      | _ => .error .abort
  | .struct fields => do
      let cells ← dbusDeserializeStruct fields
      .ok (.tuple, .tuple cells)

def dbusDeserializeArray : List DbusValue → Except Fault (List Decoded)
  | [] => .ok []
  | v :: vs => do
      let (_, d) ← dbusDeserializeOne v
      let ds ← dbusDeserializeArray vs
      .ok (d :: ds)

def dbusDeserializeDict (e : Entries) : List (DbusValue × DbusValue) → Except Fault Entries
  | [] => .ok e
  | (k, v) :: entries => do
      let e ← storeEntry e (storeField k.type (dbusDeserializeOne k))
        (storeField v.type (dbusDeserializeOne v))
      dbusDeserializeDict e entries

def dbusDeserializeStruct : List DbusValue → Except Fault (List (DiType × Decoded))
  | [] => .ok []
  | v :: vs => do
      let cell ← storeField v.type (dbusDeserializeOne v)
      let cells ← dbusDeserializeStruct vs
      .ok (cell :: cells)
end

/-! ## What the decoder supports -/

/-- A dictionary that is decoded as an object. -/
def isObject : DbusValue → Bool
  | .dict _ _ ((k, _) :: _) =>
      match k.type with
      | .basic .string => true
      | _ => false
  | _ => false

mutual
/-- The values that are decoded as they should be. -/
def Supported : DbusValue → Prop
  | .byte _ => False
  | .signature _ => False
  | .variant v => isObject v = false ∧ Supported v
  | .array _ elems => SupportedElements elems
  | .dict _ _ entries => SupportedEntries entries
  | .struct fields => SupportedFields fields
  | _ => True

def SupportedElements : List DbusValue → Prop
  | [] => True
  | v :: vs =>
      dbusTypeIsFixed v.type = false ∧ isObject v = false ∧ Supported v ∧ SupportedElements vs

def SupportedEntries : List (DbusValue × DbusValue) → Prop
  | [] => True
  | (k, v) :: entries => k.type = .basic .string ∧ Supported v ∧ SupportedEntries entries

def SupportedFields : List DbusValue → Prop
  | [] => True
  | v :: vs => Supported v ∧ SupportedFields vs
end

/-- The type that is reported for a value. -/
def reportedType (v : DbusValue) : DiType :=
  if isObject v then .object else dbusTypeToDi v.type

/-- A field that is stored is what was decoded. -/
theorem storeField_eq_ok {t : DbusType} {one : Except Fault (DiType × Decoded)}
    {cell : DiType × Decoded} (h : storeField t one = .ok cell) : one = .ok cell := by
  unfold storeField at h
  obtain ⟨-, -, h⟩ := bind_eq_ok h
  obtain ⟨⟨rtype, d⟩, hone, h⟩ := bind_eq_ok h
  dsimp only at h
  split_ifs at h with hobject htag htag
  · cases h
    exact hone
  · cases h
    rw [hone, htag]

theorem storeVariant_eq_ok {t : DbusType} {one : Except Fault (DiType × Decoded)}
    {r : DiType × Decoded} (h : storeVariant t one = .ok r) :
    ∃ d, one = .ok (dbusTypeToDi t, d) ∧ r = (.variant, .variant (dbusTypeToDi t) d) := by
  unfold storeVariant at h
  obtain ⟨-, -, h⟩ := bind_eq_ok h
  obtain ⟨⟨type, d⟩, hone, h⟩ := bind_eq_ok h
  dsimp only at h
  split_ifs at h with htag
  cases h
  exact ⟨d, htag ▸ hone, rfl⟩

theorem dbusTypeToDi_ne_object (t : DbusType) : dbusTypeToDi t ≠ .object := by
  unfold dbusTypeToDi
  split <;> exact nofun

theorem decodeInteger_type (t : DbusInteger) (x : ℤ) :
    (decodeInteger t x).type = dbusTypeToDi (.basic (.integer t)) := by
  cases t <;> rfl

theorem dbusDeserializeOne_array (elem : DbusType) (v : DbusValue) (vs : List DbusValue) :
    dbusDeserializeOne (.array elem (v :: vs)) =
      if dbusTypeIsFixed v.type then .ok (.array, .fixedArray (v :: vs))
      else diSizeofType (dbusTypeToDi v.type) >>= fun _ => dbusDeserializeArray (v :: vs) >>=
        fun elems => .ok (.array, .array (dbusTypeToDi v.type) elems) := rfl

/-- A dictionary that is decoded has strings for keys. -/
theorem dbusDeserializeOne_dict_eq_ok {key : DbusBasic} {value : DbusType} {k v : DbusValue}
    {entries : List (DbusValue × DbusValue)} {r : DiType × Decoded}
    (h : dbusDeserializeOne (.dict key value ((k, v) :: entries)) = .ok r) :
    k.type = .basic .string ∧ ∃ e, dbusDeserializeDict ⟨[], []⟩ ((k, v) :: entries) = .ok e ∧
      r = (.object, .object e.members e.refused) := by
  unfold dbusDeserializeOne at h
  split at h
  · rename_i hkey
    obtain ⟨e, he, h⟩ := bind_eq_ok h
    cases h
    exact ⟨hkey, e, he, rfl⟩
  · cases h

/-- The type that is reported is that of the value. -/
theorem dbusDeserializeOne_type {v : DbusValue} {t : DiType} {d : Decoded}
    (h : dbusDeserializeOne v = .ok (t, d)) : t = d.type ∧ t = reportedType v := by
  cases v with
  | byte n => cases h
  | signature s => cases h
  | boolean b | double bits | string s | objectPath s =>
      cases h
      exact ⟨rfl, rfl⟩
  | integer it x =>
      cases h
      exact ⟨rfl, decodeInteger_type it x⟩
  | variant v =>
      obtain ⟨d, -, hr⟩ := storeVariant_eq_ok h
      cases hr
      exact ⟨rfl, rfl⟩
  | array elem elems =>
      match elems with
      | [] =>
          cases h
          exact ⟨rfl, rfl⟩
      | v :: vs =>
          rw [dbusDeserializeOne_array] at h
          split_ifs at h with hfixed
          · cases h
            exact ⟨rfl, rfl⟩
          · obtain ⟨-, -, h⟩ := bind_eq_ok h
            obtain ⟨ds, -, h⟩ := bind_eq_ok h
            cases h
            exact ⟨rfl, rfl⟩
  | dict key value entries =>
      match entries with
      | [] =>
          cases h
          exact ⟨rfl, rfl⟩
      | (k, v) :: entries =>
          obtain ⟨hkey, e, -, hr⟩ := dbusDeserializeOne_dict_eq_ok h
          cases hr
          simp [reportedType, isObject, hkey, Decoded.type]
  | struct fields =>
      obtain ⟨cells, -, h⟩ := bind_eq_ok h
      cases h
      exact ⟨rfl, rfl⟩

/-! ## One field -/

/-- There is a size for the type of what is decoded. -/
theorem diSizeofType_of_decoded {v : DbusValue} {r : DiType × Decoded}
    (h : dbusDeserializeOne v = .ok r) : diSizeofType (dbusTypeToDi v.type) = .ok () := by
  cases v with
  | byte n | signature s => cases h
  | integer t x => cases t <;> rfl
  | _ => rfl

theorem isObject_type {v : DbusValue} (h : isObject v = true) : dbusTypeToDi v.type = .array := by
  cases v with
  | dict key value entries => rfl
  | _ => cases h

theorem storeField_ok {v : DbusValue} {t : DiType} {d : Decoded}
    (h : dbusDeserializeOne v = .ok (t, d)) :
    storeField v.type (dbusDeserializeOne v) = .ok (t, d) := by
  have ht := (dbusDeserializeOne_type h).2
  unfold storeField
  dsimp only
  rw [diSizeofType_of_decoded h, h]
  cases hobject : isObject v with
  | true => simp [ht, reportedType, hobject, isObject_type hobject, bind, Except.bind]
  | false => simp [ht, reportedType, hobject, bind, Except.bind, dbusTypeToDi_ne_object]

theorem storeVariant_ok {v : DbusValue} {t : DiType} {d : Decoded} (hobject : isObject v = false)
    (h : dbusDeserializeOne v = .ok (t, d)) :
    storeVariant v.type (dbusDeserializeOne v) = .ok (.variant, .variant t d) := by
  have ht := (dbusDeserializeOne_type h).2
  unfold storeVariant
  dsimp only
  rw [diSizeofType_of_decoded h, h]
  simp [ht, reportedType, hobject, bind, Except.bind]

theorem wellTaggedCells_append (xs ys : List (DiType × Decoded)) :
    Decoded.WellTaggedCells (xs ++ ys) ↔
      Decoded.WellTaggedCells xs ∧ Decoded.WellTaggedCells ys := by
  induction xs with
  | nil => simp [Decoded.WellTaggedCells]
  | cons x xs ih => simp [Decoded.WellTaggedCells, ih, and_assoc]

theorem wellTaggedMembers_append (xs ys : List (String × DiType × Decoded)) :
    Decoded.WellTaggedMembers (xs ++ ys) ↔
      Decoded.WellTaggedMembers xs ∧ Decoded.WellTaggedMembers ys := by
  induction xs with
  | nil => simp [Decoded.WellTaggedMembers]
  | cons x xs ih => simp [Decoded.WellTaggedMembers, ih, and_assoc]

theorem wellTagged_diAddMemberMove (e : Entries) (name : String) (t : DiType) (d : Decoded) :
    (diAddMemberMove e name (t, d)).WellTagged ↔ e.WellTagged ∧ t = d.type ∧ d.WellTagged := by
  unfold diAddMemberMove Entries.WellTagged
  split_ifs
  · rw [wellTaggedCells_append]
    simp [Decoded.WellTaggedCells, and_assoc]
  · rw [wellTaggedMembers_append]
    simp only [Decoded.WellTaggedMembers, and_true]
    tauto

/-- A key is a string, so it can be the name of a member. -/
theorem storeEntry_key {e : Entries} {k : DbusValue} (hk : k.type = .basic .string) :
    ∃ name, ∀ value, storeEntry e (storeField k.type (dbusDeserializeOne k)) value =
      value.map (diAddMemberMove e name) := by
  cases k with
  | string s =>
      refine ⟨s, fun value => ?_⟩
      cases value <;> rfl
  | _ => cases hk

/-! ## The whole body -/

mutual
/-- A supported value is decoded, and every tag in the result is right. -/
theorem decode_of_supported (v : DbusValue) (hwf : v.WellFormed) (hs : Supported v) :
    ∃ d, dbusDeserializeOne v = .ok (reportedType v, d) ∧ d.WellTagged := by
  cases v with
  | byte n | signature s => exact hs.elim
  | boolean b => exact ⟨.bool b, rfl, trivial⟩
  | integer t x =>
      refine ⟨decodeInteger t x, ?_, ?_⟩
      · exact congrArg (fun ty => Except.ok (ty, decodeInteger t x)) (decodeInteger_type t x)
      · cases t <;> trivial
  | double bits => exact ⟨.float bits, rfl, trivial⟩
  | string s => exact ⟨.string s, rfl, trivial⟩
  | objectPath s => exact ⟨.string s, rfl, trivial⟩
  | variant v =>
      obtain ⟨d, hd, htagged⟩ := decode_of_supported v hwf hs.2
      exact ⟨.variant (reportedType v) d, storeVariant_ok hs.1 hd,
        (dbusDeserializeOne_type hd).1, htagged⟩
  | array elem elems =>
      match elems, hwf, hs with
      | [], _, _ => exact ⟨.array .any [], rfl, trivial⟩
      | v :: vs, hwf, hs =>
          obtain ⟨ds, hds, htagged⟩ := decode_elements elem (v :: vs) hwf hs
          have hone : ∃ r, dbusDeserializeOne v = .ok r := by
            obtain ⟨⟨t, d⟩, hd, -⟩ := bind_eq_ok hds
            exact ⟨_, hd⟩
          obtain ⟨r, hr⟩ := hone
          refine ⟨.array (dbusTypeToDi v.type) ds, ?_, ?_⟩
          · rw [dbusDeserializeOne_array, if_neg (Bool.eq_false_iff.mp hs.1),
              diSizeofType_of_decoded hr, hds]
            rfl
          · rw [hwf.1]
            exact htagged
  | dict key value entries =>
      match entries, hwf, hs with
      | [], _, _ => exact ⟨.array .any [], rfl, trivial⟩
      | (k, v) :: entries, hwf, hs =>
          obtain ⟨e, he, htagged⟩ :=
            decode_entries key value ((k, v) :: entries) ⟨[], []⟩ hwf hs ⟨trivial, trivial⟩
          refine ⟨.object e.members e.refused, ?_, htagged⟩
          have hkey : k.type = .basic .string := hs.1
          simp only [dbusDeserializeOne, hkey, he, reportedType, isObject]
          rfl
  | struct fields =>
      obtain ⟨cells, hcells, htagged⟩ := decode_fields fields hwf hs
      refine ⟨.tuple cells, ?_, htagged⟩
      show dbusDeserializeStruct fields >>= _ = _
      rw [hcells]
      rfl

theorem decode_elements (elem : DbusType) (vs : List DbusValue) (hwf : DbusValue.WellFormedElements elem vs)
    (hs : SupportedElements vs) :
    ∃ ds, dbusDeserializeArray vs = .ok ds ∧ Decoded.WellTaggedElements (dbusTypeToDi elem) ds := by
  match vs, hwf, hs with
  | [], _, _ => exact ⟨[], rfl, trivial⟩
  | v :: vs, ⟨helem, hv, hvs⟩, ⟨_, hobject, hsv, hsvs⟩ =>
      obtain ⟨d, hd, htagged⟩ := decode_of_supported v hv hsv
      obtain ⟨ds, hds, hrest⟩ := decode_elements elem vs hvs hsvs
      refine ⟨d :: ds, ?_, ?_, htagged, hrest⟩
      · unfold dbusDeserializeArray
        rw [hd, hds]
        rfl
      · have htype := (dbusDeserializeOne_type hd).1
        simpa only [reportedType, hobject, Bool.false_eq_true, if_false, helem] using htype

theorem decode_entries (key : DbusBasic) (value : DbusType) (entries : List (DbusValue × DbusValue))
    (e : Entries) (hwf : DbusValue.WellFormedEntries key value entries) (hs : SupportedEntries entries)
    (he : e.WellTagged) :
    ∃ e', dbusDeserializeDict e entries = .ok e' ∧ e'.WellTagged := by
  match entries, hwf, hs with
  | [], _, _ => exact ⟨e, rfl, he⟩
  | (k, v) :: entries, ⟨_, _, _, hv, hrest⟩, ⟨hkey, hsv, hsrest⟩ =>
      obtain ⟨d, hd, htagged⟩ := decode_of_supported v hv hsv
      obtain ⟨name, hname⟩ := storeEntry_key (e := e) hkey
      have hadd : (diAddMemberMove e name (reportedType v, d)).WellTagged :=
        (wellTagged_diAddMemberMove e name _ d).mpr ⟨he, (dbusDeserializeOne_type hd).1, htagged⟩
      obtain ⟨e', he', hfinal⟩ := decode_entries key value entries _ hrest hsrest hadd
      refine ⟨e', ?_, hfinal⟩
      unfold dbusDeserializeDict
      rw [hname, storeField_ok hd]
      exact he'

theorem decode_fields (vs : List DbusValue) (hwf : DbusValue.WellFormedFields vs) (hs : SupportedFields vs) :
    ∃ cells, dbusDeserializeStruct vs = .ok cells ∧ Decoded.WellTaggedCells cells := by
  match vs, hwf, hs with
  | [], _, _ => exact ⟨[], rfl, trivial⟩
  | v :: vs, ⟨hv, hvs⟩, ⟨hsv, hsvs⟩ =>
      obtain ⟨d, hd, htagged⟩ := decode_of_supported v hv hsv
      obtain ⟨cells, hcells, hrest⟩ := decode_fields vs hvs hsvs
      refine ⟨(reportedType v, d) :: cells, ?_, (dbusDeserializeOne_type hd).1, htagged, hrest⟩
      unfold dbusDeserializeStruct
      rw [storeField_ok hd, hcells]
      rfl
end

mutual
/-- A value that is decoded with the right tags everywhere is a supported one. -/
theorem supported_of_decode (v : DbusValue) (hwf : v.WellFormed) {t : DiType} {d : Decoded}
    (h : dbusDeserializeOne v = .ok (t, d)) (hd : d.WellTagged) : Supported v := by
  cases v with
  | byte n | signature s => cases h
  | boolean b | integer it x | double bits | string s | objectPath s => trivial
  | variant v =>
      obtain ⟨d', hd', hr⟩ := storeVariant_eq_ok h
      cases hr
      refine ⟨?_, supported_of_decode v hwf hd' hd.2⟩
      have htype := (dbusDeserializeOne_type hd').2
      by_contra hobject
      rw [reportedType, if_pos (eq_true_of_ne_false hobject)] at htype
      exact dbusTypeToDi_ne_object _ htype
  | array elem elems =>
      match elems, hwf, h with
      | [], _, _ => trivial
      | v :: vs, hwf, h =>
          rw [dbusDeserializeOne_array] at h
          split_ifs at h with hfixed
          · cases h
            exact hd.elim
          · obtain ⟨-, -, h⟩ := bind_eq_ok h
            obtain ⟨ds, hds, h⟩ := bind_eq_ok h
            cases h
            have helem : v.type = elem := hwf.1
            rw [helem] at hfixed
            have htagged : Decoded.WellTaggedElements (dbusTypeToDi elem) ds := by
              rw [← helem]
              exact hd
            exact supported_elements elem (v :: vs) hwf (eq_false_of_ne_true hfixed) hds htagged
  | dict key value entries =>
      match entries, hwf, h with
      | [], _, _ => trivial
      | (k, v) :: entries, hwf, h =>
          obtain ⟨hkey, e, he, hr⟩ := dbusDeserializeOne_dict_eq_ok h
          cases hr
          have hstring : key = .string := by
            have hsame := hwf.1
            rw [hkey] at hsame
            injection hsame with heq
            exact heq.symm
          subst hstring
          exact (supported_entries value ((k, v) :: entries) _ hwf he hd).2
  | struct fields =>
      obtain ⟨cells, hcells, h⟩ := bind_eq_ok h
      cases h
      exact supported_fields fields hwf hcells hd

theorem supported_elements (elem : DbusType) (vs : List DbusValue)
    (hwf : DbusValue.WellFormedElements elem vs) (hfixed : dbusTypeIsFixed elem = false)
    {ds : List Decoded} (h : dbusDeserializeArray vs = .ok ds)
    (hds : Decoded.WellTaggedElements (dbusTypeToDi elem) ds) : SupportedElements vs := by
  match vs, hwf with
  | [], _ => trivial
  | v :: vs, ⟨helem, hv, hvs⟩ =>
      unfold dbusDeserializeArray at h
      obtain ⟨⟨t, d⟩, hone, h⟩ := bind_eq_ok h
      obtain ⟨ds', hrest, h⟩ := bind_eq_ok h
      cases h
      obtain ⟨htag, hd, hds'⟩ := hds
      refine ⟨by rw [helem]; exact hfixed, ?_, supported_of_decode v hv hone hd,
        supported_elements elem vs hvs hfixed hrest hds'⟩
      by_contra hobject
      have htype := dbusDeserializeOne_type hone
      rw [reportedType, if_pos (eq_true_of_ne_false hobject)] at htype
      exact dbusTypeToDi_ne_object elem (htag.trans (htype.1.symm.trans htype.2))

/-- The members that are there before the entries are kept. -/
theorem supported_entries (value : DbusType) (entries : List (DbusValue × DbusValue))
    (e : Entries) (hwf : DbusValue.WellFormedEntries .string value entries) {e' : Entries}
    (h : dbusDeserializeDict e entries = .ok e') (he' : e'.WellTagged) :
    e.WellTagged ∧ SupportedEntries entries := by
  match entries, hwf with
  | [], _ =>
      cases h
      exact ⟨he', trivial⟩
  | (k, v) :: entries, ⟨hkey, _, _, hv, hrest⟩ =>
      unfold dbusDeserializeDict at h
      obtain ⟨name, hname⟩ := storeEntry_key (e := e) hkey
      rw [hname] at h
      obtain ⟨e₁, hadd, h⟩ := bind_eq_ok h
      cases hfield : storeField v.type (dbusDeserializeOne v) with
      | error f =>
          rw [hfield] at hadd
          cases hadd
      | ok cell =>
          rw [hfield] at hadd
          cases hadd
          obtain ⟨t, d⟩ := cell
          obtain ⟨he₁, hrest⟩ := supported_entries value entries _ hrest h he'
          rw [wellTagged_diAddMemberMove] at he₁
          exact ⟨he₁.1, hkey, supported_of_decode v hv (storeField_eq_ok hfield) he₁.2.2, hrest⟩

theorem supported_fields (vs : List DbusValue) (hwf : DbusValue.WellFormedFields vs)
    {cells : List (DiType × Decoded)} (h : dbusDeserializeStruct vs = .ok cells)
    (hcells : Decoded.WellTaggedCells cells) : SupportedFields vs := by
  match vs, hwf with
  | [], _ => trivial
  | v :: vs, ⟨hv, hvs⟩ =>
      unfold dbusDeserializeStruct at h
      obtain ⟨⟨t, d⟩, hone, h⟩ := bind_eq_ok h
      obtain ⟨rest, hrest, h⟩ := bind_eq_ok h
      cases h
      exact ⟨supported_of_decode v hv (storeField_eq_ok hone) hcells.2.1,
        supported_fields vs hvs hrest hcells.2.2⟩
end

/-- The body is decoded, and every tag in the result is right. -/
def Sound (body : List DbusValue) : Prop :=
  ∃ cells, dbusDeserializeStruct body = .ok cells ∧ Decoded.WellTaggedCells cells

theorem sound_iff_supported {body : List DbusValue} (hwf : DbusValue.WellFormedFields body) :
    Sound body ↔ SupportedFields body := by
  constructor
  · rintro ⟨cells, h, hcells⟩
    exact supported_fields body hwf h hcells
  · exact decode_fields body hwf

end Deai.DbusDecoding
