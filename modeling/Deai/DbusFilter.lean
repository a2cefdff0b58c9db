import Deai.DbusDecoding

/-!
# Receiving D-Bus messages

`dbus_filter` of `dbus.c`, as far as it reads the decoded body: the arguments of a signal, the
owners of a name, and the value or the text that a promise for a request is settled with.
-/
namespace Deai.DbusFilter
open Fallible Value DbusMessage DbusDecoding

/-- The headers that `dbus_filter` reads. A signal that does not come from the bus has no
sender. -/
inductive Header where
  | methodCall
  | signal (sender : Option String) (path interface member : String)
  | methodReturn (serial : UInt32)
  | error (serial : UInt32)

/-- What is done with the decoded body. -/
inductive Action where
  | notHandled
  | emit (nameChanged : Option (String × String × String)) (sender path interface member : String)
      (args : List (DiType × Decoded))
  | reject (serial : UInt32) (message : String)
  | resolve (serial : UInt32) (value : DiType × Decoded)
  | noPromise

def Action.WellTagged : Action → Prop
  | .emit _ _ _ _ _ args => Decoded.WellTaggedCells args
  | .resolve _ (tag, d) => tag = d.type ∧ d.WellTagged
  | _ => True

/-- The signal is `NameOwnerChanged` of the bus; the sender is compared only if the member is
right. -/
def isNameOwnerChanged (sender : Option String) (path interface member : String) :
    Except Fault Bool :=
  if member = "NameOwnerChanged" then
    match sender with
    | none => .error .nullString
    | some sender => .ok (sender = "org.freedesktop.DBus" ∧ path = "/org/freedesktop/DBus" ∧
        interface = "org.freedesktop.DBus")
  else .ok false

/-- The name, its old owner and its new owner. -/
def nameChange : List (DiType × Decoded) → Option (String × String × String)
  | [(.string, .string name), (.string, .string old), (.string, .string new)] =>
      some (name, old, new)
  | _ => none

/-- `dbus_filter`. `pending` are the serials with a `promise_for_request_` member. -/
def dbusFilter (pending : UInt32 → Bool) (header : Header) (body : List DbusValue) :
    Except Fault Action :=
  match header with
  | .methodCall => .ok .notHandled
  | .signal sender path interface member => do
      let t ← dbusDeserializeStruct body
      let ownerChanged ← isNameOwnerChanged sender path interface member
      if ownerChanged && (nameChange t).isNone then .ok .notHandled
      else
        match sender with
        | none => .ok .notHandled
        | some sender =>
            let changed := if ownerChanged then nameChange t else none
            .ok (.emit changed sender path interface member t)
  | .error serial => do
      let t ← dbusDeserializeStruct body
      if pending serial then
        -- the tag of the element is not looked at
        match t with
        | (_, .string message) :: _ => .ok (.reject serial message)
        | _ => .error .badRead
      else .ok .noPromise
  | .methodReturn serial => do
      let t ← dbusDeserializeStruct body
      if pending serial then
        match t with
        | [value] => .ok (.resolve serial value)
        | t => .ok (.resolve serial (.tuple, .tuple t))
      else .ok .noPromise

/-- The body is decoded, and what is done with it does not fail. -/
def FilterSound (pending : UInt32 → Bool) (header : Header) (body : List DbusValue) : Prop :=
  Sound body ∧ ∃ action, dbusFilter pending header body = .ok action ∧ action.WellTagged

/-- What else `dbus_filter` reads is there: a `NameOwnerChanged` has a sender, and the error for a
pending request starts with a text. -/
def Readable (pending : UInt32 → Bool) (header : Header) (body : List DbusValue) : Prop :=
  match header with
  | .signal none _ _ member => member ≠ "NameOwnerChanged"
  | .error serial => pending serial = true → ∃ v vs, body = v :: vs ∧ dbusTypeToDi v.type = .string
  | _ => True

theorem isNameOwnerChanged_some (sender path interface member : String) :
    ∃ b, isNameOwnerChanged (some sender) path interface member = .ok b := by
  unfold isNameOwnerChanged
  split_ifs <;> exact ⟨_, rfl⟩

/-- The first element is a string if and only if the D-Bus type is that of a text. -/
theorem decoded_string_iff {v : DbusValue} {t : DiType} {d : Decoded}
    (h : dbusDeserializeOne v = .ok (t, d)) :
    (∃ s, d = .string s) ↔ dbusTypeToDi v.type = .string := by
  have htype := dbusDeserializeOne_type h
  have hstring : (∃ s, d = .string s) ↔ d.type = .string := by
    cases d <;> simp [Decoded.type]
  rw [hstring, ← htype.1, htype.2, reportedType]
  cases hobject : isObject v with
  | false => simp
  | true => simp [isObject_type hobject]

theorem filterSound_signal {pending : UInt32 → Bool} {sender : Option String}
    {path interface member : String} {body : List DbusValue} (hsound : Sound body) :
    FilterSound pending (.signal sender path interface member) body ↔
      Readable pending (.signal sender path interface member) body := by
  have hs := hsound
  obtain ⟨cells, hcells, htagged⟩ := hsound
  unfold FilterSound dbusFilter
  simp only [hs, true_and, hcells]
  cases sender with
  | none =>
      unfold isNameOwnerChanged
      by_cases hmember : member = "NameOwnerChanged"
      · simp [hmember, Readable, bind, Except.bind]
      · simp [hmember, Readable, bind, Except.bind, Action.WellTagged]
  | some sender =>
      obtain ⟨b, hb⟩ := isNameOwnerChanged_some sender path interface member
      simp only [Readable, iff_true, hb, bind, Except.bind]
      split_ifs
      · exact ⟨_, rfl, trivial⟩
      · exact ⟨_, rfl, htagged⟩
      · exact ⟨_, rfl, htagged⟩

theorem filterSound_methodReturn {pending : UInt32 → Bool} {serial : UInt32}
    {body : List DbusValue} (hsound : Sound body) :
    FilterSound pending (.methodReturn serial) body := by
  refine ⟨hsound, ?_⟩
  obtain ⟨cells, hcells, htagged⟩ := hsound
  unfold dbusFilter
  simp only [hcells, bind, Except.bind]
  split_ifs
  · split
    · rename_i value hvalue
      exact ⟨_, rfl, htagged.1, htagged.2.1⟩
    · exact ⟨_, rfl, rfl, htagged⟩
  · exact ⟨_, rfl, trivial⟩

theorem filterSound_error {pending : UInt32 → Bool} {serial : UInt32} {body : List DbusValue}
    (hsound : Sound body) :
    FilterSound pending (.error serial) body ↔ Readable pending (.error serial) body := by
  have hs := hsound
  obtain ⟨cells, hcells, htagged⟩ := hsound
  unfold FilterSound dbusFilter Readable
  simp only [hs, true_and, hcells, bind, Except.bind]
  cases hpending : pending serial with
  | false => simp [Action.WellTagged]
  | true =>
      simp only [if_true, true_implies]
      cases body with
      | nil =>
          cases hcells
          simp
      | cons v vs =>
          unfold dbusDeserializeStruct at hcells
          obtain ⟨⟨t, d⟩, hone, h⟩ := bind_eq_ok hcells
          obtain ⟨rest, -, h⟩ := bind_eq_ok h
          cases h
          have hread : (∃ s, d = .string s) ↔
              ∃ v' vs', v :: vs = v' :: vs' ∧ dbusTypeToDi v'.type = .string := by
            rw [decoded_string_iff (storeField_eq_ok hone)]
            constructor
            · exact fun htype => ⟨v, vs, rfl, htype⟩
            · rintro ⟨v', vs', hv, htype⟩
              cases hv
              exact htype
          rw [← hread]
          cases d with
          | string message => exact iff_of_true ⟨_, rfl, trivial⟩ ⟨message, rfl⟩
          | _ =>
              refine iff_of_false ?_ ?_
              · rintro ⟨action, haction, -⟩
                cases haction
              · rintro ⟨s, hd⟩
                cases hd

/-- A body, and a signal, a reply or an error with this body, is decoded without a failure and
with the right tags, if and only if every value in it is supported and the rest that
`dbus_filter` reads is there. -/
theorem decoding_sound_iff {body : List DbusValue} (hwf : DbusValue.WellFormedFields body) :
    (Sound body ↔ SupportedFields body) ∧
    ∀ pending header, header ≠ .methodCall →
      (FilterSound pending header body ↔
        SupportedFields body ∧ Readable pending header body) := by
  refine ⟨sound_iff_supported hwf, fun pending header hheader => ?_⟩
  rw [← sound_iff_supported hwf]
  by_cases hsound : Sound body
  · simp only [hsound, true_and]
    cases header with
    | methodCall => exact absurd rfl hheader
    | signal sender path interface member => exact filterSound_signal hsound
    | methodReturn serial => exact iff_of_true (filterSound_methodReturn hsound) trivial
    | error serial => exact filterSound_error hsound
  · simp [FilterSound, hsound]

theorem decoding_sound_variants :
    Sound [.string "a", .array .variant [.variant (.integer .int32 5)]] ∧
    FilterSound (fun _ => true) (.error 1)
      [.string "a", .array .variant [.variant (.integer .int32 5)]] := by
  have hwf : DbusValue.WellFormedFields
      [.string "a", .array .variant [.variant (.integer .int32 5)]] :=
    ⟨trivial, ⟨rfl, (by decide : DbusInteger.int32.type.Fits 5), trivial⟩, trivial⟩
  have hsupported : SupportedFields
      [.string "a", .array .variant [.variant (.integer .int32 5)]] :=
    ⟨trivial, ⟨rfl, rfl, ⟨rfl, trivial⟩, trivial⟩, trivial⟩
  have hiff := decoding_sound_iff hwf
  exact ⟨hiff.1.mpr hsupported,
    (hiff.2 (fun _ => true) (.error 1) nofun).mpr ⟨hsupported, fun _ => ⟨_, _, rfl, rfl⟩⟩⟩

/-- A byte, an array of integers, a dictionary in a variant, and an error without a text. -/
theorem decoding_unsound :
    ¬ Sound [.byte 0] ∧ dbusDeserializeStruct [.byte 0] = .error .abort ∧
    ¬ Sound [.array (.basic (.integer .int32)) [.integer .int32 1]] ∧
    dbusDeserializeStruct [.variant (.dict .string (.basic .boolean)
      [(.string "k", .boolean true)])] = .error .assertion ∧
    ¬ FilterSound (fun _ => true) (.error 1) [] ∧
    dbusFilter (fun _ => true) (.error 1) [] = .error .badRead := by
  have hbyte : dbusDeserializeStruct [.byte 0] = .error .abort := rfl
  have hfilter : dbusFilter (fun _ => true) (.error 1) [] = .error .badRead := rfl
  refine ⟨?_, hbyte, ?_, rfl, ?_, hfilter⟩
  · rintro ⟨cells, h, -⟩
    cases hbyte.symm.trans h
  · rintro ⟨cells, h, htagged⟩
    cases h
    exact htagged.2.1
  · rintro ⟨-, action, h, -⟩
    cases hfilter.symm.trans h

end Deai.DbusFilter
