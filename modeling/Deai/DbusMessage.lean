import Deai.Value
import Deai.Numbers

/-!
# D-Bus messages

The body of a message is a list of values. A value has a type, which is part of the signature of
the message. Dictionary entries occur only as the elements of an array, so an array of them is
a constructor of its own, and so are the arrays of everything else.
-/
namespace Deai.DbusMessage
open Value Numbers

/-- The integer types. A `UNIX_FD` is read as a file descriptor, which is an `int`. -/
inductive DbusInteger where
  | int16 | uint16 | int32 | uint32 | int64 | uint64 | unixFd
  deriving DecidableEq

def DbusInteger.type : DbusInteger → IntType
  | .int16 => ⟨16, false⟩
  | .uint16 => ⟨16, true⟩
  | .int32 => ⟨32, false⟩
  | .uint32 => ⟨32, true⟩
  | .int64 => ⟨64, false⟩
  | .uint64 => ⟨64, true⟩
  | .unixFd => ⟨32, false⟩

inductive DbusBasic where
  | byte | boolean | double | string | objectPath | signature
  | integer (t : DbusInteger)
  deriving DecidableEq

/-- A single complete type. -/
inductive DbusType where
  | basic (t : DbusBasic)
  | variant
  | array (elem : DbusType)
  | dict (key : DbusBasic) (value : DbusType)
  | struct (fields : List DbusType)

/-- Doubles are bit patterns. -/
inductive DbusValue where
  | byte (n : UInt8)
  | boolean (b : Bool)
  | integer (t : DbusInteger) (x : ℤ)
  | double (bits : UInt64)
  | string (s : String)
  | objectPath (s : String)
  | signature (s : String)
  | variant (v : DbusValue)
  | array (elem : DbusType) (elems : List DbusValue)
  | dict (key : DbusBasic) (value : DbusType) (entries : List (DbusValue × DbusValue))
  | struct (fields : List DbusValue)

namespace DbusValue

mutual
def type : DbusValue → DbusType
  | .byte _ => .basic .byte
  | .boolean _ => .basic .boolean
  | .integer t _ => .basic (.integer t)
  | .double _ => .basic .double
  | .string _ => .basic .string
  | .objectPath _ => .basic .objectPath
  | .signature _ => .basic .signature
  | .variant _ => .variant
  | .array elem _ => .array elem
  | .dict key value _ => .dict key value
  | .struct fields => .struct (types fields)

def types : List DbusValue → List DbusType
  | [] => []
  | v :: vs => v.type :: types vs
end

mutual
/-- An integer is in the range of its type, and the elements of an array and the entries of a
dictionary have the types that the signature gives for them. -/
def WellFormed : DbusValue → Prop
  | .integer t x => t.type.Fits x
  | .variant v => v.WellFormed
  | .array elem elems => WellFormedElements elem elems
  | .dict key value entries => WellFormedEntries key value entries
  | .struct fields => WellFormedFields fields
  | _ => True

def WellFormedElements (elem : DbusType) : List DbusValue → Prop
  | [] => True
  | v :: vs => v.type = elem ∧ v.WellFormed ∧ WellFormedElements elem vs

def WellFormedEntries (key : DbusBasic) (value : DbusType) :
    List (DbusValue × DbusValue) → Prop
  | [] => True
  | (k, v) :: rest => k.type = .basic key ∧ k.WellFormed ∧ v.type = value ∧ v.WellFormed ∧
      WellFormedEntries key value rest

def WellFormedFields : List DbusValue → Prop
  | [] => True
  | v :: vs => v.WellFormed ∧ WellFormedFields vs
end

end DbusValue

end Deai.DbusMessage
