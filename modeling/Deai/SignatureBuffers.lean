import Deai.DbusEncoding
import Deai.FilledBuffer

/-!
# The buffer of an inferred signature

`type_signature_of_di_value` allocates a buffer of the size that the first pass over a value has
computed, and the second pass writes the signature into it. For an array the second pass reads back
what it has written, to see whether the elements match the signature of the first one.
-/
namespace Deai.SignatureBuffers
open Value DbusMessage DbusSignatures FilledBuffer
open Conversion (typeOf)
open DbusEncoding (Trap basicType addInt typeSignatureLength)

/-- The memory of a signature. -/
abbrev Memory := Buffer UInt8

def readByte (b : Memory) (p : ℕ) : Except Trap UInt8 := readCell .badRead .uninitialized b p

def writeByte (b : Memory) (p : ℕ) (c : UInt8) : Except Trap Memory := writeCell .bufferOverflow b p c

/-- `DBUS_TYPE_STRUCT`, which does not occur in signatures. -/
def structCode : UInt8 := 114

/-- `is_basic_type_compatible` -/
def isBasicTypeCompatible (t : DiType) (c : UInt8) : Except Trap Bool :=
  if c = code .boolean then .ok (t = .bool)
  else if c ∈ [DbusInteger.int16, .int32, .int64, .uint16, .uint32, .uint64].map (code ∘ .integer) then
    .ok (t ∈ [DiType.uint, .int, .nint, .nuint])
  else if c = code .double then .ok (t = .float)
  else if c = code .string ∨ c = code .objectPath then .ok (t = .string)
  else if c = code (.integer .unixFd) then .ok false
  else if c = arrayCode ∨ c = structCode ∨ c = variantCode then .error .assertion
  else .ok false

mutual
/-- `verify_type_signature`: the rest of the signature, or none for a null pointer. -/
def verifyTypeSignature (b : Memory) : DiValue → (signature : ℕ) → Except Trap (Option ℕ)
  | .variant v, signature => do
      let c ← readByte b signature
      if c = variantCode then .ok (some (signature + 1)) else verifyTypeSignature b v signature
  | .array t es, signature => do
      let c ← readByte b signature
      if c = variantCode then .ok (some (signature + 1))
      else if c = arrayCode then
        match es with
        | [] => .error .badRead
        | e :: es => do
            let ret ← verifyTypeSignature b e (signature + 1)
            if t ∈ [DiType.array, .tuple, .variant] then verifyElements b ret 1 es (signature + 1)
            else .ok ret
      else if c = structBegin then verifyFields b 0 es (signature + 1)
      else .ok none
  | .tuple es, signature => do
      let c ← readByte b signature
      if c = variantCode then .ok (some (signature + 1))
      else if c = structBegin then verifyFields b 0 es (signature + 1)
      else .ok none
  | v, signature => do
      let c ← readByte b signature
      if (basicType (typeOf v)).isSome then do
        let ok ← isBasicTypeCompatible (typeOf v) c
        .ok (if ok then some (signature + 1) else none)
      else .ok (if c = variantCode then some (signature + 1) else none)

/-- The elements of an array after the first one, which `ret` comes from. -/
def verifyElements (b : Memory) (ret : Option ℕ) : (i : ℤ) → List DiValue → ℕ → Except Trap (Option ℕ)
  | _, [], _ => .ok ret
  | i, e :: es, signature => do
      let ret2 ← verifyTypeSignature b e signature
      if ret2 = none ∨ ret2 ≠ ret then .ok none
      else do
        let i ← addInt i 1
        verifyElements b ret i es signature

/-- The elements of an array or a tuple against those of a struct. -/
def verifyFields (b : Memory) : (i : ℤ) → List DiValue → (curr : ℕ) → Except Trap (Option ℕ)
  | _, [], curr => do
      let c ← readByte b curr
      .ok (if c = structEnd then some (curr + 1) else none)
  | i, e :: es, curr => do
      match ← verifyTypeSignature b e curr with
      | none => .ok none
      | some next =>
          let i ← addInt i 1
          verifyFields b i es next
end

/-- A `struct dbus_signature` whose text is in the buffer. -/
structure Node where
  start : ℕ
  length : ℕ
  nchild : ℤ
  child : List Node

/-- `-EINVAL` -/
def invalidNode : Node := ⟨0, 0, -22, []⟩

mutual
/-- `type_signature_of_di_value_to_buffer`. The result for the first element of an array is not
looked at. -/
def toBuffer : DiValue → (buffer : ℕ) → Memory → Except Trap (Node × Memory)
  | .array _ [], buffer, b => do
      let _ ← writeByte b buffer arrayCode
      .error .badRead
  | .array t (e :: es), buffer, b => do
      let b ← writeByte b buffer arrayCode
      let (res, b) ← toBuffer e (buffer + 1) b
      match ← verifyTypeSignature b (.array t (e :: es)) buffer with
      | none => .ok (invalidNode, b)
      | some _ => .ok (⟨buffer, res.length + 1, 1, [res]⟩, b)
  | .tuple es, buffer, b => do
      let b ← writeByte b buffer structBegin
      fieldsToBuffer 0 es (buffer + 1) ⟨buffer, 2, toInt es.length, []⟩ b
  | .variant _, buffer, b => do
      let b ← writeByte b buffer variantCode
      .ok (⟨buffer, 1, 0, []⟩, b)
  | v, buffer, b =>
      match basicType (typeOf v) with
      | some dtype => do
          let b ← writeByte b buffer (code dtype)
          .ok (⟨buffer, 1, 0, []⟩, b)
      | none => .ok (invalidNode, b)

/-- The loop over the elements of a tuple. -/
def fieldsToBuffer : (i : ℤ) → List DiValue → (curr : ℕ) → (ret : Node) → Memory → Except Trap (Node × Memory)
  | _, [], curr, ret, b => do
      let b ← writeByte b curr structEnd
      .ok (ret, b)
  | i, e :: es, curr, ret, b => do
      let (child, b) ← toBuffer e curr b
      if child.nchild < 0 then .ok (child, b)
      else do
        let i ← addInt i 1
        fieldsToBuffer i es (curr + child.length)
          ⟨ret.start, ret.length + child.length, ret.nchild, ret.child ++ [child]⟩ b
end

/-- `type_signature_of_di_value`: the tree and the memory that its texts are in, or none for
`-EINVAL`. If the second pass fails the buffer is freed, and the null character is written then. -/
def typeSignatureOfDiValue (v : DiValue) : Except Trap (Option (Node × Memory)) := do
  let len ← typeSignatureLength v
  if len < 0 then .ok none
  else do
    let size ← addInt len 1
    let (rc, b) ← toBuffer v 0 (fresh size.toNat)
    if rc.nchild < 0 then .error .useAfterFree
    else do
      let b ← writeByte b len.toNat 0
      .ok (some (rc, b))

end Deai.SignatureBuffers
