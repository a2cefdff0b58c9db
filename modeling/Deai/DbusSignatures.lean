import Deai.DbusMessage

/-!
# The text of D-Bus signatures

A `struct dbus_signature` is a node of a tree: the text of a type, and the nodes of the types that
it is made of. `parse_dbus_signature` in `signature.c` makes such a tree out of a text, by two
functions that call each other. Strings are borrowed, so the rest of a text is a suffix of it, and
an empty rest is a null pointer.
-/
namespace Deai.DbusSignatures
open DbusMessage

/-- The bytes of a string. -/
abbrev Text := List UInt8

/-! ## Type codes -/

def variantCode : UInt8 := 118
def arrayCode : UInt8 := 97
def structBegin : UInt8 := 40
def structEnd : UInt8 := 41
def dictBegin : UInt8 := 123
def dictEnd : UInt8 := 125

/-- The characters `ybdsognqiuxth`. -/
def code : DbusBasic → UInt8
  | .byte => 121
  | .boolean => 98
  | .double => 100
  | .string => 115
  | .objectPath => 111
  | .signature => 103
  | .integer .int16 => 110
  | .integer .uint16 => 113
  | .integer .int32 => 105
  | .integer .uint32 => 117
  | .integer .int64 => 120
  | .integer .uint64 => 116
  | .integer .unixFd => 104

def allBasic : List DbusBasic :=
  [.byte, .boolean, .double, .string, .objectPath, .signature, .integer .int16, .integer .uint16,
    .integer .int32, .integer .uint32, .integer .int64, .integer .uint64, .integer .unixFd]

/-- What `dbus_type_is_valid` and `dbus_type_is_basic` say together. -/
def dbusTypeIsBasic (c : UInt8) : Bool := allBasic.any fun b => code b == c

mutual
/-- The text of a type. -/
def text : DbusType → Text
  | .basic b => [code b]
  | .variant => [variantCode]
  | .array elem => arrayCode :: text elem
  | .dict key value => arrayCode :: dictBegin :: code key :: (text value ++ [dictEnd])
  | .struct fields => structBegin :: (texts fields ++ [structEnd])

def texts : List DbusType → Text
  | [] => []
  | t :: ts => text t ++ texts ts
end

/-! ## Trees -/

/-- `struct dbus_signature`. A negative number of children is an error. -/
structure DbusSignature where
  current : Text
  nchild : ℤ
  child : List DbusSignature

mutual
/-- The tree of a type: every node has the text of its type. -/
def tree : DbusType → DbusSignature
  | .basic b => ⟨text (.basic b), 0, []⟩
  | .variant => ⟨text .variant, 0, []⟩
  | .array elem => ⟨text (.array elem), 1, [tree elem]⟩
  | .dict key value => ⟨text (.dict key value), 1,
      [⟨dictBegin :: code key :: (text value ++ [dictEnd]), 2, [⟨[code key], 0, []⟩, tree value]⟩]⟩
  | .struct fields => ⟨text (.struct fields), fields.length, trees fields⟩

def trees : List DbusType → List DbusSignature
  | [] => []
  | t :: ts => tree t :: trees ts
end

/-! ## The parser -/

/-- What ends a run of the parser. -/
inductive Stop where
  | running
  | nullPointer
  | assertion
  | overflow
  deriving DecidableEq

def intMax : ℤ := 2 ^ 31 - 1

/-- The conversion to `int`. -/
def toInt (x : ℤ) : ℤ := Int.bmod x (2 ^ 32)

/-- `di_suffix` -/
def diSuffix (str : Text) (start : ℕ) : Text := str.drop start

/-- `di_substring` -/
def diSubstring (str : Text) (start len : ℕ) : Text := (str.drop start).take len

/-- `di_substring` from the start, with a length that is an `int`. A negative one becomes a size that
no string has. -/
def diSubstringInt (str : Text) (len : ℤ) : Text :=
  if len < 0 then str else diSubstring str 0 len.toNat

/-- `-EINVAL` -/
def invalid : DbusSignature := ⟨[], -22, []⟩

/-- The children of a sequence are in a vector whose capacity is an `int`. -/
def grow (nchild capacity : ℤ) : Except Stop ℤ :=
  if nchild = capacity then
    if capacity + capacity + 1 ≤ intMax then .ok (capacity + capacity + 1) else .error .overflow
  else .ok capacity

mutual
/-- The loop of `parse_dbus_signaure_sequence`, which began with the text `curr`. The rest is not
written on failure, and no caller reads it then. -/
def parseSequenceLoop : ℕ → (curr : Text) → (endChar : UInt8) → (signature : Text) →
    (children : List DbusSignature) → (capacity length nchild : ℤ) → Except Stop (DbusSignature × Text)
  | 0, _, _, _, _, _, _, _ => .error .running
  | fuel + 1, curr, endChar, signature, children, capacity, length, nchild =>
      if signature.head? = none ∨ signature.head? = some endChar then
        .ok (⟨diSubstringInt curr length, nchild, children⟩, signature)
      else do
        let capacity ← grow nchild capacity
        let (child, next) ← parseOne fuel signature
        if child.nchild < 0 then .ok (child, [])
        else
          parseSequenceLoop fuel curr endChar next (children ++ [child]) capacity
            (toInt (length + child.current.length)) (nchild + 1)

/-- `parse_dbus_signature_one` -/
def parseOne : ℕ → Text → Except Stop (DbusSignature × Text)
  | 0, _ => .error .running
  | _, [] => .error .nullPointer
  | fuel + 1, c :: cs =>
      let signature := c :: cs
      if dbusTypeIsBasic c ∨ c = variantCode then
        .ok (⟨diSubstring signature 0 1, 0, []⟩, diSuffix signature 1)
      else if c = arrayCode then do
        let (child, rest) ← parseOne fuel (diSuffix signature 1)
        if child.nchild < 0 then .ok (child, [])
        else .ok (⟨diSubstring signature 0 (child.current.length + 1), 1, [child]⟩, rest)
      else if c = structBegin then do
        let (ret, next) ← parseSequenceLoop fuel (diSuffix signature 1) structEnd (diSuffix signature 1)
          [] 0 0 0
        if ret.nchild < 0 then .ok (ret, [])
        else if next.head? = some structEnd then
          .ok (⟨diSubstring signature 0 (ret.current.length + 2), ret.nchild, ret.child⟩, diSuffix next 1)
        else .error .assertion
      else .ok (invalid, [])
end

/-- `parse_dbus_signaure_sequence` -/
def parseSequence (fuel : ℕ) (signature : Text) (endChar : UInt8) : Except Stop (DbusSignature × Text) :=
  parseSequenceLoop fuel signature endChar signature [] 0 0 0

/-- `parse_dbus_signature` -/
def parseDbusSignature (fuel : ℕ) (signature : Text) : Except Stop DbusSignature := do
  let (ret, rest) ← parseSequence fuel signature 0
  if ret.nchild ≠ 0 then .ok ret
  else if rest.length = 0 then .ok ⟨signature, ret.nchild, ret.child⟩
  else .error .assertion

end Deai.DbusSignatures
