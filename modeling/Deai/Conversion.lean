import Deai.Value
import Deai.Numbers

/-!
# Conversion between deai values

`conv.cc`: `DeaiVariantConverter` has an operator for each target type. An operator converts
the types it knows, and goes on with the inner value of a variant, of a tuple with one element
or of an array with one element otherwise. There are two instances of it. One moves the value,
the other one borrows it. Here a value is what a reader of it sees; who owns the memory it
lies in is another matter.

An integer is returned as a `DeaiCheckedIntConverter`, which becomes a `std::optional` of
the target type. The temporary is not const, and the conversion functions to `std::optional`
are const members. So the constructor of `std::optional` that takes any argument is the better
match, and it makes the number out of the only other conversion function, `operator double`.
The functions with the range checks are never called.
-/
namespace Deai.Conversion
open Value Numbers

/-- What is undefined in C++: a double that the integer type has no value for, and a pointer
that points to nothing. Also a call of `abort`. -/
inductive Trap where
  | overflow
  | badPointer
  | abort
  deriving DecidableEq

/-- Whether `di_upgrade_weak_ref` returns the object, and the object `dead_weak_ref` points to. -/
structure Env where
  upgradable : ObjRef → Bool
  deadWeakRef : ObjRef

def typeOf : DiValue → DiType
  | .nil => .nil
  | .emptyObject _ => .emptyObject
  | .bool _ => .bool
  | .nint _ => .nint
  | .nuint _ => .nuint
  | .int _ => .int
  | .uint _ => .uint
  | .float _ => .float
  | .pointer _ => .pointer
  | .object _ => .object
  | .weakObject _ => .weakObject
  | .string _ => .string
  | .stringLiteral _ => .stringLiteral
  | .array _ _ => .array
  | .tuple _ => .tuple
  | .variant _ => .variant

/-- The C types of the integers. -/
def intType : DiType → Option IntType
  | .nint => some ⟨32, false⟩
  | .nuint => some ⟨32, true⟩
  | .int => some ⟨64, false⟩
  | .uint => some ⟨64, true⟩
  | _ => none

def integerOf : DiValue → Option ℤ
  | .nint i => some i.toInt
  | .nuint n => some n.toNat
  | .int i => some i.toInt
  | .uint n => some n.toNat
  | _ => none

def ofInteger (t : DiType) (x : ℤ) : DiValue :=
  match t with
  | .nint => .nint (Int32.ofInt x)
  | .nuint => .nuint (UInt32.ofInt x)
  | .int => .int (Int64.ofInt x)
  | .uint => .uint (UInt64.ofInt x)
  | _ => .nil

/-- A `DeaiCheckedIntConverter` becomes a number of the type `t`. -/
def checkedInt (t : IntType) (x : ℤ) : Except Trap ℤ :=
  if t.Fits (toDouble x) then .ok (toDouble x) else .error .overflow

/-! ## The operators -/

/-- What an operator returns for a value that it converts itself. -/
abbrev Operator (α : Type) := DiValue → Option (Except Trap (Option α))

/-- `operator std::optional<T>` for a number. -/
def numberOperator {α : Type} (number : ℤ → Except Trap α) (float : UInt64 → Option α) : Operator α
  | .nint i => some ((number i.toInt).map some)
  | .nuint n => some ((number n.toNat).map some)
  | .int i => some ((number i.toInt).map some)
  | .uint n => some ((number n.toNat).map some)
  | .float bits => some (.ok (float bits))
  | _ => none

def tupleToArray (borrow : Bool) (es : List DiValue) : Option DiValue :=
  match es with
  | [] => some (.array .nil [])
  | [x] => some (.array (typeOf x) [x])
  | x :: rest =>
      if borrow then none
      else if rest.all (fun y => typeOf y = typeOf x) then some (.array (typeOf x) (x :: rest))
      else none

def arrayToTuple (borrow : Bool) (es : List DiValue) : Option DiValue :=
  match es with
  | [] => some (.tuple [])
  | es => if borrow then none else some (.tuple es)

section
variable (E : Env) (borrow : Bool)

def stringOperator : Operator DiValue
  | .string s => some (.ok (some (.string s)))
  | .stringLiteral s => some (.ok (some (.string s)))
  | _ => none

def stringLiteralOperator : Operator DiValue
  | .stringLiteral s => some (.ok (some (.stringLiteral s)))
  | _ => none

def arrayOperator : Operator DiValue
  | .array t es => some (.ok (some (.array t es)))
  | .nil => some (.ok (some (.array .nil [])))
  | .emptyObject _ => some (.ok (some (.array .nil [])))
  | .tuple es => some (.ok (tupleToArray borrow es))
  | _ => none

def tupleOperator : Operator DiValue
  | .tuple es => some (.ok (some (.tuple es)))
  | .nil => some (.ok (some (.tuple [])))
  | .emptyObject _ => some (.ok (some (.tuple [])))
  | .array _ es => some (.ok (arrayToTuple borrow es))
  | _ => none

def objectOperator : Operator DiValue
  | .object o => some (.ok (some (.object o)))
  | .emptyObject o => some (.ok (some (.object o)))
  | .weakObject o =>
      if borrow then none else some (.ok (if E.upgradable o then some (.object o) else none))
  | _ => none

def weakObjectOperator : Operator DiValue
  | .weakObject o => some (.ok (some (.weakObject o)))
  | .object o => some (.ok (some (.weakObject o)))
  | .emptyObject o => some (.ok (some (.weakObject o)))
  | .nil => some (.ok (some (.weakObject E.deadWeakRef)))
  | _ => none

def pointerOperator : Operator DiValue
  | .nil => some (.ok (some (.pointer 0)))
  | .pointer p => some (.ok (some (.pointer p)))
  | _ => none

def boolOperator : Operator DiValue
  | .bool b => some (.ok (some (.bool b)))
  | _ => none

/-- The operator for a target type; the types that have none are refused. -/
def operatorFor (t : DiType) : Operator DiValue :=
  match t with
  | .int => numberOperator (fun x => (checkedInt ⟨64, false⟩ x).map (ofInteger .int)) fun _ => none
  | .uint => numberOperator (fun x => (checkedInt ⟨64, true⟩ x).map (ofInteger .uint)) fun _ => none
  | .nint => numberOperator (fun x => (checkedInt ⟨32, false⟩ x).map (ofInteger .nint)) fun _ => none
  | .nuint => numberOperator (fun x => (checkedInt ⟨32, true⟩ x).map (ofInteger .nuint)) fun _ => none
  | .float => numberOperator (fun x => .ok (.float (doubleBits x))) fun bits => some (.float bits)
  | .bool => boolOperator
  | .string => stringOperator
  | .stringLiteral => stringLiteralOperator
  | .array => arrayOperator borrow
  | .tuple => tupleOperator borrow
  | .object => objectOperator E borrow
  | .weakObject => weakObjectOperator E
  | .pointer => pointerOperator
  | .variant => fun v => some (.ok (some (.variant v)))
  | .nil | .emptyObject | .any | .lastType => fun _ => some (.ok none)

end

/-- The conversion by an operator, and by `try_from_inner` where it knows nothing. The instance
that borrows takes every inner value for that of a variant: for a tuple and for an array it
dereferences the length. -/
def convertWith {α : Type} (borrow : Bool) (op : Operator α) : DiValue → Except Trap (Option α)
  | .variant x => (op (.variant x)).getD (convertWith borrow op x)
  | .tuple [x] =>
      (op (.tuple [x])).getD (if borrow then .error .badPointer else convertWith borrow op x)
  | .array t [x] =>
      (op (.array t [x])).getD (if borrow then .error .badPointer else convertWith borrow op x)
  | v => (op v).getD (.ok none)

def diTypeConversion (E : Env) (borrowing : Bool) (toType : DiType) (v : DiValue) :
    Except Trap (Option DiValue) :=
  if typeOf v = toType then .ok (some v)
  else convertWith borrowing (operatorFor E borrowing toType) v

/-- The number that is stored; nothing is stored when the conversion is refused. -/
def diIntConversion (toBits : ℕ) (toUnsigned : Bool) (v : DiValue) : Except Trap (Option ℤ) :=
  if toBits ∈ [8, 16, 32, 64] then
    convertWith true (numberOperator (checkedInt ⟨toBits, toUnsigned⟩) fun _ => none) v
  else .error .abort

/-! ## Unwrapping -/

/-- The value inside all variants around it. -/
def strip : DiValue → DiValue
  | .variant x => strip x
  | v => v

theorem strip_ne_variant (v x : DiValue) : strip v ≠ .variant x := by
  induction v using strip.induct with
  | case1 y ih => simpa only [strip] using ih
  | case2 v hv =>
      intro h
      have hself : strip v = v := by
        cases v <;> first | rfl | exact absurd rfl (hv _)
      exact hv x (hself.symm.trans h)

/-- An operator that does not convert a variant converts what is in it. -/
theorem convertWith_strip {α : Type} {borrow : Bool} {op : Operator α}
    (hop : ∀ x, op (.variant x) = none) (v : DiValue) :
    convertWith borrow op v = convertWith borrow op (strip v) := by
  induction v using strip.induct with
  | case1 x ih =>
      rw [strip, ← ih, convertWith, hop]
      rfl
  | case2 v hv =>
      have hself : strip v = v := by
        cases v <;> first | rfl | exact absurd rfl (hv _)
      rw [hself]

/-- A tuple or an array with one element. -/
def OnePiece : DiValue → Prop
  | .tuple [_] => True
  | .array _ [_] => True
  | _ => False

/-! ## Borrowing -/

/-- The operator for the type goes on with the element of a tuple or an array that has one. -/
def Unwraps : DiType → Bool
  | .int | .uint | .nint | .nuint | .float | .bool | .string | .stringLiteral | .object
  | .weakObject | .pointer => true
  | _ => false

/-- What a borrow cannot make: an array out of several elements of a tuple, a tuple out of the
elements of an array, and a strong reference out of a weak one. -/
def Unborrowable : DiType → DiValue → Prop
  | .array, .tuple (_ :: _ :: _) => True
  | .tuple, .array _ (_ :: _) => True
  | .object, .weakObject _ => True
  | _, _ => False

theorem operatorFor_variant {E : Env} {borrow : Bool} {t : DiType} (ht : t ≠ .variant)
    (hnone : t ∉ [DiType.nil, .emptyObject, .any, .lastType]) (x : DiValue) :
    operatorFor E borrow t (.variant x) = none := by
  cases t <;> first | rfl | simp at ht hnone

/-- The operators that both instances share. -/
theorem operatorFor_borrow (E : Env) {t : DiType} (ht : t ∉ [DiType.array, .tuple, .object]) :
    operatorFor E true t = operatorFor E false t := by
  cases t <;> first | rfl | simp at ht

theorem convertWith_onePiece {α : Type} {op : Operator α} {w : DiValue} (hone : OnePiece w)
    (hop : op w = none) : convertWith true op w = .error .badPointer := by
  unfold OnePiece at hone
  split at hone
  · simp [convertWith, hop]
  · simp [convertWith, hop]
  · exact hone.elim

theorem convertWith_plain {α : Type} {borrow : Bool} {op : Operator α} {w : DiValue}
    (hone : ¬ OnePiece w) (hvar : ∀ x, w ≠ .variant x) :
    convertWith borrow op w = (op w).getD (.ok none) := by
  unfold convertWith
  split
  · exact absurd rfl (hvar _)
  · exact absurd trivial hone
  · exact absurd trivial hone
  · rfl

theorem operatorFor_ne_badPointer (E : Env) (borrow : Bool) (t : DiType) (w : DiValue) :
    operatorFor E borrow t w ≠ some (.error .badPointer) := by
  have hnumber : ∀ (ty : IntType) (target : DiType), numberOperator
      (fun x => (checkedInt ty x).map (ofInteger target)) (fun _ => none) w ≠
        some (.error .badPointer) := by
    intro ty target
    unfold numberOperator checkedInt
    cases w with
    | int | uint | nint | nuint =>
        dsimp only
        split_ifs
        · rintro ⟨⟩
        · rintro ⟨⟩
    | _ => exact nofun
  cases t with
  | int | uint | nint | nuint => exact hnumber _ _
  | object =>
      cases w <;> cases borrow <;> exact nofun
  | float | bool | string | stringLiteral | array | tuple | weakObject | pointer | variant | nil
  | emptyObject | any | lastType => cases w <;> exact nofun

/-- A value that is not unwrapped any further. -/
theorem agree_plain (E : Env) {t : DiType} {w : DiValue} (hone : ¬ OnePiece w)
    (hvar : ∀ x, w ≠ .variant x) :
    (Unborrowable t w → convertWith true (operatorFor E true t) w = .ok none) ∧
    (¬ Unborrowable t w → convertWith true (operatorFor E true t) w =
        convertWith false (operatorFor E false t) w ∧
      convertWith true (operatorFor E true t) w ≠ .error .badPointer) := by
  have hsafe : (operatorFor E true t w).getD (.ok none) ≠ .error .badPointer := by
    have hne := operatorFor_ne_badPointer E true t w
    intro h
    cases hop : operatorFor E true t w with
    | none =>
        rw [hop] at h
        cases h
    | some r =>
        rw [hop] at h hne
        exact hne (congrArg some h)
  rw [convertWith_plain hone hvar, convertWith_plain hone hvar]
  by_cases ht : t ∈ [DiType.array, .tuple, .object]
  · simp only [List.mem_cons, List.not_mem_nil, or_false] at ht
    rcases ht with rfl | rfl | rfl
    · cases w with
      | tuple es =>
          match es, hone with
          | [], _ => exact ⟨nofun, fun _ => ⟨rfl, nofun⟩⟩
          | [x], hone => exact absurd trivial hone
          | x :: y :: es, _ => exact ⟨fun _ => rfl, fun h => absurd trivial h⟩
      | _ => exact ⟨nofun, fun _ => ⟨rfl, hsafe⟩⟩
    · cases w with
      | array et es =>
          match es with
          | [] => exact ⟨nofun, fun _ => ⟨rfl, nofun⟩⟩
          | x :: es => exact ⟨fun _ => rfl, fun h => absurd trivial h⟩
      | _ => exact ⟨nofun, fun _ => ⟨rfl, hsafe⟩⟩
    · cases w with
      | weakObject o => exact ⟨fun _ => rfl, fun h => absurd trivial h⟩
      | _ => exact ⟨nofun, fun _ => ⟨rfl, hsafe⟩⟩
  · rw [operatorFor_borrow E ht] at hsafe ⊢
    refine ⟨fun h => ?_, fun _ => ⟨rfl, hsafe⟩⟩
    unfold Unborrowable at h
    split at h <;> simp at ht h

/-- A tuple or an array with one element, for a target type that takes it as it is. -/
theorem agree_onePiece (E : Env) {t : DiType} {w : DiValue} (hone : OnePiece w)
    (ht : Unwraps t = false) :
    (Unborrowable t w → convertWith true (operatorFor E true t) w = .ok none) ∧
    (¬ Unborrowable t w → convertWith true (operatorFor E true t) w =
        convertWith false (operatorFor E false t) w ∧
      convertWith true (operatorFor E true t) w ≠ .error .badPointer) := by
  unfold OnePiece at hone
  split at hone
  · cases t with
    | array | tuple | variant | nil | emptyObject | any | lastType =>
        exact ⟨nofun, fun _ => ⟨rfl, nofun⟩⟩
    | _ => cases ht
  · cases t with
    | tuple => exact ⟨fun _ => rfl, fun h => absurd trivial h⟩
    | array | variant | nil | emptyObject | any | lastType =>
        exact ⟨nofun, fun _ => ⟨rfl, nofun⟩⟩
    | _ => cases ht
  · exact hone.elim

/-- The conversion that borrows does what the conversion that moves does, unless a borrow cannot
make it, and follows no bad pointer. -/
def Agrees (E : Env) (t : DiType) (v : DiValue) : Prop :=
  (Unborrowable t (strip v) → diTypeConversion E true t v = .ok none) ∧
  (¬ Unborrowable t (strip v) → diTypeConversion E true t v = diTypeConversion E false t v ∧
    diTypeConversion E true t v ≠ .error .badPointer)

/-- Borrowed and owned conversion agree, if and only if there is no tuple and no array with one
element to unwrap. -/
theorem borrowed_conversion_agrees (E : Env) (t : DiType) (v : DiValue) :
    Agrees E t v ↔ ¬ (Unwraps t = true ∧ OnePiece (strip v)) := by
  unfold Agrees diTypeConversion
  by_cases hsame : typeOf v = t
  · have hplain : ¬ Unborrowable t (strip v) ∧ ¬ (Unwraps t = true ∧ OnePiece (strip v)) := by
      subst hsame
      cases v <;> simp [typeOf, Unwraps, Unborrowable, strip, OnePiece]
    simp [hsame, hplain]
  · rw [if_neg hsame, if_neg hsame]
    by_cases hstrip : t = .variant ∨ t ∈ [DiType.nil, .emptyObject, .any, .lastType]
    · -- no operator of these looks into the value
      have hconst : ∀ borrow, convertWith borrow (operatorFor E borrow t) v =
          (operatorFor E false t v).getD (.ok none) := by
        intro borrow
        unfold convertWith
        simp only [List.mem_cons, List.not_mem_nil, or_false] at hstrip
        rcases hstrip with rfl | rfl | rfl | rfl | rfl <;> split <;> rfl
      rw [hconst, hconst]
      have hplain : ¬ Unborrowable t (strip v) ∧ Unwraps t = false := by
        simp only [List.mem_cons, List.not_mem_nil, or_false] at hstrip
        rcases hstrip with rfl | rfl | rfl | rfl | rfl <;> simp [Unborrowable, Unwraps]
      have hne : (operatorFor E false t v).getD (.ok none) ≠ .error .badPointer := by
        simp only [List.mem_cons, List.not_mem_nil, or_false] at hstrip
        rcases hstrip with rfl | rfl | rfl | rfl | rfl <;> simp [operatorFor]
      simp [hplain, hne]
    · have hop : ∀ borrow x, operatorFor E borrow t (.variant x) = none := fun borrow x =>
        operatorFor_variant (fun h => hstrip (.inl h)) (fun h => hstrip (.inr h)) x
      rw [convertWith_strip (hop true), convertWith_strip (hop false)]
      by_cases hone : OnePiece (strip v)
      · cases hunwraps : Unwraps t with
        | false =>
            exact iff_of_true (agree_onePiece E hone hunwraps) fun h => by cases h.1
        | true =>
            have hnone : operatorFor E true t (strip v) = none := by
              revert hone
              generalize strip v = w
              intro hone
              unfold OnePiece at hone
              split at hone <;> first | exact hone.elim | cases t <;> first | rfl | cases hunwraps
            have hbad := convertWith_onePiece hone hnone
            have hplain : ¬ Unborrowable t (strip v) := by
              revert hone
              generalize strip v = w
              intro hone
              unfold OnePiece at hone
              split at hone <;> first | exact hone.elim | cases t <;> first | exact id | cases hunwraps
            simp [hplain, hone, hbad]
      · exact iff_of_true (agree_plain E hone fun x hx => strip_ne_variant v x hx) fun h => hone h.2

/-- A tuple with one integer in it. -/
theorem borrowed_conversion_disagrees :
    ¬ Agrees ⟨fun _ => true, 0⟩ .int (.tuple [.int 5]) ∧
    diTypeConversion ⟨fun _ => true, 0⟩ true .int (.tuple [.int 5]) = .error .badPointer ∧
    diTypeConversion ⟨fun _ => true, 0⟩ false .int (.tuple [.int 5]) = .ok (some (.int 5)) := by
  have hbad : diTypeConversion ⟨fun _ => true, 0⟩ true .int (.tuple [.int 5]) =
      .error .badPointer := rfl
  have hgood : diTypeConversion ⟨fun _ => true, 0⟩ false .int (.tuple [.int 5]) =
      .ok (some (.int 5)) := rfl
  exact ⟨fun h => (h.2 id).2 hbad, hbad, hgood⟩

/-! ## Integers -/

/-- A value that the type can hold is stored, and any other value is refused. -/
def ExactOrRefused {α : Type} (store : ℤ → α) (t : IntType) (x : ℤ) (r : Except Trap (Option α)) :
    Prop :=
  (t.Fits x → r = .ok (some (store x))) ∧ (¬ t.Fits x → r = .ok none)

theorem integerOf_ofInteger {target : DiType} {t : IntType} (ht : intType target = some t) {x : ℤ}
    (hx : t.Fits x) : integerOf (ofInteger target x) = some x := by
  unfold intType at ht
  split at ht <;> cases ht <;>
    simp only [IntType.Fits, IntType.min, IntType.max, Bool.false_eq_true, if_false, if_true] at hx
  · exact congrArg some (Int32.toInt_ofInt_of_le (by omega) (by omega))
  · refine congrArg some ?_
    simp only [UInt32.ofInt, UInt32.toNat_ofNat']
    omega
  · exact congrArg some (Int64.toInt_ofInt_of_le (by omega) (by omega))
  · refine congrArg some ?_
    simp only [UInt64.ofInt, UInt64.toNat_ofNat']
    omega

theorem fits_of_integerOf {v : DiValue} {x : ℤ} (hx : integerOf v = some x) {t : IntType}
    (ht : intType (typeOf v) = some t) : t.Fits x := by
  unfold integerOf at hx
  split at hx <;> cases hx <;> cases ht <;>
    simp only [IntType.Fits, IntType.min, IntType.max, Bool.false_eq_true, if_false, if_true]
  · rename_i i
    have hlow := i.le_toInt
    have hhigh := i.toInt_lt
    omega
  · rename_i n
    have hhigh := n.toNat_lt
    omega
  · rename_i i
    have hlow := i.le_toInt
    have hhigh := i.toInt_lt
    omega
  · rename_i n
    have hhigh := n.toNat_lt
    omega

theorem ofInteger_typeOf {v : DiValue} {x : ℤ} (hx : integerOf v = some x) :
    ofInteger (typeOf v) x = v := by
  unfold integerOf at hx
  split at hx <;> cases hx
  · exact congrArg DiValue.nint (Int32.ofInt_toInt _)
  · rename_i n
    have hsame : (n.toNat % 2 ^ 32 : ℤ).toNat = n.toNat := by
      have hlt := n.toNat_lt
      omega
    simp only [typeOf, ofInteger, UInt32.ofInt, hsame, UInt32.ofNat_toNat]
  · exact congrArg DiValue.int (Int64.ofInt_toInt _)
  · rename_i n
    have hsame : (n.toNat % 2 ^ 64 : ℤ).toNat = n.toNat := by
      have hlt := n.toNat_lt
      omega
    simp only [typeOf, ofInteger, UInt64.ofInt, hsame, UInt64.ofNat_toNat]

/-- An integer inside variants reaches the operator. -/
theorem convertWith_integer {α : Type} {borrow : Bool} {number : ℤ → Except Trap α}
    {float : UInt64 → Option α} {v : DiValue} {x : ℤ} (hx : integerOf (strip v) = some x) :
    convertWith borrow (numberOperator number float) v = (number x).map some := by
  rw [convertWith_strip (fun _ => rfl)]
  revert hx
  generalize strip v = w
  intro hx
  unfold integerOf at hx
  split at hx <;> cases hx <;> rfl

theorem exactOrRefused_iff {α : Type} {store : ℤ → α} {t : IntType} {x : ℤ}
    (hinj : ∀ y, t.Fits x → t.Fits y → store y = store x → y = x) :
    ExactOrRefused store t x (((checkedInt t x).map store).map some) ↔
      t.Fits x ∧ toDouble x = x := by
  unfold ExactOrRefused checkedInt
  by_cases hfits : t.Fits x
  · by_cases hround : t.Fits (toDouble x)
    · simp only [hfits, hround, if_true, Except.map, not_true, false_implies, and_true,
        true_implies, Except.ok.injEq, Option.some.injEq, true_and]
      exact ⟨hinj _ hfits hround, congrArg store⟩
    · have hne : toDouble x ≠ x := fun h => hround (h.symm ▸ hfits)
      simp [hround, hne, Except.map, hfits]
  · by_cases hround : t.Fits (toDouble x) <;> simp [hfits, hround, Except.map]

/-- An integer, also one inside variants, is converted exactly or refused if and only if the
target type can hold it and it is a double. A conversion to the type that it has is exact. -/
theorem integer_conversion_exact (E : Env) {v : DiValue} {x : ℤ} (hx : integerOf (strip v) = some x) :
    (∀ bits ∈ [8, 16, 32, 64], ∀ unsigned,
      ExactOrRefused id ⟨bits, unsigned⟩ x (diIntConversion bits unsigned v) ↔
        IntType.Fits ⟨bits, unsigned⟩ x ∧ toDouble x = x) ∧
    (∀ borrowing target t, intType target = some t →
      (ExactOrRefused (ofInteger target) t x (diTypeConversion E borrowing target v) ↔
        typeOf v = target ∨ (t.Fits x ∧ toDouble x = x))) := by
  refine ⟨?_, ?_⟩
  · intro bits hbits unsigned
    unfold diIntConversion
    rw [if_pos hbits, convertWith_integer hx]
    have hiff : ExactOrRefused id ⟨bits, unsigned⟩ x
        (((checkedInt ⟨bits, unsigned⟩ x).map id).map some) ↔
          IntType.Fits ⟨bits, unsigned⟩ x ∧ toDouble x = x :=
      exactOrRefused_iff fun _ _ _ h => h
    have hid : (checkedInt ⟨bits, unsigned⟩ x).map id = checkedInt ⟨bits, unsigned⟩ x := by
      cases checkedInt ⟨bits, unsigned⟩ x <;> rfl
    rwa [hid] at hiff
  · intro borrowing target t ht
    unfold diTypeConversion
    by_cases hsame : typeOf v = target
    · rw [if_pos hsame]
      have hstrip : strip v = v := by
        subst hsame
        cases v <;> first | rfl | cases ht
      rw [hstrip] at hx
      subst hsame
      have hfits := fits_of_integerOf hx ht
      simp [ExactOrRefused, hfits, ofInteger_typeOf hx]
    · rw [if_neg hsame]
      have hconvert : convertWith borrowing (operatorFor E borrowing target) v =
          ((checkedInt t x).map (ofInteger target)).map some := by
        unfold intType at ht
        split at ht <;> cases ht <;> dsimp only [operatorFor] <;> exact convertWith_integer hx
      rw [hconvert, exactOrRefused_iff]
      · simp [hsame]
      · intro y hfits hy heq
        have hback := congrArg integerOf heq
        rw [integerOf_ofInteger ht hy, integerOf_ofInteger ht hfits] at hback
        exact Option.some.inj hback

theorem integer_conversion_exact_five :
    ExactOrRefused id ⟨8, true⟩ 5 (diIntConversion 8 true (.variant (.int 5))) ∧
    ExactOrRefused (ofInteger .nuint) ⟨32, true⟩ 5
      (diTypeConversion ⟨fun _ => true, 0⟩ true .nuint (.variant (.int 5))) := by
  have hexact := integer_conversion_exact ⟨fun _ => true, 0⟩ (v := .variant (.int 5)) (x := 5) rfl
  have hfive : toDouble 5 = 5 := toDouble_of_natAbs_lt (by decide)
  exact ⟨(hexact.1 8 (by decide) true).mpr ⟨by decide, hfive⟩,
    (hexact.2 true .nuint _ rfl).mpr (.inr ⟨by decide, hfive⟩)⟩

/-- The first integer that is not a double, and an integer that does not fit. -/
theorem integer_conversion_inexact :
    ¬ ExactOrRefused (ofInteger .uint) ⟨64, true⟩ 9007199254740993
      (diTypeConversion ⟨fun _ => true, 0⟩ true .uint (.int 9007199254740993)) ∧
    diTypeConversion ⟨fun _ => true, 0⟩ true .uint (.int 9007199254740993) =
      .ok (some (.uint 9007199254740992)) ∧
    ¬ ExactOrRefused id ⟨8, false⟩ 300 (diIntConversion 8 false (.int 300)) := by
  have hrounded : diTypeConversion ⟨fun _ => true, 0⟩ true .uint (.int 9007199254740993) =
      .ok (some (.uint 9007199254740992)) := rfl
  have hoverflow : diIntConversion 8 false (.int 300) = .error .overflow := by decide
  refine ⟨fun h => ?_, hrounded, fun h => ?_⟩
  · have hstored : DiValue.uint (UInt64.ofInt 9007199254740993) = .uint 9007199254740992 :=
      Option.some.inj (Except.ok.inj ((h.1 (by decide)).symm.trans hrounded))
    injection hstored with heq
    revert heq
    decide
  · cases (h.2 (by decide)).symm.trans hoverflow

end Deai.Conversion
