import Deai.AtomCache
import Deai.Numbers
import Deai.Value

/-!
# Properties of input devices

`di_xorg_xinput_set_prop` and `di_xorg_xinput_get_prop` of the module `xorg`. A property has a type
and a format, which is the width of its items; the writer and the reader choose how the integers of
deai go through it.
-/
namespace Deai.InputProperties
open AtomCache Numbers Value

/-! ## Values -/

/-- An array of deai. A single value is treated as an array of one. -/
inductive Items where
  | int (l : List Int64)
  | uint (l : List UInt64)
  | nint (l : List Int32)
  | nuint (l : List UInt32)
  | float (l : List UInt64)
  | string (l : List Name)
  | stringLiteral (l : List Name)
  | other (elemType : DiType) (length : ℕ)

/-- The integers of an array. -/
def Items.numbers : Items → List ℤ
  | .int l => l.map Int64.toInt
  | .uint l => l.map fun n => Int.ofNat n.toNat
  | .nint l => l.map Int32.toInt
  | .nuint l => l.map fun n => Int.ofNat n.toNat
  | _ => []

/-- The strings of an array. -/
def Items.names : Items → List Name
  | .string l => l
  | .stringLiteral l => l
  | _ => []

/-- An element as the loop over the array meets it. -/
inductive Element where
  | number (i64 : ℤ)
  | float (bits : UInt64)
  | string (s : Name)
  | stringLiteral (s : Name)
  | wrong

def Items.elements : Items → List Element
  | .float l => l.map .float
  | .string l => l.map .string
  | .stringLiteral l => l.map .stringLiteral
  | .other _ n => List.replicate n .wrong
  -- an `int64_t` takes the integer, whatever its type is
  | items => items.numbers.map fun v => .number (v.bmod (2 ^ 64))

/-- The conversions of floats, as bit patterns. -/
structure Floats where
  ofInt : ℤ → UInt32
  ofDouble : UInt64 → UInt32
  toDouble : UInt32 → UInt64

/-! ## The server and the device -/

/-- The items are the unsigned numbers in the bytes. -/
structure Property where
  type : UInt32
  format : ℕ
  items : List ℕ

structure State where
  atoms : List AtomEntry := []
  props : UInt32 → Option Property

/-! ## Writing -/

inductive Outcome where
  | sent
  | missing
  | notInterned
  | wrongFormat
  | wrongType
  /-- The pointers to the data are NULL. -/
  | noData
  deriving DecidableEq

/-- An error is reported. -/
def Outcome.refused : Outcome → Prop
  | .wrongFormat | .wrongType => True
  | _ => False

variable (X : Server) (F : AtomFind) (R : Floats)

/-- One round of the loop: the item for an element. -/
def store (prop : Property) (floatAtom : UInt32) (x : Element) (atoms : List AtomEntry) :
    Except Outcome ℕ × List AtomEntry :=
  let numeric := prop.type = integerType ∨ prop.type = cardinalType
  match x with
  | .wrong => (.error .wrongType, atoms)
  | .number i64 =>
      if numeric then
        if prop.format = 8 ∨ prop.format = 16 ∨ prop.format = 32 then
          (.ok (i64 % 2 ^ prop.format).toNat, atoms)
        else (.error .noData, atoms)
      else if prop.type = floatAtom then (.ok (R.ofInt i64).toNat, atoms)
      else if prop.type = atomType then (.error .wrongType, atoms)
      else (.error .noData, atoms)
  | .float bits =>
      if numeric then (.error .wrongType, atoms)
      else if prop.type = floatAtom then (.ok (R.ofDouble bits).toNat, atoms)
      else if prop.type = atomType then (.error .wrongType, atoms)
      else (.error .noData, atoms)
  | .string s =>
      if prop.type ≠ atomType then (.error .wrongType, atoms)
      else
        match diXorgInternAtom X F s atoms with
        | (none, atoms) => (.error .notInterned, atoms)
        | (some atom, atoms) =>
            if prop.type = floatAtom then (.error .wrongType, atoms) else (.ok atom.toNat, atoms)
  | .stringLiteral s =>
      if prop.type ≠ atomType then (.error .wrongType, atoms)
      else
        match diXorgInternAtom X F s atoms with
        | (none, atoms) => (.error .notInterned, atoms)
        | (some _, atoms) => (.error .wrongType, atoms)

def storeAll (prop : Property) (floatAtom : UInt32) :
    List Element → List AtomEntry → Except Outcome (List ℕ) × List AtomEntry
  | [], atoms => (.ok [], atoms)
  | x :: rest, atoms =>
      match store X F R prop floatAtom x atoms with
      | (.error e, atoms) => (.error e, atoms)
      | (.ok item, atoms) =>
          match storeAll prop floatAtom rest atoms with
          | (.error e, atoms) => (.error e, atoms)
          | (.ok items, atoms) => (.ok (item :: items), atoms)

/-- The atom of the type of floats; an error is not looked at. -/
def internFloat (atoms : List AtomEntry) : UInt32 × List AtomEntry :=
  let (atom, atoms) := diXorgInternAtom X F (bytes "FLOAT") atoms
  (atom.getD 0, atoms)

/-- The server stores the items that are sent. -/
def diXorgXinputSetProp (key : Name) (items : Items) (s : State) : Outcome × State :=
  match diXorgInternAtom X F key s.atoms with
  | (none, atoms) => (.notInterned, {s with atoms})
  | (some propAtom, atoms) =>
      let (floatAtom, atoms) := internFloat X F atoms
      match s.props propAtom with
      | none => (.missing, {s with atoms})
      | some prop =>
          if (prop.type = floatAtom ∨ prop.type = atomType) ∧ prop.format ≠ 32 then
            (.wrongFormat, {s with atoms})
          else
            match storeAll X F R prop floatAtom items.elements atoms with
            | (.error e, atoms) => (e, {s with atoms})
            | (.ok data, atoms) => (.sent, {
                atoms
                props := fun a => if a = propAtom then some {prop with items := data}
                  else s.props a})

/-! ## Reading -/

inductive Answer where
  | threw (message : String)
  | aborted
  | bottom
  | int (v : ℤ)
  | ints (l : List ℤ)
  | string (s : Name)
  | strings (l : List Name)
  | float (bits : UInt64)
  | floats (l : List UInt64)
  deriving DecidableEq

/-- `%02x` -/
def hex (n : ℕ) : String :=
  let digits := Nat.toDigits 16 n
  String.ofList (List.replicate (2 - digits.length) '0' ++ digits)

/-- An array of one is unpacked. -/
def unpack {α : Type} (single : α → Answer) (many : List α → Answer) : List α → Answer
  | [x] => single x
  | l => many l

def readNames : List ℕ → List AtomEntry → List Name × List AtomEntry
  | [], atoms => ([], atoms)
  | a :: rest, atoms =>
      let (name, atoms) := diXorgGetAtomName X F (.ofNat a) atoms
      let (names, atoms) := readNames rest atoms
      (name.getD [] :: names, atoms)

/-- A property whose type and items have been read. -/
def readProp (prop : Property) (floatAtom : UInt32) (s : State) : Answer × State :=
  let numeric := prop.type = integerType ∨ prop.type = cardinalType
  if ¬ (numeric ∨ prop.type = atomType ∨ prop.type = stringType ∨ prop.type = floatAtom) then
    (.threw ("Property has unknown type: " ++ toString prop.type.toInt32), s)
  else if prop.format ≠ 8 ∧ prop.format ≠ 16 ∧ prop.format ≠ 32 then
    (.threw ("Property has invalid format " ++ hex prop.format), s)
  else if (prop.type = floatAtom ∨ prop.type = atomType) ∧ prop.format ≠ 32 then
    (.threw "X server is misbehaving", s)
  else if prop.type = stringType then
    if prop.format = 8 then
      (.string ((prop.items.takeWhile (· ≠ 0)).map .ofNat), s)
    else (.aborted, s)
  else if numeric then (unpack .int .ints (prop.items.map Int.ofNat), s)
  else if prop.type = atomType then
    let (names, atoms) := readNames X F prop.items s.atoms
    (unpack .string .strings names, {s with atoms})
  else (unpack .float .floats (prop.items.map fun n => R.toDouble (.ofNat n)), s)

def diXorgXinputGetProp (key : Name) (s : State) : Answer × State :=
  match diXorgInternAtom X F key s.atoms with
  | (none, atoms) => (.threw "Failed to intern atom", {s with atoms})
  | (some propAtom, atoms) =>
      let (floatAtom, atoms) := internFloat X F atoms
      match s.props propAtom with
      | none => (.bottom, {s with atoms})
      | some prop => readProp X F R prop floatAtom {s with atoms}

/-! ## The calls on a connection -/

inductive Op where
  | set (key : Name) (items : Items)
  | get (key : Name)
  | intern (name : Name)
  | nameOf (atom : UInt32)
  /-- The properties are changed by others. -/
  | change (props : UInt32 → Option Property)

/-- The names that a call gives to the connection. -/
def Op.names : Op → List Name
  | .set key items => key :: items.names
  | .get key => [key]
  | .intern name => [name]
  | _ => []

def exec (s : State) : Op → State
  | .set key items => (diXorgXinputSetProp X F R key items s).2
  | .get key => (diXorgXinputGetProp X F R key s).2
  | .intern name => {s with atoms := (diXorgInternAtom X F name s.atoms).2}
  | .nameOf atom => {s with atoms := (diXorgGetAtomName X F atom s.atoms).2}
  | .change props => {s with props}

/-- A run of a connection, with its calls. -/
inductive Run : List Op → State → Prop
  | init (props : UInt32 → Option Property) : Run [] {props}
  | step {l : List Op} {s : State} (a : Op) : Run l s → Run (a :: l) (exec X F R s a)

/-- The property with a name. -/
def HasProperty (s : State) (key : Name) (type : UInt32) (format : ℕ) : Prop :=
  ∃ a prop, X.internAtom key = some a ∧ s.props a = some prop ∧ prop.type = type ∧
    prop.format = format

/-- Integers for the types of integers, and strings for atoms. -/
def Suits (type : UInt32) : Items → Prop
  | .int _ | .uint _ | .nint _ | .nuint _ => type = integerType ∨ type = cardinalType
  | .string _ | .stringLiteral _ => type = atomType
  | _ => False

/-- What should be read back. -/
def Items.readBack : Items → Answer
  | .string l => unpack .string .strings l
  | .stringLiteral l => unpack .string .strings l
  | items => unpack .int .ints items.numbers

/-- The integers that a property has room for. -/
def itemType (type : UInt32) (format : ℕ) : IntType := ⟨format, type = cardinalType⟩

/-- What is sent is read back, and integers that do not fit are refused. -/
structure Meets (key : Name) (type : UInt32) (format : ℕ) (items : Items) (s : State) : Prop where
  back : (diXorgXinputSetProp X F R key items s).1 = .sent →
    (diXorgXinputGetProp X F R key (diXorgXinputSetProp X F R key items s).2).1 = items.readBack
  refused : (∃ v ∈ items.numbers, ¬ (itemType type format).Fits v) →
    (diXorgXinputSetProp X F R key items s).1.refused ∧
      (diXorgXinputSetProp X F R key items s).2.props = s.props

/-! ## The items of a property -/

variable {X F R} {key : Name} {type : UInt32} {format : ℕ} {items : Items} {s : State}
  {atoms : List AtomEntry} {prop : Property}

/-- The type of floats, `0` when there is none. -/
def floatType (X : Server) : UInt32 := (X.internAtom (bytes "FLOAT")).getD 0

theorem floatType_ne (X : Server) : floatType X ≠ integerType ∧ floatType X ≠ cardinalType ∧
    floatType X ≠ atomType := by
  have hne : ∀ {name : Name} {a : UInt32}, X.internAtom name = some a → bytes "FLOAT" ≠ name →
      a ≠ 0 → floatType X ≠ a := by
    intro name a hname hdiff hzero heq
    rw [floatType] at heq
    cases hfloat : X.internAtom (bytes "FLOAT") with
    | none =>
        rw [hfloat] at heq
        exact hzero heq.symm
    | some b =>
        rw [hfloat, Option.getD_some] at heq
        exact hdiff (X.injective (heq ▸ hfloat) hname)
  exact ⟨hne X.integer (by decide) (by decide), hne X.cardinal (by decide) (by decide),
    hne X.atom (by decide) (by decide)⟩

theorem internFloat_spec (h : Known X atoms) :
    ∃ atoms', internFloat X F atoms = (floatType X, atoms') ∧ Known X atoms' ∧ atoms ⊆ atoms' := by
  have hshort : (bytes "FLOAT").length < 2 ^ 16 := by decide
  obtain ⟨atoms', hrun, hknown, hsub, -⟩ := internAtom_spec (F := F) h hshort
  exact ⟨atoms', by rw [internFloat, hrun]; rfl, hknown, hsub⟩

theorem store_number (floatAtom : UInt32) (i64 : ℤ) (atoms : List AtomEntry) :
    store X F R prop floatAtom (.number i64) atoms =
      if prop.type = integerType ∨ prop.type = cardinalType then
        if prop.format = 8 ∨ prop.format = 16 ∨ prop.format = 32 then
          (.ok (i64 % 2 ^ prop.format).toNat, atoms)
        else (.error .noData, atoms)
      else if prop.type = floatAtom then (.ok (R.ofInt i64).toNat, atoms)
      else if prop.type = atomType then (.error .wrongType, atoms)
      else (.error .noData, atoms) := rfl

theorem store_string (floatAtom : UInt32) (s : Name) (atoms : List AtomEntry) :
    store X F R prop floatAtom (.string s) atoms =
      if prop.type ≠ atomType then (.error .wrongType, atoms)
      else
        match diXorgInternAtom X F s atoms with
        | (none, atoms) => (.error .notInterned, atoms)
        | (some atom, atoms) =>
            if prop.type = floatAtom then (.error .wrongType, atoms) else (.ok atom.toNat, atoms) :=
  rfl

theorem store_stringLiteral (floatAtom : UInt32) (s : Name) (atoms : List AtomEntry) :
    store X F R prop floatAtom (.stringLiteral s) atoms =
      if prop.type ≠ atomType then (.error .wrongType, atoms)
      else
        match diXorgInternAtom X F s atoms with
        | (none, atoms) => (.error .notInterned, atoms)
        | (some _, atoms) => (.error .wrongType, atoms) := rfl

theorem storeAll_cons (floatAtom : UInt32) (x : Element) (l : List Element)
    (atoms : List AtomEntry) :
    storeAll X F R prop floatAtom (x :: l) atoms =
      match store X F R prop floatAtom x atoms with
      | (.error e, atoms) => (.error e, atoms)
      | (.ok item, atoms) =>
          match storeAll X F R prop floatAtom l atoms with
          | (.error e, atoms) => (.error e, atoms)
          | (.ok items, atoms) => (.ok (item :: items), atoms) := rfl

theorem storeAll_numbers {floatAtom : UInt32}
    (htype : prop.type = integerType ∨ prop.type = cardinalType)
    (hformat : prop.format = 8 ∨ prop.format = 16 ∨ prop.format = 32) (l : List ℤ) :
    storeAll X F R prop floatAtom (l.map fun v => .number (v.bmod (2 ^ 64))) atoms =
      (.ok (l.map fun v => (v % 2 ^ prop.format).toNat), atoms) := by
  have hwrap : ∀ v : ℤ, v.bmod (2 ^ 64) % 2 ^ prop.format = v % 2 ^ prop.format := by
    intro v
    have hdvd : (2 : ℤ) ^ prop.format ∣ (2 ^ 64 : ℕ) := by
      rw [Nat.cast_pow, Nat.cast_ofNat]
      exact pow_dvd_pow 2 (by omega)
    rw [← Int.emod_emod_of_dvd (v.bmod (2 ^ 64)) hdvd, Int.bmod_emod, Int.emod_emod_of_dvd v hdvd]
  induction l with
  | nil => rfl
  | cons v l ih =>
      rw [List.map_cons, storeAll_cons, store_number]
      simp only [htype, hformat, if_true, ih, hwrap, List.map_cons]

theorem floatType_ne_atom (X : Server) : floatType X ≠ atomType := (floatType_ne X).2.2

/-- The atoms of strings get their names back as long as the entries are there. -/
theorem storeAll_names (htype : prop.type = atomType) (h : Known X atoms) (l : List Name)
    (hl : ∀ n ∈ l, n.length < 2 ^ 16) :
    (∃ atoms', storeAll X F R prop (floatType X) (l.map .string) atoms =
      (.error .notInterned, atoms')) ∨
    ∃ data atoms', storeAll X F R prop (floatType X) (l.map .string) atoms = (.ok data, atoms') ∧
      atoms ⊆ atoms' ∧ ∀ atoms'', Known X atoms'' → atoms' ⊆ atoms'' →
        readNames X F data atoms'' = (l, atoms'') := by
  induction l generalizing atoms with
  | nil => exact .inr ⟨[], atoms, rfl, List.Subset.refl _, fun _ _ _ => rfl⟩
  | cons n l ih =>
      obtain ⟨hn, hl⟩ := List.forall_mem_cons.mp hl
      obtain ⟨atoms₁, hintern, hknown, hsub, hmem⟩ := internAtom_spec (F := F) h hn
      rw [List.map_cons, storeAll_cons]
      cases hatom : X.internAtom n with
      | none =>
          have hstore : store X F R prop (floatType X) (.string n) atoms
              = (.error .notInterned, atoms₁) := by
            simp only [store_string, hintern, hatom, htype, ne_eq, not_true_eq_false, if_false]
          rw [hstore]
          exact .inl ⟨atoms₁, rfl⟩
      | some atom =>
          have hstore : store X F R prop (floatType X) (.string n) atoms
              = (.ok atom.toNat, atoms₁) := by
            simp only [store_string, hintern, hatom, htype, ne_eq, not_true_eq_false, if_false,
              (floatType_ne_atom X).symm]
          rw [hstore]
          rcases ih hknown hl with ⟨atoms₂, hrest⟩ | ⟨data, atoms₂, hrest, hsub₂, hread⟩
          · exact .inl ⟨atoms₂, by simp only [hrest]⟩
          · refine .inr ⟨atom.toNat :: data, atoms₂, by simp only [hrest],
              List.Subset.trans hsub hsub₂, ?_⟩
            intro atoms'' hknown'' hsub''
            have hname := getAtomName_spec (F := F) hknown'' hatom
              (hsub'' (hsub₂ (hmem atom (hatom ▸ rfl))))
            rw [readNames, UInt32.ofNat_toNat, hname]
            simp only [hread atoms'' hknown'' hsub'', Option.getD_some]

theorem storeAll_literals (htype : prop.type = atomType) (l : List Name) (hl : l ≠ []) :
    ∃ e atoms', storeAll X F R prop (floatType X) (l.map .stringLiteral) atoms =
      (.error e, atoms') ∧ e ≠ .sent := by
  obtain ⟨n, l, rfl⟩ := List.exists_cons_of_ne_nil hl
  simp only [List.map_cons, storeAll_cons, store_stringLiteral, htype, ne_eq, not_true_eq_false,
    if_false]
  rcases diXorgInternAtom X F n atoms with ⟨_ | atom, atoms'⟩
  · exact ⟨_, atoms', rfl, by decide⟩
  · exact ⟨_, atoms', rfl, by decide⟩

/-! ## The cache over a run -/

theorem store_known {floatAtom : UInt32} (h : Known X atoms) {x : Element}
    (hx : ∀ n, x = .string n ∨ x = .stringLiteral n → n.length < 2 ^ 16) :
    Known X (store X F R prop floatAtom x atoms).2 := by
  have hintern : ∀ n, n.length < 2 ^ 16 → Known X (diXorgInternAtom X F n atoms).2 := by
    intro n hn
    obtain ⟨atoms', hrun, hknown, -⟩ := internAtom_spec (F := F) h hn
    rw [hrun]
    exact hknown
  cases x with
  | string n =>
      have hn := hintern n (hx n (.inl rfl))
      rw [store_string]
      by_cases htype : prop.type ≠ atomType
      · rw [if_pos htype]
        exact h
      · rw [if_neg htype]
        rcases hrun : diXorgInternAtom X F n atoms with ⟨_ | atom, atoms'⟩
        · rwa [hrun] at hn
        · rw [hrun] at hn
          simp only
          split_ifs
          · exact hn
          · exact hn
  | stringLiteral n =>
      have hn := hintern n (hx n (.inr rfl))
      rw [store_stringLiteral]
      by_cases htype : prop.type ≠ atomType
      · rw [if_pos htype]
        exact h
      · rw [if_neg htype]
        rcases hrun : diXorgInternAtom X F n atoms with ⟨_ | atom, atoms'⟩
        · rwa [hrun] at hn
        · rwa [hrun] at hn
  | number i64 =>
      rw [store_number]
      split_ifs <;> exact h
  | float bits =>
      simp only [store]
      split_ifs <;> exact h
  | wrong => exact h

theorem storeAll_known {floatAtom : UInt32} {l : List Element} (h : Known X atoms)
    (hl : ∀ n, .string n ∈ l ∨ .stringLiteral n ∈ l → n.length < 2 ^ 16) :
    Known X (storeAll X F R prop floatAtom l atoms).2 := by
  induction l generalizing atoms with
  | nil => exact h
  | cons x l ih =>
      have hx : ∀ n, x = .string n ∨ x = .stringLiteral n → n.length < 2 ^ 16 := by
        rintro n (rfl | rfl)
        · exact hl n (.inl List.mem_cons_self)
        · exact hl n (.inr List.mem_cons_self)
      have hfirst : Known X (store X F R prop floatAtom x atoms).2 := store_known h hx
      have hrest : ∀ n, .string n ∈ l ∨ .stringLiteral n ∈ l → n.length < 2 ^ 16 :=
        fun n hn => hl n (hn.imp (List.mem_cons_of_mem x) (List.mem_cons_of_mem x))
      rw [storeAll_cons]
      rcases hstore : store X F R prop floatAtom x atoms with ⟨e | item, atoms'⟩
      · rw [hstore] at hfirst
        exact hfirst
      · rw [hstore] at hfirst
        have hknown := ih hfirst hrest
        simp only
        rcases hall : storeAll X F R prop floatAtom l atoms' with ⟨e | data, atoms''⟩
        · rw [hall] at hknown
          exact hknown
        · rw [hall] at hknown
          exact hknown

theorem readNames_known (l : List ℕ) (h : Known X atoms) : Known X (readNames X F l atoms).2 := by
  induction l generalizing atoms with
  | nil => exact h
  | cons a l ih => exact ih (getAtomName_known h)

theorem mem_elements (items : Items) (n : Name)
    (h : .string n ∈ items.elements ∨ .stringLiteral n ∈ items.elements) : n ∈ items.names := by
  cases items with
  | string l | stringLiteral l => simpa [Items.elements, Items.names] using h
  | int l | uint l | nint l | nuint l | float l | other elemType k =>
      simp [Items.elements, Items.numbers] at h

/-- `di_xorg_xinput_set_prop` after its requests. -/
theorem setProp_eq (h : Known X s.atoms) (hkey : key.length < 2 ^ 16) (items : Items) :
    ∃ atoms, Known X atoms ∧ diXorgXinputSetProp X F R key items s =
      match X.internAtom key with
      | none => (.notInterned, {s with atoms})
      | some a =>
          match s.props a with
          | none => (.missing, {s with atoms})
          | some prop =>
              if (prop.type = floatType X ∨ prop.type = atomType) ∧ prop.format ≠ 32 then
                (.wrongFormat, {s with atoms})
              else
                match storeAll X F R prop (floatType X) items.elements atoms with
                | (.error e, atoms) => (e, {s with atoms})
                | (.ok data, atoms) => (.sent, {
                    atoms
                    props := fun b =>
                      if b = a then some {prop with items := data} else s.props b}) := by
  obtain ⟨atoms₁, hintern, hknown₁, -⟩ := internAtom_spec (F := F) h hkey
  obtain ⟨atoms₂, hfloat, hknown₂, -⟩ := internFloat_spec (F := F) hknown₁
  rw [diXorgXinputSetProp, hintern]
  cases X.internAtom key with
  | none => exact ⟨atoms₁, hknown₁, rfl⟩
  | some a => exact ⟨atoms₂, hknown₂, by simp only [hfloat]⟩

theorem setProp_known (h : Known X s.atoms) (hkey : key.length < 2 ^ 16)
    (hitems : ∀ n ∈ items.names, n.length < 2 ^ 16) :
    Known X (diXorgXinputSetProp X F R key items s).2.atoms := by
  obtain ⟨atoms, hknown, heq⟩ := setProp_eq (F := F) (R := R) h hkey items
  rw [heq]
  cases X.internAtom key with
  | none => exact hknown
  | some a =>
      simp only
      cases s.props a with
      | none => exact hknown
      | some prop =>
          simp only
          split_ifs
          · exact hknown
          · have hall : Known X (storeAll X F R prop (floatType X) items.elements atoms).2 :=
              storeAll_known hknown fun n hn => hitems n (mem_elements items n hn)
            rcases hstore : storeAll X F R prop (floatType X) items.elements atoms with
              ⟨e | data, atoms'⟩
            · rwa [hstore] at hall
            · rwa [hstore] at hall

/-- `di_xorg_xinput_get_prop` after its requests. -/
theorem getProp_eq (h : Known X s.atoms) (hkey : key.length < 2 ^ 16) :
    ∃ atoms, Known X atoms ∧ s.atoms ⊆ atoms ∧ diXorgXinputGetProp X F R key s =
      match X.internAtom key with
      | none => (.threw "Failed to intern atom", {s with atoms})
      | some a =>
          match s.props a with
          | none => (.bottom, {s with atoms})
          | some prop => readProp X F R prop (floatType X) {s with atoms} := by
  obtain ⟨atoms₁, hintern, hknown₁, hsub₁, -⟩ := internAtom_spec (F := F) h hkey
  obtain ⟨atoms₂, hfloat, hknown₂, hsub₂⟩ := internFloat_spec (F := F) hknown₁
  rw [diXorgXinputGetProp, hintern]
  cases X.internAtom key with
  | none => exact ⟨atoms₁, hknown₁, hsub₁, rfl⟩
  | some a => exact ⟨atoms₂, hknown₂, List.Subset.trans hsub₁ hsub₂, by simp only [hfloat]⟩

theorem getProp_known (h : Known X s.atoms) (hkey : key.length < 2 ^ 16) :
    Known X (diXorgXinputGetProp X F R key s).2.atoms := by
  obtain ⟨atoms, hknown, -, heq⟩ := getProp_eq (F := F) (R := R) h hkey
  rw [heq]
  cases X.internAtom key with
  | none => exact hknown
  | some a =>
      simp only
      cases s.props a with
      | none => exact hknown
      | some prop =>
          simp only [readProp]
          split_ifs
          all_goals first | exact hknown | exact readNames_known prop.items hknown

theorem run_known {l : List Op} (h : Run X F R l s)
    (hnames : ∀ a ∈ l, ∀ n ∈ a.names, n.length < 2 ^ 16) : Known X s.atoms := by
  induction h with
  | init props => exact nofun
  | @step l s a hrun ih =>
      obtain ⟨ha, hl⟩ := List.forall_mem_cons.mp hnames
      have hknown := ih hl
      cases a with
      | set key items =>
          obtain ⟨hkey, hitems⟩ := List.forall_mem_cons.mp ha
          exact setProp_known hknown hkey hitems
      | get key => exact getProp_known hknown (ha key (List.mem_singleton_self key))
      | intern name =>
          obtain ⟨atoms, hintern, hatoms, -⟩ := internAtom_spec (F := F) hknown
            (ha name (List.mem_singleton_self name))
          rw [exec, hintern]
          exact hatoms
      | nameOf atom => exact getAtomName_known hknown
      | change props => exact hknown

/-! ## Integers -/

theorem unpack_int_inj {l l' : List ℤ} :
    unpack .int .ints l = unpack .int .ints l' ↔ l = l' := by
  rcases l with _ | ⟨x, _ | ⟨y, l⟩⟩ <;> rcases l' with _ | ⟨x', _ | ⟨y', l'⟩⟩ <;> simp [unpack]

theorem readProp_numbers (prop : Property)
    (htype : prop.type = integerType ∨ prop.type = cardinalType)
    (hformat : prop.format = 8 ∨ prop.format = 16 ∨ prop.format = 32) :
    (readProp X F R prop (floatType X) s).1 =
      unpack .int .ints (prop.items.map Int.ofNat) := by
  obtain ⟨hinteger, hcardinal, -⟩ := floatType_ne X
  have hfloat : prop.type ≠ floatType X := by
    rcases htype with htype | htype
    · exact htype ▸ hinteger.symm
    · exact htype ▸ hcardinal.symm
  have hatom : prop.type ≠ atomType ∧ prop.type ≠ stringType := by
    rcases htype with htype | htype
    · exact htype ▸ ⟨by decide, by decide⟩
    · exact htype ▸ ⟨by decide, by decide⟩
  have hvalid : ¬ (prop.format ≠ 8 ∧ prop.format ≠ 16 ∧ prop.format ≠ 32) := by omega
  simp only [readProp, htype, hfloat, hatom, hvalid, true_or, not_true_eq_false, or_self,
    false_and, if_false, if_true]

theorem emod_eq_self_iff {v : ℤ} {n : ℕ} : v % 2 ^ n = v ↔ 0 ≤ v ∧ v < 2 ^ n := by
  have hpos : (0 : ℤ) < 2 ^ n := by positivity
  constructor
  · intro h
    exact ⟨h ▸ Int.emod_nonneg v hpos.ne', h ▸ Int.emod_lt_of_pos v hpos⟩
  · rintro ⟨hnonneg, hlt⟩
    exact Int.emod_eq_of_lt hnonneg hlt

/-- The integers that come back, among those that fit. -/
theorem fits_and_emod_iff {v : ℤ} : (v % 2 ^ format = v ∧ (itemType type format).Fits v) ↔
    0 ≤ v ∧ (itemType type format).Fits v := by
  rw [emod_eq_self_iff, and_assoc]
  refine and_congr_right fun hnonneg => ⟨And.right, fun hfits => ⟨?_, hfits⟩⟩
  refine (Int.le_sub_one_iff.mp (hfits.2.trans ?_))
  rw [itemType, IntType.max]
  split_ifs
  · exact le_rfl
  · exact sub_le_sub_right (pow_le_pow_right₀ (by norm_num) (Nat.sub_le _ _)) 1

theorem meets_numbers_iff (h : Known X s.atoms) (hkey : key.length < 2 ^ 16)
    (hprop : HasProperty X s key type format) (hformat : format = 8 ∨ format = 16 ∨ format = 32)
    (htype : type = integerType ∨ type = cardinalType)
    (helements : items.elements = items.numbers.map fun v => .number (v.bmod (2 ^ 64)))
    (hback : items.readBack = unpack .int .ints items.numbers) :
    Meets X F R key type format items s ↔
      ∀ v ∈ items.numbers, 0 ≤ v ∧ (itemType type format).Fits v := by
  obtain ⟨a, prop, ha, hs, rfl, rfl⟩ := hprop
  obtain ⟨hinteger, hcardinal, -⟩ := floatType_ne X
  have hvalid : ¬ ((prop.type = floatType X ∨ prop.type = atomType) ∧ prop.format ≠ 32) := by
    rintro ⟨heq | heq, -⟩
    · rcases htype with htype | htype
      · exact hinteger (heq.symm.trans htype)
      · exact hcardinal (heq.symm.trans htype)
    · rw [heq] at htype
      exact absurd htype (by decide)
  obtain ⟨atoms, hknown, hset⟩ := setProp_eq (F := F) (R := R) h hkey items
  simp only [ha, hs, hvalid, if_false, helements, storeAll_numbers htype hformat] at hset
  have hget : (diXorgXinputGetProp X F R key (diXorgXinputSetProp X F R key items s).2).1 =
      unpack .int .ints (items.numbers.map (· % 2 ^ prop.format)) := by
    rw [hset]
    let data := items.numbers.map fun v => (v % 2 ^ prop.format).toNat
    obtain ⟨atoms', -, -, heq⟩ := getProp_eq (F := F) (R := R) (s := {
      atoms
      props := fun b => if b = a then some {prop with items := data} else s.props b}) hknown hkey
    simp only [ha, if_true] at heq
    rw [heq]
    refine (readProp_numbers {prop with items := data} htype hformat).trans ?_
    rw [List.map_map]
    refine congrArg _ (List.map_congr_left fun v _ => ?_)
    exact Int.toNat_of_nonneg (Int.emod_nonneg v (by positivity))
  have hmap : items.numbers.map (· % 2 ^ prop.format) = items.numbers ↔
      ∀ v ∈ items.numbers, v % 2 ^ prop.format = v := by
    refine Iff.trans ?_ List.map_eq_map_iff
    rw [List.map_id']
  have hsent : (diXorgXinputSetProp X F R key items s).1 = .sent := by rw [hset]
  constructor
  · rintro ⟨hreads, hrefused⟩ v hv
    rw [← fits_and_emod_iff]
    refine ⟨?_, ?_⟩
    · have heq := hreads hsent
      rw [hget, hback, unpack_int_inj, hmap] at heq
      exact heq v hv
    · by_contra hfits
      have hno := (hrefused ⟨v, hv, hfits⟩).1
      rw [hsent] at hno
      exact hno
  · intro hall
    have hboth := fun v hv => fits_and_emod_iff.mpr (hall v hv)
    refine ⟨fun _ => ?_, ?_⟩
    · rw [hget, hback, unpack_int_inj, hmap]
      exact fun v hv => (hboth v hv).1
    · rintro ⟨v, hv, hfits⟩
      exact absurd (hboth v hv).2 hfits

/-! ## Strings -/

theorem readProp_names (prop : Property) (htype : prop.type = atomType)
    (hformat : prop.format = 32) :
    (readProp X F R prop (floatType X) s).1 =
      unpack .string .strings (readNames X F prop.items s.atoms).1 := by
  have hother : atomType ≠ integerType ∧ atomType ≠ cardinalType ∧ atomType ≠ stringType := by
    decide
  simp only [readProp, htype, hformat, hother, (floatType_ne_atom X).symm]
  simp

/-- Strings come back when they are sent. -/
theorem meets_names (h : Known X s.atoms) (hkey : key.length < 2 ^ 16)
    (hprop : HasProperty X s key atomType format) (hnumbers : items.numbers = [])
    (hback : items.readBack = unpack .string .strings items.names)
    (hstore : ∀ prop atoms, prop.type = atomType → Known X atoms →
      (∃ e atoms', storeAll X F R prop (floatType X) items.elements atoms = (.error e, atoms') ∧
        e ≠ .sent) ∨
      ∃ data atoms', storeAll X F R prop (floatType X) items.elements atoms = (.ok data, atoms') ∧
        Known X atoms' ∧ ∀ atoms'', Known X atoms'' → atoms' ⊆ atoms'' →
          (readNames X F data atoms'').1 = items.names) :
    Meets X F R key atomType format items s := by
  refine ⟨fun hsent => ?_, fun hbad => ?_⟩
  · obtain ⟨a, prop, ha, hs, htype, rfl⟩ := hprop
    obtain ⟨atoms, hknown, hset⟩ := setProp_eq (F := F) (R := R) h hkey items
    simp only [ha, hs] at hset
    by_cases hformat : prop.format ≠ 32
    · rw [if_pos ⟨.inr htype, hformat⟩] at hset
      rw [hset] at hsent
      cases hsent
    · rw [if_neg fun hno => hformat hno.2] at hset
      rcases hstore prop atoms htype hknown with ⟨e, atoms', hfail, hne⟩ |
        ⟨data, atoms', hok, hknown', hread⟩
      · rw [hset, hfail] at hsent
        exact absurd hsent hne
      · simp only [hok] at hset
        rw [hset, hback]
        obtain ⟨atoms'', hknown'', hsub, heq⟩ := getProp_eq (F := F) (R := R) (s := {
          atoms := atoms'
          props := fun b => if b = a then some {prop with items := data} else s.props b})
          hknown' hkey
        simp only [ha, if_true] at heq
        rw [heq, readProp_names {prop with items := data} htype (not_not.mp hformat),
          hread atoms'' hknown'' hsub]
  · obtain ⟨v, hv, -⟩ := hbad
    rw [hnumbers] at hv
    cases hv

/-- After any calls: what is written to a property is read back, and refused when it does not fit,
if and only if its integers fit and are not negative. No call gives a name of `2 ^ 16` bytes. -/
theorem reads_back_iff {l : List Op} (h : Run X F R l s)
    (hnames : ∀ a ∈ .set key items :: l, ∀ n ∈ a.names, n.length < 2 ^ 16)
    (hprop : HasProperty X s key type format) (hformat : format = 8 ∨ format = 16 ∨ format = 32)
    (hsuits : Suits type items) :
    Meets X F R key type format items s ↔
      ∀ v ∈ items.numbers, 0 ≤ v ∧ (itemType type format).Fits v := by
  obtain ⟨hcall, hbefore⟩ := List.forall_mem_cons.mp hnames
  obtain ⟨hkey, hitems⟩ := List.forall_mem_cons.mp hcall
  have hknown := run_known h hbefore
  cases items with
  | int l | uint l | nint l | nuint l =>
      exact meets_numbers_iff hknown hkey hprop hformat hsuits rfl rfl
  | float l | other elemType k => exact hsuits.elim
  | string l =>
      obtain rfl : type = atomType := hsuits
      refine iff_of_true ?_ nofun
      refine meets_names hknown hkey hprop rfl rfl fun prop atoms htype hatoms => ?_
      rcases storeAll_names (F := F) (R := R) htype hatoms l hitems with
        ⟨atoms', hfail⟩ | ⟨data, atoms', hok, -, hread⟩
      · exact .inl ⟨_, atoms', hfail, by decide⟩
      · have hknown' : Known X (storeAll X F R prop (floatType X) (l.map .string) atoms).2 :=
          storeAll_known hatoms fun n hn => hitems n (mem_elements (.string l) n hn)
        rw [hok] at hknown'
        exact .inr ⟨data, atoms', hok, hknown', fun atoms'' hknown'' hsub =>
          congrArg Prod.fst (hread atoms'' hknown'' hsub)⟩
  | stringLiteral l =>
      obtain rfl : type = atomType := hsuits
      refine iff_of_true ?_ nofun
      refine meets_names hknown hkey hprop rfl rfl fun prop atoms htype hatoms => ?_
      by_cases hl : l = []
      · rw [hl]
        exact .inr ⟨[], atoms, rfl, hatoms, fun _ _ _ => rfl⟩
      · exact .inl (storeAll_literals htype l hl)

/-! ## A device -/

def accel : Name := bytes "Accel"

/-- The atoms of a server with one more name. -/
def someAtoms (name : Name) : Option UInt32 :=
  if name = bytes "ATOM" then some atomType
  else if name = bytes "CARDINAL" then some cardinalType
  else if name = bytes "INTEGER" then some integerType
  else if name = bytes "FLOAT" then some 300
  else if name = accel then some 301
  else none

def someEntries : List (Name × UInt32) :=
  [(bytes "ATOM", atomType), (bytes "CARDINAL", cardinalType), (bytes "INTEGER", integerType),
    (bytes "FLOAT", 300), (accel, 301)]

theorem someAtoms_mem {name : Name} {a : UInt32} (h : someAtoms name = some a) :
    (name, a) ∈ someEntries := by
  simp only [someEntries, List.mem_cons, List.not_mem_nil, or_false, Prod.mk.injEq]
  unfold someAtoms at h
  split_ifs at h with hatom hcardinal hinteger hfloat haccel
  · exact .inl ⟨hatom, (Option.some.inj h).symm⟩
  · exact .inr (.inl ⟨hcardinal, (Option.some.inj h).symm⟩)
  · exact .inr (.inr (.inl ⟨hinteger, (Option.some.inj h).symm⟩))
  · exact .inr (.inr (.inr (.inl ⟨hfloat, (Option.some.inj h).symm⟩)))
  · exact .inr (.inr (.inr (.inr ⟨haccel, (Option.some.inj h).symm⟩)))

theorem someAtoms_injective {m n : Name} {a : UInt32} (hm : someAtoms m = some a)
    (hn : someAtoms n = some a) : m = n := by
  have hinjective : ∀ x ∈ someEntries, ∀ y ∈ someEntries, x.2 = y.2 → x.1 = y.1 := by decide
  exact hinjective _ (someAtoms_mem hm) _ (someAtoms_mem hn) rfl

def someServer : Server where
  internAtom := someAtoms
  getAtomName _ := none
  injective := someAtoms_injective
  named := nofun
  atom := by decide
  cardinal := by decide
  integer := by decide

def firstEntry : AtomFind where
  find := List.find?
  found h := ⟨List.mem_of_find?_eq_some h, List.find?_some h⟩
  missing h e he := by simpa using List.find?_eq_none.mp h e he

/-- Floats are not used. -/
def noFloats : Floats := ⟨fun _ => 0, fun _ => 0, fun _ => 0⟩

/-- A device with one property of width 8. -/
def device (type : UInt32) : State where
  props a := if a = 301 then some ⟨type, 8, [0]⟩ else none

/-- Cardinals that fit come back. -/
theorem reads_back_cardinals : ∃ l s, Run someServer firstEntry noFloats l s ∧
    (diXorgXinputGetProp someServer firstEntry noFloats accel
      (diXorgXinputSetProp someServer firstEntry noFloats accel (.int [1, 255]) s).2).1 =
        .ints [1, 255] := by
  have hrun := (Run.init (X := someServer) (F := firstEntry) (R := noFloats)
    (device cardinalType).props).step (.get accel)
  have hprop : HasProperty someServer (device cardinalType) accel cardinalType 8 :=
    ⟨301, _, rfl, rfl, rfl, rfl⟩
  have hsuits : Suits cardinalType (.int [1, 255]) := .inr rfl
  have hmeets := (reads_back_iff hrun (by decide) hprop (.inl rfl) hsuits).mpr (by decide)
  exact ⟨_, _, hrun, hmeets.back rfl⟩

/-- A negative integer comes back as another one, and a cardinal that is too large is sent. -/
theorem reads_back_wrong :
    (∃ l s, Run someServer firstEntry noFloats l s ∧
      HasProperty someServer s accel integerType 8 ∧
      ¬ Meets someServer firstEntry noFloats accel integerType 8 (.int [-1]) s) ∧
    ∃ l s, Run someServer firstEntry noFloats l s ∧
      HasProperty someServer s accel cardinalType 8 ∧
      ¬ Meets someServer firstEntry noFloats accel cardinalType 8 (.int [256]) s := by
  refine ⟨⟨[], _, .init (device integerType).props, ⟨301, _, rfl, rfl, rfl, rfl⟩, fun h => ?_⟩,
    [], _, .init (device cardinalType).props, ⟨301, _, rfl, rfl, rfl, rfl⟩, fun h => ?_⟩
  · have heq : Answer.int 255 = .int (-1) := h.back rfl
    exact absurd heq (by decide)
  · exact (h.refused ⟨256, List.mem_singleton_self _, by decide⟩).1

end Deai.InputProperties
