import Mathlib.Data.List.Basic
import Mathlib.Tactic

/-!
# The cache of atoms

`di_xorg_intern_atom` and `di_xorg_get_atom_name` of the module `xorg`. A connection keeps the atoms
that it has seen in two hash tables, by their names and by their numbers. An entry is always in
both, so there is one list of them.
-/
namespace Deai.AtomCache

abbrev Name := List UInt8

/-- The bytes of a name in the source. -/
def bytes (s : String) : Name := s.toList.map fun c => .ofNat c.toNat

def atomType : UInt32 := 4
def cardinalType : UInt32 := 6
def integerType : UInt32 := 19
def stringType : UInt32 := 31

/-- What is used of the X server. Different names have different atoms. Requests may fail. -/
structure Server where
  internAtom : Name → Option UInt32
  getAtomName : UInt32 → Option Name
  injective : ∀ {m n : Name} {a}, internAtom m = some a → internAtom n = some a → m = n
  named : ∀ {a n}, getAtomName a = some n → internAtom n = some a ∧ n.length < 2 ^ 16
  atom : internAtom (bytes "ATOM") = some atomType
  cardinal : internAtom (bytes "CARDINAL") = some cardinalType
  integer : internAtom (bytes "INTEGER") = some integerType

/-- `struct di_atom_entry`. -/
structure AtomEntry where
  name : Name
  atom : UInt32
  deriving DecidableEq

/-- `HASH_FIND`: one of the entries with the key. -/
structure AtomFind where
  find : (AtomEntry → Bool) → List AtomEntry → Option AtomEntry
  found : ∀ {p l e}, find p l = some e → e ∈ l ∧ p e = true
  missing : ∀ {p l}, find p l = none → ∀ e ∈ l, p e = false

/-- The length of a name in a request has 16 bits. -/
def sentName (name : Name) : Name := name.take (name.length % 2 ^ 16)

def diXorgInternAtom (X : Server) (F : AtomFind) (name : Name) (atoms : List AtomEntry) :
    Option UInt32 × List AtomEntry :=
  match F.find (fun e => e.name = name) atoms with
  | some ae => (some ae.atom, atoms)
  | none =>
      match X.internAtom (sentName name) with
      | none => (none, atoms)
      | some atom => (some atom, atoms ++ [⟨name, atom⟩])

def diXorgGetAtomName (X : Server) (F : AtomFind) (atom : UInt32) (atoms : List AtomEntry) :
    Option Name × List AtomEntry :=
  match F.find (fun e => e.atom = atom) atoms with
  | some ae => (some ae.name, atoms)
  | none =>
      match X.getAtomName atom with
      | none => (none, atoms)
      | some name => (some name, atoms ++ [⟨name, atom⟩])

/-- The entries are right, and none has a name that is cut off in a request. -/
def Known (X : Server) (atoms : List AtomEntry) : Prop :=
  ∀ e ∈ atoms, X.internAtom e.name = some e.atom ∧ e.name.length < 2 ^ 16

variable {X : Server} {F : AtomFind} {name : Name} {atom : UInt32} {atoms : List AtomEntry}

theorem sentName_of_short (h : name.length < 2 ^ 16) : sentName name = name := by
  rw [sentName, Nat.mod_eq_of_lt h, List.take_length]

theorem Known.append (h : Known X atoms) (hatom : X.internAtom name = some atom)
    (hname : name.length < 2 ^ 16) : Known X (atoms ++ [⟨name, atom⟩]) := by
  intro e he
  rcases List.mem_append.mp he with he | he
  · exact h e he
  · rw [List.mem_singleton.mp he]
    exact ⟨hatom, hname⟩

/-- A short name gets its atom, with an entry. -/
theorem internAtom_spec (h : Known X atoms) (hname : name.length < 2 ^ 16) :
    ∃ atoms', diXorgInternAtom X F name atoms = (X.internAtom name, atoms') ∧ Known X atoms' ∧
      atoms ⊆ atoms' ∧ ∀ a ∈ X.internAtom name, ⟨name, a⟩ ∈ atoms' := by
  rw [diXorgInternAtom]
  cases hfind : F.find (fun e => e.name = name) atoms with
  | some e =>
      obtain ⟨hmem, hkey⟩ := F.found hfind
      simp only [decide_eq_true_eq] at hkey
      have hatom := (h e hmem).1
      rw [hkey] at hatom
      refine ⟨atoms, by rw [hatom], h, List.Subset.refl _, fun a ha => ?_⟩
      rw [Option.mem_def, hatom, Option.some.injEq] at ha
      rwa [← hkey, ← ha]
  | none =>
      simp only [sentName_of_short hname]
      cases hatom : X.internAtom name with
      | none => exact ⟨atoms, rfl, h, List.Subset.refl _, nofun⟩
      | some a =>
          refine ⟨_, rfl, h.append hatom hname, List.subset_append_left _ _, fun b hb => ?_⟩
          cases hb
          exact List.mem_append_right _ (List.mem_singleton_self _)

theorem getAtomName_known (h : Known X atoms) :
    Known X (diXorgGetAtomName X F atom atoms).2 := by
  rw [diXorgGetAtomName]
  cases F.find (fun e => e.atom = atom) atoms with
  | some e => exact h
  | none =>
      simp only
      cases hname : X.getAtomName atom with
      | none => exact h
      | some name => exact h.append (X.named hname).1 (X.named hname).2

/-- An atom with an entry gets its name back. -/
theorem getAtomName_spec (h : Known X atoms) (hname : X.internAtom name = some atom)
    (hmem : ⟨name, atom⟩ ∈ atoms) : diXorgGetAtomName X F atom atoms = (some name, atoms) := by
  rw [diXorgGetAtomName]
  cases hfind : F.find (fun e => e.atom = atom) atoms with
  | some e =>
      obtain ⟨he, hkey⟩ := F.found hfind
      simp only [decide_eq_true_eq] at hkey
      simp only [X.injective (hkey ▸ (h e he).1) hname]
  | none => simpa using F.missing hfind _ hmem

end Deai.AtomCache
