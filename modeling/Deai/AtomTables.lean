import Deai.AtomCache
import Deai.TwinTables

/-!
# The two tables of atoms

The cache of a connection with both of its hash tables, `a_byatom` and `a_byname`. The tables are
keyed by different fields, and a call looks only into one of them before it adds an entry to both.
The server gives out new atoms all the time, but it never changes an atom or a name.
-/
namespace Deai.AtomTables
open AtomCache TwinTables

/-- A `struct di_atom_entry` and where it is. -/
structure Entry extends AtomEntry where
  address : ℕ
  deriving DecidableEq

/-- `HASH_FIND`: one of the entries with the key. -/
structure EntryFind where
  find : (Entry → Bool) → List Entry → Option Entry
  found : ∀ {p l ae}, find p l = some ae → ae ∈ l ∧ p ae = true
  missing : ∀ {p l}, find p l = none → ∀ ae ∈ l, p ae = false

/-- What the server answers to the next request. -/
structure Replies where
  internAtom : Name → Option UInt32
  getAtomName : UInt32 → Option Name

/-- What is used of `di_xorg_connection`. Entries are allocated one after another. -/
structure Connection where
  connected : Bool := true
  byAtom : List Entry := []
  byName : List Entry := []
  allocated : ℕ := 0
  freed : List ℕ := []

/-- `HASH_ADD` to both tables. -/
def Connection.add (xc : Connection) (ae : AtomEntry) : Connection :=
  {xc with
    byAtom := xc.byAtom ++ [{ae with address := xc.allocated}]
    byName := xc.byName ++ [{ae with address := xc.allocated}]
    allocated := xc.allocated + 1}

def diXorgGetAtomName (F : EntryFind) (X : Replies) (atom : UInt32) (xc : Connection) :
    Option Name × Connection :=
  match F.find (fun ae => ae.atom = atom) xc.byAtom with
  | some ae => (some ae.name, xc)
  | none =>
      match X.getAtomName atom with
      | none => (none, xc)
      | some name => (some name, xc.add ⟨name, atom⟩)

/-- The length of the name is cut off in the request, but not in the entry. -/
def diXorgInternAtom (F : EntryFind) (X : Replies) (name : Name) (xc : Connection) :
    Option UInt32 × Connection :=
  match F.find (fun ae => ae.name = name) xc.byName with
  | some ae => (some ae.atom, xc)
  | none =>
      match X.internAtom (sentName name) with
      | none => (none, xc)
      | some atom => (some atom, xc.add ⟨name, atom⟩)

inductive Fault where
  | disconnected
  | notInTable
  | doubleFree
  deriving DecidableEq

/-- `HASH_DELETE` of an entry that has to be in the table. -/
def hashDelete (ae : Entry) (table : List Entry) : Except Fault (List Entry) :=
  if ae ∈ table then .ok (table.erase ae) else .error .notInTable

def freeEntry (ae : Entry) (freed : List ℕ) : Except Fault (List ℕ) :=
  if ae.address ∈ freed then .error .doubleFree else .ok (freed ++ [ae.address])

/-- The body of `HASH_ITER`, which has looked up the next entry before it. -/
def dropEntry (ae : Entry) (xc : Connection) : Except Fault Connection := do
  let byAtom ← hashDelete ae xc.byAtom
  let byName ← hashDelete ae xc.byName
  let freed ← freeEntry ae xc.freed
  .ok {xc with byAtom := byAtom, byName := byName, freed := freed}

def dropEntries : List Entry → Connection → Except Fault Connection
  | [], xc => .ok xc
  | ae :: rest, xc => do
      let xc ← dropEntry ae xc
      dropEntries rest xc

def xorgDisconnect (xc : Connection) : Except Fault Connection :=
  if xc.connected then dropEntries xc.byAtom {xc with connected := false} else .error .disconnected

/-! ## The server -/

/-- The atoms of the server: each name has one atom, and each atom has one name. -/
structure Atoms where
  given : Set (Name × UInt32)
  name_eq : ∀ {m n : Name} {a}, (m, a) ∈ given → (n, a) ∈ given → m = n
  atom_eq : ∀ {n : Name} {a b}, (n, a) ∈ given → (n, b) ∈ given → a = b

/-- Answers that agree with the atoms of the server. Any request may fail. -/
structure Honest (S : Atoms) (X : Replies) : Prop where
  internAtom : ∀ {n a}, X.internAtom n = some a → (n, a) ∈ S.given
  getAtomName : ∀ {n a}, X.getAtomName a = some n → (n, a) ∈ S.given

inductive Call where
  | internAtom (name : Name)
  | getAtomName (atom : UInt32)

/-- A call that is over: the atom or the name that it gave, or neither. -/
structure Event where
  server : Atoms
  call : Call
  answer : Option (Name × UInt32)
  before : Connection
  after : Connection

/-- What a call says about atoms and names, and the connection after it. -/
def perform (F : EntryFind) (X : Replies) (xc : Connection) :
    Call → Option (Name × UInt32) × Connection
  | .internAtom name =>
      let r := diXorgInternAtom F X name xc
      (r.1.map fun atom => (name, atom), r.2)
  | .getAtomName atom =>
      let r := diXorgGetAtomName F X atom xc
      (r.1.map fun name => (name, atom), r.2)

/-- The calls on a connection. The server has more and more atoms. -/
inductive Run (F : EntryFind) : List Event → Atoms → Connection → Prop
  | start (S : Atoms) : Run F [] S {}
  | call {events : List Event} {S S' : Atoms} {xc : Connection} (X : Replies) (c : Call) :
      Run F events S xc → S.given ⊆ S'.given → Honest S' X →
        Run F (events ++ [⟨S', c, (perform F X xc c).1, xc, (perform F X xc c).2⟩]) S'
          (perform F X xc c).2

/-! ## What a call keeps -/

/-- Both tables have the entries that were allocated, and the entries are right. -/
structure Agrees (S : Atoms) (xc : Connection) : Prop where
  connected : xc.connected = true
  twin : Twin (fun ae : Entry => ae.atom) (fun ae => ae.name) xc.byAtom xc.byName
  right : ∀ ae ∈ xc.byAtom, (ae.name, ae.atom) ∈ S.given
  addresses : xc.byAtom.map Entry.address = List.range xc.allocated
  freed : xc.freed = []

variable {F : EntryFind} {X : Replies} {S S' : Atoms} {xc : Connection} {name : Name}
  {atom : UInt32} {events : List Event}

theorem agrees_start : Agrees S {} :=
  ⟨rfl, .nil, by simp, rfl, rfl⟩

theorem Agrees.mono (h : Agrees S xc) (hgrow : S.given ⊆ S'.given) : Agrees S' xc :=
  {h with right := fun ae hae => hgrow (h.right ae hae)}

theorem Agrees.right_byName (h : Agrees S xc) {ae : Entry} (hae : ae ∈ xc.byName) :
    (ae.name, ae.atom) ∈ S.given :=
  h.right ae (h.twin.perm.mem_iff.mpr hae)

/-- The server's bijection keeps the other key apart. -/
theorem Agrees.add (h : Agrees S xc) (hgiven : (name, atom) ∈ S.given)
    (hnew : (∀ ae ∈ xc.byAtom, ae.atom ≠ atom) ∨ ∀ ae ∈ xc.byName, ae.name ≠ name) :
    Agrees S (xc.add ⟨name, atom⟩) := by
  have hpair : ∀ ae ∈ xc.byAtom, ae.atom = atom ↔ ae.name = name := by
    intro ae hae
    have hright := h.right ae hae
    constructor
    · intro heq
      rw [heq] at hright
      exact S.name_eq hright hgiven
    · intro heq
      rw [heq] at hright
      exact S.atom_eq hright hgiven
  have hatom : ∀ ae ∈ xc.byAtom, ae.atom ≠ atom := by
    intro ae hae heq
    rcases hnew with hnew | hnew
    · exact hnew ae hae heq
    · exact hnew ae (h.twin.perm.mem_iff.mp hae) ((hpair ae hae).mp heq)
  have hname : ∀ ae ∈ xc.byName, ae.name ≠ name := by
    intro ae hae heq
    have hmem := h.twin.perm.mem_iff.mpr hae
    exact hatom ae hmem ((hpair ae hmem).mpr heq)
  refine ⟨h.connected, h.twin.insert ?_ ?_, ?_, ?_, h.freed⟩
  · intro hmem
    obtain ⟨ae, hae, heq⟩ := List.mem_map.mp hmem
    exact hatom ae hae heq
  · intro hmem
    obtain ⟨ae, hae, heq⟩ := List.mem_map.mp hmem
    exact hname ae hae heq
  · intro ae hae
    rcases List.mem_append.mp hae with hae | hae
    · exact h.right ae hae
    · rw [List.mem_singleton.mp hae]
      exact hgiven
  · simp only [Connection.add, List.map_append, h.addresses, List.range_succ, List.map_singleton]

theorem getAtomName_agrees (F : EntryFind) (atom : UInt32) (h : Agrees S xc) (hX : Honest S X) :
    Agrees S (diXorgGetAtomName F X atom xc).2 ∧
      (∀ n, (diXorgGetAtomName F X atom xc).1 = some n → (n, atom) ∈ S.given) ∧
      ((diXorgGetAtomName F X atom xc).1 = none → (diXorgGetAtomName F X atom xc).2 = xc) := by
  rw [diXorgGetAtomName]
  cases hfind : F.find (fun ae => ae.atom = atom) xc.byAtom with
  | some ae =>
      obtain ⟨hmem, hkey⟩ := F.found hfind
      refine ⟨h, fun n hn => ?_, nofun⟩
      cases hn
      rw [← of_decide_eq_true hkey]
      exact h.right ae hmem
  | none =>
      simp only
      cases hreply : X.getAtomName atom with
      | none => exact ⟨h, nofun, fun _ => rfl⟩
      | some name =>
          have hgiven := hX.getAtomName hreply
          refine ⟨h.add hgiven (.inl fun ae hae => ?_), fun n hn => ?_, nofun⟩
          · exact of_decide_eq_false (F.missing hfind ae hae)
          · cases hn
            exact hgiven

theorem internAtom_agrees (h : Agrees S xc) (hX : Honest S X) (hshort : name.length < 2 ^ 16) :
    Agrees S (diXorgInternAtom F X name xc).2 ∧
      (∀ a, (diXorgInternAtom F X name xc).1 = some a → (name, a) ∈ S.given) ∧
      ((diXorgInternAtom F X name xc).1 = none → (diXorgInternAtom F X name xc).2 = xc) := by
  rw [diXorgInternAtom, sentName_of_short hshort]
  cases hfind : F.find (fun ae => ae.name = name) xc.byName with
  | some ae =>
      obtain ⟨hmem, hkey⟩ := F.found hfind
      refine ⟨h, fun a ha => ?_, nofun⟩
      cases ha
      rw [← of_decide_eq_true hkey]
      exact h.right_byName hmem
  | none =>
      simp only
      cases hreply : X.internAtom name with
      | none => exact ⟨h, nofun, fun _ => rfl⟩
      | some atom =>
          have hgiven := hX.internAtom hreply
          refine ⟨h.add hgiven (.inr fun ae hae => ?_), fun a ha => ?_, nofun⟩
          · exact of_decide_eq_false (F.missing hfind ae hae)
          · cases ha
            exact hgiven

/-! ## One list for both tables -/

/-- Looking up a name gives the same entry in the table and in a list of its entries. -/
theorem find_name_eq {F' : AtomFind} {atoms : List AtomEntry}
    (hnodup : (xc.byName.map fun ae => ae.name).Nodup)
    (hatoms : atoms.Perm (xc.byName.map Entry.toAtomEntry)) (name : Name) :
    F'.find (fun e => e.name = name) atoms =
      (F.find (fun ae => ae.name = name) xc.byName).map Entry.toAtomEntry := by
  cases hlist : F'.find (fun e => e.name = name) atoms with
  | some e =>
      obtain ⟨he, hkey⟩ := F'.found hlist
      obtain ⟨ae, hae, rfl⟩ := List.mem_map.mp (hatoms.mem_iff.mp he)
      cases htable : F.find (fun ae => ae.name = name) xc.byName with
      | some be =>
          obtain ⟨hbe, hkey'⟩ := F.found htable
          have hsame : ae = be := List.inj_on_of_nodup_map hnodup hae hbe
            ((of_decide_eq_true hkey).trans (of_decide_eq_true hkey').symm)
          rw [hsame, Option.map_some]
      | none =>
          have hmissing := F.missing htable ae hae
          rw [hkey] at hmissing
          cases hmissing
  | none =>
      cases htable : F.find (fun ae => ae.name = name) xc.byName with
      | some be =>
          obtain ⟨hbe, hkey⟩ := F.found htable
          have hmissing := F'.missing hlist be.toAtomEntry
            (hatoms.mem_iff.mpr (List.mem_map_of_mem hbe))
          rw [hkey] at hmissing
          cases hmissing
      | none => rfl

/-- The call does what it does with one list for both tables. -/
theorem diXorgInternAtom_eq {R : Server} {F' : AtomFind} {atoms : List AtomEntry}
    (hnodup : (xc.byName.map fun ae => ae.name).Nodup)
    (hatoms : atoms.Perm (xc.byName.map Entry.toAtomEntry)) (name : Name) :
    let r := diXorgInternAtom F ⟨R.internAtom, R.getAtomName⟩ name xc
    let r' := AtomCache.diXorgInternAtom R F' name atoms
    r.1 = r'.1 ∧ r'.2.Perm (r.2.byName.map Entry.toAtomEntry) := by
  simp only [diXorgInternAtom, AtomCache.diXorgInternAtom, find_name_eq (F := F) hnodup hatoms]
  cases F.find (fun ae => ae.name = name) xc.byName with
  | some ae => exact ⟨rfl, hatoms⟩
  | none =>
      simp only [Option.map_none]
      cases R.internAtom (sentName name) with
      | none => exact ⟨rfl, hatoms⟩
      | some atom =>
          refine ⟨rfl, ?_⟩
          simp only [Connection.add, List.map_append]
          exact hatoms.append_right _

/-! ## Disconnecting -/

theorem dropEntry_head {ae : Entry} {rest : List Entry}
    (htwin : Twin (fun ae : Entry => ae.atom) (fun ae => ae.name) xc.byAtom xc.byName)
    (hhead : xc.byAtom = ae :: rest) (hfresh : ae.address ∉ xc.freed) :
    dropEntry ae xc = .ok {xc with
      byAtom := rest
      byName := xc.byName.erase ae
      freed := xc.freed ++ [ae.address]} := by
  have hmem : ae ∈ xc.byAtom := by
    rw [hhead]
    exact List.mem_cons_self
  have herase : xc.byAtom.erase ae = rest := by rw [hhead, List.erase_cons_head]
  simp only [dropEntry, hashDelete, freeEntry, if_pos hmem, if_pos (htwin.perm.mem_iff.mp hmem),
    if_neg hfresh, herase]
  rfl

/-- Every entry is freed once. -/
theorem dropEntries_all (entries : List Entry)
    (htwin : Twin (fun ae : Entry => ae.atom) (fun ae => ae.name) xc.byAtom xc.byName)
    (hentries : xc.byAtom = entries)
    (hfresh : (xc.freed ++ entries.map Entry.address).Nodup) :
    dropEntries entries xc = .ok {xc with
      byAtom := []
      byName := []
      freed := xc.freed ++ entries.map Entry.address} := by
  induction entries generalizing xc with
  | nil =>
      have hname : xc.byName = [] := by
        rw [hentries] at htwin
        exact htwin.perm.nil_eq.symm
      have hempty : xc = {xc with byAtom := [], byName := []} := by
        cases xc
        simp only at hentries hname
        rw [hentries, hname]
      rw [dropEntries, List.map_nil, List.append_nil, ← hempty]
  | cons ae rest ih =>
      rw [List.map_cons, List.append_cons] at hfresh
      have hnot : ae.address ∉ xc.freed := by
        intro hmem
        have hleft := (List.nodup_append.mp hfresh).1
        exact (List.nodup_append.mp hleft).2.2 _ hmem _ (List.mem_singleton_self _) rfl
      have herase := htwin.erase ae
      rw [hentries, List.erase_cons_head] at herase
      rw [dropEntries, dropEntry_head htwin hentries hnot]
      refine (ih herase rfl hfresh).trans ?_
      rw [List.map_cons, ← List.append_cons]

theorem Agrees.disconnect (h : Agrees S xc) :
    ∃ xc', xorgDisconnect xc = .ok xc' ∧ xc'.byAtom = [] ∧ xc'.byName = [] ∧
      xc'.freed = List.range xc.allocated := by
  rw [xorgDisconnect, if_pos h.connected]
  have hfresh : (xc.freed ++ xc.byAtom.map Entry.address).Nodup := by
    rw [h.freed, h.addresses]
    exact List.nodup_range
  refine ⟨_, dropEntries_all xc.byAtom h.twin rfl hfresh,
    rfl, rfl, ?_⟩
  simp only [h.freed, h.addresses, List.nil_append]

/-! ## Runs -/

/-- The name fits into a request. -/
def Call.Short : Call → Prop
  | .internAtom name => name.length < 2 ^ 16
  | .getAtomName _ => True

/-- A call gave the server's answer, or it failed and changed nothing. -/
structure Event.Right (e : Event) : Prop where
  answer : ∀ p ∈ e.answer, p ∈ e.server.given
  failed : e.answer = none → e.after = e.before
  tables : Twin (fun ae : Entry => ae.atom) (fun ae => ae.name) e.after.byAtom e.after.byName

/-- What should hold of a run and of the connection at its end. -/
structure CacheAgrees (events : List Event) (xc : Connection) : Prop where
  events : ∀ e ∈ events, e.Right
  tables : Twin (fun ae : Entry => ae.atom) (fun ae => ae.name) xc.byAtom xc.byName
  disconnect : ∃ xc', xorgDisconnect xc = .ok xc' ∧ xc'.byAtom = [] ∧ xc'.byName = [] ∧
    xc'.freed = List.range xc.allocated

theorem perform_right (h : Agrees S xc) (hX : Honest S X) {c : Call} (hshort : c.Short) :
    Agrees S (perform F X xc c).2 ∧
      Event.Right ⟨S, c, (perform F X xc c).1, xc, (perform F X xc c).2⟩ := by
  cases c with
  | internAtom name =>
      obtain ⟨hagrees, hanswer, hfailed⟩ := internAtom_agrees (F := F) h hX hshort
      refine ⟨hagrees, fun p hp => ?_, fun hnone => hfailed (Option.map_eq_none_iff.mp hnone),
        hagrees.twin⟩
      obtain ⟨atom, hatom, rfl⟩ := Option.map_eq_some_iff.mp hp
      exact hanswer atom hatom
  | getAtomName atom =>
      obtain ⟨hagrees, hanswer, hfailed⟩ := getAtomName_agrees F atom h hX
      refine ⟨hagrees, fun p hp => ?_, fun hnone => hfailed (Option.map_eq_none_iff.mp hnone),
        hagrees.twin⟩
      obtain ⟨name, hname, rfl⟩ := Option.map_eq_some_iff.mp hp
      exact hanswer name hname

theorem run_agrees (hrun : Run F events S xc) (hshort : ∀ e ∈ events, e.call.Short) :
    Agrees S xc ∧ ∀ e ∈ events, e.Right := by
  induction hrun with
  | start S => exact ⟨agrees_start, by simp⟩
  | call X c _ hgrow hX ih =>
      obtain ⟨hagrees, hright⟩ := ih fun e he => hshort e (List.mem_append_left _ he)
      have hc := hshort _ (List.mem_append_right _ (List.mem_singleton_self _))
      obtain ⟨hnext, hevent⟩ := perform_right (F := F) (hagrees.mono hgrow) hX hc
      refine ⟨hnext, fun e he => ?_⟩
      rcases List.mem_append.mp he with he | he
      · exact hright e he
      · rw [List.mem_singleton.mp he]
        exact hevent

/-- In a run with names that fit into requests the cache agrees with the server. -/
theorem cache_agrees (hrun : Run F events S xc) (hshort : ∀ e ∈ events, e.call.Short) :
    CacheAgrees events xc := by
  obtain ⟨hagrees, hright⟩ := run_agrees hrun hshort
  exact ⟨hright, hagrees.twin, hagrees.disconnect⟩

/-- The first entry in the order of the table. -/
def firstEntry : EntryFind where
  find p l := l.find? p
  found h := ⟨List.mem_of_find?_eq_some h, List.find?_some h⟩
  missing h ae hae := by simpa using List.find?_eq_none.mp h ae hae

/-- A server that has only the atom of the empty name. -/
def emptyName : Atoms where
  given := {([], 1)}
  name_eq hm hn := by rw [(Prod.mk.inj hm).1, (Prod.mk.inj hn).1]
  atom_eq ha hb := by rw [(Prod.mk.inj ha).2, (Prod.mk.inj hb).2]

def emptyNameReplies : Replies where
  internAtom name := if name = [] then some 1 else none
  getAtomName atom := if atom = 1 then some [] else none

theorem emptyNameReplies_honest : Honest emptyName emptyNameReplies where
  internAtom {n a} h := by
    simp only [emptyNameReplies, Option.ite_none_right_eq_some, Option.some.injEq] at h
    obtain ⟨rfl, rfl⟩ := h
    rfl
  getAtomName {n a} h := by
    simp only [emptyNameReplies, Option.ite_none_right_eq_some, Option.some.injEq] at h
    obtain ⟨rfl, rfl⟩ := h
    rfl

theorem cache_agrees_empty : ∃ xc, xc.byAtom.length = 1 ∧
    CacheAgrees [⟨emptyName, .internAtom [], some ([], 1), {}, xc⟩] xc := by
  have hrun := Run.call (F := firstEntry) emptyNameReplies (.internAtom []) (.start emptyName)
    (Set.Subset.refl _) emptyNameReplies_honest
  exact ⟨_, rfl, cache_agrees hrun (by simp [Call.Short])⟩

/-- A name of `2 ^ 16` bytes is sent as the empty name, whose atom then has two entries. -/
theorem cache_disagrees : ∃ F events S xc, Run F events S xc ∧ ¬ CacheAgrees events xc := by
  obtain ⟨name, hname⟩ : ∃ name : Name, name.length = 2 ^ 16 := ⟨List.replicate _ 0, List.length_replicate⟩
  have hne : ([] : Name) ≠ name := by
    rintro rfl
    simp at hname
  have hsent : sentName name = [] := by rw [sentName, hname, Nat.mod_self, List.take_zero]
  have hfirst : perform firstEntry emptyNameReplies {} (.internAtom []) =
      (some ([], 1), ({} : Connection).add ⟨[], 1⟩) := rfl
  have hsecond : perform firstEntry emptyNameReplies (({} : Connection).add ⟨[], 1⟩)
      (.internAtom name) =
      (some (name, 1), (({} : Connection).add ⟨[], 1⟩).add ⟨name, 1⟩) := by
    simp [perform, diXorgInternAtom, hsent, firstEntry, Connection.add, hne, emptyNameReplies]
  have hrun := ((Run.start (F := firstEntry) emptyName).call emptyNameReplies (.internAtom [])
    (Set.Subset.refl _) emptyNameReplies_honest).call emptyNameReplies (.internAtom name)
    (Set.Subset.refl _) emptyNameReplies_honest
  rw [hfirst, hsecond] at hrun
  refine ⟨_, _, _, _, hrun, fun h => ?_⟩
  have htwice := h.tables.fst
  simp [Connection.add] at htwice

end Deai.AtomTables
