import Deai.Conversion
import Mathlib.Logic.Function.Basic
import Mathlib.Logic.Relation

/-!
# The owners of D-Bus names

A connection caches the objects of a well-known name in a directory. The directory refers to a
peer object for the owner of the name, and the peer lists the directories of the names that it
owns. The connection knows the directories and the peers. All references are weak, but that of
a directory to its owner; so a peer lives as long as a directory has it for its owner.
`di_dbus_name_changed` keeps these maps.
-/
namespace Deai.DbusOwners
open Value Conversion Relation

abbrev DirectoryId := ℕ
abbrev PeerId := ℕ

structure Directory where
  /-- `___bus_name` -/
  busName : String
  /-- `___owner` -/
  owner : Option PeerId := none
  /-- `___owner_name` -/
  ownerName : Option String := none
  /-- An object of the directory is still there. -/
  alive : Bool := true

structure Connection where
  /-- The members `peer_<unique name>`. -/
  peerMember : String → Option PeerId := fun _ => none
  /-- The members `object_cache_<well-known name>`. -/
  cacheMember : String → Option DirectoryId := fun _ => none
  directories : DirectoryId → Directory
  directoryCount : ℕ := 0
  /-- The members of the peers, named after well-known names. -/
  peers : PeerId → String → Option DirectoryId := fun _ _ => none
  peerCount : ℕ := 0

/-- A member is added that is there already. -/
inductive Failure where
  | memberExists
  deriving DecidableEq

namespace Connection

def setDirectory (c : Connection) (d : DirectoryId) (f : Directory → Directory) : Connection :=
  {c with directories := Function.update c.directories d (f (c.directories d))}

def setPeer (c : Connection) (p : PeerId) (f : (String → Option DirectoryId) →
    String → Option DirectoryId) : Connection :=
  {c with peers := Function.update c.peers p (f (c.peers p))}

end Connection

/-! ## The functions -/

/-- A directory that is alive has the peer for its owner. -/
def peerAlive (c : Connection) (p : PeerId) : Bool :=
  (List.range c.directoryCount).any fun d =>
    (c.directories d).alive && (c.directories d).owner == some p

/-- `di_get_object_via_weak` on `peer_<name>`: a member that is dead goes. -/
def getPeer (name : String) (c : Connection) : Option PeerId × Connection :=
  match c.peerMember name with
  | none => (none, c)
  | some p =>
      if peerAlive c p then (some p, c)
      else (none, {c with peerMember := Function.update c.peerMember name none})

/-- `di_get_object_via_weak` on `object_cache_<name>`. -/
def getDirectory (name : String) (c : Connection) : Option DirectoryId × Connection :=
  match c.cacheMember name with
  | none => (none, c)
  | some d =>
      if (c.directories d).alive then (some d, c)
      else (none, {c with cacheMember := Function.update c.cacheMember name none})

/-- The record of the name goes from the peer that the old owner has. -/
def forgetOwner (wellKnown oldOwner : String) (c : Connection) : Connection :=
  if oldOwner = "" then c
  else
    match getPeer oldOwner c with
    | (none, c) => c
    | (some p, c) => c.setPeer p fun m => Function.update m wellKnown none

/-- `di_get` of `___owner` for a string. -/
def recordedOwnerName (d : Directory) : Option String :=
  match d.owner with
  | none => none
  | some p =>
      match diTypeConversion ⟨fun _ => true, 0⟩ false .string (.object p) with
      | .ok (some (.string name)) => some name
      | _ => none

/-- All members of peers and of directories go. -/
def dropAll (c : Connection) : Connection :=
  {c with peerMember := fun _ => none, cacheMember := fun _ => none}

/-- The peer of the new owner, made if there is none. -/
def peerFor (newOwner : String) (c : Connection) : Except Failure (PeerId × Connection) :=
  match getPeer newOwner c with
  | (some p, c) => .ok (p, c)
  | (none, c) =>
      if (c.peerMember newOwner).isSome then .error .memberExists
      else
        let p := c.peerCount
        .ok (p, {c with
          peers := Function.update c.peers p fun _ => none
          peerCount := p + 1
          peerMember := Function.update c.peerMember newOwner (some p)})

def recordOwner (d : DirectoryId) (wellKnown newOwner : String) (c : Connection) :
    Except Failure Connection := do
  let c := c.setDirectory d fun y => {y with ownerName := some newOwner}
  let (p, c) ← peerFor newOwner c
  let c := c.setDirectory d fun y => {y with owner := some p}
  .ok (c.setPeer p fun m => Function.update m wellKnown (some d))

def unown (d : DirectoryId) (c : Connection) : Connection :=
  c.setDirectory d fun y => {y with owner := none, ownerName := none}

/-- A unique name. -/
def isUnique (name : String) : Bool := name.toList.head? == some ':'

def diDbusNameChanged (wellKnown oldOwner newOwner : String) (c : Connection) :
    Except Failure Connection :=
  if isUnique wellKnown then .ok c
  else
    match getDirectory wellKnown (forgetOwner wellKnown oldOwner c) with
    | (none, c) => .ok c
    | (some d, c) =>
        let c :=
          match recordedOwnerName (c.directories d) with
          | some recorded => if oldOwner ≠ "" ∧ oldOwner ≠ recorded then dropAll c else c
          | none => c
        if newOwner ≠ "" then recordOwner d wellKnown newOwner c else .ok (unown d c)

/-- The part of `di_dbus_get_object` that finds the directory, or makes one. -/
def objectCache (bus : String) (c : Connection) : DirectoryId × Connection :=
  match getDirectory bus c with
  | (some d, c) => (d, c)
  | (none, c) =>
      (c.directoryCount, {c with
        directories := Function.update c.directories c.directoryCount {busName := bus}
        directoryCount := c.directoryCount + 1
        cacheMember := Function.update c.cacheMember bus (some c.directoryCount)})

/-- The last object of a directory goes. -/
def dropDirectory (d : DirectoryId) (c : Connection) : Connection :=
  c.setDirectory d fun y => {y with alive := false}

/-- Neither a directory nor a peer. -/
def newConnection : Connection where
  directories _ := {busName := "", alive := false}

/-! ## Calls -/

inductive Call where
  | get (bus : String)
  | dies (d : DirectoryId)
  | nameChanged (wellKnown oldOwner newOwner : String)

def exec (a : Call) (c : Connection) : Except Failure Connection :=
  match a with
  | .get bus => .ok (objectCache bus c).2
  | .dies d => .ok (dropDirectory d c)
  | .nameChanged wellKnown oldOwner newOwner => diDbusNameChanged wellKnown oldOwner newOwner c

/-- A call that `P` allows. -/
def Move (P : Connection → Call → Prop) (c c' : Connection) : Prop :=
  ∃ a, P c a ∧ exec a c = .ok c'

end Deai.DbusOwners
