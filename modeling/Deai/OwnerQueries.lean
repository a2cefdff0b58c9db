import Deai.DbusOwners

/-!
# Queries for the owner of a name

An object that is made for a well-known name asks the bus for the owner of the name. The reply
resolves a promise, whose handler records the owner when the event loop is idle. A
`NameOwnerChanged` signal records the owner at once. The bus is modelled as far as it sends these
two kinds of messages; each states the owner of the name when it is sent.
-/
namespace Deai.OwnerQueries
open DbusOwners Relation

abbrev ObjectId := ℕ

structure DbusObject where
  /-- `___object_cache` -/
  objectCache : DirectoryId
  alive : Bool := true

/-- A `GetNameOwner` call. The name is not looked at when the reply comes. -/
structure Request where
  serial : ℕ
  name : String
  deriving DecidableEq

inductive Message where
  | nameOwnerChanged (name oldOwner newOwner : String)
  | methodReturn (request : Request) (owner : String)
  | error (request : Request)

/-- A promise that is settled, with the object of its handler. A rejected promise has no owner. -/
structure Pending where
  object : ObjectId
  owner : Option String

structure State where
  connection : Connection := newConnection
  objects : ObjectId → DbusObject := fun _ => ⟨0, false⟩
  objectCount : ℕ := 0
  /-- The members of the directories named after an object path and an interface. -/
  objectMember : DirectoryId → String → Option ObjectId := fun _ _ => none
  /-- The members `promise_for_request_<serial>`, by the object of their handler. -/
  promiseFor : ℕ → Option ObjectId := fun _ => none
  serialCount : ℕ := 0
  /-- The members `pending_promise_<n>` of the event module, the highest index first. -/
  pending : List Pending := []
  /-- `di_idle_cb` is running. -/
  idle : Bool := false
  /-- What the bus has not answered. -/
  requests : List Request := []
  /-- The owners that the bus has; the empty string if there is none. -/
  owners : String → String
  /-- The messages of the bus that have not been filtered. -/
  inbox : List Message := []
  /-- What the filtered messages state, the last one first: a name and its owner. -/
  filtered : List (String × String) := []
  /-- How many messages had been filtered when the directory was made. -/
  madeAt : DirectoryId → ℕ := fun _ => 0

/-! ## Objects -/

/-- `di_get_object_via_weak` on a directory. -/
def getObject (d : DirectoryId) (key : String) (s : State) : Option ObjectId × State :=
  match s.objectMember d key with
  | none => (none, s)
  | some o =>
      if (s.objects o).alive then (some o, s)
      else (none, {s with
        objectMember := Function.update s.objectMember d
          (Function.update (s.objectMember d) key none)})

/-- An object that is alive keeps the directory. -/
def kept (d : DirectoryId) (s : State) : Bool :=
  (List.range s.objectCount).any fun o =>
    (s.objects o).alive && (s.objects o).objectCache == d

/-- The last reference to an object goes, and the directory with its last object. -/
def releaseObject (o : ObjectId) (s : State) : State :=
  let d := (s.objects o).objectCache
  let s := {s with objects := Function.update s.objects o {s.objects o with alive := false}}
  if kept d s then s else {s with connection := dropDirectory d s.connection}

/-- `GetNameOwner` is sent, and a promise waits for the reply. -/
def askOwner (bus : String) (o : ObjectId) (s : State) : State :=
  {s with
    requests := s.requests ++ [⟨s.serialCount, bus⟩]
    promiseFor := Function.update s.promiseFor s.serialCount (some o)
    serialCount := s.serialCount + 1}

/-- The directory of the name; one that is made is noted. -/
def directoryFor (bus : String) (s : State) : DirectoryId × State :=
  match objectCache bus s.connection with
  | (d, c) =>
      (d, {s with
        connection := c
        madeAt :=
          if d = s.connection.directoryCount then
            Function.update s.madeAt d s.filtered.length
          else s.madeAt})

def newObject (d : DirectoryId) (key : String) (s : State) : ObjectId × State :=
  (s.objectCount, {s with
    objects := Function.update s.objects s.objectCount {objectCache := d}
    objectCount := s.objectCount + 1
    objectMember := Function.update s.objectMember d
      (Function.update (s.objectMember d) key (some s.objectCount))})

/-- The key is made of the object path and the interface. The message may not be sent. -/
def diDbusGetObject (bus key : String) (sent : Bool) (s : State) : State :=
  match directoryFor bus s with
  | (d, s) =>
      match getObject d key s with
      | (some _, s) => s
      | (none, s) =>
          match newObject d key s with
          | (o, s) =>
              match recordedOwnerName (s.connection.directories d) with
              | some _ => s
              | none => if sent then askOwner bus o s else releaseObject o s

def diDbusObjectSetOwner (o : ObjectId) (owner : String) (s : State) : Except Failure State :=
  let directory := s.connection.directories (s.objects o).objectCache
  match diDbusNameChanged directory.busName (directory.ownerName.getD "") owner s.connection with
  | .ok c => .ok {s with connection := c}
  | .error e => .error e

/-! ## Messages -/

/-- The members of directories that `di_emit_signal_for` looks up for a signal of the bus. -/
def emitSignal (s : State) : State :=
  match getDirectory "org.freedesktop.DBus" s.connection with
  | (none, c) => {s with connection := c}
  | (some d, c) =>
      (getObject d "/org/freedesktop/DBus@org.freedesktop.DBus" {s with connection := c}).2

/-- The promise of a request is settled. -/
def settle (serial : ℕ) (owner : Option String) (s : State) : State :=
  match s.promiseFor serial with
  | none => s
  | some o =>
      {s with
        promiseFor := Function.update s.promiseFor serial none
        pending := ⟨o, owner⟩ :: s.pending}

def dbusFilter (m : Message) (s : State) : Except Failure State :=
  match m with
  | .nameOwnerChanged name oldOwner newOwner =>
      match diDbusNameChanged name oldOwner newOwner s.connection with
      | .ok c => .ok (emitSignal {s with connection := c})
      | .error e => .error e
  | .methodReturn request owner => .ok (settle request.serial (some owner) s)
  | .error request => .ok (settle request.serial none s)

/-- The name that a message is about, and the owner that it states. -/
def Message.states : Message → String × String
  | .nameOwnerChanged name _ newOwner => (name, newOwner)
  | .methodReturn request owner => (request.name, owner)
  | .error request => (request.name, "")

/-- The reply to a request, if the bus handles it now. -/
def reply (owners : String → String) (r : Request) : Message :=
  if owners r.name = "" then .error r else .methodReturn r (owners r.name)

/-! ## Steps -/

inductive Event where
  /-- User code asks for an object. -/
  | get (bus key : String) (sent : Bool)
  /-- The last reference to an object goes. -/
  | release (o : ObjectId)
  /-- A name gets another owner. -/
  | ownerChanges (name newOwner : String)
  /-- The bus handles a request. -/
  | answers (r : Request)
  | filter
  | idleStarts
  /-- `di_idle_cb` pops a promise and dispatches it. -/
  | dispatch
  | idleEnds

/-- A handler refers to the object. -/
def held (o : ObjectId) (s : State) : Prop :=
  (∃ k, s.promiseFor k = some o) ∨ ∃ w ∈ s.pending, w.object = o

/-- No message is filtered while `di_idle_cb` is running, which goes on as long as a promise is
pending. -/
def Allowed (s : State) : Event → Prop
  | .get _ _ _ => True
  | .release o => (s.objects o).alive = true ∧ ¬ held o s
  | .ownerChanges _ _ => True
  | .answers r => r ∈ s.requests
  | .filter => s.idle = false ∧ s.inbox ≠ []
  | .idleStarts => s.idle = false
  | .dispatch => s.idle = true ∧ s.pending ≠ []
  | .idleEnds => s.idle = true ∧ s.pending = []

def exec (a : Event) (s : State) : Except Failure State :=
  match a with
  | .get bus key sent => .ok (diDbusGetObject bus key sent s)
  | .release o => .ok (releaseObject o s)
  | .ownerChanges name newOwner =>
      .ok {s with
        owners := Function.update s.owners name newOwner
        inbox := s.inbox ++ [.nameOwnerChanged name (s.owners name) newOwner]}
  | .answers r =>
      .ok {s with
        requests := s.requests.erase r
        inbox := s.inbox ++ [reply s.owners r]}
  | .filter =>
      match s.inbox with
      | [] => .ok s
      | m :: rest => dbusFilter m {s with inbox := rest, filtered := m.states :: s.filtered}
  | .idleStarts => .ok {s with idle := true}
  | .dispatch =>
      match s.pending with
      | [] => .ok s
      | w :: rest =>
          match w.owner with
          | some owner => diDbusObjectSetOwner w.object owner {s with pending := rest}
          | none => .ok {s with pending := rest}
  | .idleEnds => .ok {s with idle := false}

/-- A step that `P` allows. -/
def Move (P : State → Event → Prop) (s s' : State) : Prop :=
  ∃ a, Allowed s a ∧ P s a ∧ exec a s = .ok s'

/-- Nothing is there but the owners of the bus. -/
def start (owners : String → String) : State where
  owners := owners

end Deai.OwnerQueries
