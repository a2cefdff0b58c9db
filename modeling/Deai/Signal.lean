import Deai.Value
import Mathlib.Logic.Function.Basic
import Mathlib.Logic.Relation

/-!
# Signals and listen handles

The functions of `object.c` that register, remove and call the handlers of the
signals of one object. A signal object keeps its handlers as members named after the
address of the handler, in the order of their insertion, and counts them in
`nhandlers`. The signal objects are members of the source, under the name of the
signal, and get there and away through the setter and the deleter of the source; so
the source is a parameter.

User code runs in a handler, and also when a handler object is destroyed because it
has lost its last reference. So every call can be made in every state, and the
functions that have to go on after user code are frames of a stack.

Fields under "history" are not read by any function: they record what happened.
-/
namespace Deai.Signal
open Value

abbrev SignalId := ℕ
abbrev HandleId := ℕ

/-- The members of a source object that hold its signal objects, and what `di_setx`
and `di_delete_member` do to them. -/
structure Source (Name World Error : Type) where
  member : World → Name → Option SignalId
  set : Name → SignalId → World → Except Error World
  delete : Name → World → Except Error World
  alive : World → Bool

/-- `struct di_signal`; its `weak_source` is the source of the model. -/
structure SignalObject (Name : Type) where
  signalName : Name
  handlers : List ObjRef := []
  nhandlers : ℤ := 0

/-- `struct di_listen_handle` -/
structure ListenHandle where
  weakSignal : SignalId := 0
  weakHandler : ObjRef := 0
  stopOnDrop : Bool := false
  -- history
  dropped : Bool := false
  ended : Bool := false

/-- A call of `di_signal_dispatch` that has copied its handlers. -/
structure Emission where
  signal : SignalId
  rest : List ObjRef
  running : Bool := false
  -- history
  snapshot : List ObjRef
  active : List HandleId
  called : List (ObjRef × Bool) := []
  stopped : List ObjRef := []

/-- A call that goes on after user code: an emission, and `di_signal_remove_handler`
after it has deleted the member of the handler. -/
inductive Frame where
  | emission (e : Emission)
  | removal (x : SignalId)

/-- The signal object that the call holds a reference to. -/
def Frame.signal : Frame → SignalId
  | .emission e => e.signal
  | .removal x => x

structure State (Name World : Type) where
  world : World
  signals : SignalId → SignalObject Name
  signalCount : ℕ := 0
  handles : HandleId → ListenHandle := fun _ => {}
  handleCount : ℕ := 0
  held : List SignalId := []
  stack : List Frame := []

/-- An assertion or a check that fails, here or in the source. -/
inductive Failure (Error : Type) where
  | handlerCount
  | source (e : Error)

namespace State
variable {Name World : Type}

def setSignal (s : State Name World) (x : SignalId)
    (f : SignalObject Name → SignalObject Name) : State Name World :=
  {s with signals := Function.update s.signals x (f (s.signals x))}

def setHandle (s : State Name World) (k : HandleId) (f : ListenHandle → ListenHandle) :
    State Name World :=
  {s with handles := Function.update s.handles k (f (s.handles k))}

end State

section Functions
variable {Name World Error : Type} (S : Source Name World Error)

/-- A weak reference to the signal object `x` can be upgraded: the source, a call or user
code refers to it. -/
def signalAlive (x : SignalId) (s : State Name World) : Bool :=
  S.member s.world (s.signals x).signalName == some x || s.stack.any (·.signal == x) ||
    s.held.contains x

/-- A member that is there already stays, and the count goes up all the same. -/
def SignalObject.add (y : SignalObject Name) (h : ObjRef) : SignalObject Name :=
  {y with
    handlers := if h ∈ y.handlers then y.handlers else y.handlers ++ [h]
    nhandlers := y.nhandlers + 1}

def diSignalAddHandler (x : SignalId) (h : ObjRef) (s : State Name World) : State Name World :=
  s.setSignal x (·.add h)

def newListenHandle (x : SignalId) (h : ObjRef) (s : State Name World) : State Name World :=
  {s.setHandle s.handleCount fun _ => {weakSignal := x, weakHandler := h} with
    handleCount := s.handleCount + 1}

def newSignal (n : Name) (s : State Name World) : State Name World :=
  {s.setSignal s.signalCount fun _ => {signalName := n} with
    signalCount := s.signalCount + 1}

def diListenTo (n : Name) (h : ObjRef) (s : State Name World) :
    Except (Failure Error) (State Name World) :=
  match S.member s.world n with
  | some x => .ok (newListenHandle x h (diSignalAddHandler x h s))
  | none =>
      match S.set n s.signalCount s.world with
      | .error e => .error (.source e)
      | .ok w =>
          let x := s.signalCount
          .ok (newListenHandle x h (diSignalAddHandler x h (newSignal n {s with world := w})))

/-- The handler `h` of the signal object `x` is removed while an emission goes on. -/
def Frame.noteStop (x : SignalId) (h : ObjRef) : Frame → Frame
  | .emission e =>
      if e.signal = x ∧ h ∈ e.rest then .emission {e with stopped := h :: e.stopped}
      else .emission e
  | .removal y => .removal y

/-- `di_signal_remove_handler` up to the destruction of the handler. -/
def diSignalRemoveHandler (x : SignalId) (h : ObjRef) (s : State Name World) :
    State Name World :=
  if h ∈ (s.signals x).handlers then
    {s.setSignal x fun y => {y with handlers := y.handlers.erase h} with
      stack := .removal x :: s.stack.map (Frame.noteStop x h)}
  else s

/-- The rest of `di_signal_remove_handler`, with the frame of the call taken off. -/
def endRemoval (x : SignalId) (s : State Name World) : Except (Failure Error) (State Name World) :=
  let s := s.setSignal x fun y => {y with nhandlers := y.nhandlers - 1}
  if (s.signals x).nhandlers = 0 ∧ S.alive s.world then
    match S.delete (s.signals x).signalName s.world with
    | .error e => .error (.source e)
    | .ok w => .ok {s with world := w}
  else .ok s

def diListenHandleStop (k : HandleId) (s : State Name World) : State Name World :=
  let x := (s.handles k).weakSignal
  let h := (s.handles k).weakHandler
  let s' := s.setHandle k fun y => {y with ended := true}
  if signalAlive S x s then diSignalRemoveHandler x h s' else s'

def diListenHandleAutoStop (k : HandleId) (stop : Bool) (s : State Name World) : State Name World :=
  s.setHandle k fun y => {y with stopOnDrop := stop}

def diListenHandleDtor (k : HandleId) (s : State Name World) : State Name World :=
  let s' := s.setHandle k fun y => {y with dropped := true}
  if (s.handles k).stopOnDrop then diListenHandleStop S k s' else s'

/-- The handles of the signal `n` that have not been stopped. -/
def activeHandles [DecidableEq Name] (n : Name) (s : State Name World) : List HandleId :=
  (List.range s.handleCount).filter fun k =>
    !(s.handles k).ended && (s.signals (s.handles k).weakSignal).signalName == n

/-- `di_emitn` and `di_signal_dispatch` up to the first handler. -/
def diEmitn [DecidableEq Name] (n : Name) (s : State Name World) : Except (Failure Error) (State Name World) :=
  match S.member s.world n with
  | none => .ok s
  | some x =>
      let y := s.signals x
      if (y.handlers.length : ℤ) = y.nhandlers then
        .ok {s with stack := .emission ⟨x, y.handlers, false, y.handlers, activeHandles n s, [], []⟩ ::
          s.stack}
      else .error .handlerCount

/-- The next handler is called. -/
def Emission.call (e : Emission) (h : ObjRef) (rest : List ObjRef) : Emission :=
  {e with
    rest := rest
    running := true
    called := e.called ++ [(h, decide (h ∉ e.stopped))]}

end Functions

/-! ## The machine -/

inductive Action (Name : Type) where
  | listen (n : Name) (h : ObjRef)
  | stop (k : HandleId)
  | autoStop (k : HandleId) (stop : Bool)
  | drop (k : HandleId)
  | hold (n : Name)
  | release (x : SignalId)
  | add (x : SignalId) (h : ObjRef)
  | remove (x : SignalId) (h : ObjRef)
  | emit (n : Name)
  | callNext
  | handlerReturns
  | endEmission
  | endRemoval

section Machine
variable {Name World Error : Type} [DecidableEq Name] (S : Source Name World Error)

/-- User code has a reference to the handle. -/
def hasHandle (k : HandleId) (s : State Name World) : Bool :=
  k < s.handleCount && !(s.handles k).dropped

/-- One step; `none` when it cannot be taken in this state. -/
def exec (a : Action Name) (s : State Name World) :
    Option (Except (Failure Error) (State Name World)) :=
  match a, s.stack with
  | .listen n h, _ => if S.alive s.world then some (diListenTo S n h s) else none
  | .stop k, _ => if hasHandle k s then some (.ok (diListenHandleStop S k s)) else none
  | .autoStop k b, _ => if hasHandle k s then some (.ok (diListenHandleAutoStop k b s)) else none
  | .drop k, _ => if hasHandle k s then some (.ok (diListenHandleDtor S k s)) else none
  | .hold n, _ => (S.member s.world n).map fun x => .ok {s with held := x :: s.held}
  | .release x, _ => some (.ok {s with held := s.held.erase x})
  | .add x h, _ => if x ∈ s.held then some (.ok (diSignalAddHandler x h s)) else none
  | .remove x h, _ => if x ∈ s.held then some (.ok (diSignalRemoveHandler x h s)) else none
  | .emit n, _ => if S.alive s.world then some (diEmitn S n s) else none
  | .callNext, .emission e :: stack =>
      match e.running, e.rest with
      | false, h :: rest => some (.ok {s with stack := .emission (e.call h rest) :: stack})
      | _, _ => none
  | .handlerReturns, .emission e :: stack =>
      if e.running then some (.ok {s with stack := .emission {e with running := false} :: stack})
      else none
  | .endEmission, .emission e :: stack =>
      if e.running = false ∧ e.rest = [] then some (.ok {s with stack := stack}) else none
  | .endRemoval, .removal x :: stack => some (endRemoval S x {s with stack := stack})
  | _, _ => none

def Step (s : State Name World) (a : Action Name) (s' : State Name World) : Prop :=
  exec S a s = some (.ok s')

end Machine

/-! ## An object without setters -/

/-- The object is referred to, and its members that hold signal objects. -/
structure PlainObject (Name : Type) where
  alive : Bool := true
  members : Name → Option SignalId := fun _ => none

/-- `di_setx` adds the member and `di_delete_member` removes it. -/
def plain (Name : Type) [DecidableEq Name] : Source Name (PlainObject Name) Empty where
  member w n := w.members n
  set n x w := .ok {w with members := Function.update w.members n (some x)}
  delete n w := .ok {w with members := Function.update w.members n none}
  alive w := w.alive

/-- The object loses its last reference. -/
def PlainObject.die (_ : PlainObject Name) : PlainObject Name where
  alive := false

end Deai.Signal
