import Deai.Signal

/-!
# Event sources

The objects of `event.c` and `spawn.c` that have a watcher of libev in them: what the
setters and deleters of their signals, their callbacks and their destructors do to the
watcher, to the root that keeps the object alive, and to the members that hold the signals.

One object is modelled at a time. Of everything else it sees the references to it, and
whether `di_prepare_exit` has finalized the roots object, so that a call of a method of the
roots fails. Where a function removes the object from the roots, its caller holds a
reference, so the object does not die in the middle of it.
-/
namespace Deai.EventSources
open Signal

/-- A failed `DI_CHECK`, a null pointer to deai that is used, and an access to an object
after its memory was freed or after its last reference was dropped. -/
inductive Fault where
  | check
  | nullDeai
  | freed
  | dead
  deriving DecidableEq

/-- The references to an object (by user code and other objects, by the roots, by a callback
that is running), what has become of it, and how far `di_prepare_exit` has got: it first
drops the anonymous roots and then removes the methods of the roots object. -/
structure Life where
  outside : Bool := true
  rooted : Bool := false
  callback : Bool := false
  destroyed : Bool := false
  freed : Bool := false
  drained : Bool := false
  exited : Bool := false
  deriving DecidableEq

namespace Life

/-- An object that is made before or after `di:exit`. -/
def new (exited : Bool) : Life := {drained := exited, exited := exited}

def referenced (l : Life) : Bool := l.outside || l.rooted || l.callback

/-- A weak reference to the object can be upgraded. -/
def alive (l : Life) : Bool := l.referenced && !l.destroyed

/-- `di_object_borrow_deai` returns an object: the member `__deai` goes with the others. -/
def deai (l : Life) : Bool := !l.destroyed

/-- `add_anonymous`, with what it returns, or a failed call. -/
def addAnonymous (l : Life) : Option (Bool × Life) :=
  if l.exited then none else some (!l.rooted, {l with rooted := true})

/-- `remove_anonymous`; the caller ignores a failed call. -/
def removeAnonymous (l : Life) : Life :=
  if l.exited then l else {l with rooted := false}

/-- `di_roots_dtor`, as far as this object is concerned. -/
def drain (l : Life) : Life := {l with rooted := false, drained := true}

/-- The roots object loses its methods. -/
def exit (l : Life) : Life := {l with exited := true}

end Life

/-- References come and go, and the memory of a destroyed object is freed when the last weak
reference to it is dropped. -/
inductive LifeStep (l : Life) : Life → Prop where
  | take (h : l.alive) : LifeStep l {l with outside := true}
  | drop : LifeStep l {l with outside := false}
  | free (h : l.destroyed) : LifeStep l {l with freed := true}

/-! ## File descriptor events -/

inductive IoSignal where
  | read
  | write
  deriving DecidableEq

/-- The event mask of an `ev_io`: `EV_READ`, `EV_WRITE` and the bit `EV__IOFDSET` that libev
sets when the file descriptor is set. -/
structure IoEvents where
  read : Bool := false
  write : Bool := false
  fdSet : Bool := false
  deriving DecidableEq

namespace IoEvents

def flag (e : IoEvents) : IoSignal → Bool
  | .read => e.read
  | .write => e.write

def setFlag (e : IoEvents) (b : Bool) : IoSignal → IoEvents
  | .read => {e with read := b}
  | .write => {e with write := b}

end IoEvents

/-- `struct di_ioev`, after `di_create_ioev`. -/
structure IoEv where
  life : Life := {}
  events : IoEvents := {fdSet := true}
  active : Bool := false
  running : Bool := false
  signals : IoSignal → Option SignalId := fun _ => none

def evIoStart (w : IoEv) : Except Fault IoEv :=
  if w.life.freed then .error .freed
  else if w.active then .ok w
  else .ok {w with active := true, events := {w.events with fdSet := false}}

def evIoStop (w : IoEv) : Except Fault IoEv :=
  if w.life.freed then .error .freed else .ok {w with active := false}

def diStartIoev (w : IoEv) : Except Fault IoEv :=
  if w.running then .ok w
  else if w.life.deai = false then .ok w
  else
    match evIoStart w with
    | .error e => .error e
    | .ok w =>
        match w.life.addAnonymous with
        | none => .error .check
        | some (added, life) =>
            if added then .ok {w with life := life, running := added} else .error .check

def diStopIoev (w : IoEv) : Except Fault IoEv :=
  if w.running = false then .ok w
  else if w.life.deai = false then .ok w
  else
    match evIoStop w with
    | .error e => .error e
    | .ok w => .ok {w with running := false, life := w.life.removeAnonymous}

section
variable (hasIoModify : Bool)

/-- The event mask after `ev_io_modify`, where libev has it, or else `ev_io_set`. -/
def modifiedEvents (old flags : IoEvents) : IoEvents :=
  if hasIoModify then {flags with fdSet := old.fdSet || flags.fdSet} else {flags with fdSet := true}

def diModifyIoev (flags : IoEvents) (w : IoEv) : Except Fault IoEv :=
  let w := {w with events := modifiedEvents hasIoModify w.events flags}
  if w.running = false ∧ flags ≠ {} then diStartIoev w
  else if w.running = true ∧ flags = {} then diStopIoev w
  else .ok w

def enableSignal (n : IoSignal) (sig : SignalId) (w : IoEv) : Except Fault IoEv :=
  match w.signals n with
  | some _ => .ok w
  | none =>
      diModifyIoev hasIoModify (w.events.setFlag true n)
        {w with signals := Function.update w.signals n (some sig)}

def disableSignal (n : IoSignal) (w : IoEv) : Except Fault IoEv :=
  match w.signals n with
  | none => .ok w
  | some _ =>
      diModifyIoev hasIoModify (w.events.setFlag false n)
        {w with signals := Function.update w.signals n none}

def diEnableRead : SignalId → IoEv → Except Fault IoEv := enableSignal hasIoModify .read
def diEnableWrite : SignalId → IoEv → Except Fault IoEv := enableSignal hasIoModify .write
def diDisableRead : IoEv → Except Fault IoEv := disableSignal hasIoModify .read
def diDisableWrite : IoEv → Except Fault IoEv := disableSignal hasIoModify .write

def diIoevDtor (w : IoEv) : Except Fault IoEv := diModifyIoev hasIoModify {} w

/-- `di_destroy_object`: the destructor, then the removal of the members. -/
def IoEv.destroy (w : IoEv) : Except Fault IoEv :=
  (diIoevDtor hasIoModify w).map fun w =>
    {w with life := {w.life with destroyed := true}, signals := fun _ => none}

def ioev : Source IoSignal IoEv Fault where
  member w n := w.signals n
  set n :=
    match n with
    | .read => diEnableRead hasIoModify
    | .write => diEnableWrite hasIoModify
  delete n :=
    match n with
    | .read => diDisableRead hasIoModify
    | .write => diDisableWrite hasIoModify
  alive w := w.life.alive

end

/-! ## Timers -/

inductive TimerSignal where
  | elapsed
  deriving DecidableEq

/-- `struct di_timer`, after `di_create_timer`. The watcher is armed from its start until it
is stopped, or until its callback is called: so also while libev has stopped it and its
callback is pending. -/
structure Timer where
  life : Life := {}
  armed : Bool := false
  spent : Bool := false
  signal : Option SignalId := none
  -- history
  emitted : ℕ := 0

def evTimerStart (w : Timer) : Except Fault Timer :=
  if w.life.freed then .error .freed else .ok {w with armed := true}

def evTimerStop (w : Timer) : Except Fault Timer :=
  if w.life.freed then .error .freed else .ok {w with armed := false}

def diTimerDeleteSignal (w : Timer) : Except Fault Timer :=
  match w.signal with
  | none => .ok w
  | some _ =>
      let w := {w with signal := none, life := w.life.removeAnonymous}
      if w.life.deai then evTimerStop w else .error .nullDeai

def diTimerAddSignal (sig : SignalId) (w : Timer) : Except Fault Timer :=
  if w.spent then .ok w
  else if w.life.deai = false then .ok w
  else
    match w.signal with
    | some _ => .ok w
    | none =>
        let w := {w with signal := some sig}
        match w.life.addAnonymous with
        | none => diTimerDeleteSignal w
        | some (added, life) =>
            if added then evTimerStart {w with life := life} else .error .check

/-- `di_timer_callback` up to the emission. -/
def diTimerCallback (w : Timer) : Except Fault Timer :=
  if w.life.deai then
    match evTimerStop {w with life := {w.life with callback := true}} with
    | .error e => .error e
    | .ok w => .ok {w with spent := true, emitted := w.emitted + 1}
  else .error .check

/-- `di_timer_callback` after the emission. -/
def diTimerCallbackEnd (w : Timer) : Except Fault Timer :=
  (diTimerDeleteSignal w).map fun w => {w with life := {w.life with callback := false}}

def Timer.destroy (w : Timer) : Except Fault Timer :=
  (diTimerDeleteSignal w).map fun w =>
    {w with life := {w.life with destroyed := true}, signal := none}

def timer : Source TimerSignal Timer Fault where
  member w _ := w.signal
  set _ := diTimerAddSignal
  delete _ := diTimerDeleteSignal
  alive w := w.life.alive

/-! ## Periodic timers -/

inductive PeriodicSignal where
  | triggered
  deriving DecidableEq

/-- `struct di_periodic`, after `di_create_periodic`, which starts the watcher. -/
structure Periodic where
  life : Life := {}
  active : Bool := true
  signal : Option SignalId := none

def diPeriodicSignalSetter (sig : SignalId) (w : Periodic) : Except Fault Periodic :=
  match w.signal with
  | some _ => .ok w
  | none =>
      match w.life.addAnonymous with
      | none => .error .check
      | some (added, life) =>
          if added then .ok {w with signal := some sig, life := life} else .error .check

def diPeriodicSignalDeleter (w : Periodic) : Except Fault Periodic :=
  match w.signal with
  | none => .ok w
  | some _ => .ok {w with signal := none, life := w.life.removeAnonymous}

/-- `periodic_set`: the watcher is started again. -/
def periodicSet (w : Periodic) : Except Fault Periodic :=
  if w.life.deai = false then .error .check
  else if w.life.freed then .error .freed
  else .ok {w with active := true}

def Periodic.destroy (w : Periodic) : Except Fault Periodic :=
  (diPeriodicSignalDeleter w).map fun w =>
    {w with life := {w.life with destroyed := true}, signal := none}

def periodic : Source PeriodicSignal Periodic Fault where
  member w _ := w.signal
  set _ := diPeriodicSignalSetter
  delete _ := diPeriodicSignalDeleter
  alive w := w.life.alive

/-! ## Child processes -/

inductive OutputId where
  | stdout
  | stderr
  deriving DecidableEq

inductive ChildSignal where
  | exit
  | stdoutLine
  | stderrLine
  deriving DecidableEq

/-- One of the outputs of a child process: whether it is a pipe, its signal, its buffer, and
the listen handle and the file descriptor event that serve it. -/
structure Output where
  hasFd : Bool := true
  signal : Option SignalId := none
  buffer : Bool := false
  listenHandle : Bool := false
  fdevent : Option IoEv := none

/-- `struct child`, after `spawn.run`. The root that keeps it alive has the name of its
process id, which another object may have taken. -/
structure Child where
  life : Life := {}
  keyTaken : Bool := false
  exitSignal : Option SignalId := none
  active : Bool := false
  outputs : OutputId → Output := fun _ => {}

def Child.setOutput (w : Child) (i : OutputId) (o : Output) : Child :=
  {w with outputs := Function.update w.outputs i o}

def evChildStart (w : Child) : Except Fault Child :=
  if w.life.freed then .error .freed else .ok {w with active := true}

def evChildStop (w : Child) : Except Fault Child :=
  if w.life.freed then .error .freed else .ok {w with active := false}

/-- What `add` returns is not looked at. -/
def diChildProcessNewExitSignal (sig : SignalId) (w : Child) : Except Fault Child :=
  match w.exitSignal with
  | some _ => .ok w
  | none =>
      let w := {w with exitSignal := some sig}
      if w.life.deai = false then .ok w
      else
        match evChildStart w with
        | .error e => .error e
        | .ok w =>
            if w.life.exited then .error .check
            else .ok {w with life := {w.life with rooted := w.life.rooted || !w.keyTaken}}

def diChildProcessDeleteExitSignal (w : Child) : Except Fault Child :=
  match w.exitSignal with
  | none => .ok w
  | some _ =>
      let w := {w with exitSignal := none}
      if w.life.deai = false then .error .nullDeai
      else
        match evChildStop w with
        | .error e => .error e
        | .ok w =>
            if w.life.exited then .error .check
            else .ok {w with life := {w.life with rooted := false}}

section
variable (hasIoModify : Bool)

/-- The new file descriptor event has no other reference than the roots. -/
def diChildStartOutputListener (i : OutputId) (w : Child) : Except Fault Child :=
  if w.life.deai = false then .ok w
  else
    match diEnableRead hasIoModify 0
        {life := {drained := w.life.drained, exited := w.life.exited}} with
    | .error e => .error e
    | .ok ev =>
        .ok (w.setOutput i {w.outputs i with
          listenHandle := true
          buffer := true
          fdevent := some {ev with life := {ev.life with outside := false}}})

def newOutputSignal (i : OutputId) (sig : SignalId) (w : Child) : Except Fault Child :=
  if (w.outputs i).hasFd = false then .ok w
  else
    match (w.outputs i).signal with
    | some _ => .ok w
    | none =>
        diChildStartOutputListener hasIoModify i
          (w.setOutput i {w.outputs i with signal := some sig})

def diChildProcessNewStdoutSignal : SignalId → Child → Except Fault Child :=
  newOutputSignal hasIoModify .stdout
def diChildProcessNewStderrSignal : SignalId → Child → Except Fault Child :=
  newOutputSignal hasIoModify .stderr

/-- The listen handle is dropped with `auto_stop` set. -/
def diChildProcessStopOutputListener (i : OutputId) (w : Child) : Except Fault Child :=
  if (w.outputs i).listenHandle = false then .error .check
  else
    match (w.outputs i).fdevent with
    | none => .ok (w.setOutput i {w.outputs i with listenHandle := false, buffer := false})
    | some ev =>
        match diDisableRead hasIoModify ev with
        | .error e => .error e
        | .ok ev =>
            .ok (w.setOutput i {w.outputs i with
              listenHandle := false
              buffer := false
              fdevent := if ev.life.referenced then some ev else none})

def deleteOutputSignal (i : OutputId) (w : Child) : Except Fault Child :=
  match (w.outputs i).signal with
  | none => .ok w
  | some _ =>
      diChildProcessStopOutputListener hasIoModify i
        (w.setOutput i {w.outputs i with signal := none})

def diChildProcessDeleteStdoutSignal : Child → Except Fault Child :=
  deleteOutputSignal hasIoModify .stdout
def diChildProcessDeleteStderrSignal : Child → Except Fault Child :=
  deleteOutputSignal hasIoModify .stderr

/-- `di_roots_dtor`: the file descriptor events of the outputs lose their only reference. -/
def Child.drain (w : Child) : Child :=
  {w with
    life := {w.life with drained := true}
    outputs := fun i => {w.outputs i with fdevent := none}}

/-- The roots object loses its methods, also for the file descriptor events. -/
def Child.exit (w : Child) : Child :=
  {w with
    life := w.life.exit
    outputs := fun i => {w.outputs i with
      fdevent := (w.outputs i).fdevent.map fun ev => {ev with life := ev.life.exit}}}

/-- `child_destroy` does nothing to the watcher. -/
def Child.destroy (w : Child) : Child :=
  {w with
    life := {w.life with destroyed := true}
    exitSignal := none
    outputs := fun i => {hasFd := (w.outputs i).hasFd}}

def child : Source ChildSignal Child Fault where
  member w n :=
    match n with
    | .exit => w.exitSignal
    | .stdoutLine => (w.outputs .stdout).signal
    | .stderrLine => (w.outputs .stderr).signal
  set n :=
    match n with
    | .exit => diChildProcessNewExitSignal
    | .stdoutLine => diChildProcessNewStdoutSignal hasIoModify
    | .stderrLine => diChildProcessNewStderrSignal hasIoModify
  delete n :=
    match n with
    | .exit => diChildProcessDeleteExitSignal
    | .stdoutLine => diChildProcessDeleteStdoutSignal hasIoModify
    | .stderrLine => diChildProcessDeleteStderrSignal hasIoModify
  alive w := w.life.alive

end

/-! ## The event module -/

/-- The idle watcher of the event module. -/
structure EventModule where
  life : Life := {}
  active : Bool := false

/-- What `di_promise_start_dispatch` does to the watcher; it has upgraded a weak reference to
the module. -/
def evIdleStart (w : EventModule) : EventModule :=
  if w.life.alive then {w with active := true} else w

/-- `di_idle_cb` -/
def evIdleStop (w : EventModule) : EventModule := {w with active := false}

/-- `di_event_module_dtor`, then the removal of the members. -/
def EventModule.destroy (w : EventModule) : EventModule :=
  {w with
    active := if w.life.deai then false else w.active
    life := {w.life with destroyed := true}}

end Deai.EventSources
