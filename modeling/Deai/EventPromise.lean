import Deai.Value
import Mathlib.Logic.Function.Basic
import Mathlib.Logic.Relation

/-!
# Promises of the event module

The promise functions of `event.c` over the members they read and write. The
event module itself is the part of the state with the queue: the members
`pending_count` and `pending_promise_N`, the idle watcher, and whether the module
is an anonymous root. The model is of a module before shutdown, so the weak
reference to it can be upgraded.

User code runs whenever control leaves the module: outside of `di_idle_cb`, in a
handler, and between two handlers through destructors and log targets. So an API
call can be made in every state, and the functions below run without
interruption except where `di_promise_handler_closure` calls a user handler,
which is a state of its own.

Fields under "history" are not read by any function: they record what happened.
-/
namespace Deai.EventPromise
open Value

abbrev ClosureId := ℕ
abbrev StorageId := ℕ

/-- The contents of `___resolved` or of `___rejected`. -/
inductive Outcome where
  | resolved (v : DiValue)
  | rejected (e : ObjRef)

/-- The value a handler is called with. -/
def Outcome.value : Outcome → DiValue
  | .resolved v => v
  | .rejected e => .object e

/-- A callable object: of user code, or one of the two closures of `event.c`
with its captures. -/
inductive Handler where
  | user (f : ObjRef)
  | any (ret : ObjRef)
  | join (index : ℕ) (storage : StorageId) (ret : ObjRef)

/-- How a call of a handler ends. -/
inductive Reply where
  | value (v : DiValue)
  | promise (q : ObjRef)
  | threw (e : ObjRef)
  | failed

/-- Who settled a promise; `direct` is a call of `resolve` or `reject` on it. -/
inductive Origin where
  | direct
  | closure (c : ClosureId)
  | any
  | join (st : StorageId)
  deriving DecidableEq

/-- What a promise was created for. -/
inductive Role where
  | plain
  | derived (c : ClosureId)
  | any
  | join (st : StorageId)
  deriving DecidableEq

/-- Where a closure is in its life: in `___handlers` of a promise, in the array
that is being dispatched, with its handler running, without a handler to run,
with its handler back, and at the end. -/
inductive Place where
  | detached
  | waiting (p : ObjRef)
  | taken
  | running
  | passing
  | replied
  | finished
  | dropped
  deriving DecidableEq

structure Promise where
  weakEventModule : Bool := false
  resolved : Option DiValue := none
  rejected : Option ObjRef := none
  handlers : List ClosureId := []
  isPending : Bool := false
  -- history
  role : Role := .plain
  settledBy : Option Origin := none
  settledAt : ℕ := 0
  dispatches : ℕ := 0
  added : List ClosureId := []
  called : List (ClosureId × Outcome) := []

/-- `PromiseThenClosure` -/
structure Closure where
  promise : Option ObjRef := none
  resolve : Option Handler := none
  reject : Option Handler := none
  -- history
  source : ObjRef := 0
  target : ObjRef := 0
  onResolve : Option Handler := none
  onReject : Option Handler := none
  place : Place := .detached
  chosen : Option Handler := none
  heard : List (ObjRef × Outcome) := []
  runs : ℕ := 0
  replies : List Reply := []
  bornAt : ℕ := 0
  bornDuring : Bool := false

/-- The storage object of `di_join_promises`. -/
structure Storage where
  items : ℕ → Option DiValue := fun _ => none
  left : Option ℤ := none
  total : Option ℤ := none
  -- history
  inputs : List ObjRef := []
  ret : ObjRef := 0
  firstClient : ClosureId := 0

/-- A call of `di_any_promise`; its closures are those from `firstClient` on. -/
structure AnyCall where
  ret : ObjRef
  inputs : List ObjRef
  firstClient : ClosureId

/-- Where control is. The handlers still to be called are those of the array
that `di_handlers_dispatch` iterates over. -/
inductive Control where
  | outside
  | idle
  | dispatching (p : ObjRef) (o : Option Outcome) (rest : List ClosureId)
  | calling (p : ObjRef) (o : Outcome) (c : ClosureId) (d : ObjRef) (rest : List ClosureId)

/-- The promise whose handlers are being dispatched. -/
def Control.dispatched : Control → Option ObjRef
  | .dispatching p _ _ => some p
  | .calling p _ _ _ _ => some p
  | _ => none

/-- The handlers taken from it that have not been called. -/
def Control.rest : Control → List ClosureId
  | .dispatching _ _ cs => cs
  | .calling _ _ _ _ cs => cs
  | _ => []

/-- The members of the event module that the promises use, and where else it is
known: to the event loop by its idle watcher, to the roots as an anonymous root. -/
structure EventModule where
  pendingCount : Option ℕ := some 0
  pendingPromise : ℕ → Option ObjRef := fun _ => none
  idleActive : Bool := false
  anonymousRoot : Bool := false

structure State where
  promises : ObjRef → Promise := fun _ => {}
  promiseCount : ℕ := 0
  closures : ClosureId → Closure := fun _ => {}
  closureCount : ℕ := 0
  storages : StorageId → Storage := fun _ => {}
  storageCount : ℕ := 0
  eventModule : EventModule := {}
  control : Control := .outside
  -- history
  clock : ℕ := 0
  anys : List AnyCall := []

/-- A `DI_CHECK` that failed. -/
inductive Check where
  | weakEventModule
  | pendingCount
  | pendingPromise
  | closurePromise
  | joinIndex
  | joinLeft
  | joinTotal
  | joinItem
  deriving DecidableEq, Repr

/-- What `___resolved` and `___rejected` say, in the order they are asked. -/
def Promise.outcome (p : Promise) : Option Outcome :=
  match p.resolved with
  | some v => some (.resolved v)
  | none => p.rejected.map .rejected

namespace State

def setPromise (s : State) (p : ObjRef) (f : Promise → Promise) : State :=
  {s with promises := Function.update s.promises p (f (s.promises p))}

def setClosure (s : State) (c : ClosureId) (f : Closure → Closure) : State :=
  {s with closures := Function.update s.closures c (f (s.closures c))}

def setStorage (s : State) (st : StorageId) (f : Storage → Storage) : State :=
  {s with storages := Function.update s.storages st (f (s.storages st))}

end State

def diNewPromise (role : Role) (s : State) : ObjRef × State :=
  (s.promiseCount,
    {s.setPromise s.promiseCount fun _ => {weakEventModule := true, role := role} with
      promiseCount := s.promiseCount + 1})

/-- Store `p` under the key `pending_promise_n`. A member that is there already
stays, and `add_anonymous` of a root that is there already changes nothing. -/
def EventModule.push (m : EventModule) (n : ℕ) (p : ObjRef) : EventModule where
  idleActive := true
  pendingCount := some (n + 1)
  anonymousRoot := m.anonymousRoot || n == 0
  pendingPromise := if (m.pendingPromise n).isSome then m.pendingPromise
    else Function.update m.pendingPromise n (some p)

def enqueue (p : ObjRef) (n : ℕ) (s : State) : State :=
  {s.setPromise p (fun x => {x with isPending := true}) with
    eventModule := s.eventModule.push n p}

def diPromiseStartDispatch (p : ObjRef) (s : State) : Except Check State :=
  if (s.promises p).isPending then .ok s
  else if (s.promises p).weakEventModule = false then .error .weakEventModule
  else match s.eventModule.pendingCount with
    | none => .error .pendingCount
    | some n => .ok (enqueue p n s)

/-- Append to `___handlers`. -/
def attach (p : ObjRef) (c : ClosureId) (s : State) : State :=
  (s.setPromise p fun x => {x with handlers := x.handlers ++ [c], added := x.added ++ [c]}).setClosure
    c fun x => {x with place := .waiting p}

def diPromiseAddHandler (p : ObjRef) (c : ClosureId) (s : State) : Except Check State :=
  let s := attach p c s
  if (s.promises p).outcome.isSome then diPromiseStartDispatch p s else .ok s

/-- Set `___resolved` or `___rejected`. -/
def setOutcome (p : ObjRef) (o : Outcome) (origin : Origin) (s : State) : State :=
  {s.setPromise p (fun x =>
    match o with
    | .resolved v => {x with resolved := some v, settledBy := some origin, settledAt := s.clock}
    | .rejected e => {x with rejected := some e, settledBy := some origin, settledAt := s.clock}) with
    clock := s.clock + 1}

/-- `di_promise_resolve` and `di_promise_reject`, which differ in the member they
set. -/
def settle (p : ObjRef) (o : Outcome) (origin : Origin) (s : State) : Except Check State :=
  if (s.promises p).outcome.isSome then .ok s
  else diPromiseStartDispatch p (setOutcome p o origin s)

def diPromiseResolve (p : ObjRef) (v : DiValue) (origin : Origin) (s : State) :
    Except Check State := settle p (.resolved v) origin s

def diPromiseReject (p : ObjRef) (e : ObjRef) (origin : Origin) (s : State) :
    Except Check State := settle p (.rejected e) origin s

def newClosure (p d : ObjRef) (resolve reject : Option Handler) (s : State) :
    ClosureId × State :=
  (s.closureCount, {s.setClosure s.closureCount (fun _ =>
    { promise := some d, resolve := resolve, reject := reject, source := p, target := d,
      onResolve := resolve, onReject := reject, bornAt := (s.promises p).dispatches,
      bornDuring := s.control.dispatched == some p }) with
    closureCount := s.closureCount + 1})

def diPromiseThenInner (p : ObjRef) (resolve reject : Option Handler) (s : State) :
    Except Check (ObjRef × State) := do
  let (d, s) := diNewPromise (.derived s.closureCount) s
  let (c, s) := newClosure p d resolve reject s
  let s ← diPromiseAddHandler p c s
  .ok (d, s)

def diPromiseThen (p : ObjRef) (h : Handler) (s : State) : Except Check (ObjRef × State) :=
  diPromiseThenInner p (some h) none s

def diPromiseCatch (p : ObjRef) (h : Handler) (s : State) : Except Check (ObjRef × State) :=
  diPromiseThenInner p none (some h) s

def diPromiseFinally (p : ObjRef) (h : Handler) (s : State) : Except Check (ObjRef × State) :=
  diPromiseThenInner p (some h) (some h) s

/-- A parameter of type variant takes a variant as it is, and wraps the rest. -/
def variantArg : DiValue → DiValue
  | .variant v => v
  | v => v

def newStorage (s : State) : StorageId × State :=
  (s.storageCount, {s.setStorage s.storageCount (fun _ => {}) with
    storageCount := s.storageCount + 1})

/-- The registration loop of `di_join_promises`, from index `i` on. -/
def joinInputs (st : StorageId) (ret : ObjRef) : ℕ → List ObjRef → State → Except Check State
  | _, [], s => .ok s
  | i, p :: ps, s => do
      let (_, s) ← diPromiseThen p (.join i st ret) s
      joinInputs st ret (i + 1) ps s

/-- The counters are set once every handler has been registered. -/
def Storage.opened (x : Storage) (ps : List ObjRef) (ret : ObjRef) (firstClient : ClosureId) :
    Storage :=
  {x with
    left := some ps.length
    total := some ps.length
    inputs := ps
    ret := ret
    firstClient := firstClient}

def diJoinPromises (ps : List ObjRef) (s : State) : Except Check (ObjRef × State) :=
  let (ret, s) := diNewPromise (if ps = [] then .plain else .join s.storageCount) s
  match ps with
  | [] => do
      let s ← diPromiseResolve ret (.array .any []) .direct s
      .ok (ret, s)
  | _ => do
      let (st, s) := newStorage s
      let firstClient := s.closureCount
      let s ← joinInputs st ret 0 ps s
      .ok (ret, s.setStorage st fun x => x.opened ps ret firstClient)

def anyInputs (ret : ObjRef) : List ObjRef → State → Except Check State
  | [], s => .ok s
  | p :: ps, s => do
      let (_, s) ← diPromiseThen p (.any ret) s
      anyInputs ret ps s

def diAnyPromise (ps : List ObjRef) (s : State) : Except Check (ObjRef × State) := do
  let (ret, s) := diNewPromise .any s
  let firstClient := s.closureCount
  let s ← anyInputs ret ps s
  .ok (ret, {s with anys := ⟨ret, ps, firstClient⟩ :: s.anys})

def diReadyPromise (v : DiValue) (s : State) : Except Check (ObjRef × State) := do
  let (ret, s) := diNewPromise .plain s
  let s ← diPromiseResolve ret v .direct s
  .ok (ret, s)

def diAnyPromiseHandler (ret : ObjRef) (var : DiValue) (s : State) : Except Check State :=
  diPromiseResolve ret var .any s

/-- The tuple of results, or nothing when one of them is missing. -/
def collect (items : ℕ → Option DiValue) (total : ℤ) : Option (List DiValue) :=
  (List.range total.toNat).mapM items

/-- The members of the storage object after one more result. -/
def Storage.store (x : Storage) (index : ℕ) (var : DiValue) (left : ℤ) : Storage :=
  {x with items := Function.update x.items index (some var), left := some left}

def diPromiseJoinHandler (index : ℕ) (st : StorageId) (ret : ObjRef) (var : DiValue)
    (s : State) : Except Check State :=
  let x := s.storages st
  if (x.items index).isSome then .error .joinIndex
  else match x.left with
    | none => .error .joinLeft
    | some left =>
        let s := s.setStorage st fun x => x.store index var (left - 1)
        if left - 1 = 0 then
          match x.total with
          | none => .error .joinTotal
          | some total =>
              match collect (s.storages st).items total with
              | none => .error .joinItem
              | some vs => diPromiseResolve ret (.tuple vs) (.join st) s
        else .ok s

/-- `di_delete_member_raw(closure, "promise")`, the last thing a closure does. -/
def finish (c : ClosureId) (s : State) : State :=
  s.setClosure c fun x => {x with promise := none, place := .finished}

/-- The handler of a closure for an outcome. -/
def Closure.handlerFor (x : Closure) : Outcome → Option Handler
  | .resolved _ => x.resolve
  | .rejected _ => x.reject

/-- The closure is called: it removes its handlers. -/
def Closure.hear (x : Closure) (p : ObjRef) (o : Outcome) : Closure :=
  {x with
    resolve := none
    reject := none
    place := if (x.handlerFor o).isSome then .running else .passing
    chosen := x.handlerFor o
    runs := x.runs + if (x.handlerFor o).isSome then 1 else 0
    heard := x.heard ++ [(p, o)]}

def hear (p : ObjRef) (o : Outcome) (c : ClosureId) (rest : List ClosureId) (s : State) : State :=
  {(s.setPromise p fun x => {x with called := x.called ++ [(c, o)]}).setClosure c (·.hear p o)
    with control := .dispatching p (some o) rest}

/-- What the closure does once its handler has come back. -/
def settleReply (c : ClosureId) (d : ObjRef) (r : Reply) (s : State) : Except Check State :=
  let s := s.setClosure c fun x => {x with replies := x.replies ++ [r], place := .replied}
  match r with
  | .failed => .ok (s.setClosure c fun x => {x with place := .dropped})
  | .threw e => do
      let s ← diPromiseReject d e (.closure c) s
      .ok (finish c s)
  | .value v => do
      let s ← diPromiseResolve d v (.closure c) s
      .ok (finish c s)
  | .promise q => diPromiseAddHandler q c s

/-- `di_promise_handler_closure`, called from `di_handlers_dispatch` with the
outcome of `p`. A user handler only starts here. -/
def diPromiseHandlerClosure (p : ObjRef) (o : Outcome) (c : ClosureId) (rest : List ClosureId)
    (s : State) : Except Check State :=
  let x := s.closures c
  match x.promise with
  | none => .error .closurePromise
  | some d =>
      let s := hear p o c rest s
      match x.handlerFor o with
      | none => do
          let s ← settle d o (.closure c) s
          .ok (finish c s)
      | some (.user _) => .ok {s with control := .calling p o c d rest}
      | some (.any ret) => do
          let s ← diAnyPromiseHandler ret (variantArg o.value) s
          settleReply c d (.value .nil) s
      | some (.join i st ret) => do
          let s ← diPromiseJoinHandler i st ret (variantArg o.value) s
          settleReply c d (.value .nil) s

/-- What a user handler hands back to `di_call_object_catch`. -/
inductive Return where
  | returned (v : DiValue)
  | threw (e : ObjRef)
  | failed

/-- `rtype != DI_TYPE_OBJECT || !di_check_type(ret.object, promise_type)` -/
def classify (s : State) : Return → Reply
  | .returned (.object q) => if q < s.promiseCount then .promise q else .value (.object q)
  | .returned v => .value v
  | .threw e => .threw e
  | .failed => .failed

def handlerReturns (p : ObjRef) (o : Outcome) (c : ClosureId) (d : ObjRef)
    (rest : List ClosureId) (r : Return) (s : State) : Except Check State :=
  settleReply c d (classify s r) {s with control := .dispatching p (some o) rest}

/-- `di_promise_dispatch` up to the first handler: the array of handlers leaves
the promise. -/
def startHandlers (p : ObjRef) (s : State) : State :=
  let x := s.promises p
  let s' := s.setPromise p fun x => {x with handlers := []}
  match x.outcome with
  | none => {s' with control := .dispatching p none []}
  | some o => {s' with
      control := .dispatching p (some o) x.handlers
      closures := fun c => if c ∈ x.handlers then {s.closures c with place := .taken}
        else s.closures c}

/-- The rest of `di_promise_dispatch`, after the last handler. -/
def endDispatch (p : ObjRef) (s : State) : State :=
  {s.setPromise p fun x => {x with isPending := false, dispatches := x.dispatches + 1} with
    control := .idle}

/-- `di_idle_cb` is called. -/
def startIdle (s : State) : State :=
  {s with
    eventModule.idleActive := false
    control := .idle}

/-- `di_idle_cb` returns. -/
def exitIdle (s : State) : State :=
  {s with
    eventModule.anonymousRoot := false
    control := .outside}

/-- Delete the key `pending_promise_n`, which is the highest. -/
def EventModule.pop (m : EventModule) (n : ℕ) : EventModule :=
  {m with
    pendingCount := some n
    pendingPromise := Function.update m.pendingPromise n none}

/-- One iteration of its loop, up to the dispatch, or the end of it. -/
def idleLoop (s : State) : Except Check State :=
  match s.eventModule.pendingCount with
  | none => .error .pendingCount
  | some 0 => .ok (exitIdle s)
  | some (n + 1) =>
      match s.eventModule.pendingPromise n with
      | none => .error .pendingPromise
      | some p => .ok (startHandlers p {s with eventModule := s.eventModule.pop n})

/-! ## The machine -/

inductive Action where
  | newPromise
  | then (p : ObjRef) (f : ObjRef)
  | catch (p : ObjRef) (f : ObjRef)
  | finally (p : ObjRef) (f : ObjRef)
  | resolve (p : ObjRef) (v : DiValue)
  | reject (p : ObjRef) (e : ObjRef)
  | joinPromises (ps : List ObjRef)
  | anyPromise (ps : List ObjRef)
  | readyPromise (v : DiValue)
  | startIdle
  | idleLoop
  | callNext
  | handlerReturns (r : Return)
  | endDispatch

/-- The calls user code can make. -/
def Action.isCall : Action → Bool
  | .newPromise | .then .. | .catch .. | .finally .. | .resolve .. | .reject .. | .joinPromises _ | .anyPromise _
  | .readyPromise _ => true
  | _ => false

/-- One step; `none` when it cannot be taken in this state. -/
def exec (a : Action) (s : State) : Option (Except Check State) :=
  match a, s.control with
  | .newPromise, _ => some (.ok (diNewPromise .plain s).2)
  | .then p f, _ =>
      if p < s.promiseCount then some ((diPromiseThen p (.user f) s).map (·.2)) else none
  | .catch p f, _ =>
      if p < s.promiseCount then some ((diPromiseCatch p (.user f) s).map (·.2)) else none
  | .finally p f, _ =>
      if p < s.promiseCount then some ((diPromiseFinally p (.user f) s).map (·.2)) else none
  | .resolve p v, _ =>
      if p < s.promiseCount then some (diPromiseResolve p v .direct s) else none
  | .reject p e, _ =>
      if p < s.promiseCount then some (diPromiseReject p e .direct s) else none
  | .joinPromises ps, _ =>
      if ∀ p ∈ ps, p < s.promiseCount then some ((diJoinPromises ps s).map (·.2)) else none
  | .anyPromise ps, _ =>
      if ∀ p ∈ ps, p < s.promiseCount then some ((diAnyPromise ps s).map (·.2)) else none
  | .readyPromise v, _ => some ((diReadyPromise v s).map (·.2))
  | .startIdle, .outside => if s.eventModule.idleActive then some (.ok (startIdle s)) else none
  | .idleLoop, .idle => some (idleLoop s)
  | .callNext, .dispatching p (some o) (c :: rest) =>
      some (diPromiseHandlerClosure p o c rest s)
  | .handlerReturns r, .calling p o c d rest => some (handlerReturns p o c d rest r s)
  | .endDispatch, .dispatching p _ [] => some (.ok (endDispatch p s))
  | _, _ => none

def Step (s : State) (a : Action) (s' : State) : Prop := exec a s = some (.ok s')

end Deai.EventPromise
