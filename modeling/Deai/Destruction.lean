import Deai.Mutator

/-!
# Destruction with destructors

The release of references and the third pass of the collector once more, now with destructors
that run user code. So a call can be interrupted at every destructor, and the functions that
have to go on afterwards are frames of a stack. Where nothing can interrupt, the functions are
those of the heap: in particular the first two passes of the collector, which call no user code.

User code may do what it likes with its references, also in a destructor. It takes a strong
reference only to an object that a weak reference to it could be upgraded to, and edits the
members only of such an object or of the one whose destructor is running.
-/
namespace Deai.Destruction
open Value ObjectHeap TrialDeletion Accounting Collector CollectorMark GarbageCollection

/-- Why an object is finalized: it has lost its last reference, or it is garbage. -/
inductive Cause where
  | destroy
  | collect
  deriving DecidableEq

/-- A call that goes on after user code: `di_free_value` with the references it has not yet
released; `di_finalize_object_inner` in the destructor and in its loop over the members, with
what its caller does next; `di_scan_type` in the third pass, with the objects it has not yet
come to; and the loops of `di_collect_garbage`. -/
inductive Frame where
  | free (rs : List Ref)
  | dtor (o : ObjRef) (c : Cause)
  | members (o : ObjRef) (c : Cause)
  | scan (o : ObjRef) (zs : List ObjRef)
  | collect
  deriving DecidableEq

/-- The heap, the references that user code holds, and the calls that are running. -/
structure State where
  heap : Heap := {}
  external : Ref → ℕ := fun _ => 0
  stack : List Frame := []

/-! ## The functions -/

/-- `di_finalize_object_inner` up to the call of the destructor, or up to the loop. -/
def startFinalize (o : ObjRef) (c : Cause) (s : State) : State :=
  if (s.heap.obj o).dtor then {s with heap := callDtor o s.heap, stack := .dtor o c :: s.stack}
  else {s with stack := .members o c :: s.stack}

/-- `di_destroy_object` up to the end of the finalization. -/
def startDestroy (o : ObjRef) (s : State) : Except Fault State := do
  let x ← s.heap.deref o
  if x.refCount ≠ 0 then .error (.destroyReferenced o)
  else
    let h := if x.destroyed then s.heap.record (.destroyAgain o) else s.heap
    let h := (h.modify o fun x => {x with destroyed := true}).record (.destroy o)
    .ok (startFinalize o .destroy {s with heap := h})

def unref (o : ObjRef) (s : State) : Except Fault State := do
  let x ← s.heap.deref o
  if x.refCount = 0 then .error (.unrefZero o)
  else if x.destroyed then .error (.unrefDestroyed o)
  else
    let h := s.heap.modify o fun x => {x with refCount := x.refCount - 1}
    if !calmMark x.mark then .error (.unexpectedMark o)
    else if x.refCount - 1 = 0 then startDestroy o {s with heap := h.listDelInit o}
    else if h.unlisted o && x.mark == 0 then .ok {s with heap := h.addUnreferred o}
    else .ok {s with heap := h}

/-- The object case of `di_scan_type` in the third pass. -/
def visit (o : ObjRef) (s : State) : Except Fault State := do
  let (next, h) ← diCollectGarbageCollectPre o 0 s.heap
  if 0 ≤ next then
    .ok {s with heap := h, stack := .scan o (scannedRefs h o) :: s.stack}
  else .ok {s with heap := h}

/-- The first two passes, and the removal of the revived roots. -/
def markAndScan (h : Heap) : Except Fault Heap := do
  let fuel := collectionFuel h
  let h ← markCandidates fuel fuel {h with isolated := []}
  let h ← scanRoots fuel h
  dropRevived h

/-- The loop over the members, and what the caller of `di_finalize_object_inner` does after it. -/
def removeMembers (o : ObjRef) (c : Cause) (K : List Frame) (s : State) : Except Fault State := do
  let x ← s.heap.deref o
  match x.members with
  | m :: _ =>
      .ok {s with
        heap := s.heap.removeMember o m.1
        stack := .free m.2.refs :: .members o c :: K}
  | [] =>
      match c with
      | .destroy => do
          let h ← diDecrementWeakRefCount o s.heap
          .ok {s with heap := h, stack := K}
      | .collect => unref o {s with stack := K}

/-- `di_collect_garbage_collect_post` up to the end of the finalization. -/
def collectPost (o : ObjRef) (K : List Frame) (s : State) : Except Fault State := do
  let x ← s.heap.deref o
  if x.mark ≠ 3 then .error (.notPreFinalized o)
  else .ok (startFinalize o .collect {s with stack := K})

/-- The loops of `di_collect_garbage`: over the isolated roots, and over the rounds. -/
def collectLoop (K : List Frame) (s : State) : Except Fault State :=
  match s.heap.isolated with
  | i :: _ => visit i s
  | [] =>
      if s.heap.headInit = false then .error .nullListHead
      else if s.heap.unreferred = [] then .ok {s with stack := K}
      else do
        let h ← markAndScan s.heap
        .ok {s with heap := h}

/-- The call on the top of the stack goes on, if it is not in a destructor. -/
def resume (s : State) : Option (Except Fault State) :=
  match s.stack with
  | [] => none
  | .dtor _ _ :: _ => none
  | .free [] :: K => some (.ok {s with stack := K})
  | .free (.strong o :: rs) :: K => some (unref o {s with stack := .free rs :: K})
  | .free (.weak o :: rs) :: K =>
      some ((diDropWeakRef o s.heap).map fun h => {s with heap := h, stack := .free rs :: K})
  | .members o c :: K => some (removeMembers o c K s)
  | .scan o [] :: K => some (collectPost o K s)
  | .scan o (z :: zs) :: K => some (visit z {s with stack := .scan o zs :: K})
  | .collect :: K => some (collectLoop K s)

/-! ## Runs -/

/-- User code is running: at the top level, or in a destructor. -/
def userTurn (s : State) : Bool :=
  match s.stack with
  | [] => true
  | .dtor _ _ :: _ => true
  | _ => false

/-- The test of `di_upgrade_weak_ref`. -/
def Available (h : Heap) (o : ObjRef) : Prop :=
  0 < (h.obj o).refCount ∧ (h.obj o).destroyed = false ∧ (h.obj o).mark ≠ 2 ∧ (h.obj o).mark ≠ 3

instance decidableAvailable (h : Heap) (o : ObjRef) : Decidable (Available h o) :=
  inferInstanceAs (Decidable (_ ∧ _ ∧ _ ∧ _))

/-- User code may edit the members of the object. -/
def Editable (s : State) (o : ObjRef) : Prop :=
  Available s.heap o ∨ ∃ c K, s.stack = .dtor o c :: K

/-- Whoever gives a reference up must hold it. The garbage collector is called from the main
loop only. A value that `di_add_member` neither stores nor releases is still held by user code. -/
inductive Move (s : State) : State → Prop where
  | newObject (hturn : userTurn s) :
      Move s {s with
        heap := (diNewObject s.heap).2
        external := pend s.external [.strong (diNewObject s.heap).1]}
  | setDtor (o : ObjRef) (hturn : userTurn s) (ho : Editable s o) :
      Move s {s with heap := s.heap.modify o fun x => {x with dtor := true}}
  | refObject (o : ObjRef) (h : Heap) (hturn : userTurn s) (ho : Available s.heap o)
      (hrun : diRefObject o s.heap = .ok h) :
      Move s {s with heap := h, external := pend s.external [.strong o]}
  | unrefObject (o : ObjRef) (R : Ref → ℕ) (s' : State) (hturn : userTurn s)
      (hR : s.external = pend R [.strong o]) (hrun : unref o {s with external := R} = .ok s') :
      Move s s'
  | weaklyRefObject (o : ObjRef) (h : Heap) (hturn : userTurn s) (ho : (s.heap.obj o).freed = false)
      (hrun : diWeaklyRefObject o s.heap = .ok h) :
      Move s {s with heap := h, external := pend s.external [.weak o]}
  | dropWeakRef (o : ObjRef) (R : Ref → ℕ) (h : Heap) (hturn : userTurn s)
      (hR : s.external = pend R [.weak o]) (hrun : diDropWeakRef o s.heap = .ok h) :
      Move s {s with heap := h, external := R}
  | upgradeWeakRef (o : ObjRef) (p : Option ObjRef) (h : Heap) (hturn : userTurn s)
      (ho : 0 < s.external (.weak o)) (hrun : diUpgradeWeakRef o s.heap = .ok (p, h)) :
      Move s {s with heap := h, external := pend s.external (p.toList.map .strong)}
  | addMember (o : ObjRef) (name : String) (v : DiValue) (R : Ref → ℕ) (hturn : userTurn s)
      (ho : Editable s o) (hR : s.external = pend R v.refs) (hvis : v.Visible)
      (hnew : diLookup o name s.heap = none) :
      Move s {s with heap := s.heap.insertMember o name v, external := R}
  | addMemberTaken (o : ObjRef) (name : String) (v : DiValue) (R : Ref → ℕ) (hturn : userTurn s)
      (ho : Editable s o) (hR : s.external = pend R v.refs)
      (htaken : (diLookup o name s.heap).isSome) :
      Move s {s with external := R, stack := .free v.refs :: s.stack}
  | deleteMember (o : ObjRef) (name : Name) (v : DiValue) (h : Heap) (hturn : userTurn s)
      (ho : Editable s o) (hrun : diRemoveMemberRaw o name s.heap = .ok (v, h)) :
      Move s {s with heap := h, stack := .free v.refs :: s.stack}
  | removeMember (o : ObjRef) (name : Name) (v : DiValue) (h : Heap) (hturn : userTurn s)
      (ho : Editable s o) (hv : ∀ t, .strong t ∈ v.refs → Available s.heap t)
      (hrun : diRemoveMemberRaw o name s.heap = .ok (v, h)) :
      Move s {s with heap := h, external := pend s.external v.refs}
  | collectGarbage (hstack : s.stack = []) : Move s {s with stack := [.collect]}
  | dtorEnd (o : ObjRef) (c : Cause) (K : List Frame) (hstack : s.stack = .dtor o c :: K) :
      Move s {s with stack := .members o c :: K}
  | resume (s' : State) (hrun : Destruction.resume s = some (.ok s')) : Move s s'

end Deai.Destruction
