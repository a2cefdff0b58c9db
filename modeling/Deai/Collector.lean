import Deai.ObjectHeap

/-!
# The cycle collector

`di_collect_garbage` and its three recursive passes over `di_scan_type`, hook
by hook. A hook that returns a negative state stops the descent. While an
object is being scanned its member table does not change, so the iteration of
`HASH_ITER` is over the table as it is when the scan of the object starts.

Every recursion and every `while` loop runs on fuel.
-/
namespace Deai.Collector
open Value ObjectHeap

/-- The object case of `di_scan_type`, with the hooks `pre` and `post`. -/
def diScanObject (pre : ObjRef → ℤ → Heap → Except Fault (ℤ × Heap))
    (post : ObjRef → Heap → Except Fault Heap) :
    ℕ → ℤ → ObjRef → Heap → Except Fault Heap
  | 0, _, _, _ => .error .outOfFuel
  | fuel + 1, state, o, h => do
      let (next, h) ← pre o state h
      if 0 ≤ next then
        let h ← (h.obj o).members.foldlM
          (fun h m => diScanType (diScanObject pre post fuel next) m.2 h) h
        post o h
      else .ok h

/-- The passes that have no `post` hook. -/
def noPost (_ : ObjRef) (h : Heap) : Except Fault Heap := .ok h

/-- Stage 1: count the references met from the candidates. -/
def diCollectGarbageMark (o : ObjRef) (_ : ℤ) (h : Heap) : Except Fault (ℤ × Heap) := do
  let x ← h.deref o
  let h := (h.listDelInit o).modify o fun x => {x with refCountScan := x.refCountScan + 1}
  if x.mark = 1 then .ok (-1, h)
  else .ok (0, h.modify o fun x => {x with mark := 1})

/-- Stage 2: an object whose references were not all met is revived, with
everything it reaches; the others are up for collection. -/
def diCollectGarbageScan (o : ObjRef) (revive : ℤ) (h : Heap) :
    Except Fault (ℤ × Heap) := do
  let x ← h.deref o
  if x.refCount < x.refCountScan then .error (.refCountTooLow o)
  else if revive ≠ 0 ∨ x.refCountScan ≠ x.refCount then
    if x.mark = 0 then .ok (-1, h)
    else .ok (1, h.modify o fun x => {x with refCountScan := 0, mark := 0})
  else if x.mark = 2 ∨ x.mark = 0 then .ok (-1, h)
  else .ok (0, h.modify o fun x => {x with mark := 2})

/-- Stage 3: hold the object so that nobody else finalizes it first. -/
def diCollectGarbageCollectPre (o : ObjRef) (_ : ℤ) (h : Heap) :
    Except Fault (ℤ × Heap) := do
  let x ← h.deref o
  if x.mark = 0 ∨ x.mark = 3 then .ok (-1, h)
  else do
    let h ← diRefObject o h
    .ok (0, h.modify o fun x => {x with mark := 3})

def diCollectGarbageCollectPost (fuel : ℕ) (o : ObjRef) (h : Heap) : Except Fault Heap := do
  let x ← h.deref o
  if x.mark ≠ 3 then .error (.notPreFinalized o)
  else do
    let h ← diFinalizeObjectInner (diUnrefObject fuel) o h
    diUnrefObject fuel o h

/-- The loop that takes the candidates one by one; `fuel` is for the scans. -/
def markCandidates (fuel : ℕ) : ℕ → Heap → Except Fault Heap
  | 0, _ => .error .outOfFuel
  | n + 1, h =>
      match h.unreferred with
      | [] => .ok h
      | i :: _ => do
          let x ← h.deref i
          if x.mark ≠ 0 then .error (.candidateMarked i)
          else do
            let h ← diScanObject diCollectGarbageMark noPost fuel 0 i h
            let h := h.modify i fun x => {x with refCountScan := x.refCountScan - 1}
            markCandidates fuel n {h with isolated := i :: h.isolated}

def scanRoots (fuel : ℕ) (h : Heap) : Except Fault Heap :=
  h.isolated.foldlM (fun h i => diScanObject diCollectGarbageScan noPost fuel 0 i h) h

/-- Revived roots leave the list before anything is finalized. -/
def dropRevived (h : Heap) : Except Fault Heap :=
  h.isolated.foldlM (fun h i => do
    let x ← h.deref i
    if x.mark ≠ 0 ∧ x.mark ≠ 2 then .error (.rootNotScanned i)
    else if x.mark ≠ 2 then .ok (h.listDelInit i)
    else .ok h) h

/-- Each root is expected to take itself off the list. -/
def finalizeRoots (fuel : ℕ) : ℕ → Heap → Except Fault Heap
  | 0, _ => .error .outOfFuel
  | n + 1, h =>
      match h.isolated with
      | [] => .ok h
      | i :: _ => do
          let h ← diScanObject diCollectGarbageCollectPre (diCollectGarbageCollectPost fuel)
            fuel 0 i h
          finalizeRoots fuel n h

/-- One iteration of the outer loop. -/
def collectRound (fuel : ℕ) (h : Heap) : Except Fault Heap := do
  let h ← markCandidates fuel fuel {h with isolated := []}
  let h ← scanRoots fuel h
  let h ← dropRevived h
  finalizeRoots fuel fuel h

def collectRounds (fuel : ℕ) : ℕ → Heap → Except Fault Heap
  | 0, _ => .error .outOfFuel
  | n + 1, h =>
      if h.headInit = false then .error .nullListHead
      else if h.unreferred = [] then .ok h
      else do
        let h ← collectRound fuel h
        collectRounds fuel n h

def diCollectGarbage (fuel : ℕ) (h : Heap) : Except Fault Heap := collectRounds fuel fuel h

end Deai.Collector
