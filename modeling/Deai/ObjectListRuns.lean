import Deai.ObjectLists

/-!
# Runs on the lists of objects

Whatever is done to the lists of objects in the course of a run, `list.h` does to the links what
the heap does to its lists. What is read from the links is what the heap says, and no null pointer
is followed.
-/
namespace Deai.ObjectLists
open ListHead LinkedNodes ObjectHeap Value

/-- What the code does to the lists. -/
inductive Step where
  /-- `di_init_object` -/
  | create
  /-- `list_del_init`, in `di_unref_object` and in the mark phase -/
  | delInit (o : ObjRef)
  /-- the end of `di_unref_object` -/
  | lost (o : ObjRef)
  /-- `isolated_roots` comes into scope -/
  | beginRound
  /-- a root goes to `isolated_roots` -/
  | isolate (o : ObjRef)
  /-- the revived roots leave `isolated_roots` -/
  | dropRevived (revived : ObjRef → Bool)
  /-- `isolated_roots` goes out of scope -/
  | endRound

/-- The state of the heap, and whether the collector is in a round. -/
structure State where
  heap : Heap
  round : Bool

def Step.apply : Step → State → State
  | .create, st => {st with heap := (diNewObject st.heap).2}
  | .delInit o, st => {st with heap := st.heap.listDelInit o}
  | .lost o, st =>
      {st with heap := if st.heap.unlisted o then st.heap.addUnreferred o else st.heap}
  | .beginRound, st => ⟨{st.heap with isolated := []}, true⟩
  | .isolate o, st => {st with heap := {st.heap with isolated := o :: st.heap.isolated}}
  | .dropRevived revived, st =>
      {st with heap := withoutRevived revived st.heap.isolated st.heap}
  | .endRound, st => {st with round := false}

/-- What the code sees to: it only works on objects there are, it isolates an object after it took
it off its list, and a round ends when all roots are gone. -/
def Step.Allowed : Step → State → Prop
  | .create, _ => True
  | .delInit o, st => o < st.heap.size
  | .lost o, st => o < st.heap.size
  | .beginRound, st => st.round = false
  | .isolate o, st => st.round = true ∧ o < st.heap.size ∧ st.heap.unlisted o
  | .dropRevived _, st => st.round = true
  | .endRound, st => st.round = true ∧ st.heap.isolated = []

/-- The step in memory. A new object is given an address. -/
def Step.run (rounds size : ℕ) : Step → Links Node → Option (Links Node)
  | .create, s => some (initListHead s (.object size))
  | .delInit o, s => ListHead.listDelInit s (.object o)
  | .lost o, s => ObjectLists.addUnreferred s o
  | .beginRound, s => some (initListHead s .isolatedRoots)
  | .isolate o, s => listAdd s (.object o) .isolatedRoots
  | .dropRevived revived, s => ObjectLists.dropRevived revived rounds s
  | .endRound, s => some s

def applyAll : List Step → State → State
  | [], st => st
  | step :: steps, st => applyAll steps (step.apply st)

def runAll (rounds : ℕ) : List Step → State → Links Node → Option (Links Node)
  | [], _, s => some s
  | step :: steps, st, s =>
      (step.run rounds st.heap.size s).bind (runAll rounds steps (step.apply st))

def AllAllowed : List Step → State → Prop
  | [], _ => True
  | step :: steps, st => step.Allowed st ∧ AllAllowed steps (step.apply st)

variable {s : Links Node} {st : State} {step : Step} {steps : List Step} {rounds : ℕ}

/-- No more objects are isolated than there are. -/
theorem isolated_length {h : Heap} {round : Bool} (hr : Represents s h round) :
    h.isolated.length ≤ h.size := by
  have hsub : h.isolated ⊆ List.range h.size := fun o ho =>
    List.mem_range.mpr (hr.members o (.inr ho))
  have hlen := (hr.nodup.2.subperm hsub).length_le
  rwa [List.length_range] at hlen

/-- One step keeps the memory and the heap together. -/
theorem Step.run_spec (hr : Represents s st.heap st.round) (hallowed : step.Allowed st)
    (hrounds : st.heap.size < rounds) :
    ∃ s', step.run rounds st.heap.size s = some s' ∧
      Represents s' (step.apply st).heap (step.apply st).round := by
  cases step with
  | create => exact ⟨_, rfl, hr.create⟩
  | delInit o => exact hr.listDelInit hallowed
  | lost o => exact hr.addUnreferred hallowed
  | beginRound =>
      obtain ⟨h, round⟩ := st
      obtain rfl : round = false := hallowed
      exact ⟨_, rfl, hr.beginRound⟩
  | isolate o =>
      obtain ⟨h, round⟩ := st
      obtain ⟨hround, ho, hun⟩ := hallowed
      obtain rfl : round = true := hround
      exact hr.isolate ho hun
  | dropRevived revived =>
      obtain ⟨h, round⟩ := st
      obtain rfl : round = true := hallowed
      exact hr.dropRevived revived ((isolated_length hr).trans_lt hrounds)
  | endRound =>
      obtain ⟨h, round⟩ := st
      obtain ⟨hround, hnil⟩ := hallowed
      obtain rfl : round = true := hround
      exact ⟨s, rfl, hr.endRound hnil⟩

theorem Step.apply_size (step : Step) (st : State) :
    (step.apply st).heap.size ≤ st.heap.size + 1 := by
  cases step with
  | create => exact Nat.le_refl _
  | delInit o => exact Nat.le_succ _
  | lost o =>
      simp only [Step.apply]
      split_ifs <;> exact Nat.le_succ _
  | beginRound => exact Nat.le_succ _
  | isolate o => exact Nat.le_succ _
  | dropRevived revived =>
      simp only [Step.apply, withoutRevived_size]
      exact Nat.le_succ _
  | endRound => exact Nat.le_succ _

theorem runAll_spec (hr : Represents s st.heap st.round) (hallowed : AllAllowed steps st)
    (hrounds : st.heap.size + steps.length < rounds) :
    ∃ s', runAll rounds steps st s = some s' ∧
      Represents s' (applyAll steps st).heap (applyAll steps st).round := by
  induction steps generalizing s st with
  | nil => exact ⟨s, rfl, hr⟩
  | cons step steps ih =>
      rw [List.length_cons] at hrounds
      have hroom : st.heap.size < rounds := by omega
      obtain ⟨s₁, hrun, hr₁⟩ := Step.run_spec hr hallowed.1 hroom
      have hsize := step.apply_size st
      obtain ⟨s', hruns, hr'⟩ := ih hr₁ hallowed.2 (by omega)
      exact ⟨s', by rw [runAll, hrun]; exact hruns, hr'⟩

theorem unreferred_length {h : Heap} {round : Bool} (hr : Represents s h round) :
    h.unreferred.length ≤ h.size := by
  have hsub : h.unreferred ⊆ List.range h.size := fun o ho =>
    List.mem_range.mpr (hr.members o (.inl ho))
  have hlen := (hr.nodup.1.subperm hsub).length_le
  rwa [List.length_range] at hlen

theorem applyAll_size (steps : List Step) (st : State) :
    (applyAll steps st).heap.size ≤ st.heap.size + steps.length := by
  induction steps generalizing st with
  | nil => exact Nat.le_refl _
  | cons step steps ih =>
      have hsize := step.apply_size st
      have hrest := ih (step.apply st)
      rw [List.length_cons]
      exact hrest.trans (by omega)

/-- Memory that is zero, and no objects. -/
def zeroLinks : Links Node := ⟨fun _ => none, fun _ => none⟩

def start : State := ⟨{}, false⟩

theorem represents_start : Represents zeroLinks start.heap start.round := by
  have hnone : ∀ k, k ∉ headsOf start.heap start.round := by
    intro k hk
    cases k with
    | object p => exact Nat.not_lt_zero _ hk.1
    | unreferredObjects => exact nomatch hk
    | isolatedRoots => exact nomatch hk
  refine ⟨⟨fun k hk => absurd hk (hnone k), fun k hk => absurd hk (hnone k)⟩, ?_, ?_, ?_⟩
  · rintro o (ho | ho) <;> exact nomatch ho
  · exact fun _ => ⟨rfl, rfl⟩
  · exact fun _ => rfl

/-- In every run the links have the lists that the heap says: an object is its own neighbour just
when it is in no list, the head of the first list is zero just until an object comes in, and a walk
from a head comes to the objects of its list, in order. -/
theorem object_lists_refine (hallowed : AllAllowed steps start) (hrounds : steps.length < rounds) :
    ∃ s', runAll rounds steps start zeroLinks = some s' ∧
      (∀ o < (applyAll steps start).heap.size,
        listEmpty s' (.object o) = (applyAll steps start).heap.unlisted o) ∧
      ((applyAll steps start).heap.headInit = false ↔ s'.next .unreferredObjects = none) ∧
      ((applyAll steps start).heap.headInit = true →
        listForEachEntry s' .unreferredObjects rounds =
          some ((applyAll steps start).heap.unreferred.map .object)) ∧
      ((applyAll steps start).round = true →
        listForEachEntry s' .isolatedRoots rounds =
          some ((applyAll steps start).heap.isolated.map .object)) := by
  have hroom : start.heap.size + steps.length < rounds := by
    rw [show start.heap.size = 0 from rfl]
    omega
  obtain ⟨s', hrun, hr⟩ := runAll_spec represents_start hallowed hroom
  have hsize := applyAll_size steps start
  rw [show start.heap.size = 0 from rfl, Nat.zero_add] at hsize
  refine ⟨s', hrun, fun o ho => hr.listEmpty_object ho, ⟨fun hinit => (hr.zero hinit).2, ?_⟩,
    fun hinit => ?_, fun hround => ?_⟩
  · intro hnull
    cases hinit : (applyAll steps start).heap.headInit with
    | false => rfl
    | true =>
        have hring := hr.lists.ring .unreferredObjects hinit
        obtain ⟨q, -, hq⟩ := first_mem_ring some Node.unreferredObjects
          (listsOf (applyAll steps start).heap .unreferredObjects)
        exact nomatch hnull.symm.trans (hring.next_head.trans hq)
  · refine hr.lists.listForEachEntry_eq (h := .unreferredObjects) hinit ?_
    rw [listsOf, List.length_map]
    exact (unreferred_length hr).trans_lt (hsize.trans_lt hrounds)
  · refine hr.lists.listForEachEntry_eq (h := .isolatedRoots) hround ?_
    rw [listsOf, List.length_map]
    exact (isolated_length hr).trans_lt (hsize.trans_lt hrounds)

/-- Two objects lose a reference, and a round finds that one of them is still needed. -/
def exampleSteps : List Step :=
  [.create, .create, .lost 0, .lost 1, .beginRound, .delInit 1, .isolate 1, .delInit 0, .isolate 0,
    .dropRevived fun o => o = 1]

theorem exampleSteps_allowed : AllAllowed exampleSteps start := by
  simp only [exampleSteps, AllAllowed, Step.Allowed]
  decide

theorem object_lists_refine_example :
    ∃ s', runAll 11 exampleSteps start zeroLinks = some s' ∧
      (∀ o < 2, listEmpty s' (.object o) = (o == 1)) ∧
      listForEachEntry s' .unreferredObjects 11 = some [] ∧
      listForEachEntry s' .isolatedRoots 11 = some [.object 0] := by
  have hrounds : exampleSteps.length < 11 := by decide
  obtain ⟨s', hrun, hempty, -, hunreferred, hisolated⟩ :=
    object_lists_refine exampleSteps_allowed hrounds
  refine ⟨s', hrun, fun o ho => ?_, hunreferred rfl, hisolated rfl⟩
  rw [hempty o ho]
  interval_cases o <;> rfl

end Deai.ObjectLists
