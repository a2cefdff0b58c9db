import Deai.Value
import Mathlib.Logic.Relation

/-!
# Anonymous roots

The roots object holds one strong reference to each of its anonymous roots. Releasing one can run
destructors, and those may add and remove roots, so `di_remove_anonymous_root` and `di_roots_dtor`
can be interrupted by any calls whenever they release a reference. The functions that wait for
such calls are frames of a stack.

Entries of the table are numbered by their memory. The calls of `di_ref_object` and
`di_unref_object` are recorded.
-/
namespace Deai.AnonymousRoots
open Value Relation

/-- `struct di_anonymous_root` -/
structure Root where
  id : ℕ
  obj : ObjRef
  deriving DecidableEq

/-- Calls that changed the table. -/
inductive Change where
  | added (o : ObjRef)
  | removed (o : ObjRef)
  deriving DecidableEq

/-- `di_remove_anonymous_root` with its entry, and `di_roots_dtor` with the objects that it has not
yet released and the changes since it took the roots out of the table. -/
inductive Frame where
  | removing (r : Root)
  | draining (objectsToFree : List ObjRef) (since : List Change)

structure State where
  table : List Root := []
  nextId : ℕ := 0
  freed : List ℕ := []
  taken : List ObjRef := []
  given : List ObjRef := []
  stack : List Frame := []

def State.objects (s : State) : List ObjRef := s.table.map (·.obj)

def Frame.note (cs : List Change) : Frame → Frame
  | .removing r => .removing r
  | .draining os since => .draining os (cs ++ since)

/-! ## The functions -/

def diAddAnonymousRoot (root : ObjRef) (s : State) : Bool × State :=
  match s.table.find? (·.obj = root) with
  | some _ => (false, s)
  | none =>
      (true, {s with
        table := s.table ++ [⟨s.nextId, root⟩]
        nextId := s.nextId + 1
        taken := root :: s.taken
        stack := s.stack.map (Frame.note [.added root])})

/-- `di_remove_anonymous_root`, up to the release of the reference if the root is there. -/
def diRemoveAnonymousRoot (root : ObjRef) (s : State) : Bool × State :=
  match s.table.find? (·.obj = root) with
  | none => (false, s)
  | some aroot =>
      (true, {s with
        table := s.table.erase aroot
        given := aroot.obj :: s.given
        stack := .removing aroot :: s.stack.map (Frame.note [.removed aroot.obj])})

/-- `di_roots_dtor`, up to the loop that releases the references. -/
def diRootsDtor (s : State) : State :=
  {s with
    table := []
    freed := s.table.map (·.id) ++ s.freed
    stack := .draining s.objects [] :: s.stack.map (Frame.note (s.objects.map .removed))}

/-- Calls can come at any time; a function that was interrupted goes on when it is the last one. -/
inductive Step (s : State) : State → Prop where
  | addAnonymous (root : ObjRef) : Step s (diAddAnonymousRoot root s).2
  | removeAnonymous (root : ObjRef) : Step s (diRemoveAnonymousRoot root s).2
  | removed (r : Root) (K : List Frame) (hstack : s.stack = .removing r :: K) :
      Step s {s with freed := r.id :: s.freed, stack := K}
  | dtor : Step s (diRootsDtor s)
  | drain (o : ObjRef) (os : List ObjRef) (since : List Change) (K : List Frame)
      (hstack : s.stack = .draining (o :: os) since :: K) :
      Step s {s with given := o :: s.given, stack := .draining os since :: K}
  | dtorEnd (since : List Change) (K : List Frame) (hstack : s.stack = .draining [] since :: K) :
      Step s {s with stack := K}

/-! ## The invariant -/

/-- The memory of the entry a function still has to free. -/
def Frame.ids : Frame → List ℕ
  | .removing r => [r.id]
  | .draining _ _ => []

/-- The references a function still has to release. -/
def Frame.owes : Frame → List ObjRef
  | .removing _ => []
  | .draining os _ => os

/-- All memory of entries: in the table, in use by a function, freed. -/
def State.memory (s : State) : List ℕ := s.table.map (·.id) ++ (s.stack.flatMap Frame.ids ++ s.freed)

/-- What was added and not removed again is in the table. -/
def Accounts (objects : List ObjRef) : Frame → Prop
  | .removing _ => True
  | .draining _ since => ∀ o, objects.count o + since.count (.removed o) = since.count (.added o)

structure Sound (s : State) : Prop where
  memory : s.memory.Nodup
  fresh : ∀ n ∈ s.memory, n < s.nextId
  objects : s.objects.Nodup
  references : ∀ o, s.taken.count o =
    s.given.count o + s.objects.count o + (s.stack.flatMap Frame.owes).count o
  changes : ∀ f ∈ s.stack, Accounts s.objects f

section
variable {s s' : State} {root : ObjRef} {aroot : Root} {cs : List Change} {K : List Frame}

theorem find_none_iff : s.table.find? (·.obj = root) = none ↔ root ∉ s.objects := by
  unfold State.objects
  rw [List.find?_eq_none, List.mem_map]
  constructor
  · rintro hall ⟨r, hr, hobj⟩
    exact hall r hr (decide_eq_true hobj)
  · intro hnone r hr hobj
    exact hnone ⟨r, hr, of_decide_eq_true hobj⟩

theorem mem_of_find (hfind : s.table.find? (·.obj = root) = some aroot) :
    aroot ∈ s.table ∧ aroot.obj = root :=
  ⟨List.mem_of_find?_eq_some hfind, by simpa using List.find?_some hfind⟩

@[simp] theorem ids_note (cs : List Change) (K : List Frame) :
    (K.map (Frame.note cs)).flatMap Frame.ids = K.flatMap Frame.ids := by
  rw [List.flatMap_map]
  refine List.flatMap_congr fun f _ => ?_
  cases f <;> rfl

@[simp] theorem owes_note (cs : List Change) (K : List Frame) :
    (K.map (Frame.note cs)).flatMap Frame.owes = K.flatMap Frame.owes := by
  rw [List.flatMap_map]
  refine List.flatMap_congr fun f _ => ?_
  cases f <;> rfl

/-- The changes that are noted are the changes of the table. -/
theorem accounts_note {objects objects' : List ObjRef}
    (hchange : ∀ o, objects'.count o + cs.count (.removed o) = objects.count o + cs.count (.added o))
    (hK : ∀ f ∈ K, Accounts objects f) : ∀ f ∈ K.map (Frame.note cs), Accounts objects' f := by
  intro f hf
  obtain ⟨g, hg, rfl⟩ := List.mem_map.mp hf
  have hacc := hK g hg
  cases g with
  | removing r => trivial
  | draining os since =>
      intro o
      have h₁ := hacc o
      have h₂ := hchange o
      rw [List.count_append, List.count_append]
      omega

/-- The table without one of its entries. -/
theorem count_erase (hmem : aroot ∈ s.table) (o : ObjRef) :
    s.objects.count o = ((s.table.erase aroot).map (·.obj)).count o + [aroot.obj].count o := by
  have hperm := ((List.perm_cons_erase hmem).map (·.obj)).count_eq o
  rw [List.map_cons, ← List.singleton_append, List.count_append] at hperm
  unfold State.objects
  omega

theorem sound_init : Sound {} := ⟨List.nodup_nil, nofun, List.nodup_nil, fun _ => rfl, nofun⟩

/-- The same memory in other places. -/
theorem Sound.memory_perm (hs : Sound s) (hperm : s'.memory.Perm s.memory)
    (hnext : s'.nextId = s.nextId) : s'.memory.Nodup ∧ ∀ n ∈ s'.memory, n < s'.nextId := by
  refine ⟨hperm.nodup_iff.mpr hs.memory, fun n hn => ?_⟩
  rw [hnext]
  exact hs.fresh n (hperm.mem_iff.mp hn)

theorem Sound.add (hs : Sound s) : Sound (diAddAnonymousRoot root s).2 := by
  unfold diAddAnonymousRoot
  cases hfind : s.table.find? (·.obj = root) with
  | some r => exact hs
  | none =>
      have habsent := find_none_iff.mp hfind
      set s' : State := {s with
        table := s.table ++ [⟨s.nextId, root⟩]
        nextId := s.nextId + 1
        taken := root :: s.taken
        stack := s.stack.map (Frame.note [.added root])} with hs'
      have hperm : s'.memory.Perm (s.nextId :: s.memory) := by
        unfold State.memory
        simp only [hs', List.map_append, List.map_cons, List.map_nil, ids_note, List.append_assoc,
          List.singleton_append]
        exact List.perm_middle
      have hobjects : s'.objects = s.objects ++ [root] := by
        unfold State.objects
        rw [hs', List.map_append]
        rfl
      refine ⟨?_, fun n hn => ?_, ?_, fun o => ?_, ?_⟩
      · rw [hperm.nodup_iff, List.nodup_cons]
        exact ⟨fun hmem => (hs.fresh _ hmem).ne rfl, hs.memory⟩
      · rcases List.mem_cons.mp (hperm.mem_iff.mp hn) with rfl | hn
        · exact Nat.lt_succ_self _
        · exact (hs.fresh n hn).trans (Nat.lt_succ_self _)
      · rw [hobjects]
        exact hs.objects.append (List.nodup_singleton _) (List.disjoint_singleton.mpr habsent)
      · have href := hs.references o
        rw [hobjects]
        simp only [hs', owes_note, List.count_append, List.count_cons, List.count_nil]
        omega
      · rw [hobjects]
        refine accounts_note (fun o => ?_) hs.changes
        rw [List.count_append]
        by_cases ho : root = o
        · subst ho
          simp
        · simp [ho]

theorem Sound.remove (hs : Sound s) : Sound (diRemoveAnonymousRoot root s).2 := by
  unfold diRemoveAnonymousRoot
  cases hfind : s.table.find? (·.obj = root) with
  | none => exact hs
  | some aroot =>
      obtain ⟨hmem, rfl⟩ := mem_of_find hfind
      set s' : State := {s with
        table := s.table.erase aroot
        given := aroot.obj :: s.given
        stack := .removing aroot :: s.stack.map (Frame.note [.removed aroot.obj])} with hs'
      have hperm : s'.memory.Perm s.memory := by
        have hids := ((List.perm_cons_erase hmem).map (·.id)).append_right
          (s.stack.flatMap Frame.ids ++ s.freed)
        unfold State.memory
        simp only [hs', List.flatMap_cons, ids_note, Frame.ids, List.cons_append]
        exact List.perm_middle.trans hids.symm
      have hcount := count_erase hmem
      obtain ⟨hnodup, hfresh⟩ := hs.memory_perm hperm rfl
      refine ⟨hnodup, hfresh, hs.objects.sublist (List.erase_sublist.map _), fun o => ?_, ?_⟩
      · have href := hs.references o
        have ho : s.objects.count o = s'.objects.count o + [aroot.obj].count o := hcount o
        simp only [hs', List.flatMap_cons, Frame.owes, List.nil_append, owes_note, List.count_cons,
          List.count_nil] at ho ⊢
        omega
      · intro f hf
        rcases List.mem_cons.mp hf with rfl | hf
        · trivial
        · refine accounts_note (fun o => ?_) hs.changes f hf
          have ho : s.objects.count o = s'.objects.count o + [aroot.obj].count o := hcount o
          by_cases heq : aroot.obj = o
          · subst heq
            simpa using ho.symm
          · simpa [heq] using ho.symm

theorem Sound.dtor (hs : Sound s) : Sound (diRootsDtor s) := by
  have hperm : (diRootsDtor s).memory.Perm s.memory := by
    unfold State.memory diRootsDtor
    simp only [List.map_nil, List.nil_append, List.flatMap_cons, Frame.ids, ids_note]
    rw [← List.append_assoc, ← List.append_assoc]
    exact List.perm_append_comm.append_right _
  obtain ⟨hnodup, hfresh⟩ := hs.memory_perm hperm rfl
  refine ⟨hnodup, hfresh, List.nodup_nil, fun o => ?_, fun f hf => ?_⟩
  · have href := hs.references o
    simp only [diRootsDtor, State.objects, List.map_nil, List.count_nil, List.flatMap_cons,
      Frame.owes, owes_note, List.count_append] at href ⊢
    omega
  · rcases List.mem_cons.mp hf with rfl | hf
    · intro o
      rfl
    · refine accounts_note (fun o => ?_) hs.changes f hf
      have hremoved : (s.objects.map Change.removed).count (.removed o) = s.objects.count o :=
        List.count_map_of_injective _ _ (fun _ _ h => by cases h; rfl) o
      have hadded : (s.objects.map Change.removed).count (.added o) = 0 := by
        rw [List.count_eq_zero, List.mem_map]
        rintro ⟨_, -, h⟩
        cases h
      rw [hremoved, hadded]
      exact Nat.zero_add _

theorem Sound.step (hs : Sound s) (hstep : Step s s') : Sound s' := by
  cases hstep with
  | addAnonymous root => exact hs.add
  | removeAnonymous root => exact hs.remove
  | dtor => exact hs.dtor
  | removed r K hstack =>
      have hchanges := hs.changes
      have href := hs.references
      rw [hstack] at hchanges href
      have hperm : ({s with freed := r.id :: s.freed, stack := K} : State).memory.Perm s.memory := by
        unfold State.memory
        rw [hstack]
        simp only [List.flatMap_cons, Frame.ids, List.cons_append]
        exact (List.perm_middle).append_left _
      obtain ⟨hnodup, hfresh⟩ := hs.memory_perm hperm rfl
      exact ⟨hnodup, hfresh, hs.objects, href, fun f hf => hchanges f (List.mem_cons_of_mem _ hf)⟩
  | drain o os since K hstack =>
      have hchanges := hs.changes
      have href := hs.references
      have hmemory := hs.memory
      have hfresh := hs.fresh
      unfold State.memory at hmemory hfresh
      rw [hstack] at hchanges href hmemory hfresh
      refine ⟨hmemory, hfresh, hs.objects, fun x => ?_, fun f hf => ?_⟩
      · have hx := href x
        simp only [State.objects, List.flatMap_cons, Frame.owes, List.cons_append,
          List.count_cons] at hx ⊢
        omega
      · rcases List.mem_cons.mp hf with rfl | hf
        · exact hchanges (.draining (o :: os) since) List.mem_cons_self
        · exact hchanges f (List.mem_cons_of_mem _ hf)
  | dtorEnd since K hstack =>
      have hchanges := hs.changes
      have href := hs.references
      have hmemory := hs.memory
      have hfresh := hs.fresh
      unfold State.memory at hmemory hfresh
      rw [hstack] at hchanges href hmemory hfresh
      exact ⟨hmemory, hfresh, hs.objects, href, fun f hf => hchanges f (List.mem_cons_of_mem _ hf)⟩

theorem run_sound (hrun : ReflTransGen Step {} s) : Sound s := by
  induction hrun with
  | refl => exact sound_init
  | tail _ hstep ih => exact ih.step hstep

/-- One reference is taken for a root that is added, and given back for one that is removed. -/
structure SetOfReferences (s : State) : Prop where
  add : ∀ root, (diAddAnonymousRoot root s).1 = true ↔ root ∉ s.objects
  added : ∀ root, root ∉ s.objects → (diAddAnonymousRoot root s).2.taken = root :: s.taken
  remove : ∀ root, (diRemoveAnonymousRoot root s).1 = true ↔ root ∈ s.objects
  removed : ∀ root, root ∈ s.objects → (diRemoveAnonymousRoot root s).2.given = root :: s.given

theorem setOfReferences (s : State) : SetOfReferences s where
  add root := by
    rw [← find_none_iff]
    unfold diAddAnonymousRoot
    split <;> simp [*]
  added root habsent := by
    unfold diAddAnonymousRoot
    rw [find_none_iff.mpr habsent]
  remove root := by
    rw [← not_iff_not, ← find_none_iff]
    unfold diRemoveAnonymousRoot
    split <;> simp [*]
  removed root hmem := by
    unfold diRemoveAnonymousRoot
    cases hfind : s.table.find? (·.obj = root) with
    | none => exact absurd hmem (find_none_iff.mp hfind)
    | some r => rw [← (mem_of_find hfind).2]

/-- Every root that was added since has been removed since. -/
def Undone (since : List Change) : Prop := ∀ o, since.count (.added o) = since.count (.removed o)

/-- Whatever calls come at whatever time: adding and removing work as on a set of references, every
reference that was taken was given back or is in the table or is about to be released by
`di_roots_dtor`, no entry is used after it was freed or freed twice; and when `di_roots_dtor` returns
the table is empty if and only if every root added meanwhile was also removed. -/
theorem roots_set_of_references (hrun : ReflTransGen Step {} s) :
    SetOfReferences s ∧ s.memory.Nodup ∧ s.objects.Nodup ∧
    (∀ o, s.taken.count o =
      s.given.count o + s.objects.count o + (s.stack.flatMap Frame.owes).count o) ∧
    ∀ since K, s.stack = .draining [] since :: K → (s.table = [] ↔ Undone since) := by
  have hs := run_sound hrun
  refine ⟨setOfReferences s, hs.memory, hs.objects, hs.references, fun since K hstack => ?_⟩
  have hacc : Accounts s.objects (.draining [] since) :=
    hs.changes _ (hstack ▸ List.mem_cons_self)
  constructor
  · intro hempty o
    have ho := hacc o
    rw [State.objects, hempty] at ho
    simpa using ho.symm
  · intro hundone
    have hnone : s.objects = [] := by
      rw [List.eq_nil_iff_forall_not_mem]
      intro o ho
      have hpos := List.count_pos_iff.mpr ho
      have ho := hacc o
      have hsame := hundone o
      omega
    exact List.map_eq_nil_iff.mp hnone

end

/-- `di_roots_dtor` has released its only root, and is about to return. -/
def drained : State where
  nextId := 1
  freed := [0]
  taken := [7]
  given := [7]
  stack := [.draining [] []]

theorem drained_run : ReflTransGen Step {} drained :=
  ((ReflTransGen.refl.tail (.addAnonymous 7)).tail .dtor).tail (.drain 7 [] [] [] rfl)

theorem roots_set_of_references_drained : drained.table = [] ∧ Undone [] := by
  have hiff := (roots_set_of_references drained_run).2.2.2.2 [] [] rfl
  exact ⟨hiff.mpr fun _ => rfl, hiff.mp rfl⟩

/-- The destructor of that root adds another one. -/
def late : State where
  table := [⟨1, 8⟩]
  nextId := 2
  freed := [0]
  taken := [8, 7]
  given := [7]
  stack := [.draining [] [.added 8]]

theorem roots_left : ReflTransGen Step {} late ∧ late.stack = [.draining [] [.added 8]] ∧
    late.table ≠ [] :=
  ⟨drained_run.tail (.addAnonymous 8), rfl, nofun⟩

end Deai.AnonymousRoots
