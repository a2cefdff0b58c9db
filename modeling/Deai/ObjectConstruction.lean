import Deai.Fallible
import Deai.ObjectHeap
import Mathlib.Data.UInt

/-!
# Objects that are constructed in C++

`util::new_object` allocates memory and runs the constructor on it. Only then it clears the header
that the object begins with and initialises it. So the constructor works on whatever
`posix_memalign` has left there, and what it has put into the header is lost: `Device` and
`DeviceProperties` of the udev plugin add members and methods in their constructors.

The constructor gets at the header by its references to the object, by `util::add_method`, and by
assignments to raw members. Freeing a member that is replaced drops the references to the object
that the member holds. What that does to other objects is left out.
-/
namespace Deai.ObjectConstruction
open Value Fallible
open ObjectHeap (Errno)

/-- An entry of a member table: the `di_member`, and what it holds. -/
structure Member where
  node : ℕ
  name : String
  value : DiValue

/-- Where the pointers of `unreferred_siblings` lead: to the node itself, to its neighbours in the
list `unreferred_objects`, or anywhere. -/
inductive Siblings where
  | itself
  | list
  | anywhere
  deriving DecidableEq

/-- `di_object_internal`. A null pointer is an empty member table; `members` is `none` if the
pointer is not null and there is no member table where it leads. -/
structure Header where
  members : Option (List Member)
  dtor : Bool
  refCount : UInt64
  weakRefCount : UInt64
  siblings : Siblings
  mark : UInt8
  destroyed : UInt8

/-- What can happen instead of a result: a failed assertion, an access through a wild pointer, an
exception, and the end of the object that is under construction. -/
inductive Failure where
  | assertion
  | wildPointer
  | thrown (e : Errno)
  | destroyed
  | freed

/-- The header, the next `di_member` to be allocated, and the members that the constructor has added
and not replaced. -/
structure State where
  header : Header
  next : ℕ
  added : List Member

def diRefObject (s : State) : State :=
  {s with header := {s.header with refCount := s.header.refCount + 1}}

def calmMark (m : UInt8) : Bool := m == 0 || m == 2 || m == 3

/-- An object that keeps a reference becomes a candidate for the collector. -/
def addUnreferred (x : Header) : Header :=
  if x.siblings = .itself ∧ x.mark = 0 then {x with siblings := .list} else x

def diUnrefObject (s : State) : Except Failure State :=
  if s.header.refCount = 0 then .error .assertion
  else if s.header.destroyed ≠ 0 then .error .assertion
  else if calmMark s.header.mark = false then .error .assertion
  else if s.header.refCount - 1 = 0 then .error .destroyed
  else .ok {s with header := addUnreferred {s.header with refCount := s.header.refCount - 1}}

def diDecrementWeakRefCount (s : State) : Except Failure State :=
  if s.header.weakRefCount - 1 = 0 then
    if s.header.refCount ≠ 0 then .error .assertion else .error .freed
  else .ok {s with header := {s.header with weakRefCount := s.header.weakRefCount - 1}}

/-- `di_free_value` at one reference: `self` is the object under construction. -/
def dropOwn (self : ObjRef) (s : State) : Ref → Except Failure State
  | .strong o => if o = self then diUnrefObject s else .ok s
  | .weak o => if o = self then diDecrementWeakRefCount s else .ok s

/-- `di_delete_member_raw` -/
def diDeleteMemberRaw (self : ObjRef) (name : String) (s : State) : Except Failure State :=
  match s.header.members with
  | none => .error .wildPointer
  | some ms =>
      match ms.find? fun m => m.name = name with
      | none => .ok s
      | some m => m.value.refs.foldlM (dropOwn self)
          {s with
            header := {s.header with members := some (ms.eraseP fun m => m.name = name)}
            added := s.added.eraseP fun m => m.name = name}

/-- `di_add_member_move`, and what its callers throw. -/
def diAddMemberMove (name : String) (v : DiValue) (s : State) : Except Failure State :=
  match v with
  | .nil => .error (.thrown .einval)
  | v =>
      match s.header.members with
      | none => .error .wildPointer
      | some ms =>
          if ms.any fun m => m.name = name then .error (.thrown .eexist)
          else .ok {
            header := {s.header with members := some (ms ++ [⟨s.next, name, v⟩])}
            next := s.next + 1
            added := s.added ++ [⟨s.next, name, v⟩]}

/-- What a constructor does to the header: it makes a `Ref` to the object and lets go of one, calls
`util::add_method`, which has just created the closure, and assigns to `raw_members()`. -/
inductive Action where
  | takeRef
  | dropRef
  | addMethod (name : String) (closure : ObjRef)
  | assignRawMember (name : String) (value : DiValue)

def perform (self : ObjRef) (s : State) : Action → Except Failure State
  | .takeRef => .ok (diRefObject s)
  | .dropRef => diUnrefObject s
  | .addMethod name closure => diAddMemberMove name (.object closure) s
  | .assignRawMember name v => do
      let s ← diDeleteMemberRaw self name s
      diAddMemberMove name v s

/-- `::memset(&obj->base, 0, sizeof(obj->base))` -/
def zeroed : Header := ⟨some [], false, 0, 0, .anywhere, 0, 0⟩

def diInitObject (x : Header) : Header :=
  {x with refCount := 1, weakRefCount := 1, destroyed := 0, siblings := .itself}

/-- `di_set_type` on an object without a type. -/
def diSetType (node : ℕ) (type : String) (x : Header) : Header :=
  {x with members := x.members.map (· ++ [⟨node, "__type", .stringLiteral type⟩])}

/-- `util::new_object`: `header` is what the allocated memory holds. `Ref<T>::take` checks the type
that has just been set. -/
def newObject (self : ObjRef) (type : String) (header : Header) (constructor : List Action) :
    Except Failure (State × Header) := do
  let s ← constructor.foldlM (perform self) ⟨header, 0, []⟩
  let x := diInitObject zeroed
  .ok (s, diSetType s.next type {x with dtor := true})

/-- `new_object` returns an object with one reference, not destroyed, and with all the members that
the constructor has added. -/
def Keeps (self : ObjRef) (type : String) (header : Header) (constructor : List Action) : Prop :=
  ∃ s x, newObject self type header constructor = .ok (s, x) ∧ x.refCount = 1 ∧
    x.weakRefCount = 1 ∧ x.destroyed = 0 ∧ ∀ m ∈ s.added, ∃ ms, x.members = some ms ∧ m ∈ ms

/-- Whether the constructor adds a member. -/
def Action.addsMember : Action → Bool
  | .takeRef | .dropRef => false
  | .addMethod _ _ | .assignRawMember _ _ => true

def Action.count (c : UInt64) : Action → UInt64
  | .takeRef => c + 1
  | .dropRef => c - 1
  | .addMethod _ _ | .assignRawMember _ _ => c

/-- The reference count after the actions, by the references taken and dropped. -/
def countAfter (c : UInt64) (actions : List Action) : UInt64 := actions.foldl Action.count c

/-- A reference may be dropped in a header with this count: the object does not look destroyed, no
collection seems to be marking it, and the reference is not the last one. -/
def Droppable (x : Header) (count : UInt64) : Prop :=
  x.destroyed = 0 ∧ calmMark x.mark = true ∧ count ≠ 0 ∧ count ≠ 1

/-! ## Members -/

variable {self : ObjRef} {s t : State} {header : Header} {a : Action} {as : List Action}

theorem dropOwn_same {r : Ref} (hrun : dropOwn self s r = .ok t) :
    t.added = s.added ∧ t.next = s.next := by
  cases r with
  | strong o =>
      rw [dropOwn] at hrun
      split_ifs at hrun
      · unfold diUnrefObject at hrun
        split_ifs at hrun
        cases hrun
        exact ⟨rfl, rfl⟩
      · cases hrun
        exact ⟨rfl, rfl⟩
  | weak o =>
      rw [dropOwn] at hrun
      split_ifs at hrun
      · unfold diDecrementWeakRefCount at hrun
        split_ifs at hrun
        cases hrun
        exact ⟨rfl, rfl⟩
      · cases hrun
        exact ⟨rfl, rfl⟩

theorem foldlM_dropOwn_same {rs : List Ref} (hrun : rs.foldlM (dropOwn self) s = .ok t) :
    t.added = s.added ∧ t.next = s.next := by
  induction rs generalizing s with
  | nil =>
      cases hrun
      exact ⟨rfl, rfl⟩
  | cons r rs ih =>
      rw [List.foldlM_cons] at hrun
      obtain ⟨u, hu, hrest⟩ := bind_eq_ok hrun
      obtain ⟨hadded, hnext⟩ := dropOwn_same hu
      obtain ⟨hadded', hnext'⟩ := ih hrest
      exact ⟨hadded'.trans hadded, hnext'.trans hnext⟩

theorem diDeleteMemberRaw_same {name : String} (hrun : diDeleteMemberRaw self name s = .ok t) :
    (∀ m ∈ t.added, m ∈ s.added) ∧ t.next = s.next := by
  unfold diDeleteMemberRaw at hrun
  split at hrun
  · cases hrun
  · split at hrun
    · cases hrun
      exact ⟨fun m hm => hm, rfl⟩
    · obtain ⟨hadded, hnext⟩ := foldlM_dropOwn_same hrun
      rw [hadded, hnext]
      exact ⟨fun m hm => List.mem_of_mem_eraseP hm, rfl⟩

theorem diAddMemberMove_added {name : String} {v : DiValue}
    (hrun : diAddMemberMove name v s = .ok t) :
    t.added = s.added ++ [⟨s.next, name, v⟩] ∧ t.next = s.next + 1 := by
  unfold diAddMemberMove at hrun
  split at hrun
  · cases hrun
  · split at hrun
    · cases hrun
    · split_ifs at hrun
      cases hrun
      exact ⟨rfl, rfl⟩

/-- An action adds a member, or leaves the members that have been added alone. -/
theorem perform_added (hrun : perform self s a = .ok t) :
    (a.addsMember = false ∧ t.added = s.added ∧ t.next = s.next) ∨
      a.addsMember = true ∧ ∃ m, m.node = s.next ∧ m ∈ t.added ∧ t.next = s.next + 1 ∧
        ∀ x ∈ t.added, x = m ∨ x ∈ s.added := by
  cases a with
  | takeRef =>
      cases hrun
      exact .inl ⟨rfl, rfl, rfl⟩
  | dropRef =>
      have hdrop : dropOwn self s (.strong self) = .ok t := (if_pos rfl).trans hrun
      obtain ⟨hadded, hnext⟩ := dropOwn_same hdrop
      exact .inl ⟨rfl, hadded, hnext⟩
  | addMethod name closure =>
      have hadd : diAddMemberMove name (.object closure) s = .ok t := hrun
      obtain ⟨hadded, hnext⟩ := diAddMemberMove_added hadd
      refine .inr ⟨rfl, ⟨s.next, name, .object closure⟩, rfl, by simp [hadded], hnext, ?_⟩
      intro x hx
      rw [hadded] at hx
      simpa [or_comm] using hx
  | assignRawMember name v =>
      obtain ⟨u, hu, hadd⟩ := bind_eq_ok hrun
      obtain ⟨hsub, hsame⟩ := diDeleteMemberRaw_same hu
      obtain ⟨hadded, hnext⟩ := diAddMemberMove_added hadd
      refine .inr ⟨rfl, ⟨u.next, name, v⟩, hsame, by simp [hadded], by rw [hnext, hsame], ?_⟩
      intro x hx
      rw [hadded, List.mem_append, List.mem_singleton] at hx
      exact hx.symm.imp_right (hsub x)

/-- The members that a constructor has added lie in nodes of their own, and there are some as soon
as it adds one. -/
theorem construct_added (hrun : as.foldlM (perform self) s = .ok t)
    (hnodes : ∀ m ∈ s.added, m.node < s.next) :
    (∀ m ∈ t.added, m.node < t.next) ∧
      (t.added = [] ↔ s.added = [] ∧ ∀ a ∈ as, a.addsMember = false) := by
  induction as generalizing s with
  | nil =>
      cases hrun
      exact ⟨hnodes, by simp⟩
  | cons a as ih =>
      rw [List.foldlM_cons] at hrun
      obtain ⟨u, hu, hrest⟩ := bind_eq_ok hrun
      rcases perform_added hu with ⟨hnot, hadded, hnext⟩ | ⟨hadds, m, hm, hmem, hnext, hold⟩
      · obtain ⟨hlt, hnil⟩ := ih hrest (by rwa [hadded, hnext])
        refine ⟨hlt, ?_⟩
        rw [hnil, hadded, List.forall_mem_cons, hnot]
        simp
      · have hnodes' : ∀ x ∈ u.added, x.node < u.next := by
          intro x hx
          rw [hnext]
          rcases hold x hx with rfl | hx
          · rw [hm]
            exact Nat.lt_succ_self _
          · exact Nat.lt_succ_of_lt (hnodes x hx)
        obtain ⟨hlt, hnil⟩ := ih hrest hnodes'
        refine ⟨hlt, ?_⟩
        rw [hnil, List.forall_mem_cons, hadds]
        simp [List.ne_nil_of_mem hmem]

/-! ## References -/

theorem diUnrefObject_ok_iff :
    (∃ t, diUnrefObject s = .ok t) ↔ Droppable s.header s.header.refCount := by
  unfold diUnrefObject Droppable
  have hone : s.header.refCount - 1 = 0 ↔ s.header.refCount = 1 := sub_eq_zero
  split_ifs with hzero hdestroyed hmark hlast
  · simp [hzero]
  · simp [hdestroyed]
  · simp [hmark]
  · simp [hone.mp hlast]
  · rw [hone] at hlast
    simp_all

theorem diUnrefObject_header (hrun : diUnrefObject s = .ok t) :
    t.header.refCount = s.header.refCount - 1 ∧ t.header.destroyed = s.header.destroyed ∧
      t.header.mark = s.header.mark := by
  unfold diUnrefObject at hrun
  split_ifs at hrun
  cases hrun
  unfold addUnreferred
  split_ifs <;> exact ⟨rfl, rfl, rfl⟩

theorem droppable_unref (hrun : diUnrefObject s = .ok t) :
    Droppable t.header (countAfter t.header.refCount as) ↔
      Droppable s.header (countAfter s.header.refCount (.dropRef :: as)) := by
  obtain ⟨hcount, hdestroyed, hmark⟩ := diUnrefObject_header hrun
  rw [Droppable, Droppable, hcount, hdestroyed, hmark]
  exact Iff.rfl

/-- A constructor that adds no members runs to its end exactly if it may drop each reference when
it does. -/
theorem construct_refs_iff (has : ∀ a ∈ as, a.addsMember = false) :
    (∃ t, as.foldlM (perform self) s = .ok t) ↔
      ∀ before after, as = before ++ Action.dropRef :: after →
        Droppable s.header (countAfter s.header.refCount before) := by
  induction as generalizing s with
  | nil =>
      refine iff_of_true ⟨s, rfl⟩ fun before after h => ?_
      exact absurd h.symm (List.append_ne_nil_of_right_ne_nil _ (List.cons_ne_nil _ _))
  | cons a as ih =>
      have hrest : ∀ b ∈ as, b.addsMember = false := fun b hb => has b (List.mem_cons_of_mem _ hb)
      rw [List.foldlM_cons]
      cases a with
      | takeRef =>
          rw [perform, ok_bind, ih hrest]
          constructor
          · intro hall before after hsplit
            cases before with
            | nil => cases hsplit
            | cons b before =>
                obtain ⟨rfl, hrests⟩ := List.cons.inj hsplit
                exact hall before after hrests
          · exact fun hall before after hsplit =>
              hall (.takeRef :: before) after (by rw [hsplit, List.cons_append])
      | dropRef =>
          constructor
          · rintro ⟨t, hrun⟩ before after hsplit
            obtain ⟨u, hu, hlater⟩ := bind_eq_ok hrun
            cases before with
            | nil => exact diUnrefObject_ok_iff.mp ⟨u, hu⟩
            | cons b before =>
                obtain ⟨rfl, hrests⟩ := List.cons.inj hsplit
                exact (droppable_unref hu).mp ((ih hrest).mp ⟨t, hlater⟩ before after hrests)
          · intro hall
            obtain ⟨u, hu⟩ := diUnrefObject_ok_iff.mpr (hall [] as rfl)
            obtain ⟨t, ht⟩ := (ih (s := u) hrest).mpr fun before after hsplit =>
              (droppable_unref hu).mpr (hall (.dropRef :: before) after (by
                rw [hsplit, List.cons_append]))
            refine ⟨t, ?_⟩
            rw [perform, hu]
            exact ht
      | addMethod name closure => exact absurd (has _ List.mem_cons_self) (by simp [Action.addsMember])
      | assignRawMember name v => exact absurd (has _ List.mem_cons_self) (by simp [Action.addsMember])

/-! ## What is kept -/

/-- Of the members that a constructor has added, none is left. -/
theorem keeps_iff_added (self : ObjRef) (type : String) (header : Header)
    (constructor : List Action) :
    Keeps self type header constructor ↔ (∀ a ∈ constructor, a.addsMember = false) ∧
      ∃ s, constructor.foldlM (perform self) ⟨header, 0, []⟩ = .ok s := by
  constructor
  · rintro ⟨s, x, hrun, -, -, -, hall⟩
    obtain ⟨u, hu, hrest⟩ := bind_eq_ok hrun
    cases hrest
    obtain ⟨hlt, hnil⟩ := construct_added hu (by simp)
    refine ⟨(hnil.mp (List.eq_nil_iff_forall_not_mem.mpr fun m hm => ?_)).2, s, hu⟩
    -- the only member of the object lies in a node that the constructor has not had
    obtain ⟨ms, hms, hmem⟩ := hall m hm
    cases hms
    have hnode := hlt m hm
    rw [List.mem_singleton.mp hmem] at hnode
    exact Nat.lt_irrefl _ hnode
  · rintro ⟨hrefs, s, hs⟩
    refine ⟨s, _, by rw [newObject, hs]; rfl, rfl, rfl, rfl, ?_⟩
    rw [(construct_added hs (by simp)).2.mpr ⟨rfl, hrefs⟩]
    simp

/-- `new_object` keeps what the constructor has set up exactly if that is nothing, and if each
reference that the constructor drops may be dropped in the header that the memory happens to hold. -/
theorem construction_keeps_iff (self : ObjRef) (type : String) (header : Header)
    (constructor : List Action) :
    Keeps self type header constructor ↔ (∀ a ∈ constructor, a.addsMember = false) ∧
      ∀ before after, constructor = before ++ .dropRef :: after →
        Droppable header (countAfter header.refCount before) := by
  rw [keeps_iff_added]
  exact and_congr_right fun hrefs => construct_refs_iff hrefs

/-- What `Device::Device` does, with the `Context` at the address 1 and the closure of the method
at 2. -/
def deviceConstructor : List Action :=
  [.takeRef, .assignRawMember "__udev_context" (.object 1), .addMethod "__get_properties" 2,
    .dropRef]

/-- In a header where nothing else goes wrong, the member and the method of a `Device` are lost. -/
theorem construction_loses_members :
    (∃ s x, newObject 0 "deai.plugin.udev:Device" ⟨some [], false, 4, 0, .anywhere, 0, 0⟩
        deviceConstructor = .ok (s, x) ∧ s.added.length = 2) ∧
      ¬ ∀ (self : ObjRef) (type : String) (header : Header) (constructor : List Action),
        Keeps self type header constructor := by
  refine ⟨⟨_, _, rfl, rfl⟩, fun hall => ?_⟩
  have hkeeps := hall 0 "deai.plugin.udev:Device" ⟨some [], false, 4, 0, .anywhere, 0, 0⟩
    deviceConstructor
  exact absurd ((keeps_iff_added _ _ _ _).mp hkeeps).1 (by decide)

end Deai.ObjectConstruction
