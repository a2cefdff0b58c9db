import Deai.DestructionAccounts
import Deai.Fallible
import Deai.MemberTables
import Mathlib.Logic.Relation

/-!
# Replacing a member

On a member that exists `di_setx` releases the old value first, and copies the new one into the
entry afterwards. Destructors run in between. They are user code like any other, so they may read,
set and delete members, also of the same object.

A call of `di_setx` that waits for the release is a `Setting`. Its entry is in the table, but the
value there is being freed: the table has a placeholder for it, and whoever uses it meets a fault.
The memory of the new value is the caller's, or it is borrowed from a member, the lender, and goes
when that member is overwritten or removed.

The caller keeps the object for the time of the call, with a reference that it has or because it is
the destructor of that object.
-/
namespace Deai.MemberReplacement
open Value ObjectHeap Accounting MemberTables Destruction DestructionAccounts Relation
open Mutator hiding Step

/-- Those of the heap; the use of a value, an entry or the memory of a value that is gone or on its
way out; and the assertion of `di_refrawgetx`. Setters and deleters are not followed. -/
inductive Fault where
  | heap (f : ObjectHeap.Fault)
  | staleMember (k : Key)
  | freedMember (k : Key)
  | freedValue (k : Key)
  | nilMember (k : Key)
  | handlerFound (handler : ObjRef)
  deriving DecidableEq

/-- A call of `di_setx` that releases the old value. `below` are the calls under it. -/
structure Setting where
  object : ObjRef
  name : String
  new : DiValue
  lender : Option Key
  intact : Bool
  keeps : List Ref
  below : List Frame

def Setting.key (p : Setting) : Key := (p.object, p.name)

structure Machine where
  base : State := {}
  /-- the last call first -/
  settings : List Setting := []

namespace Machine

abbrev heap (m : Machine) : Heap := m.base.heap

/-- The entries whose value is being released. -/
def stale (m : Machine) : List Key := m.settings.map Setting.key

/-- User code gets references. -/
def give (m : Machine) (h : Heap) (rs : List Ref) : Machine :=
  {m with base := {m.base with heap := h, external := pend m.base.external rs}}

/-- User code gives references up. -/
def take (m : Machine) (rs : List Ref) : Machine :=
  {m with base := {m.base with external := fun r => m.base.external r - rs.count r}}

/-- A value is released by a call of its own. -/
def free (m : Machine) (v : DiValue) : Machine :=
  {m with base := {m.base with stack := .free v.refs :: m.base.stack}}

def setHeap (m : Machine) (h : Heap) : Machine := {m with base := {m.base with heap := h}}

/-- The memory of the value of a member goes. -/
def lose (m : Machine) (k : Key) : Machine :=
  {m with settings := m.settings.map fun p => {p with intact := p.intact && p.lender != some k}}

end Machine

/-! ## The functions -/

def lift {α : Type} : Except ObjectHeap.Fault α → Except Fault α := Except.mapError .heap

/-- `di_lookup` -/
def lookup (o : ObjRef) (name : Name) (m : Machine) : Except Fault (Option DiValue) := do
  let _ ← lift (m.heap.deref o)
  .ok (name.bind fun n => diLookup o n m.heap)

def diRefrawgetx (o : ObjRef) (prop : String) (m : Machine) : Except Fault (Option DiValue) := do
  match ← lookup o (some prop) m with
  | none => .ok none
  | some v =>
      if (o, prop) ∈ m.stale then .error (.staleMember (o, prop))
      else if sizeofIsZero v then .error (.nilMember (o, prop))
      else .ok (some v)

def diRawgetx (o : ObjRef) (prop : String) (m : Machine) :
    Except Fault (Option DiValue × Machine) := do
  match ← diRefrawgetx o prop m with
  | none => .ok (none, m)
  | some v => do
      let h ← lift (diCopyValue v m.heap)
      .ok (some v, m.give h v.refs)

/-- `di_rawget_borrowed2` of an object. -/
def rawgetBorrowed (o : ObjRef) (prop : String) (m : Machine) : Except Fault (Option ObjRef) := do
  match ← diRefrawgetx o prop m with
  | some (.object handler) => .ok (some handler)
  | _ => .ok none

/-- What `call_handler_with_fallback` looks for. -/
def handlerNames (kind prop : String) : List String := [kind ++ "_" ++ prop, kind]

/-- `call_handler_with_fallback` where it finds no handler. -/
def callHandlerWithFallback (o : ObjRef) (kind prop : String) (m : Machine) :
    Except Fault PUnit :=
  (handlerNames kind prop).forM fun name => do
    match ← rawgetBorrowed o name m with
    | some handler => .error (.handlerFound handler)
    | none => .ok ⟨⟩

/-- `di_delete_member_raw` up to the release of the value. -/
def diDeleteMemberRaw (o : ObjRef) (name : Name) (m : Machine) : Except Fault Machine := do
  match ← lookup o name m with
  | none => .ok m
  | some v =>
      let n := name.getD ""
      if (o, n) ∈ m.stale then .error (.staleMember (o, n))
      else .ok (((m.setHeap (m.heap.removeMember o n)).free v).lose (o, n))

/-- `di_add_member_move`. Without a name the value is not stored and not released. -/
def diAddMemberMove (o : ObjRef) (name : Name) (v : DiValue) (m : Machine) :
    Except Fault Machine := do
  if sizeofIsZero v then .ok m
  else
    match name with
    | none => .ok m
    | some n =>
        match ← lookup o name m with
        | some _ => .ok ((m.take v.refs).free v)
        | none => .ok ((m.take v.refs).setHeap (m.heap.insertMember o n v))

def inDestructor (o : ObjRef) (K : List Frame) : Bool :=
  K.any fun f => match f with
    | .dtor p _ => p == o
    | _ => false

/-- The reference with which the caller keeps the object, if it needs one. -/
def keeps (o : ObjRef) (m : Machine) : List Ref :=
  if inDestructor o m.base.stack then [] else [.strong o]

/-- `di_setx` up to the release of the old value. -/
def startSetting (o : ObjRef) (name : String) (old new : DiValue) (lender : Option Key)
    (m : Machine) : Machine :=
  let p : Setting := ⟨o, name, new, lender, true, keeps o m, m.base.stack⟩
  let m' := ((m.take p.keeps).setHeap (setMember o name .nil m.heap)).free old
  ({m' with settings := p :: m.settings} : Machine).lose (o, name)

/-- `di_setx` where the member is not there: the value is stored at once. Without a name the copy is
lost. -/
def storeNew (o : ObjRef) (prop : Name) (new : DiValue) (m : Machine) : Except Fault Machine := do
  let (_, h) ← lift (diAddMemberClone 0 o prop new m.heap)
  .ok (m.give h (if prop.isSome then [] else new.refs))

/-- `di_setx` on an object without setter and deleter. -/
def diSetx (o : ObjRef) (prop : Name) (new : DiValue) (lender : Option Key) (m : Machine) :
    Except Fault Machine := do
  callHandlerWithFallback o "__set" (prop.getD "") m
  callHandlerWithFallback o "__delete" (prop.getD "") m
  match ← lookup o prop m with
  | some old =>
      let name := prop.getD ""
      if (o, name) ∈ m.stale then .error (.staleMember (o, name))
      else .ok (startSetting o name old new lender m)
  | none => storeNew o prop new m

/-- `di_setx` after the release of the old value. -/
def finishSetting (p : Setting) (ps : List Setting) (m : Machine) : Except Fault Machine :=
  match diLookup p.object p.name m.heap with
  | none => .error (.freedMember p.key)
  | some _ =>
      if p.intact = false then .error (.freedValue p.key)
      else do
        let h ← lift (diCopyValue p.new m.heap)
        .ok {(m.give (setMember p.object p.name p.new h) p.keeps) with settings := ps}

/-- The member that a finalization removes next. -/
def nextRemoved (s : State) : Option Key :=
  match s.stack with
  | .members o _ :: _ => (s.heap.obj o).members.head?.map fun x => (o, x.1)
  | _ => none

/-- The call on the top goes on. -/
def goOn (m : Machine) : Except Fault Machine :=
  match Destruction.resume m.base with
  | none => .ok m
  | some r =>
      match nextRemoved m.base with
      | none => do
          let s ← lift r
          .ok {m with base := s}
      | some k =>
          if k ∈ m.stale then .error (.staleMember k)
          else do
            let s ← lift r
            .ok (({m with base := s} : Machine).lose k)

/-! ## Runs -/

/-- What user code does, the end of a destructor, and what a call does on its own. -/
inductive Action where
  | newObject
  | setDtor (o : ObjRef)
  | refObject (o : ObjRef)
  | unrefObject (o : ObjRef)
  | weaklyRefObject (o : ObjRef)
  | dropWeakRef (o : ObjRef)
  | upgradeWeakRef (o : ObjRef)
  | addMember (o : ObjRef) (name : Name) (v : DiValue)
  | deleteMember (o : ObjRef) (name : Name)
  | rawget (o : ObjRef) (prop : String)
  | setx (o : ObjRef) (prop : Name) (new : DiValue) (lender : Option Key)
  | dtorEnd
  | resume

/-- The old value of the last setting is released. -/
def ready (m : Machine) : Bool :=
  match m.settings with
  | [] => false
  | p :: _ => decide (m.base.stack = p.below)

def perform : Action → Machine → Except Fault Machine
  | .newObject, m =>
      .ok (m.give (diNewObject m.heap).2 [.strong (diNewObject m.heap).1])
  | .setDtor o, m => do
      let _ ← lift (m.heap.deref o)
      .ok (m.setHeap (m.heap.modify o fun x => {x with dtor := true}))
  | .refObject o, m => do
      let h ← lift (diRefObject o m.heap)
      .ok (m.give h [.strong o])
  | .unrefObject o, m => do
      let s ← lift (unref o (m.take [.strong o]).base)
      .ok {m with base := s}
  | .weaklyRefObject o, m => do
      let h ← lift (diWeaklyRefObject o m.heap)
      .ok (m.give h [.weak o])
  | .dropWeakRef o, m => do
      let h ← lift (diDropWeakRef o m.heap)
      .ok ((m.take [.weak o]).setHeap h)
  | .upgradeWeakRef o, m => do
      let (p, h) ← lift (diUpgradeWeakRef o m.heap)
      .ok (m.give h (p.toList.map .strong))
  | .addMember o name v, m => diAddMemberMove o name v m
  | .deleteMember o name, m => diDeleteMemberRaw o name m
  | .rawget o prop, m => do
      let (_, m) ← diRawgetx o prop m
      .ok m
  | .setx o prop new lender, m => diSetx o prop new lender m
  | .dtorEnd, m =>
      match m.base.stack with
      | .dtor o c :: K => .ok {m with base := {m.base with stack := .members o c :: K}}
      | _ => .ok m
  | .resume, m =>
      match m.settings with
      | [] => goOn m
      | p :: ps => if m.base.stack = p.below then finishSetting p ps m else goOn m

/-- User code is running: nothing that was started has to go on first. -/
abbrev UserTurn (m : Machine) : Prop := userTurn m.base = true ∧ ready m = false

/-- The object is alive, or its destructor is running. -/
abbrev Usable (m : Machine) (o : ObjRef) : Prop :=
  (m.heap.obj o).destroyed = false ∨ inDestructor o m.base.stack = true

abbrev Owns (m : Machine) (rs : List Ref) : Prop := ∀ r ∈ rs, rs.count r ≤ m.base.external r

def isHandler : Option DiValue → Bool
  | some (.object _) => true
  | _ => false

/-- The object has neither a setter nor a deleter for the name. -/
abbrev NoHandler (h : Heap) (o : ObjRef) (prop : String) : Prop :=
  ∀ name ∈ handlerNames "__set" prop ++ handlerNames "__delete" prop,
    isHandler (diLookup o name h) = false

/-- The memory that a value is borrowed from is there. -/
abbrev Lends (h : Heap) (lender : Option Key) : Prop :=
  ∀ k ∈ lender, (diLookup k.1 k.2 h).isSome = true

/-- The calls that go on by themselves, outside of the collector. -/
def resumable : List Frame → Bool
  | .free _ :: _ => true
  | .members _ _ :: _ => true
  | _ => false

/-- What the callers promise: they use objects that are there, and give up only references that they
hold. -/
def Allowed (m : Machine) : Action → Prop
  | .newObject => UserTurn m
  | .setDtor o => UserTurn m ∧ Usable m o
  | .refObject o => UserTurn m ∧ (m.heap.obj o).destroyed = false
  | .unrefObject o => UserTurn m ∧ Owns m [.strong o]
  | .weaklyRefObject o => UserTurn m ∧ (m.heap.obj o).freed = false
  | .dropWeakRef o => UserTurn m ∧ Owns m [.weak o]
  | .upgradeWeakRef o => UserTurn m ∧ Owns m [.weak o]
  | .addMember o _ v => UserTurn m ∧ Usable m o ∧ Owns m v.refs
  | .deleteMember o _ => UserTurn m ∧ Usable m o
  | .rawget o _ => UserTurn m ∧ Usable m o
  | .setx o prop new lender =>
      UserTurn m ∧ Owns m (keeps o m) ∧ NoHandler m.heap o (prop.getD "") ∧
        Holdable m.heap new.refs ∧ Lends m.heap lender
  | .dtorEnd => UserTurn m ∧ m.base.stack ≠ []
  | .resume => ready m = true ∨ resumable m.base.stack = true

/-- Nobody uses a member whose value is being released, no member that exists is set to NIL, and
when the old value is gone the new one is still there, with every object that it refers to. -/
def Careful (m : Machine) : Action → Prop
  | .rawget o prop => (o, prop) ∉ m.stale
  | .deleteMember o name => ∀ n ∈ name, (o, n) ∉ m.stale
  | .setx o prop new lender =>
      (∀ n ∈ handlerNames "__set" (prop.getD "") ++ handlerNames "__delete" (prop.getD ""),
        (o, n) ∉ m.stale) ∧
      (∀ n ∈ prop, (o, n) ∉ m.stale ∧
        ((diLookup o n m.heap).isSome → sizeofIsZero new = false)) ∧
      ∀ k ∈ lender, k ∉ m.stale
  | .resume => ∀ p ∈ m.settings.head?, m.base.stack = p.below →
      Holdable m.heap p.new.refs ∧ p.intact = true
  | _ => True

instance decidableHoldable (h : Heap) (rs : List Ref) : Decidable (Holdable h rs) :=
  @List.decidableBAll _ _ (fun r => match r with
    | .strong _ => inferInstance
    | .weak _ => inferInstance) rs

instance decidableAllowed (m : Machine) (a : Action) : Decidable (Allowed m a) :=
  match a with
  | .newObject => inferInstanceAs (Decidable (_ ∧ _))
  | .setDtor _ | .refObject _ | .unrefObject _ | .weaklyRefObject _ | .dropWeakRef _
  | .upgradeWeakRef _ | .addMember _ _ _ | .deleteMember _ _ | .rawget _ _ | .setx _ _ _ _
  | .dtorEnd => inferInstanceAs (Decidable (_ ∧ _))
  | .resume => inferInstanceAs (Decidable (_ ∨ _))

instance decidableCareful (m : Machine) (a : Action) : Decidable (Careful m a) :=
  match a with
  | .rawget _ _ => inferInstanceAs (Decidable (¬ _))
  | .deleteMember _ name => inferInstanceAs (Decidable (∀ n ∈ name, _))
  | .setx _ _ _ _ => inferInstanceAs (Decidable (_ ∧ _ ∧ _))
  | .resume => inferInstanceAs (Decidable (∀ p ∈ m.settings.head?, _))
  | .newObject | .setDtor _ | .refObject _ | .unrefObject _ | .weaklyRefObject _ | .dropWeakRef _
  | .upgradeWeakRef _ | .addMember _ _ _ | .dtorEnd => inferInstanceAs (Decidable True)

/-- What a caller may do, and does with care. -/
abbrev Prudent (m : Machine) (a : Action) : Prop := Allowed m a ∧ Careful m a

/-- A step with an action of which `P` holds. -/
def Step (P : Machine → Action → Prop) (m m' : Machine) : Prop :=
  ∃ a, P m a ∧ perform a m = .ok m'

section
variable (P : Machine → Action → Prop) [∀ m a, Decidable (P m a)]

/-- The actions one after another, as long as `P` holds of each. -/
def runActions : List Action → Machine → Option Machine
  | [], m => some m
  | a :: as, m =>
      if P m a then
        match perform a m with
        | .ok m' => runActions as m'
        | .error _ => none
      else none

variable {P}

theorem run_of_actions {as : List Action} {m m' : Machine} (hrun : runActions P as m = some m') :
    ReflTransGen (Step P) m m' := by
  induction as generalizing m with
  | nil =>
      cases hrun
      exact .refl
  | cons a as ih =>
      rw [runActions] at hrun
      split_ifs at hrun with ha
      cases hstep : perform a m with
      | error e =>
          rw [hstep] at hrun
          cases hrun
      | ok m₁ =>
          rw [hstep] at hrun
          exact .head ⟨a, ha, hstep⟩ (ih hrun)

end

end Deai.MemberReplacement
