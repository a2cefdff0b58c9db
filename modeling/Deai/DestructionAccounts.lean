import Deai.Destruction

/-!
# Where every reference is while destructors run

Every reference is held by user code, by a member, or by a call that is running. The weak
reference that the strong ones hold implicitly goes over to the call that destroys the object,
so it is dropped last.
-/
namespace Deai.DestructionAccounts
open Value ObjectHeap Accounting Release Mutator Destruction

/-- The references that a call holds. -/
def frameRefs : Frame → List Ref
  | .free rs => rs
  | .dtor o .destroy => [.weak o]
  | .dtor o .collect => [.strong o]
  | .members o .destroy => [.weak o]
  | .members o .collect => [.strong o]
  | .scan o _ => [.strong o]
  | .collect => []

/-- The object that the call destroys. -/
def destroys : Frame → Option ObjRef
  | .dtor o .destroy => some o
  | .members o .destroy => some o
  | _ => none

/-- The object that the collector holds for the call. -/
def collects : Frame → Option ObjRef
  | .dtor o .collect => some o
  | .members o .collect => some o
  | .scan o _ => some o
  | _ => none

/-- The references held by user code and by calls. -/
def owed (s : State) : Ref → ℕ := pend s.external (s.stack.flatMap frameRefs)

/-- The loops of the collector are at the bottom of the stack. -/
def Bottom (K : List Frame) : Prop := ∀ fs K', K = fs ++ .collect :: K' → K' = []

theorem Bottom.push {K : List Frame} (h : Bottom K) {f : Frame} (hf : f ≠ .collect) :
    Bottom (f :: K) := by
  intro fs K' heq
  cases fs with
  | nil =>
      injection heq with hfc
      exact absurd hfc hf
  | cons g fs =>
      injection heq with _ heq
      exact h fs K' heq

theorem Bottom.tail {K : List Frame} {f : Frame} (h : Bottom (f :: K)) : Bottom K := by
  intro fs K' heq
  apply h (f :: fs) K'
  rw [heq]
  rfl

/-! ## Accounts -/

/-- Every count is accounted for, with the references `rs` in the hands of the running function. -/
structure Accounts (s : State) (rs : List Ref) : Prop where
  counted : Counted s.heap (pend (owed s) rs)
  visible : ∀ o, ∀ m ∈ (s.heap.obj o).members, m.2.Visible
  finished : ∀ o, (s.heap.obj o).destroyed = true →
    (s.heap.obj o).members = [] ∨ o ∈ s.stack.filterMap destroys
  destroying : ∀ o ∈ s.stack.filterMap destroys, (s.heap.obj o).destroyed = true
  once : (s.stack.filterMap destroys).Nodup
  freed : ∀ o, s.heap.log.count (.free o) =
    if o < s.heap.size ∧ (s.heap.obj o).freed = true then 1 else 0
  bottom : Bottom s.stack

section
variable {s : State} {h : Heap} {R : Ref → ℕ} {K : List Frame} {rs qs : List Ref}

/-- References change hands. -/
theorem Accounts.hand (ha : Accounts s rs)
    (hrefs : pend (pend R (K.flatMap frameRefs)) qs = pend (owed s) rs)
    (hdestroys : K.filterMap destroys = s.stack.filterMap destroys) (hbottom : Bottom K) :
    Accounts {s with external := R, stack := K} qs where
  counted := by
    have hc := ha.counted
    rw [← hrefs] at hc
    exact hc
  visible := ha.visible
  finished o ho := by
    rw [hdestroys]
    exact ha.finished o ho
  destroying := by
    rw [hdestroys]
    exact ha.destroying
  once := by
    rw [hdestroys]
    exact ha.once
  freed := ha.freed
  bottom := hbottom

theorem pend_comm (R : Ref → ℕ) (rs qs : List Ref) : pend (pend R rs) qs = pend (pend R qs) rs := by
  funext r
  simp only [pend]
  omega

theorem owed_push (s : State) (f : Frame) :
    owed {s with stack := f :: s.stack} = pend (owed s) (frameRefs f) := by
  unfold owed
  rw [List.flatMap_cons, pend_append]

theorem owed_pos {f : Frame} {r : Ref} (hf : f ∈ s.stack) (hr : r ∈ frameRefs f) : 0 < owed s r := by
  have hpos := List.count_pos_iff.mpr (List.mem_flatMap.mpr ⟨f, hf, hr⟩)
  simp only [owed, pend]
  omega

/-- The call that destroys an object holds its weak reference. -/
theorem owed_of_destroys {x : ObjRef} (hx : x ∈ s.stack.filterMap destroys) :
    0 < owed s (.weak x) := by
  obtain ⟨f, hf, hfx⟩ := List.mem_filterMap.mp hx
  apply owed_pos hf
  cases f with
  | dtor p c => cases c <;> simp_all [destroys, frameRefs]
  | members p c => cases c <;> simp_all [destroys, frameRefs]
  | free _ | scan _ _ | collect => cases hfx

/-- The collector holds a strong reference for its call. -/
theorem owed_of_collects {x : ObjRef} (hx : x ∈ s.stack.filterMap collects) :
    0 < owed s (.strong x) := by
  obtain ⟨f, hf, hfx⟩ := List.mem_filterMap.mp hx
  apply owed_pos hf
  cases f with
  | dtor p c => cases c <;> simp_all [collects, frameRefs]
  | members p c => cases c <;> simp_all [collects, frameRefs]
  | scan p zs => simp_all [collects, frameRefs]
  | free _ | collect => cases hfx

/-- A call takes the references over. -/
theorem Accounts.push (ha : Accounts s (rs ++ qs)) {f : Frame} (hf : frameRefs f = rs)
    (hd : destroys f = none) (hc : f ≠ .collect) :
    Accounts {s with stack := f :: s.stack} qs := by
  apply ha.hand
  · have hp := owed_push s f
    unfold owed at hp ⊢
    rw [hp, hf, pend_append]
    exact pend_comm ..
  · simp [hd]
  · exact ha.bottom.push hc

/-- The call on the top gives up what it holds. -/
theorem Accounts.pop {f : Frame} (ha : Accounts {s with stack := f :: K} rs)
    (hd : destroys f = none) : Accounts {s with stack := K} (frameRefs f ++ rs) := by
  apply ha.hand
  · rw [pend_append]
    exact (congrArg (pend · rs) (owed_push {s with stack := K} f)).symm ▸ pend_comm ..
  · simp [hd]
  · exact ha.bottom.tail

/-- The tables, the deaths and the memory of the objects are the same. -/
structure SameTables (h h' : Heap) : Prop where
  size : h'.size = h.size
  members : ∀ o, (h'.obj o).members = (h.obj o).members
  destroyed : ∀ o, (h'.obj o).destroyed = (h.obj o).destroyed
  freed : ∀ o, (h'.obj o).freed = (h.obj o).freed
  frees : ∀ o, h'.log.count (.free o) = h.log.count (.free o)

theorem SameTables.modify (h : Heap) (o : ObjRef) {f : DiObject → DiObject}
    (hm : ∀ x, (f x).members = x.members) (hd : ∀ x, (f x).destroyed = x.destroyed)
    (hf : ∀ x, (f x).freed = x.freed) : SameTables h (h.modify o f) where
  size := rfl
  members := h.modify_same (·.members) o (hm _)
  destroyed := h.modify_same (·.destroyed) o (hd _)
  freed := h.modify_same (·.freed) o (hf _)
  frees _ := rfl

theorem Accounts.same (ha : Accounts s rs) (hsame : SameTables s.heap h)
    (hc : Counted h (pend (pend R (s.stack.flatMap frameRefs)) qs)) :
    Accounts {s with heap := h, external := R} qs where
  counted := hc
  visible o := by
    rw [hsame.members]
    exact ha.visible o
  finished o := by
    rw [hsame.members, hsame.destroyed]
    exact ha.finished o
  destroying o := by
    rw [hsame.destroyed]
    exact ha.destroying o
  once := ha.once
  freed o := by
    rw [hsame.frees, hsame.size, hsame.freed]
    exact ha.freed o
  bottom := ha.bottom

/-- What the loss of a weak reference leaves as it is. -/
structure SameMarks (h h' : Heap) : Prop where
  mark : ∀ o, (h'.obj o).mark = (h.obj o).mark
  scan : ∀ o, (h'.obj o).refCountScan = (h.obj o).refCountScan
  isolated : h'.isolated = h.isolated

theorem Counted.lt_of_weak {o : ObjRef} (hc : Counted h R) (ho : 0 < R (.weak o)) :
    o < h.size ∧ (h.obj o).freed = false := by
  have hw := hc.weak o
  have hf := hc.freed o
  constructor
  · by_contra hn
    rw [hc.unallocated o (Nat.le_of_not_lt hn)] at hw
    change 0 = 0 + held h (.weak o) + R (.weak o) at hw
    omega
  · rw [← Bool.not_eq_true, hf]
    omega

/-- What the loss of a weak reference changes. With the last one the memory goes. -/
structure WeakDropped (o : ObjRef) (h h' : Heap) : Prop where
  size : h'.size = h.size
  members : ∀ x, (h'.obj x).members = (h.obj x).members
  destroyed : ∀ x, (h'.obj x).destroyed = (h.obj x).destroyed
  marks : SameMarks h h'
  freed : ∀ x, x ≠ o → (h'.obj x).freed = (h.obj x).freed
  log : (h'.obj o).freed = true ∧ h'.log = .free o :: h.log ∨
    (h'.obj o).freed = (h.obj o).freed ∧ h'.log = h.log

theorem dropWeak_counted {o : ObjRef} (hc : Counted h (pend R [.weak o])) :
    ∃ h', diDropWeakRef o h = .ok h' ∧ Counted h' R ∧ WeakDropped o h h' := by
  obtain ⟨-, hnf⟩ := Counted.lt_of_weak (o := o) hc (by simp [pend_weak])
  obtain ⟨h', hrun, hout⟩ :=
    diDropWeakRef_releases (liveCount h) o h _ ∅ hc (Sustained.nothing _ _) le_rfl
  refine ⟨h', hrun, hout.counted, ?_⟩
  unfold diDropWeakRef diDecrementWeakRefCount at hrun
  rw [Heap.deref_ok hnf] at hrun
  simp only [bind, Except.bind] at hrun
  set h₁ := h.modify o fun x => {x with weakRefCount := x.weakRefCount - 1} with hh₁
  have hsame : SameTables h h₁ := .modify _ _ (fun _ => rfl) (fun _ => rfl) fun _ => rfl
  have hmarks : SameMarks h h₁ :=
    ⟨h.modify_same (·.mark) o rfl, h.modify_same (·.refCountScan) o rfl, rfl⟩
  split_ifs at hrun with hlast hrc
  · cases hrun
    set h₂ := h₁.modify o fun x => {x with freed := true} with hh₂
    have hm : ∀ x, (h₂.obj x).members = (h.obj x).members := fun x =>
      (h₁.modify_same (·.members) o rfl x).trans (hsame.members x)
    have hd : ∀ x, (h₂.obj x).destroyed = (h.obj x).destroyed := fun x =>
      (h₁.modify_same (·.destroyed) o rfl x).trans (hsame.destroyed x)
    have hk : ∀ x, (h₂.obj x).mark = (h.obj x).mark := fun x =>
      (h₁.modify_same (·.mark) o rfl x).trans (hmarks.mark x)
    have hs : ∀ x, (h₂.obj x).refCountScan = (h.obj x).refCountScan := fun x =>
      (h₁.modify_same (·.refCountScan) o rfl x).trans (hmarks.scan x)
    refine ⟨rfl, hm, hd, ⟨hk, hs, rfl⟩, fun x hx => ?_, .inl ⟨by simp [hh₂], rfl⟩⟩
    rw [Heap.record_obj, hh₂, h₁.modify_obj_ne _ hx, hsame.freed]
  · injection hrun with heq
    rw [← heq]
    exact ⟨rfl, hsame.members, hsame.destroyed, hmarks, fun x _ => hsame.freed x,
      .inr ⟨hsame.freed o, rfl⟩⟩

/-- A weak reference is dropped, and with the last one the memory goes. -/
theorem Accounts.dropWeak {o : ObjRef} (ha : Accounts s (.weak o :: rs)) :
    ∃ h, diDropWeakRef o s.heap = .ok h ∧ Accounts {s with heap := h} rs ∧
      SameMarks s.heap h ∧ h.size = s.heap.size ∧
      (∀ x, (h.obj x).members = (s.heap.obj x).members) ∧
      ∀ x, (h.obj x).destroyed = (s.heap.obj x).destroyed := by
  have hc := ha.counted
  rw [show Ref.weak o :: rs = [.weak o] ++ rs from rfl, pend_append] at hc
  obtain ⟨hlt, hnf⟩ := Counted.lt_of_weak (o := o) hc (by simp [pend_weak])
  obtain ⟨h', hrun, hc', hdrop⟩ := dropWeak_counted hc
  have hzero := ha.freed o
  rw [if_neg (by simp [hnf])] at hzero
  refine ⟨h', hrun, ⟨hc', fun x => ?_, fun x => ?_, fun x => ?_, ha.once, fun x => ?_, ha.bottom⟩,
    hdrop.marks, hdrop.size, hdrop.members, hdrop.destroyed⟩
  · rw [hdrop.members]
    exact ha.visible x
  · rw [hdrop.members, hdrop.destroyed]
    exact ha.finished x
  · rw [hdrop.destroyed]
    exact ha.destroying x
  · rw [hdrop.size]
    by_cases hx : x = o
    · rw [hx]
      rcases hdrop.log with ⟨hfreed, hlog⟩ | ⟨hfreed, hlog⟩
      · rw [hlog, List.count_cons_self, hzero, if_pos ⟨hlt, hfreed⟩]
      · rw [hlog, hfreed]
        exact ha.freed o
    · have hcount : h'.log.count (.free x) = s.heap.log.count (.free x) := by
        rcases hdrop.log with ⟨-, hlog⟩ | ⟨-, hlog⟩
        · rw [hlog, List.count_cons_of_ne (by simp [Ne.symm hx])]
        · rw [hlog]
      rw [hcount, hdrop.freed x hx]
      exact ha.freed x

theorem callDtor_same (o : ObjRef) (h : Heap) :
    SameTables h (callDtor o h) ∧ SameMarks h (callDtor o h) := by
  obtain ⟨hr, -, -, hi, hfield⟩ := callDtor_spec o h
  refine ⟨⟨hr.size, hfield (·.members) fun _ _ => rfl, hfield (·.destroyed) fun _ _ => rfl,
    hfield (·.freed) fun _ _ => rfl, fun x => ?_⟩, hfield (·.mark) fun _ _ => rfl,
    hfield (·.refCountScan) fun _ _ => rfl, hi⟩
  unfold callDtor
  split_ifs
  · rw [Heap.record_log, List.count_cons_of_ne (by simp)]
    rfl
  · rfl

/-- `di_finalize_object_inner` starts: its frame has the rest of the work. -/
theorem startFinalize_eq (o : ObjRef) (c : Cause) (s : State) :
    ∃ f, (f = .dtor o c ∨ f = .members o c) ∧
      startFinalize o c s = {s with heap := callDtor o s.heap, stack := f :: s.stack} := by
  unfold startFinalize
  split_ifs with hdtor
  · exact ⟨_, .inl rfl, rfl⟩
  · refine ⟨_, .inr rfl, ?_⟩
    rw [callDtor, if_neg hdtor]

theorem frameRefs_finalize {f : Frame} {o : ObjRef} {c : Cause}
    (hf : f = .dtor o c ∨ f = .members o c) : frameRefs f = frameRefs (.members o c) := by
  rcases hf with rfl | rfl <;> cases c <;> rfl

theorem ne_collect_of_finalize {f : Frame} {o : ObjRef} {c : Cause}
    (hf : f = .dtor o c ∨ f = .members o c) : f ≠ .collect := by
  rcases hf with rfl | rfl <;> exact nofun

theorem destroys_finalize {f : Frame} {o : ObjRef}
    (hf : f = .dtor o .destroy ∨ f = .members o .destroy) : destroys f = some o := by
  rcases hf with rfl | rfl <;> rfl

/-- The last strong reference is dropped. The call that destroys the object takes its implicit
weak reference over. -/
theorem Accounts.startDestroy {o : ObjRef} (ha : Accounts s (.strong o :: rs))
    (hone : (s.heap.obj o).refCount = 1) {h : Heap}
    (hh : h = (((s.heap.modify o fun x => {x with refCount := x.refCount - 1}).listDelInit
      o).modify o fun x => {x with destroyed := true}).record (.destroy o)) :
    Accounts (startFinalize o .destroy {s with heap := h}) rs ∧
      (∀ x, ((callDtor o h).obj x).members = (s.heap.obj x).members) ∧
      (∀ x, ((callDtor o h).obj x).destroyed = if x = o then true else (s.heap.obj x).destroyed) := by
  have hc := ha.counted
  rw [show Ref.strong o :: rs = [.strong o] ++ rs from rfl, pend_append] at hc
  have halive : (s.heap.obj o).destroyed = false :=
    hc.alive_of_held (by rw [pend_strong, if_pos rfl]; omega)
  obtain ⟨hc', hr, hdo, hne⟩ := Counted.startDestroy hc hone hh
  have hlt : o < h.size := hr.size.symm ▸ hc.lt_size halive
  have hc'' := hc'.callDtor hlt
  obtain ⟨hsame, -⟩ := callDtor_same o h
  obtain ⟨f, hf, heq⟩ := startFinalize_eq o .destroy {s with heap := h}
  have hself : h.obj o =
      {s.heap.obj o with refCount := (s.heap.obj o).refCount - 1, destroyed := true} := by
    simp [hh]
  have hm : ∀ x, ((callDtor o h).obj x).members = (s.heap.obj x).members := by
    intro x
    rw [hsame.members]
    by_cases hx : x = o
    · rw [hx, hself]
    · rw [hne x hx]
  have hd : ∀ x, ((callDtor o h).obj x).destroyed =
      if x = o then true else (s.heap.obj x).destroyed := by
    intro x
    rw [hsame.destroyed]
    split_ifs with hx
    · rw [hx, hdo]
    · rw [hne x hx]
  have hfr : ∀ x, ((callDtor o h).obj x).freed = (s.heap.obj x).freed := by
    intro x
    rw [hsame.freed]
    by_cases hx : x = o
    · rw [hx, hself]
    · rw [hne x hx]
  have hdf := destroys_finalize hf
  have hstack : (f :: s.stack).filterMap destroys = o :: s.stack.filterMap destroys :=
    List.filterMap_cons_some hdf
  rw [heq]
  refine ⟨⟨?_, ?_, ?_, ?_, ?_, ?_, ha.bottom.push (ne_collect_of_finalize hf)⟩, hm, hd⟩
  · have howed : owed {s with heap := callDtor o h, stack := f :: s.stack} =
        pend (owed s) [.weak o] := by
      have hp := owed_push s f
      rw [frameRefs_finalize hf] at hp
      exact hp
    rw [howed, pend_comm]
    exact hc''
  · intro x
    rw [hm]
    exact ha.visible x
  · intro x hx
    rw [hm, hstack]
    rw [hd] at hx
    split_ifs at hx with hxo
    · exact .inr (hxo ▸ List.mem_cons_self)
    · exact (ha.finished x hx).imp_right (List.mem_cons_of_mem o)
  · intro x hx
    rw [hstack] at hx
    rw [hd]
    split_ifs with hxo
    · rfl
    · exact ha.destroying x ((List.mem_cons.mp hx).resolve_left hxo)
  · rw [hstack, List.nodup_cons]
    refine ⟨fun ho => ?_, ha.once⟩
    cases halive.symm.trans (ha.destroying o ho)
  · intro x
    rw [hsame.frees, hfr, hsame.size, hr.size, ← ha.freed x, hh, Heap.record_log,
      List.count_cons_of_ne (by simp)]
    rfl

theorem removeMember_field {β : Type} (g : DiObject → β) (hg : ∀ x l, g {x with members := l} = g x)
    (h : Heap) (o : ObjRef) (name : String) (x : ObjRef) :
    g ((h.removeMember o name).obj x) = g (h.obj x) :=
  h.modify_same g o (hg _ _) x

theorem mem_removeMember {h : Heap} {o : ObjRef} {name : String} {x : ObjRef}
    {m : String × DiValue} (hm : m ∈ ((h.removeMember o name).obj x).members) :
    m ∈ (h.obj x).members := by
  rw [Heap.removeMember, Heap.modify_obj] at hm
  split_ifs at hm
  · exact List.mem_of_mem_eraseP hm
  · exact hm

/-- A member leaves the table, and its references are in the hands of the running function. -/
theorem Accounts.removeMember {o : ObjRef} {name : String} {v : DiValue} (ha : Accounts s rs)
    (hv : diLookup o name s.heap = some v) :
    Accounts {s with heap := s.heap.removeMember o name} (v.refs ++ rs) := by
  have hlt : o < s.heap.size := by
    by_contra hn
    rw [diLookup, ha.counted.unallocated o (Nat.le_of_not_lt hn)] at hv
    cases hv
  have hd := removeMember_field (·.destroyed) (fun _ _ => rfl) s.heap o name
  refine ⟨?_, ?_, ?_, ?_, ha.once, ?_, ha.bottom⟩
  · rw [pend_append]
    exact Counted.removeMember ha.counted hlt hv
  · exact fun x m hm => ha.visible x m (mem_removeMember hm)
  · intro x hx
    rw [hd] at hx
    refine (ha.finished x hx).imp_left fun hnil => ?_
    refine List.eq_nil_iff_forall_not_mem.mpr fun m hm => ?_
    have hm' := mem_removeMember hm
    rw [hnil] at hm'
    exact List.not_mem_nil hm'
  · intro x hx
    rw [hd]
    exact ha.destroying x hx
  · intro x
    rw [removeMember_field (·.freed) (fun _ _ => rfl)]
    exact ha.freed x

theorem Accounts.insertMember {o : ObjRef} {name : String} {v : DiValue}
    (ha : Accounts s (v.refs ++ rs)) (hlt : o < s.heap.size)
    (ho : (s.heap.obj o).destroyed = true → o ∈ s.stack.filterMap destroys) (hvis : v.Visible) :
    Accounts {s with heap := s.heap.insertMember o name v} rs := by
  have hfield : ∀ {β : Type} (g : DiObject → β), (∀ x l, g {x with members := l} = g x) →
      ∀ x, g ((s.heap.insertMember o name v).obj x) = g (s.heap.obj x) :=
    fun g hg => s.heap.modify_same g o (hg _ _)
  have hd := hfield (·.destroyed) fun _ _ => rfl
  have hc := ha.counted
  rw [pend_append] at hc
  refine ⟨hc.insertMember hlt, ?_, ?_, ?_, ha.once, ?_, ha.bottom⟩
  · intro x m hm
    rw [Heap.insertMember, Heap.modify_obj] at hm
    split_ifs at hm
    · rcases List.mem_append.mp hm with hm | hm
      · exact ha.visible x m hm
      · rw [List.mem_singleton.mp hm]
        exact hvis
    · exact ha.visible x m hm
  · intro x hx
    rw [hd] at hx
    by_cases hxo : x = o
    · rw [hxo] at hx ⊢
      exact .inr (ho hx)
    · rw [Heap.insertMember, Heap.modify_obj_ne _ _ hxo]
      exact ha.finished x hx
  · intro x hx
    rw [hd]
    exact ha.destroying x hx
  · intro x
    rw [hfield (·.freed) fun _ _ => rfl]
    exact ha.freed x

theorem Accounts.newObject (ha : Accounts s rs) :
    Accounts {s with heap := (diNewObject s.heap).2} (.strong s.heap.size :: rs) := by
  have hc := ha.counted
  have hself := diNewObject_self s.heap
  have hne : ∀ y, y ≠ s.heap.size → (diNewObject s.heap).2.obj y = s.heap.obj y :=
    fun y => diNewObject_ne s.heap
  have hm := hc.newObject_members
  refine ⟨?_, ?_, ?_, ?_, ha.once, ?_, ha.bottom⟩
  · rw [show Ref.strong s.heap.size :: rs = [.strong s.heap.size] ++ rs from rfl, pend_append]
    exact hc.newObject
  · intro x
    rw [hm]
    exact ha.visible x
  · intro x hx
    rw [hm]
    by_cases hxs : x = s.heap.size
    · rw [hxs, hself] at hx
      cases hx
    · rw [hne x hxs] at hx
      exact ha.finished x hx
  · intro x hx
    have hdead := ha.destroying x hx
    by_cases hxs : x = s.heap.size
    · -- nothing is destroyed at an address that was never given out
      have hrefs : 0 < pend (owed s) rs (.weak x) :=
        (owed_of_destroys hx).trans_le (le_pend ..)
      exact absurd (Counted.lt_of_weak hc hrefs).1 (hxs ▸ Nat.lt_irrefl x)
    · rw [hne x hxs]
      exact hdead
  · intro x
    have hx := ha.freed x
    have hlog : (diNewObject s.heap).2.log = s.heap.log := rfl
    have hsize : (diNewObject s.heap).2.size = s.heap.size + 1 := rfl
    rw [hlog, hx, hsize]
    by_cases hxs : x = s.heap.size
    · rw [hxs, hself, if_neg (by simp), if_neg (by simp)]
    · rw [hne x hxs]
      have hiff : x < s.heap.size + 1 ↔ x < s.heap.size :=
        ⟨fun hlt => lt_of_le_of_ne (Nat.le_of_lt_succ hlt) hxs, Nat.lt_succ_of_lt⟩
      simp only [hiff]

/-- The call that destroys an object without members gives its weak reference up. -/
theorem Accounts.popDestroy {o : ObjRef} (ha : Accounts {s with stack := .members o .destroy :: K} rs)
    (hnil : (s.heap.obj o).members = []) : Accounts {s with stack := K} (.weak o :: rs) := by
  have hstack : (Frame.members o .destroy :: K).filterMap destroys = o :: K.filterMap destroys := rfl
  refine ⟨?_, ha.visible, ?_, ?_, ?_, ha.freed, ha.bottom.tail⟩
  · have hc := ha.counted
    have hp := owed_push {s with stack := K} (.members o .destroy)
    rw [show owed {s with stack := .members o .destroy :: K} = _ from hp] at hc
    rw [show Ref.weak o :: rs = [.weak o] ++ rs from rfl, pend_append, pend_comm]
    exact hc
  · intro x hx
    rcases ha.finished x hx with hmem | hmem
    · exact .inl hmem
    · rcases List.mem_cons.mp (hstack ▸ hmem) with heq | hmem
      · exact .inl (heq ▸ hnil)
      · exact .inr hmem
  · exact fun x hx => ha.destroying x (hstack ▸ List.mem_cons_of_mem o hx)
  · exact (List.nodup_cons.mp (hstack ▸ ha.once)).2

/-- The heap after the pre hook on an object that is scheduled. -/
theorem Accounts.enter {o : ObjRef} (ha : Accounts s rs) (ho : (s.heap.obj o).destroyed = false) :
    SameTables s.heap (CollectorFinalize.enter o s.heap) ∧
      Accounts {s with heap := CollectorFinalize.enter o s.heap} (.strong o :: rs) := by
  have hfield := fun {β : Type} (g : DiObject → β)
      (hg : ∀ x k m, g {x with refCount := k, mark := m} = g x) =>
    CollectorFinalize.enter_field g hg o s.heap
  have hsame : SameTables s.heap (CollectorFinalize.enter o s.heap) :=
    ⟨rfl, hfield (·.members) fun _ _ _ => rfl, hfield (·.destroyed) fun _ _ _ => rfl,
      hfield (·.freed) fun _ _ _ => rfl, fun _ => rfl⟩
  refine ⟨hsame, ?_⟩
  have hc := ha.counted.incRef ho
  have hc' : Counted (CollectorFinalize.enter o s.heap) (pend (pend (owed s) rs) [.strong o]) := by
    refine hc.setMarks rfl ?_ ?_ hc.nodup hc.listed ?_
    · intro x
      unfold CollectorFinalize.enter
      rw [Heap.modify_obj]
      split_ifs <;> rfl
    · intro x hx
      refine Heap.modify_obj_ne _ _ fun hxo => ?_
      rw [hxo] at hx
      exact absurd (ha.counted.lt_size ho) (Nat.not_lt.mpr hx)
    · intro x
      rw [CollectorFinalize.enter_mark]
      split_ifs
      · rfl
      · exact ha.counted.calm x
  rw [pend_comm] at hc'
  rw [show Ref.strong o :: rs = [.strong o] ++ rs from rfl]
  apply ha.same (R := s.external) hsame
  rw [pend_append, pend_comm]
  exact hc'

/-! ## Counts alone -/

/-- What the release of a strong reference changes. With the last one the destruction starts. -/
structure Unreferenced (o : ObjRef) (s s' : State) : Prop where
  external : s'.external = s.external
  members : ∀ x, (s'.heap.obj x).members = (s.heap.obj x).members
  dead : ∀ x, (s.heap.obj x).destroyed = true → (s'.heap.obj x).destroyed = true
  stack : s'.stack = s.stack ∨ (s.heap.obj o).refCount = 1 ∧ (s'.heap.obj o).destroyed = true ∧
    ∃ f, (f = .dtor o .destroy ∨ f = .members o .destroy) ∧ s'.stack = f :: s.stack

/-- With the last strong reference the destruction starts. -/
theorem unref_last {o : ObjRef} (hc : Counted s.heap (pend R [.strong o]))
    (hone : (s.heap.obj o).refCount = 1) {h₂ : Heap}
    (hh₂ : h₂ = (((s.heap.modify o fun x => {x with refCount := x.refCount - 1}).listDelInit
      o).modify o fun x => {x with destroyed := true}).record (.destroy o)) :
    Destruction.unref o s = .ok (startFinalize o .destroy {s with heap := h₂}) := by
  have halive : (s.heap.obj o).destroyed = false :=
    hc.alive_of_held (by rw [pend_strong, if_pos rfl]; omega)
  have hcalm : (!calmMark (s.heap.obj o).mark) = false := by rw [hc.calm o]; rfl
  unfold Destruction.unref
  simp only [bind, Except.bind]
  rw [Heap.deref_ok (hc.not_freed halive)]
  dsimp only
  rw [if_neg (by omega), halive]
  simp only [Bool.false_eq_true, if_false, hcalm]
  rw [if_pos (by omega)]
  set h₁ := (s.heap.modify o fun x => {x with refCount := x.refCount - 1}).listDelInit o with hh₁
  have hnf : (h₁.obj o).freed = false := by simpa [hh₁] using hc.not_freed halive
  have hdead : (h₁.obj o).destroyed = false := by simpa [hh₁] using halive
  unfold Destruction.startDestroy
  simp only [bind, Except.bind]
  rw [Heap.deref_ok hnf]
  dsimp only
  rw [if_neg (by simp [hh₁, hone]), hdead, hh₂]
  rfl

/-- While there are other references the object may become a candidate of the collector. -/
theorem unref_more {o : ObjRef} (hc : Counted s.heap (pend R [.strong o]))
    (hmore : (s.heap.obj o).refCount ≠ 1) :
    ∃ h, Destruction.unref o s = .ok {s with heap := h} ∧ Counted h R ∧ SameTables s.heap h ∧
      SameMarks s.heap h := by
  have hst := hc.strong o
  rw [pend_strong, if_pos rfl] at hst
  have halive : (s.heap.obj o).destroyed = false :=
    hc.alive_of_held (by rw [pend_strong, if_pos rfl]; omega)
  have hcalm : (!calmMark (s.heap.obj o).mark) = false := by rw [hc.calm o]; rfl
  unfold Destruction.unref
  simp only [bind, Except.bind]
  rw [Heap.deref_ok (hc.not_freed halive)]
  dsimp only
  rw [if_neg (by omega), halive]
  simp only [Bool.false_eq_true, if_false, hcalm]
  rw [if_neg (by omega)]
  have hc₁ := Counted.decRef hc (by omega)
  set h₁ := s.heap.modify o fun x => {x with refCount := x.refCount - 1} with hh₁
  have hsame : SameTables s.heap h₁ := .modify _ _ (fun _ => rfl) (fun _ => rfl) fun _ => rfl
  have hmarks : SameMarks s.heap h₁ :=
    ⟨s.heap.modify_same (·.mark) o rfl, s.heap.modify_same (·.refCountScan) o rfl, rfl⟩
  split_ifs with hadd
  · obtain ⟨hul, -⟩ := Bool.and_eq_true_iff.mp hadd
    exact ⟨_, rfl, Counted.addUnreferred hc₁ ((hsame.destroyed o).trans halive) hul,
      ⟨rfl, hsame.members, hsame.destroyed, hsame.freed, hsame.frees⟩, hmarks.mark, hmarks.scan,
      rfl⟩
  · exact ⟨_, rfl, hc₁, hsame, hmarks⟩

theorem unref_counted {o : ObjRef}
    (hc : Counted s.heap (pend (pend R (s.stack.flatMap frameRefs)) [.strong o])) :
    ∃ s', Destruction.unref o s = .ok s' ∧ Counted s'.heap (pend R (s'.stack.flatMap frameRefs)) ∧
      Unreferenced o s s' := by
  by_cases hone : (s.heap.obj o).refCount = 1
  · have halive : (s.heap.obj o).destroyed = false :=
      hc.alive_of_held (by rw [pend_strong, if_pos rfl]; omega)
    set h₂ := (((s.heap.modify o fun x => {x with refCount := x.refCount - 1}).listDelInit o).modify o
      fun x => {x with destroyed := true}).record (.destroy o) with hh₂
    obtain ⟨hc₂, hr, hdo, hne⟩ := Counted.startDestroy hc hone hh₂
    have hc₃ := hc₂.callDtor (hr.size.symm ▸ hc.lt_size halive)
    obtain ⟨hsame, -⟩ := callDtor_same o h₂
    obtain ⟨f, hf, heq⟩ := startFinalize_eq o .destroy {s with heap := h₂}
    have hself : (h₂.obj o).members = (s.heap.obj o).members := by simp [hh₂]
    refine ⟨{s with heap := callDtor o h₂, stack := f :: s.stack}, (unref_last hc hone hh₂).trans
      (congrArg Except.ok heq), ?_, rfl, fun x => ?_, fun x hx => ?_, .inr ⟨hone, ?_, f, hf, rfl⟩⟩
    · rw [List.flatMap_cons, frameRefs_finalize hf, pend_append]
      rw [pend_comm] at hc₃
      rwa [pend_comm]
    · refine (hsame.members x).trans ?_
      by_cases hx : x = o
      · rw [hx, hself]
      · rw [hne x hx]
    · refine (hsame.destroyed x).trans ?_
      by_cases hxo : x = o
      · rw [hxo, hdo]
      · rw [hne x hxo, hx]
    · exact (hsame.destroyed o).trans hdo
  · obtain ⟨h, hrun, hc', hsame, -⟩ := unref_more hc hone
    exact ⟨_, hrun, hc', rfl, hsame.members, fun x hx => (hsame.destroyed x).trans hx, .inl rfl⟩

/-- `di_upgrade_weak_ref` on an object whose memory is there. -/
theorem diUpgradeWeakRef_eq {o : ObjRef} (hf : (h.obj o).freed = false)
    (hcalm : calmMark (h.obj o).mark = true) :
    diUpgradeWeakRef o h =
      if Available h o then
        .ok (some o, h.modify o fun x => {x with refCount := x.refCount + 1})
      else .ok (none, h) := by
  unfold diUpgradeWeakRef Available
  simp only [bind, Except.bind]
  rw [Heap.deref_ok hf]
  dsimp only
  rw [hcalm, diRefObject_eq hf]
  rfl

end

end Deai.DestructionAccounts
