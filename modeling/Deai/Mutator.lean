import Deai.GarbageCollection
import Deai.Fallible

/-!
# The candidate invariant of the mutator

Everything user code can do with objects, their members and their references,
as steps of a world: the heap, and the references held outside of it. Between
two steps every live object can be reached from outside or from a candidate of
the next collection, so no garbage escapes it.
-/
namespace Deai.Mutator
open Value ObjectHeap TrialDeletion Accounting Release Collector CollectorMark
open GarbageCollection Relation Fallible

/-- The heap between two operations, with `R` held from outside. -/
structure Settled (h : Heap) (R : Ref → ℕ) : Prop where
  counted : Counted h R
  visible : ∀ o, ∀ m ∈ (h.obj o).members, m.2.Visible
  finished : ∀ o, (h.obj o).destroyed = true → (h.obj o).members = []
  marks : ∀ o, (h.obj o).destroyed = false → (h.obj o).mark = 0 ∧ (h.obj o).refCountScan = 0
  isolated : h.isolated = []
  covered : Covered h R ∅

theorem Settled.collectable {h : Heap} {R : Ref → ℕ} (hs : Settled h R)
    (hh : h.headInit = true) : Collectable h R :=
  ⟨hs.counted, hs.visible, hs.finished, hs.marks, hs.isolated, hh⟩

theorem Settled.quiet {h : Heap} {R : Ref → ℕ} (hs : Settled h R) : Quiet h :=
  ⟨hs.isolated, fun x hx => (hs.marks x hx).1⟩

theorem Settled.empty : Settled {} (fun _ => 0) := by
  refine ⟨⟨fun _ _ => rfl, fun _ => rfl, fun _ _ => rfl, ?_, fun _ => rfl, ?_, List.nodup_nil, ?_,
    fun _ => rfl⟩, ?_, fun _ _ => rfl, ?_, rfl, ?_⟩
  · intro o ho
    cases ho
  · exact fun o => ⟨fun _ => rfl, fun _ => rfl⟩
  · exact fun o ho => absurd ho List.not_mem_nil
  · exact fun o m hm => absurd hm List.not_mem_nil
  · intro o ho
    cases ho
  · intro o ho
    cases ho

/-- A release that owes nothing any more leaves a settled heap. -/
theorem Settled.release {h h' : Heap} {R : Ref → ℕ} {S : Set ObjRef} {rs : List Ref}
    (hs : Settled h (pend R rs)) (ho : Outcome R S rs h h') : Settled h' R := by
  have hr := ho.released
  have hm : ∀ o, (h'.obj o).members = (h.obj o).members ∨ (h'.obj o).members = [] := by
    intro o
    have hstep := hr.obj o id
    cases hb : (h'.obj o).destroyed with
    | false => exact Or.inl (hstep.same hb).1
    | true =>
        cases hb₀ : (h.obj o).destroyed with
        | false => exact Or.inr (hstep.done hb₀ hb).1
        | true => exact Or.inl (hstep.dead hb₀).2.1
  refine ⟨ho.counted, ?_, ?_, ?_, ?_, ho.covered hs.quiet ∅ hs.covered⟩
  · intro o m hmem
    rcases hm o with h₁ | h₁
    · rw [h₁] at hmem
      exact hs.visible o m hmem
    · rw [h₁] at hmem
      exact absurd hmem List.not_mem_nil
  · intro o hd
    have hstep := hr.obj o id
    cases hb₀ : (h.obj o).destroyed with
    | false => exact (hstep.done hb₀ hd).1
    | true => rw [(hstep.dead hb₀).2.1, hs.finished o hb₀]
  · intro o hd
    rw [(hr.marks o).1, (hr.marks o).2]
    exact hs.marks o (hr.alive hd)
  · have := hr.sublist
    rw [hs.isolated] at this
    exact List.eq_nil_of_sublist_nil this

/-- Only counts differ, and only more references are held from outside. -/
theorem Settled.counts {h h' : Heap} {R R' : Ref → ℕ} (hs : Settled h R) (hc : Counted h' R')
    (hm : ∀ x, (h'.obj x).members = (h.obj x).members)
    (hd : ∀ x, (h'.obj x).destroyed = (h.obj x).destroyed)
    (hk : ∀ x, (h'.obj x).mark = (h.obj x).mark)
    (hsc : ∀ x, (h'.obj x).refCountScan = (h.obj x).refCountScan)
    (hu : h'.unreferred = h.unreferred) (hi : h'.isolated = h.isolated)
    (hR : ∀ r, R r ≤ R' r) : Settled h' R' := by
  refine ⟨hc, ?_, ?_, ?_, hi.trans hs.isolated, ?_⟩
  · intro o m hmem
    rw [hm] at hmem
    exact hs.visible o m hmem
  · intro o ho
    rw [hd] at ho
    rw [hm]
    exact hs.finished o ho
  · intro o ho
    rw [hd] at ho
    rw [hk, hsc]
    exact hs.marks o ho
  · refine covered_of_links (fun y => links_congr (hm y)) (fun x hx => hd x ▸ hx) ?_ hs.covered
    intro y hy
    rcases hy with hy | hy | hy
    · exact Or.inl (hy.trans_le (hR _))
    · exact Or.inr (Or.inl (hu ▸ hy))
    · exact hy.elim

theorem Settled.incRef {h : Heap} {R : Ref → ℕ} {o : ObjRef} (hs : Settled h R)
    (ho : (h.obj o).destroyed = false) :
    Settled (h.modify o fun x => {x with refCount := x.refCount + 1}) (pend R [.strong o]) :=
  hs.counts (hs.counted.incRef ho) (h.modify_same (·.members) o rfl)
    (h.modify_same (·.destroyed) o rfl) (h.modify_same (·.mark) o rfl)
    (h.modify_same (·.refCountScan) o rfl) rfl rfl (le_pend R _)

theorem Settled.incWeak {h : Heap} {R : Ref → ℕ} {o : ObjRef} (hs : Settled h R)
    (ho : (h.obj o).freed = false) :
    Settled (h.modify o fun x => {x with weakRefCount := x.weakRefCount + 1})
      (pend R [.weak o]) :=
  hs.counts (hs.counted.incWeak ho) (h.modify_same (·.members) o rfl)
    (h.modify_same (·.destroyed) o rfl) (h.modify_same (·.mark) o rfl)
    (h.modify_same (·.refCountScan) o rfl) rfl rfl (le_pend R _)

theorem Settled.removeMember {h : Heap} {R : Ref → ℕ} {o : ObjRef} {name : String}
    {v : DiValue} (hs : Settled h R) (hv : diLookup o name h = some v) :
    Settled (h.removeMember o name) (pend R v.refs) := by
  have hlt : o < h.size := by
    apply hs.counted.lt_size
    rw [← Bool.not_eq_true]
    intro hd
    rw [diLookup, hs.finished o hd] at hv
    cases hv
  have hd : ∀ x, ((h.removeMember o name).obj x).destroyed = (h.obj x).destroyed :=
    h.modify_same (·.destroyed) o rfl
  have hsub : ∀ x, ∀ m ∈ ((h.removeMember o name).obj x).members, m ∈ (h.obj x).members := by
    intro x m hm
    rw [Heap.removeMember, Heap.modify_obj] at hm
    split_ifs at hm
    · exact List.mem_of_mem_eraseP hm
    · exact hm
  refine ⟨Counted.removeMember hs.counted hlt hv, ?_, ?_, ?_, hs.isolated,
    Covered.removeMember hv hs.covered⟩
  · exact fun x m hm => hs.visible x m (hsub x m hm)
  · intro x hx
    rw [hd] at hx
    refine List.eq_nil_iff_forall_not_mem.mpr fun m hm => ?_
    have := hsub x m hm
    rw [hs.finished x hx] at this
    exact List.not_mem_nil this
  · intro x hx
    rw [hd] at hx
    have hk : ((h.removeMember o name).obj x).mark = (h.obj x).mark :=
      h.modify_same (·.mark) o rfl x
    have hsc : ((h.removeMember o name).obj x).refCountScan = (h.obj x).refCountScan :=
      h.modify_same (·.refCountScan) o rfl x
    rw [hk, hsc]
    exact hs.marks x hx

theorem links_insertMember (h : Heap) (o : ObjRef) (name : String) (v : DiValue)
    {y z : ObjRef} (he : Edge (links h) y z) :
    Edge (links (h.insertMember o name v)) y z := by
  unfold Edge links at he ⊢
  by_cases hy : y = o
  · rw [hy] at he ⊢
    rw [memberRefs_insertMember, List.count_append]
    omega
  · have hm : ((h.insertMember o name v).obj y).members = (h.obj y).members := by
      rw [Heap.insertMember, h.modify_obj_ne _ hy]
    unfold memberRefs at he ⊢
    rwa [hm]

/-- Putting a value into the table of a live object pays the references it
holds, as long as its objects stay covered. -/
theorem Settled.insertMember {h : Heap} {R : Ref → ℕ} {o : ObjRef} {name : String}
    {v : DiValue} (hs : Settled h (pend R v.refs)) (ho : (h.obj o).destroyed = false)
    (hvis : v.Visible)
    (hcov : ∀ t, .strong t ∈ v.refs →
      ReachableFrom (links (h.insertMember o name v)) (roots h R ∅) t) :
    Settled (h.insertMember o name v) R := by
  have hc := hs.counted
  set h' := h.insertMember o name v with hh'
  have hne : ∀ y, y ≠ o → h'.obj y = h.obj y := fun y hy => h.modify_obj_ne _ hy
  have hfield : ∀ {β : Type} (g : DiObject → β),
      (∀ x l, g {x with members := l} = g x) → ∀ x, g (h'.obj x) = g (h.obj x) :=
    fun g hg => h.modify_same g o (hg _ _)
  have hd := hfield (·.destroyed) fun _ _ => rfl
  refine ⟨hc.insertMember (hc.lt_size ho), ?_, ?_, ?_, hs.isolated, ?_⟩
  · intro x m hm
    by_cases hxo : x = o
    · rw [hxo, hh', Heap.insertMember, Heap.modify_obj_self] at hm
      rcases List.mem_append.mp hm with hm | hm
      · exact hs.visible o m hm
      · rw [List.mem_singleton.mp hm]
        exact hvis
    · rw [hne x hxo] at hm
      exact hs.visible x m hm
  · intro x hx
    rw [hd] at hx
    rw [hne x]
    · exact hs.finished x hx
    · intro hxo
      rw [hxo, ho] at hx
      cases hx
  · intro x hx
    rw [hd] at hx
    rw [hfield (·.mark) fun _ _ => rfl, hfield (·.refCountScan) fun _ _ => rfl]
    exact hs.marks x hx
  · intro x hx
    rw [hd] at hx
    refine (hs.covered x hx).transfer (fun r hr => ?_) fun y z hy he =>
      hy.step (links_insertMember h o name v he)
    rcases hr with hr | hr | hr
    · unfold pend at hr
      rcases Nat.eq_zero_or_pos (R (.strong r)) with h₀ | h₀
      · exact hcov r (List.count_pos_iff.mp (by omega))
      · exact .of_mem (Or.inl h₀)
    · exact .of_mem (Or.inr (Or.inl hr))
    · exact hr.elim

theorem Settled.new {h : Heap} {R : Ref → ℕ} (hs : Settled h R) :
    Settled (diNewObject h).2 (pend R [.strong h.size]) := by
  have hc := hs.counted
  have hself := diNewObject_self h
  have hne : ∀ y, y ≠ h.size → (diNewObject h).2.obj y = h.obj y := fun y => diNewObject_ne h
  have hmem := hc.newObject_members
  refine ⟨hc.newObject, ?_, ?_, ?_, hs.isolated, ?_⟩
  · intro x m hm
    rw [hmem] at hm
    exact hs.visible x m hm
  · intro x hx
    by_cases hxs : x = h.size
    · rw [hxs, hself] at hx
      cases hx
    · rw [hne x hxs] at hx ⊢
      exact hs.finished x hx
  · intro x hx
    by_cases hxs : x = h.size
    · rw [hxs, hself]
      exact ⟨rfl, rfl⟩
    · rw [hne x hxs] at hx ⊢
      exact hs.marks x hx
  · intro x hx
    by_cases hxs : x = h.size
    · refine .of_mem (Or.inl ?_)
      rw [hxs, pend_strong, if_pos rfl]
      omega
    · rw [hne x hxs] at hx
      refine (hs.covered x hx).transfer (fun r hr => .of_mem ?_) fun y z hy he => hy.step ?_
      · rcases hr with hr | hr | hr
        · exact Or.inl (hr.trans_le (le_pend R _ _))
        · exact Or.inr (Or.inl hr)
        · exact hr.elim
      · unfold Edge at he ⊢
        rwa [links_congr (hmem y)]

theorem diRefObject_eq {h : Heap} {o : ObjRef} (hf : (h.obj o).freed = false) :
    diRefObject o h = .ok (h.modify o fun x => {x with refCount := x.refCount + 1}) := by
  unfold diRefObject
  rw [Heap.deref_ok hf]
  rfl

theorem diWeaklyRefObject_eq {h : Heap} {o : ObjRef} (hf : (h.obj o).freed = false) :
    diWeaklyRefObject o h =
      .ok (h.modify o fun x => {x with weakRefCount := x.weakRefCount + 1}) := by
  unfold diWeaklyRefObject
  rw [Heap.deref_ok hf]
  rfl

/-- What copying a value leaves as it was. -/
structure SameObjects (h h' : Heap) : Prop where
  size : h'.size = h.size
  members : ∀ x, (h'.obj x).members = (h.obj x).members
  destroyed : ∀ x, (h'.obj x).destroyed = (h.obj x).destroyed
  freed : ∀ x, (h'.obj x).freed = (h.obj x).freed
  unreferred : h'.unreferred = h.unreferred

/-- The objects a value refers to can be referred to once more. -/
def Holdable (h : Heap) (rs : List Ref) : Prop :=
  ∀ r ∈ rs, match r with
    | .strong t => (h.obj t).destroyed = false
    | .weak t => (h.obj t).freed = false

/-- An account of the references that goes on when one more is taken. -/
structure Extends (P : Heap → (Ref → ℕ) → Prop) : Prop where
  counted : ∀ {h : Heap} {R : Ref → ℕ}, P h R → Counted h R
  strong : ∀ {h : Heap} {R : Ref → ℕ} {o : ObjRef}, P h R → (h.obj o).destroyed = false →
    P (h.modify o fun x => {x with refCount := x.refCount + 1}) (pend R [.strong o])
  weak : ∀ {h : Heap} {R : Ref → ℕ} {o : ObjRef}, P h R → (h.obj o).freed = false →
    P (h.modify o fun x => {x with weakRefCount := x.weakRefCount + 1}) (pend R [.weak o])

theorem settled_extends : Extends Settled := ⟨Settled.counted, Settled.incRef, Settled.incWeak⟩

theorem counted_extends : Extends Counted := ⟨id, Counted.incRef, Counted.incWeak⟩

theorem SameObjects.refl (h : Heap) : SameObjects h h :=
  ⟨rfl, fun _ => rfl, fun _ => rfl, fun _ => rfl, rfl⟩

theorem SameObjects.trans {h₁ h₂ h₃ : Heap} (h : SameObjects h₁ h₂) (h' : SameObjects h₂ h₃) :
    SameObjects h₁ h₃ where
  size := h'.size.trans h.size
  members x := (h'.members x).trans (h.members x)
  destroyed x := (h'.destroyed x).trans (h.destroyed x)
  freed x := (h'.freed x).trans (h.freed x)
  unreferred := h'.unreferred.trans h.unreferred

theorem takeRef_same {h h' : Heap} {r : Ref}
    (hrun : onRef diRefObject diWeaklyRefObject h r = .ok h') : SameObjects h h' := by
  cases r with
  | strong t | weak t =>
      simp only [onRef, diRefObject, diWeaklyRefObject] at hrun
      obtain ⟨_, -, heq⟩ := bind_eq_ok hrun
      injection heq with heq
      rw [← heq]
      exact ⟨rfl, h.modify_same (·.members) t rfl, h.modify_same (·.destroyed) t rfl,
        h.modify_same (·.freed) t rfl, rfl⟩

theorem takeRefs_same (rs : List Ref) (h h' : Heap)
    (hrun : rs.foldlM (onRef diRefObject diWeaklyRefObject) h = .ok h') : SameObjects h h' := by
  induction rs generalizing h with
  | nil =>
      cases hrun
      exact .refl _
  | cons r rs ih =>
      rw [List.foldlM_cons] at hrun
      obtain ⟨h₁, hfirst, hrest⟩ := bind_eq_ok hrun
      exact (takeRef_same hfirst).trans (ih h₁ hrest)

theorem takeRefs_spec {P : Heap → (Ref → ℕ) → Prop} (hP : Extends P) (rs : List Ref) (h : Heap)
    (R : Ref → ℕ) (hs : P h R) (hr : Holdable h rs) :
    ∃ h', rs.foldlM (onRef diRefObject diWeaklyRefObject) h = .ok h' ∧ P h' (pend R rs) := by
  induction rs generalizing h R with
  | nil =>
      rw [pend_nil]
      exact ⟨h, rfl, hs⟩
  | cons r rs ih =>
      have hfirst : ∃ h₁, onRef diRefObject diWeaklyRefObject h r = .ok h₁ ∧ P h₁ (pend R [r]) := by
        have hr₀ := hr r List.mem_cons_self
        cases r with
        | strong t => exact ⟨_, diRefObject_eq ((hP.counted hs).not_freed hr₀), hP.strong hs hr₀⟩
        | weak t => exact ⟨_, diWeaklyRefObject_eq hr₀, hP.weak hs hr₀⟩
      obtain ⟨h₁, hrun₁, hs₁⟩ := hfirst
      have hsame := takeRef_same hrun₁
      have hr₁ : Holdable h₁ rs := by
        intro q hq
        have hq₀ := hr q (List.mem_cons_of_mem _ hq)
        cases q with
        | strong t => exact (hsame.destroyed t).trans hq₀
        | weak t => exact (hsame.freed t).trans hq₀
      obtain ⟨h₂, hrun₂, hs₂⟩ := ih h₁ (pend R [r]) hs₁ hr₁
      rw [pend_cons] at hs₂
      refine ⟨h₂, ?_, hs₂⟩
      rw [List.foldlM_cons, hrun₁]
      exact hrun₂

theorem SameObjects.liveCount_eq {h h' : Heap} (hsame : SameObjects h h') :
    liveCount h' = liveCount h := by
  unfold liveCount
  rw [hsame.size]
  simp only [hsame.destroyed]

theorem diCopyValue_same {h h' : Heap} {v : DiValue} (hrun : diCopyValue v h = .ok h') :
    SameObjects h h' := by
  unfold diCopyValue at hrun
  rw [forRefs_eq] at hrun
  exact takeRefs_same v.refs h h' hrun

theorem diCopyValue_spec {P : Heap → (Ref → ℕ) → Prop} (hP : Extends P) {h : Heap} {R : Ref → ℕ}
    {v : DiValue} (hs : P h R) (hr : Holdable h v.refs) :
    ∃ h', diCopyValue v h = .ok h' ∧ P h' (pend R v.refs) ∧ SameObjects h h' := by
  obtain ⟨h', hrun, hs'⟩ := takeRefs_spec hP v.refs h R hs hr
  rw [← forRefs_eq] at hrun
  exact ⟨h', hrun, hs', diCopyValue_same hrun⟩

/-- Collecting garbage: whatever no candidate and nobody outside reaches would
have been uncovered before. -/
theorem Settled.collected {h h' : Heap} {R : Ref → ℕ} {D : ObjRef → Prop} (hs : Settled h R)
    (hC : Collectable h' R) (hsw : Swept R D h h') (hD : ∀ x, Collected h R x → D x) :
    Settled h' R := by
  refine ⟨hC.counted, hC.visible, hC.finished, hC.marks, hC.isolated, fun x hx => ?_⟩
  have hnD : ¬ D x := by
    intro hd
    rw [(hsw.gone x hd).2.1] at hx
    cases hx
  have hlive : (h.obj x).destroyed = false := (hsw.keep x hnD).2.2 ▸ hx
  -- a candidate that nobody outside reaches holds nothing but garbage
  have hcase : ∀ y, (h.obj y).destroyed = false →
      ExternallyReachable h R y ∨ CandidateReachable h y := by
    intro y hy
    obtain ⟨r, hr | hr | hr, hry⟩ := hs.covered y hy
    · exact Or.inl ⟨r, hr, hry⟩
    · exact Or.inr ⟨r, hr, hry⟩
    · exact hr.elim
  have hreach : ExternallyReachable h R x := by
    by_contra hnot
    have hcand := (hcase x hlive).resolve_left hnot
    apply hnD
    apply hD
    refine ⟨hcand, fun hr => hnot ?_⟩
    obtain ⟨r, hr | ⟨hrl, hrc⟩, hrx⟩ := hr
    · exact ⟨r, hr, hrx⟩
    · obtain ⟨q, hq, hqr⟩ := (hcase r hrl).resolve_right hrc
      exact ⟨q, hq, hqr.trans hrx⟩
  -- the path is still there, since nothing on it was swept
  obtain ⟨r, hr, hrx⟩ := hreach
  clear hnD hlive hcase hx
  induction hrx with
  | refl => exact .of_mem (Or.inl hr)
  | tail hry he ih =>
      apply ih.step
      unfold Edge at he ⊢
      rwa [links_congr (hsw.keep _ (hsw.not_externallyReachable ⟨r, hr, hry⟩)).1]

/-! ## Steps and runs -/

/-- The heap and the references held outside of it. -/
structure World where
  heap : Heap := {}
  external : Ref → ℕ := fun _ => 0

/-- `run` gives `a` with every large enough amount of fuel. -/
def Returns {α : Type} (run : ℕ → Except Fault α) (a : α) : Prop :=
  ∃ n, ∀ fuel, n ≤ fuel → run fuel = .ok a

/-- One operation of user code. Whoever gives a reference up must hold it; a
moved value must go to an object that stays reachable from outside. A value that
`di_add_member` neither stores nor releases is still held by nobody in the heap. -/
inductive Step : World → World → Prop where
  | newObject (w : World) :
      Step w ⟨(diNewObject w.heap).2, pend w.external [.strong (diNewObject w.heap).1]⟩
  | refObject {w : World} {o : ObjRef} {h : Heap} (ho : (w.heap.obj o).destroyed = false)
      (hrun : diRefObject o w.heap = .ok h) : Step w ⟨h, pend w.external [.strong o]⟩
  | unrefObject {w : World} {o : ObjRef} {R : Ref → ℕ} {h : Heap}
      (hR : w.external = pend R [.strong o])
      (hrun : Returns (fun fuel => diUnrefObject fuel o w.heap) h) : Step w ⟨h, R⟩
  | weaklyRefObject {w : World} {o : ObjRef} {h : Heap} (ho : (w.heap.obj o).freed = false)
      (hrun : diWeaklyRefObject o w.heap = .ok h) : Step w ⟨h, pend w.external [.weak o]⟩
  | upgradeWeakRef {w : World} {o : ObjRef} {p : Option ObjRef} {h : Heap}
      (hrun : diUpgradeWeakRef o w.heap = .ok (p, h)) :
      Step w ⟨h, pend w.external (p.toList.map .strong)⟩
  | dropWeakRef {w : World} {o : ObjRef} {R : Ref → ℕ} {h : Heap}
      (hR : w.external = pend R [.weak o]) (hrun : diDropWeakRef o w.heap = .ok h) : Step w ⟨h, R⟩
  | addMemberClone {w : World} {o : ObjRef} {name : Name} {v : DiValue} {e : Option Errno}
      {h : Heap} (ho : (w.heap.obj o).destroyed = false) (hv : Holdable w.heap v.refs)
      (hvis : v.Visible)
      (hrun : Returns (fun fuel => diAddMemberClone fuel o name v w.heap) (e, h)) :
      Step w ⟨h, if name = none then pend w.external v.refs else w.external⟩
  | addMemberMove {w : World} {o : ObjRef} {name : Name} {v : DiValue} {R : Ref → ℕ}
      {e : Option Errno} {h : Heap} (hR : w.external = pend R v.refs)
      (ho : ExternallyReachable w.heap R o) (hvis : v.Visible)
      (hrun : Returns (fun fuel => diAddMemberMove fuel o name v w.heap) (e, h)) :
      Step w ⟨h, if name = none then w.external else R⟩
  | deleteMemberRaw {w : World} {o : ObjRef} {name : Name} {e : Option Errno} {h : Heap}
      (hrun : Returns (fun fuel => diDeleteMemberRaw fuel o name w.heap) (e, h)) :
      Step w ⟨h, w.external⟩
  | removeMemberRaw {w : World} {o : ObjRef} {name : Name} {v : DiValue} {h : Heap}
      (hrun : diRemoveMemberRaw o name w.heap = .ok (v, h)) : Step w ⟨h, pend w.external v.refs⟩
  | collectGarbage {w : World} {h : Heap}
      (hrun : Returns (fun fuel => diCollectGarbage fuel w.heap) h) : Step w ⟨h, w.external⟩

/-- A result that holds for some large enough fuel is the one returned. -/
theorem Returns.of_spec {α : Type} {run : ℕ → Except Fault α} {a : α} {P : α → Prop} (n : ℕ)
    (hrun : Returns run a) (hspec : ∀ fuel, n ≤ fuel → ∃ b, run fuel = .ok b ∧ P b) : P a := by
  obtain ⟨m, hm⟩ := hrun
  obtain ⟨b, hb, hP⟩ := hspec (max m n) (le_max_right m n)
  rw [hm (max m n) (le_max_left m n)] at hb
  cases hb
  exact hP

theorem Sustained.nothing (h : Heap) (R : Ref → ℕ) : Sustained h R ∅ := fun _ hx => hx.elim

theorem Settled.unref {h h' : Heap} {R : Ref → ℕ} {o : ObjRef}
    (hs : Settled h (pend R [.strong o]))
    (hrun : Returns (fun fuel => diUnrefObject fuel o h) h') : Settled h' R := by
  refine hrun.of_spec (P := fun h' => Settled h' R) (liveCount h + 1) fun fuel hf => ?_
  have hrel := diUnrefObject_releases (show liveCount h < fuel by omega) o
  obtain ⟨h₁, hrun₁, ho⟩ := hrel h R ∅ hs.counted (Sustained.nothing h R) le_rfl
  exact ⟨h₁, hrun₁, hs.release ho⟩

theorem Settled.freeValue {h : Heap} {R : Ref → ℕ} {v : DiValue}
    (hs : Settled h (pend R v.refs)) {fuel : ℕ} (hf : liveCount h < fuel) :
    ∃ h', diFreeValue (diUnrefObject fuel) v h = .ok h' ∧ Settled h' R := by
  obtain ⟨h', hrun, ho⟩ := diFreeValue_releases (n := liveCount h)
    (fun p => diUnrefObject_releases hf p) v h R ∅ hs.counted (Sustained.nothing h R) le_rfl
  exact ⟨h', hrun, hs.release ho⟩

/-- `di_add_member` on a live object, with the references of the value owed. -/
theorem Settled.addMember {h : Heap} {R : Ref → ℕ} {o : ObjRef} {v : DiValue}
    (hs : Settled h (pend R v.refs)) (name : Name) (ho : (h.obj o).destroyed = false) (hvis : v.Visible)
    (hcov : ∀ n t, .strong t ∈ v.refs →
      ReachableFrom (links (h.insertMember o n v)) (roots h R ∅) t)
    {fuel : ℕ} (hf : liveCount h < fuel) :
    ∃ r, diAddMember fuel o name v h = .ok r ∧
      Settled r.2 (if name = none then pend R v.refs else R) := by
  unfold diAddMember
  cases name with
  | none => exact ⟨_, rfl, hs⟩
  | some n =>
      rw [if_neg (by simp)]
      cases hl : diLookup o n h with
      | none =>
          exact ⟨(none, h.insertMember o n v), by simp only [hl],
            hs.insertMember ho hvis (hcov n)⟩
      | some u =>
          obtain ⟨h₁, hrun, hs₁⟩ := hs.freeValue hf
          refine ⟨(some .eexist, h₁), ?_, hs₁⟩
          simp only [hl, bind, Except.bind, hrun]

theorem refs_of_sizeofIsZero {v : DiValue} (hz : sizeofIsZero v = true) : v.refs = [] := by
  cases v with
  | nil => simp [DiValue.refs]
  | _ => cases hz

theorem Settled.addMemberClone {h : Heap} {R : Ref → ℕ} {o : ObjRef} {name : Name}
    {v : DiValue} (hs : Settled h R) (ho : (h.obj o).destroyed = false)
    (hv : Holdable h v.refs) (hvis : v.Visible) {fuel : ℕ} (hf : liveCount h < fuel) :
    ∃ r, diAddMemberClone fuel o name v h = .ok r ∧
      Settled r.2 (if name = none then pend R v.refs else R) := by
  unfold diAddMemberClone
  cases hz : sizeofIsZero v with
  | true =>
      refine ⟨_, rfl, ?_⟩
      rw [refs_of_sizeofIsZero hz, pend_nil, ite_self]
      exact hs
  | false =>
      obtain ⟨h₁, hcopy, hs₁, hsame⟩ := diCopyValue_spec settled_extends hs hv
      have hlive : liveCount h₁ < fuel := hsame.liveCount_eq ▸ hf
      have hcov : ∀ n t, .strong t ∈ v.refs →
          ReachableFrom (links (h₁.insertMember o n v)) (roots h₁ R ∅) t := by
        intro n t ht
        refine (hs.covered t (hv _ ht)).transfer (fun r hr => .of_mem ?_) fun y z hy he =>
          hy.step (links_insertMember h₁ o n v ?_)
        · rcases hr with hr | hr | hr
          · exact Or.inl hr
          · exact Or.inr (Or.inl (hsame.unreferred ▸ hr))
          · exact hr.elim
        · unfold Edge at he ⊢
          rwa [links_congr (hsame.members y)]
      obtain ⟨r, hrun, hs₂⟩ := hs₁.addMember name ((hsame.destroyed o).trans ho) hvis
        hcov hlive
      refine ⟨r, ?_, hs₂⟩
      simp only [Bool.false_eq_true, if_false, bind, Except.bind, hcopy]
      exact hrun

theorem Settled.addMemberMove {h : Heap} {R : Ref → ℕ} {o : ObjRef} {name : Name}
    {v : DiValue} (hs : Settled h (pend R v.refs)) (ho : ExternallyReachable h R o)
    (hvis : v.Visible) {fuel : ℕ} (hf : liveCount h < fuel) :
    ∃ r, diAddMemberMove fuel o name v h = .ok r ∧
      Settled r.2 (if name = none then pend R v.refs else R) := by
  unfold diAddMemberMove
  cases hz : sizeofIsZero v with
  | true =>
      have hnil := refs_of_sizeofIsZero hz
      refine ⟨_, rfl, ?_⟩
      rw [hnil, pend_nil] at hs
      rw [hnil, pend_nil, ite_self]
      exact hs
  | false =>
      have hlive : (h.obj o).destroyed = false := by
        obtain ⟨r, hr, hro⟩ := ho
        refine alive_of_reach hs.counted (hs.counted.alive_of_held ?_) hro
        exact hr.trans_le (le_pend R _ _)
      have hcov : ∀ n t, .strong t ∈ v.refs →
          ReachableFrom (links (h.insertMember o n v)) (roots h R ∅) t := by
        intro n t ht
        -- `o` is reachable as before, and now refers to `t`
        have hroot : ReachableFrom (links (h.insertMember o n v)) (roots h R ∅) o :=
          ho.transfer (fun r hr => .of_mem (Or.inl hr)) fun y z hy he =>
            hy.step (links_insertMember h o n v he)
        apply hroot.step
        unfold Edge links
        rw [memberRefs_insertMember, List.count_append]
        exact Nat.add_pos_right _ (List.count_pos_iff.mpr ht)
      simp only [Bool.false_eq_true, if_false]
      exact hs.addMember name hlive hvis hcov hf

theorem Settled.deleteMember {h : Heap} {R : Ref → ℕ} {o : ObjRef} {name : Name}
    (hs : Settled h R) {fuel : ℕ} (hf : liveCount h < fuel) :
    ∃ r, diDeleteMemberRaw fuel o name h = .ok r ∧ Settled r.2 R := by
  unfold diDeleteMemberRaw diRemoveMemberRaw
  cases name with
  | none => exact ⟨_, rfl, hs⟩
  | some n =>
      cases hl : diLookup o n h with
      | none => exact ⟨(some .enoent, h), by simp only [hl], hs⟩
      | some v =>
          have hlive : liveCount (h.removeMember o n) < fuel := by
            have hd : ∀ x, ((h.removeMember o n).obj x).destroyed = (h.obj x).destroyed :=
              h.modify_same (·.destroyed) o rfl
            have heq : liveCount (h.removeMember o n) = liveCount h := by
              unfold liveCount
              simp only [hd]
              rfl
            omega
          obtain ⟨h₁, hrun, hs₁⟩ := (hs.removeMember hl).freeValue hlive
          refine ⟨(none, h₁), ?_, hs₁⟩
          simp only [hl, bind, Except.bind, hrun]

theorem Settled.collect {h h' : Heap} {R : Ref → ℕ} (hs : Settled h R)
    (hrun : Returns (fun fuel => diCollectGarbage fuel h) h') : Settled h' R := by
  have hhead : h.headInit = true := by
    cases hb : h.headInit with
    | true => rfl
    | false =>
        obtain ⟨n, hn⟩ := hrun
        have hfail := hn (n + 1) (Nat.le_succ n)
        simp only [diCollectGarbage, collectRounds, hb, if_true] at hfail
        cases hfail
  refine hrun.of_spec (P := fun h' => Settled h' R) (collectionFuel h) fun fuel hf => ?_
  obtain ⟨D, h₁, hrun₁, hC, -, hsw, hD⟩ := diCollectGarbage_spec (hs.collectable hhead) hf
  exact ⟨h₁, hrun₁, hs.collected hC hsw hD⟩

theorem Settled.upgrade {h h' : Heap} {R : Ref → ℕ} {o : ObjRef} {p : Option ObjRef}
    (hs : Settled h R) (hrun : diUpgradeWeakRef o h = .ok (p, h')) :
    Settled h' (pend R (p.toList.map .strong)) := by
  unfold diUpgradeWeakRef at hrun
  cases hf : (h.obj o).freed with
  | true => simp [Heap.deref, hf, bind, Except.bind] at hrun
  | false =>
      rw [Heap.deref_ok hf, diRefObject_eq hf] at hrun
      simp only [bind, Except.bind] at hrun
      split_ifs at hrun with h₁ h₂
      · cases hrun
        exact hs.incRef h₂.2.1
      · cases hrun
        rw [Option.toList_none, List.map_nil, pend_nil]
        exact hs

/-- Every step leaves the heap settled. -/
theorem step_settled {w w' : World} (hstep : Step w w') (hs : Settled w.heap w.external) :
    Settled w'.heap w'.external := by
  cases hstep with
  | newObject => exact hs.new
  | refObject ho hrun =>
      rw [diRefObject_eq (hs.counted.not_freed ho)] at hrun
      cases hrun
      exact hs.incRef ho
  | unrefObject hR hrun => exact Settled.unref (hR ▸ hs) hrun
  | weaklyRefObject ho hrun =>
      rw [diWeaklyRefObject_eq ho] at hrun
      cases hrun
      exact hs.incWeak ho
  | upgradeWeakRef hrun => exact hs.upgrade hrun
  | @dropWeakRef o R h hR hrun =>
      rw [hR] at hs
      obtain ⟨h₁, hrun₁, ho⟩ := diDropWeakRef_releases (liveCount w.heap) o w.heap R ∅ hs.counted
        (Sustained.nothing w.heap R) le_rfl
      rw [hrun] at hrun₁
      cases hrun₁
      exact hs.release ho
  | @addMemberClone o name v e h ho hv hvis hrun =>
      exact hrun.of_spec
        (P := fun r => Settled r.2 (if name = none then pend w.external v.refs else w.external))
        (liveCount w.heap + 1) fun fuel hf => hs.addMemberClone ho hv hvis hf
  | @addMemberMove o name v R e h hR ho hvis hrun =>
      rw [hR] at hs
      rw [hR]
      exact hrun.of_spec (P := fun r => Settled r.2 (if name = none then pend R v.refs else R))
        (liveCount w.heap + 1) fun fuel hf => hs.addMemberMove ho hvis hf
  | deleteMemberRaw hrun =>
      exact hrun.of_spec (P := fun r => Settled r.2 w.external) (liveCount w.heap + 1)
        fun fuel hf => hs.deleteMember hf
  | @removeMemberRaw o name v h hrun =>
      unfold diRemoveMemberRaw at hrun
      cases name with
      | none => cases hrun
      | some n =>
          cases hl : diLookup o n w.heap with
          | none =>
              simp only [hl] at hrun
              cases hrun
          | some u =>
              simp only [hl] at hrun
              cases hrun
              exact hs.removeMember hl
  | collectGarbage hrun => exact hs.collect hrun

theorem run_settled {w : World} (hrun : ReflTransGen Step {} w) : Settled w.heap w.external := by
  induction hrun with
  | refl => exact Settled.empty
  | tail _ hstep ih => exact step_settled hstep ih

/-- After every step, a live object that nobody outside reaches is reachable
from a candidate that the next collection will take. -/
theorem garbage_reachable_from_candidate {w : World} (hrun : ReflTransGen Step {} w)
    {x : ObjRef} (hlive : (w.heap.obj x).destroyed = false)
    (hx : ¬ ExternallyReachable w.heap w.external x) :
    ∃ i ∈ w.heap.unreferred, (w.heap.obj i).mark = 0 ∧
      ReflTransGen (Edge (links w.heap)) i x := by
  have hs := run_settled hrun
  obtain ⟨i, hi | hi | hi, hix⟩ := hs.covered x hlive
  · exact absurd ⟨i, hi, hix⟩ hx
  · have hi' := hs.counted.listed i (List.mem_append_left _ hi)
    exact ⟨i, hi, (hs.marks i hi').1, hix⟩
  · exact hi.elim

/-- An object that refers to itself, and that its only holder outside lets go. -/
theorem garbage_reachable_from_candidate_selfLoop :
    ∃ w : World, (w.heap.obj 0).destroyed = false ∧ ∃ i ∈ w.heap.unreferred,
      (w.heap.obj i).mark = 0 ∧ ReflTransGen (Edge (links w.heap)) i 0 := by
  let h₁ : Heap := (diNewObject {}).2
  let h₂ : Heap := (h₁.modify 0 fun x => {x with refCount := x.refCount + 1}).insertMember 0
    "self" (.object 0)
  let h₃ : Heap := (h₂.modify 0 fun x => {x with refCount := x.refCount - 1}).addUnreferred 0
  have hnew : Step {} ⟨h₁, pend (fun _ => 0) [.strong 0]⟩ := Step.newObject {}
  have hadd : Step ⟨h₁, pend (fun _ => 0) [.strong 0]⟩ ⟨h₂, pend (fun _ => 0) [.strong 0]⟩ := by
    refine @Step.addMemberClone ⟨h₁, pend (fun _ => 0) [.strong 0]⟩ 0 (some "self") (.object 0)
      none h₂ rfl ?_ ?_ ⟨0, fun _ _ => ?_⟩
    · intro r hr
      rw [List.mem_singleton.mp hr]
      rfl
    · intro o
      by_cases ho : 0 = o
      · simp [DiValue.scanned, DiValue.refs, ho]
      · simp [DiValue.scanned, DiValue.refs, ho]
    · rfl
  have hunref : Step ⟨h₂, pend (fun _ => 0) [.strong 0]⟩ ⟨h₃, fun _ => 0⟩ := by
    refine Step.unrefObject (o := 0) rfl ⟨1, fun fuel hf => ?_⟩
    obtain ⟨k, rfl⟩ : ∃ k, fuel = k + 1 := ⟨fuel - 1, by omega⟩
    rfl
  have hrun : ReflTransGen Step {} ⟨h₃, fun _ => 0⟩ :=
    ((ReflTransGen.single hnew).tail hadd).tail hunref
  refine ⟨⟨h₃, fun _ => 0⟩, rfl, garbage_reachable_from_candidate hrun rfl ?_⟩
  intro hr
  obtain ⟨r, hr, -⟩ := hr
  exact absurd hr (by simp)

end Deai.Mutator
