import Deai.ThirdPass

/-!
# Weak references

In every state of every run the count of weak references is accounted for, the memory of an
object is there until the last of them is dropped, and an object that a weak reference could once
not be upgraded to stays out of reach.
-/
namespace Deai.WeakReferences
open Value ObjectHeap TrialDeletion Accounting Release Collector CollectorMark CollectorScan
open GarbageCollection Mutator Destruction DestructionAccounts ThirdPass Relation

/-- With the references `rs` in the hands of the running function. -/
structure Invariant (s : State) (rs : List Ref) : Prop where
  accounts : Accounts s rs
  collecting : Collecting s.heap s.external s.stack

/-- No weak reference to the object can be upgraded any more. -/
def Gone (h : Heap) (x : ObjRef) : Prop :=
  (h.obj x).destroyed = true ∨ (h.obj x).mark = 2 ∨ (h.obj x).mark = 3

/-- Objects that are gone stay gone. -/
structure Later (h h' : Heap) : Prop where
  size : h.size ≤ h'.size
  gone : ∀ x < h.size, Gone h x → Gone h' x

section
variable {s : State} {h h' : Heap} {K K' : List Frame} {rs : List Ref} {o : ObjRef}

theorem Later.same (hsize : h'.size = h.size) (hd : ∀ x, (h'.obj x).destroyed = (h.obj x).destroyed)
    (hmark : ∀ x, (h'.obj x).mark = (h.obj x).mark) : Later h h' := by
  refine ⟨hsize.ge, fun x _ hx => ?_⟩
  unfold Gone at hx ⊢
  rwa [hd, hmark]

theorem Later.refl (h : Heap) : Later h h := .same rfl (fun _ => rfl) fun _ => rfl

/-! ## The functions -/

theorem Invariant.startDestroy (hi : Invariant s [.strong o]) (hnot : ¬ Doomed s.heap o)
    (hone : (s.heap.obj o).refCount = 1) {h₂ : Heap}
    (hh₂ : h₂ = (((s.heap.modify o fun x => {x with refCount := x.refCount - 1}).listDelInit
      o).modify o fun x => {x with destroyed := true}).record (.destroy o)) :
    Invariant (startFinalize o .destroy {s with heap := h₂}) [] ∧
      Later s.heap (startFinalize o .destroy {s with heap := h₂}).heap := by
  have hc := hi.accounts.counted
  obtain ⟨hacc, hm, hd⟩ := hi.accounts.startDestroy hone hh₂
  obtain ⟨hsame, hmarks⟩ := callDtor_same o h₂
  set h₁ := (s.heap.modify o fun x => {x with refCount := x.refCount - 1}).listDelInit o with hh₁
  have hmark : ∀ x, ((callDtor o h₂).obj x).mark = (s.heap.obj x).mark := by
    intro x
    rw [hmarks.mark, hh₂, Heap.record_obj, h₁.modify_same (·.mark) o rfl, hh₁,
      Heap.listDelInit_obj, s.heap.modify_same (·.mark) o rfl]
  have hscan : ∀ x, ((callDtor o h₂).obj x).refCountScan = (s.heap.obj x).refCountScan := by
    intro x
    rw [hmarks.scan, hh₂, Heap.record_obj, h₁.modify_same (·.refCountScan) o rfl, hh₁,
      Heap.listDelInit_obj, s.heap.modify_same (·.refCountScan) o rfl]
  have hiso : (callDtor o h₂).isolated = s.heap.isolated.erase o := by
    rw [hmarks.isolated, hh₂]
    rfl
  have hnil : Scheduled s.heap o → (s.heap.obj o).members = [] := by
    intro ho
    have hthree := ho.2.resolve_left fun htwo => hnot ⟨ho.1, htwo⟩
    refine (hi.collecting.black o ho.1 hthree).resolve_right fun hgray => ?_
    -- the collector would hold it
    have hpos := owed_of_collects hgray
    have hst := hc.strong o
    rw [pend_strong, if_pos rfl] at hst
    omega
  have hcol : Collecting (callDtor o h₂) s.external s.stack :=
    hi.collecting.destroy hnot hnil hm hd hmark hscan hiso
  obtain ⟨f, hf, heq⟩ := startFinalize_eq o .destroy {s with heap := h₂}
  rw [heq]
  rw [heq] at hacc
  refine ⟨⟨hacc, ?_⟩, ?_⟩
  · have hcollects : collects f = none := by
      rcases hf with rfl | rfl <;> rfl
    exact hcol.finalizeFrame hf (List.filterMap_cons_none hcollects) (fun _ => id)
      (fun _ _ => Iff.rfl) id
  · refine ⟨(hsame.size.trans (by rw [hh₂]; rfl)).ge, fun x _ hx => ?_⟩
    unfold Gone at hx ⊢
    rw [hd, hmark]
    split_ifs with hxo
    · exact .inl rfl
    · exact hx

/-- `di_unref_object` releases the reference it is given. -/
theorem Invariant.unref (hi : Invariant s [.strong o]) (hnot : ¬ Doomed s.heap o) :
    ∃ s', Destruction.unref o s = .ok s' ∧ Invariant s' [] ∧ Later s.heap s'.heap := by
  have hc := hi.accounts.counted
  by_cases hone : (s.heap.obj o).refCount = 1
  · exact ⟨_, unref_last hc hone rfl, hi.startDestroy hnot hone rfl⟩
  · obtain ⟨h', hrun, hc', hsame, hmarks⟩ := unref_more hc hone
    exact ⟨_, hrun, ⟨hi.accounts.same (R := s.external) hsame hc',
      hi.collecting.same hsame.members hsame.destroyed hmarks⟩,
      .same hsame.size hsame.destroyed hmarks.mark⟩

/-- The object case of the third pass; `K` are the calls with the visit in them, `K'` without. -/
theorem Invariant.visit (hi : Invariant {s with stack := K} [])
    (hlive : (s.heap.obj o).destroyed = false)
    (hrefs : K'.flatMap frameRefs = K.flatMap frameRefs)
    (hdestroys : K'.filterMap destroys = K.filterMap destroys) (hbottom : Bottom K')
    (hgray : K'.filterMap collects = K.filterMap collects)
    (hfree : ∀ x, Freeing K' x → Freeing K x)
    (htodo : ∀ y z, z ≠ o → Todo K y z → Todo K' y z)
    (htodo' : ∀ y z, Todo K' y z → Todo K y z) (hcollect : .collect ∈ K → .collect ∈ K') :
    ∃ s', Destruction.visit o {s with stack := K'} = .ok s' ∧ Invariant s' [] ∧
      Later s.heap s'.heap := by
  have hc := hi.accounts.counted
  have hnf : (s.heap.obj o).freed = false := hc.not_freed hlive
  have hacc : Accounts {s with stack := K'} [] := by
    refine hi.accounts.hand ?_ hdestroys hbottom
    rw [hrefs]
    rfl
  unfold Destruction.visit diCollectGarbageCollectPre
  simp only [bind, Except.bind]
  rw [Heap.deref_ok hnf]
  dsimp only
  by_cases hmark : (s.heap.obj o).mark = 0 ∨ (s.heap.obj o).mark = 3
  · rw [if_pos hmark]
    refine ⟨_, rfl, ⟨hacc, ?_⟩, .refl _⟩
    refine hi.collecting.setStack hgray (fun x hx => .inl (hfree x hx)) (fun y z hz => ?_) htodo'
      hcollect
    refine htodo y z fun heq => ?_
    rw [heq] at hz
    rcases hmark with hm | hm <;> cases hm.symm.trans hz.2
  · rw [if_neg hmark, diRefObject_eq hnf]
    have htwo : (s.heap.obj o).mark = 2 := by
      have hcalm := hc.calm o
      simp only [calmMark, Bool.or_eq_true, beq_iff_eq] at hcalm
      rcases hcalm with (hz | htwo) | hthree
      · exact absurd (.inl hz) hmark
      · exact htwo
      · exact absurd (.inr hthree) hmark
    have hdoomed : Doomed s.heap o := ⟨hlive, htwo⟩
    obtain ⟨hsame, hacc'⟩ := hacc.enter hlive
    have hscanned : scannedRefs (CollectorFinalize.enter o s.heap) o = scannedRefs s.heap o := by
      unfold scannedRefs
      rw [hsame.members]
    have hmark' := CollectorFinalize.enter_mark o s.heap
    dsimp only
    rw [if_pos le_rfl]
    have hheld : Accounts {s with heap := CollectorFinalize.enter o s.heap, stack := K'}
        ([Ref.strong o] ++ []) := hacc'
    refine ⟨_, rfl, ⟨hheld.push rfl rfl nofun, ?_⟩, ?_⟩
    · change Collecting (CollectorFinalize.enter o s.heap) s.external
        (.scan o (scannedRefs (CollectorFinalize.enter o s.heap) o) :: K')
      rw [hscanned]
      exact hi.collecting.enter hdoomed (hi.accounts.visible o) hgray hfree htodo htodo' hcollect
        hsame hmark'
        (CollectorFinalize.enter_field (·.refCountScan) (fun _ _ _ => rfl) o s.heap) rfl
    · refine ⟨le_rfl, fun x _ hx => ?_⟩
      change Gone (CollectorFinalize.enter o s.heap) x
      unfold Gone at hx ⊢
      rw [hsame.destroyed, hmark']
      split_ifs with hxo
      · exact .inr (.inr rfl)
      · exact hx

/-- No scan goes through the members of the object: it is not scheduled, or it is the one that
the collector is finalizing. -/
def Idle (s : State) (o : ObjRef) : Prop :=
  ¬ Scheduled s.heap o ∨
    ∃ f K, s.stack = f :: K ∧ (f = .dtor o .collect ∨ f = .members o .collect)

theorem Invariant.not_todo (hi : Invariant s rs) (ho : Idle s o) (z : ObjRef) :
    ¬ Todo s.stack o z := by
  rintro ⟨zs, hmem, -⟩
  have hgray : o ∈ s.stack.filterMap collects := List.mem_filterMap.mpr ⟨_, hmem, rfl⟩
  rcases ho with ho | ⟨f, K, hstack, hf⟩
  · have halive := hi.accounts.counted.alive_of_held
      ((owed_of_collects hgray).trans_le (le_pend _ rs _))
    exact ho ⟨halive, .inr (hi.collecting.gray o hgray)⟩
  · have hcollects : collects f = some o := by
      rcases hf with rfl | rfl <;> rfl
    have honce := hi.collecting.once
    rw [hstack, List.filterMap_cons_some hcollects, List.nodup_cons] at honce
    rw [hstack] at hmem
    rcases List.mem_cons.mp hmem with heq | hmem
    · rcases hf with rfl | rfl <;> cases heq
    · exact honce.1 (List.mem_filterMap.mpr ⟨_, hmem, rfl⟩)

/-- A scheduled object whose holder the scans are done with has been visited. -/
theorem Invariant.mark_of_edge (hi : Invariant s rs) {x : ObjRef} (ho : Idle s o)
    (he : Edge (links s.heap) o x) (hx : Scheduled s.heap x) : (s.heap.obj x).mark = 3 := by
  refine hx.2.resolve_left fun htwo => ?_
  have hsched := hi.collecting.holders x o hx he
  rcases ho with hnot | ⟨f, K, hstack, hf⟩
  · exact hnot hsched
  · have hgray : o ∈ s.stack.filterMap collects := by
      rw [hstack]
      rcases hf with rfl | rfl <;> exact List.mem_cons_self
    have htodo := hi.collecting.scanned o x (hi.collecting.gray o hgray) he ⟨hx.1, htwo⟩
    exact hi.not_todo (.inr ⟨f, K, hstack, hf⟩) x htodo

/-- A member is taken out of the table, and its value is released by a call. -/
theorem Invariant.freeMember (hi : Invariant s []) {name : String} {v : DiValue}
    (hv : diLookup o name s.heap = some v) (hnot : ¬ Doomed s.heap o)
    (hidle : Idle s o) :
    Invariant {s with
      heap := s.heap.removeMember o name
      stack := .free v.refs :: s.stack} [] ∧ Later s.heap (s.heap.removeMember o name) := by
  have hacc := hi.accounts.removeMember hv
  have hd := removeMember_field (·.destroyed) (fun _ _ => rfl) s.heap o name
  have hmark := removeMember_field (·.mark) (fun _ _ => rfl) s.heap o name
  refine ⟨⟨hacc.push rfl rfl nofun, ?_⟩, .same rfl hd hmark⟩
  refine (hi.collecting.removeMember hnot (hi.not_todo hidle) name).pushFree fun x hx hsched => ?_
  obtain ⟨m, hm, hmv⟩ := Option.map_eq_some_iff.mp hv
  have hedge : Edge (links s.heap) o x :=
    edge_iff.mpr ⟨m, List.mem_of_find?_eq_some hm, hmv ▸ hx⟩
  unfold Scheduled at hsched
  rw [hd, hmark] at hsched
  rw [hmark]
  exact hi.mark_of_edge hidle hedge hsched

/-- An object that is finalized is still there. -/
theorem Invariant.finalizing (hi : Invariant s rs) {c : Cause}
    (hf : .dtor o c ∈ s.stack ∨ .members o c ∈ s.stack) :
    o < s.heap.size ∧ (s.heap.obj o).freed = false ∧ ¬ Doomed s.heap o := by
  have hc := hi.accounts.counted
  cases c with
  | destroy =>
      have hmem : o ∈ s.stack.filterMap destroys := by
        rcases hf with hf | hf <;> exact List.mem_filterMap.mpr ⟨_, hf, rfl⟩
      obtain ⟨hlt, hnf⟩ :=
        Counted.lt_of_weak hc ((owed_of_destroys hmem).trans_le (le_pend _ rs _))
      refine ⟨hlt, hnf, fun hdoomed => ?_⟩
      cases (hi.accounts.destroying o hmem).symm.trans hdoomed.1
  | collect =>
      have hmem : o ∈ s.stack.filterMap collects := by
        rcases hf with hf | hf <;> exact List.mem_filterMap.mpr ⟨_, hf, rfl⟩
      have halive := hc.alive_of_held ((owed_of_collects hmem).trans_le (le_pend _ rs _))
      refine ⟨hc.lt_size halive, hc.not_freed halive, fun hdoomed => ?_⟩
      cases (hi.collecting.gray o hmem).symm.trans hdoomed.2

/-- The destructor and the member loop of an object run when the scans are done with it. -/
theorem Invariant.idle (hi : Invariant s rs) {c : Cause} {f : Frame} (hstack : s.stack = f :: K)
    (hf : f = .dtor o c ∨ f = .members o c) : Idle s o := by
  cases c with
  | destroy =>
      have hmem : o ∈ s.stack.filterMap destroys := by
        rw [hstack]
        rcases hf with rfl | rfl <;> exact List.mem_cons_self
      refine .inl fun hsched => ?_
      cases (hi.accounts.destroying o hmem).symm.trans hsched.1
  | collect => exact .inr ⟨f, K, hstack, hf⟩

theorem Invariant.removeMembers {c : Cause} (hi : Invariant s [])
    (hstack : s.stack = .members o c :: K) :
    ∃ s', Destruction.removeMembers o c K s = .ok s' ∧ Invariant s' [] ∧ Later s.heap s'.heap := by
  have htop : .dtor o c ∈ s.stack ∨ .members o c ∈ s.stack := .inr (hstack ▸ List.mem_cons_self)
  obtain ⟨-, hnf, hnot⟩ := hi.finalizing htop
  unfold Destruction.removeMembers
  simp only [bind, Except.bind]
  rw [Heap.deref_ok hnf]
  dsimp only
  cases hm : (s.heap.obj o).members with
  | cons m ms =>
      have hfree := hi.freeMember (diLookup_head hm) hnot (hi.idle hstack (.inr rfl))
      rw [hstack] at hfree
      exact ⟨_, rfl, hfree⟩
  | nil =>
      obtain ⟨hacc, hcol⟩ := hi
      rw [hstack] at hcol
      have hacc' : Accounts {s with stack := .members o c :: K} [] := hstack ▸ hacc
      cases c with
      | destroy =>
          obtain ⟨h', hrun, hacc'', hmarks, hsize, hmem, hd⟩ :=
            (hacc'.popDestroy hm).dropWeak
          have hrun' : diDecrementWeakRefCount o s.heap = .ok h' := hrun
          have hcol' : Collecting s.heap s.external K := by
            have htodo : ∀ y z, Todo (.members o .destroy :: K) y z ↔ Todo K y z :=
              fun y z => not_todo_cons fun _ _ => nofun
            refine hcol.setStack (show K.filterMap collects = _ from rfl) ?_ ?_ ?_ ?_
            · exact fun x hx => .inl (freeing_cons.mpr (.inr hx))
            · exact fun y z _ => (htodo y z).mp
            · exact fun y z => (htodo y z).mpr
            · exact fun hmem => (List.mem_cons.mp hmem).resolve_left nofun
          rw [hrun']
          exact ⟨_, rfl, ⟨hacc'', hcol'.same hmem hd hmarks⟩, .same hsize hd hmarks.mark⟩
      | collect =>
          have hi' : Invariant {s with stack := K} [.strong o] :=
            ⟨hacc'.pop rfl, hcol.finish hm⟩
          exact hi'.unref hnot

/-- `di_finalize_object_inner` starts for an object the collector holds. -/
theorem Invariant.collectPost (hi : Invariant s []) (hstack : s.stack = .scan o [] :: K) :
    ∃ s', Destruction.collectPost o K s = .ok s' ∧ Invariant s' [] ∧ Later s.heap s'.heap := by
  obtain ⟨hacc, hcol⟩ := hi
  rw [hstack] at hcol
  have hacc' : Accounts {s with stack := .scan o [] :: K} [] := hstack ▸ hacc
  have hthree : (s.heap.obj o).mark = 3 := hcol.gray o List.mem_cons_self
  have halive : (s.heap.obj o).destroyed = false := by
    apply hacc.counted.alive_of_held
    refine (owed_of_collects ?_).trans_le (le_pend _ [] _)
    rw [hstack]
    exact List.mem_cons_self
  have hc := hacc.counted
  obtain ⟨hsame, hmarks⟩ := callDtor_same o s.heap
  obtain ⟨f, hf, heq⟩ := startFinalize_eq o .collect {s with stack := K}
  unfold Destruction.collectPost
  simp only [bind, Except.bind]
  rw [Heap.deref_ok (hc.not_freed halive)]
  dsimp only
  rw [if_neg (by simp [hthree]), heq]
  have hpopped : Accounts {s with stack := K} [.strong o] := hacc'.pop rfl
  have hcalled : Accounts {s with heap := callDtor o s.heap, stack := K} ([Ref.strong o] ++ []) :=
    hpopped.same (R := s.external) hsame (hpopped.counted.callDtor (hc.lt_size halive))
  have hrefs : frameRefs f = [.strong o] := frameRefs_finalize hf
  have hdestroys : destroys f = none := by
    rcases hf with rfl | rfl <;> rfl
  refine ⟨_, rfl, ⟨hcalled.push hrefs hdestroys (ne_collect_of_finalize hf), ?_⟩,
    .same hsame.size hsame.destroyed hmarks.mark⟩
  have hframe : Collecting s.heap s.external (f :: K) := by
    refine hcol.finalizeFrame hf ?_ ?_ ?_ ?_
    · have hcollects : collects f = some o := by
        rcases hf with rfl | rfl <;> rfl
      rw [List.filterMap_cons_some hcollects]
      rfl
    · exact fun x hx => freeing_cons.mpr (.inr hx)
    · intro y z
      constructor
      · rintro ⟨zs, hmem, hz⟩
        rcases List.mem_cons.mp hmem with hscan | hmem
        · cases hscan
          exact absurd hz List.not_mem_nil
        · exact ⟨zs, hmem, hz⟩
      · exact fun ⟨zs, hmem, hz⟩ => ⟨zs, List.mem_cons_of_mem _ hmem, hz⟩
    · exact fun hmem => (List.mem_cons.mp hmem).resolve_left nofun
  exact hframe.same hsame.members hsame.destroyed hmarks

/-- Nothing is scheduled, so nothing is left to do. -/
theorem collecting_nil {R : Ref → ℕ} (hnone : ∀ x, ¬ Scheduled h x) (hiso : h.isolated = [])
    (hclean : ∀ x, (h.obj x).destroyed = false → (h.obj x).mark = 0 → (h.obj x).refCountScan = 0) :
    Collecting h R [] where
  quiet _ := ⟨hiso, hnone⟩
  clean := hclean
  gray _ hx := absurd hx List.not_mem_nil
  once := List.nodup_nil
  external x hx := absurd hx (hnone x)
  holders x _ hx := absurd hx (hnone x)
  freeing x hx := absurd hx (hnone x)
  scanned _ z _ _ hz := absurd (scheduled_of_doomed hz) (hnone z)
  todo _ _ hyz := absurd hyz.choose_spec.1 List.not_mem_nil
  black y hy hthree := absurd ⟨hy, .inr hthree⟩ (hnone y)
  white x hx := absurd (scheduled_of_doomed hx) (hnone x)

/-- The first two passes find the heap as they expect it, and schedule objects. -/
theorem Invariant.markAndScan (hi : Invariant s []) (hstack : s.stack = [.collect])
    (hiso : s.heap.isolated = []) (hhead : s.heap.headInit = true) :
    ∃ h, Destruction.markAndScan s.heap = .ok h ∧ Invariant {s with heap := h} [] ∧
      Later s.heap h := by
  obtain ⟨hacc, hcol⟩ := hi
  have howed : owed s = s.external := by
    unfold owed
    rw [hstack]
    rfl
  have hc : Counted s.heap s.external := howed ▸ hacc.counted
  rw [hstack] at hcol
  have hnone := hcol.none_scheduled hiso hc
  have hmarks : ∀ o, (s.heap.obj o).destroyed = false →
      (s.heap.obj o).mark = 0 ∧ (s.heap.obj o).refCountScan = 0 := by
    intro o ho
    have hcalm := hc.calm o
    simp only [calmMark, Bool.or_eq_true, beq_iff_eq] at hcalm
    rcases hcalm with (hz | htwo) | hthree
    · exact ⟨hz, hcol.clean o ho hz⟩
    · exact absurd ⟨ho, .inl htwo⟩ (hnone o)
    · exact absurd ⟨ho, .inr hthree⟩ (hnone o)
  have hfinished : ∀ o, (s.heap.obj o).destroyed = true → (s.heap.obj o).members = [] := by
    intro o ho
    have hfin := hacc.finished o ho
    rw [hstack] at hfin
    exact hfin.resolve_right List.not_mem_nil
  have hC : Collectable s.heap s.external :=
    ⟨hc, hacc.visible, hfinished, hmarks, hiso, hhead⟩
  have hfuel : 2 * s.heap.size < collectionFuel s.heap := by
    unfold collectionFuel
    omega
  have hlen : s.heap.unreferred.length < collectionFuel s.heap := by
    have hle := length_unreferred_le hc
    unfold collectionFuel
    omega
  obtain ⟨h₁, h₂, h₃, hrun₁, hrun₂, hrun₃, hD⟩ :=
    condemned_spec hC hfuel hlen
  have hd := hD.shape.destroyed
  have hsame : SameTables s.heap h₃ :=
    ⟨hD.shape.size, hD.shape.members, hd, fun o => by rw [hD.shape.obj o],
      fun o => by rw [hD.shape.log]⟩
  refine ⟨h₃, ?_, ⟨?_, ?_⟩, hD.shape.size.ge, fun x _ hx => ?_⟩
  · unfold Destruction.markAndScan
    simp only [bind, Except.bind, hrun₁, hrun₂]
    exact hrun₃
  · refine hacc.same (R := s.external) hsame ?_
    rw [hstack]
    exact CollectorFinalize.Condemned.counted hC hD
  · change Collecting h₃ s.external s.stack
    rw [hstack]
    exact Condemned.collecting hD
  · refine .inl ((hd x).trans ?_)
    rcases hx with hx | hx
    · exact hx
    · rw [← Bool.not_eq_false]
      exact fun hlive => hnone x ⟨hlive, hx⟩

theorem Invariant.collectLoop (hi : Invariant s []) (hstack : s.stack = .collect :: K) :
    (∃ s', Destruction.collectLoop K s = .ok s' ∧ Invariant s' [] ∧ Later s.heap s'.heap) ∨
      Destruction.collectLoop K s = .error .nullListHead := by
  have hK : K = [] := hi.accounts.bottom [] K hstack
  rw [hK] at hstack ⊢
  unfold Destruction.collectLoop
  cases hiso : s.heap.isolated with
  | cons i is =>
      have hlive := hi.accounts.counted.listed i
        (List.mem_append_right _ (hiso ▸ List.mem_cons_self))
      exact .inl (hi.visit (K := s.stack) hlive rfl rfl hi.accounts.bottom rfl (fun _ => id)
        (fun _ _ _ => id) (fun _ _ => id) id)
  | nil =>
      dsimp only
      split_ifs with hhead hunref
      · exact .inr rfl
      · refine .inl ⟨_, rfl, ⟨?_, ?_⟩, .refl _⟩
        · have hacc : Accounts {s with stack := [.collect]} [] := hstack ▸ hi.accounts
          exact hacc.pop rfl
        · obtain ⟨hacc, hcol⟩ := hi
          have hc := hacc.counted
          unfold owed at hc
          rw [hstack] at hcol hc
          exact collecting_nil (hcol.none_scheduled hiso hc) hiso hcol.clean
      · obtain ⟨h, hrun, hinv, hlater⟩ := hi.markAndScan hstack hiso (by simpa using hhead)
        simp only [bind, Except.bind, hrun]
        exact .inl ⟨_, rfl, hinv, hlater⟩

/-- A call that releases references takes the next one in hand. -/
theorem Invariant.nextRef {r : Ref} (hi : Invariant s []) (hstack : s.stack = .free (r :: rs) :: K) :
    Invariant {s with stack := .free rs :: K} [r] ∧
      ∀ o, r = .strong o → ¬ Doomed s.heap o := by
  obtain ⟨hacc, hcol⟩ := hi
  have hbottom : Bottom (.free rs :: K) := (hstack ▸ hacc.bottom).tail.push nofun
  have hdestroys : (Frame.free rs :: K).filterMap destroys = s.stack.filterMap destroys := by
    rw [hstack]
    rfl
  rw [hstack] at hcol
  have hfreeing : ∀ x, .strong x ∈ r :: rs → Scheduled s.heap x → (s.heap.obj x).mark = 3 :=
    fun x hx hsched => hcol.freeing x hsched ⟨_, List.mem_cons_self, hx⟩
  refine ⟨⟨hacc.hand ?_ hdestroys hbottom, ?_⟩, fun o ho hdoomed => ?_⟩
  · unfold owed
    rw [hstack]
    funext q
    simp only [pend, List.flatMap_cons, frameRefs, List.count_append, List.count_cons, List.count_nil]
    omega
  · exact hcol.popFree.pushFree fun x hx => hfreeing x (List.mem_cons_of_mem r hx)
  · have hthree := hfreeing o (ho ▸ List.mem_cons_self) (scheduled_of_doomed hdoomed)
    cases hdoomed.2.symm.trans hthree

/-- The scan of an object comes to the next one it refers to. -/
theorem Invariant.nextVisit {z : ObjRef} {zs : List ObjRef} (hi : Invariant s [])
    (hstack : s.stack = .scan o (z :: zs) :: K) :
    ∃ s', Destruction.visit z {s with stack := .scan o zs :: K} = .ok s' ∧ Invariant s' [] ∧
      Later s.heap s'.heap := by
  have hmem : Frame.scan o (z :: zs) ∈ s.stack := hstack ▸ List.mem_cons_self
  have hedge := hi.collecting.todo o z ⟨_, hmem, List.mem_cons_self⟩
  have hlive := hi.accounts.counted.alive_of_edge hedge
  have hbottom : Bottom (.scan o zs :: K) := (hstack ▸ hi.accounts.bottom).tail.push nofun
  refine hi.visit (K := s.stack) hlive ?_ ?_ hbottom ?_ ?_ ?_ ?_ ?_
  · rw [hstack]
    rfl
  · rw [hstack]
    rfl
  · rw [hstack]
    rfl
  · intro x hx
    rw [hstack, freeing_cons]
    rcases freeing_cons.mp hx with ⟨rs, heq, -⟩ | hx
    · cases heq
    · exact .inr hx
  · rintro y x hxz ⟨l, hl, hx⟩
    rw [hstack] at hl
    rcases List.mem_cons.mp hl with heq | hl
    · cases heq
      exact ⟨zs, List.mem_cons_self, (List.mem_cons.mp hx).resolve_left hxz⟩
    · exact ⟨l, List.mem_cons_of_mem _ hl, hx⟩
  · rintro y x ⟨l, hl, hx⟩
    rw [hstack]
    rcases List.mem_cons.mp hl with heq | hl
    · cases heq
      exact ⟨_, List.mem_cons_self, List.mem_cons_of_mem _ hx⟩
    · exact ⟨l, List.mem_cons_of_mem _ hl, hx⟩
  · intro hcollect
    rw [hstack] at hcollect
    exact List.mem_cons_of_mem _ ((List.mem_cons.mp hcollect).resolve_left nofun)

/-- The call on the top goes on, and fails nowhere, unless a collection starts before anything
was ever released. -/
theorem Invariant.resume (hi : Invariant s []) {r : Except Fault State}
    (hr : Destruction.resume s = some r) :
    (∃ s', r = .ok s' ∧ Invariant s' [] ∧ Later s.heap s'.heap) ∨ r = .error .nullListHead := by
  unfold Destruction.resume at hr
  split at hr
  · cases hr
  · cases hr
  · rename_i K hstack
    cases hr
    obtain ⟨hacc, hcol⟩ := hi
    rw [hstack] at hcol
    have hacc' : Accounts {s with stack := .free [] :: K} [] := hstack ▸ hacc
    exact .inl ⟨_, rfl, ⟨hacc'.pop rfl, hcol.popFree⟩, .refl _⟩
  · rename_i o rs K hstack
    cases hr
    obtain ⟨hi', hnot⟩ := hi.nextRef hstack
    exact .inl (hi'.unref (hnot o rfl))
  · rename_i o rs K hstack
    cases hr
    obtain ⟨⟨hacc, hcol⟩, -⟩ := hi.nextRef hstack
    obtain ⟨h', hrun, hacc', hmarks, hsize, hm, hd⟩ := hacc.dropWeak
    have hrun' : diDropWeakRef o s.heap = .ok h' := hrun
    rw [hrun']
    exact .inl ⟨_, rfl, ⟨hacc', hcol.same hm hd hmarks⟩, .same hsize hd hmarks.mark⟩
  · rename_i o c K hstack
    cases hr
    exact .inl (hi.removeMembers hstack)
  · rename_i o K hstack
    cases hr
    exact .inl (hi.collectPost hstack)
  · rename_i o z zs K hstack
    cases hr
    exact .inl (hi.nextVisit hstack)
  · rename_i K hstack
    cases hr
    exact hi.collectLoop hstack

/-! ## User code -/

theorem not_scheduled_of_available (ho : Available h o) : ¬ Scheduled h o := by
  rintro ⟨-, hm | hm⟩
  · exact ho.2.2.1 hm
  · exact ho.2.2.2 hm

theorem Invariant.not_scheduled (hi : Invariant s rs) (ho : 0 < s.external (.strong o)) :
    ¬ Scheduled s.heap o := by
  intro hsched
  rw [hi.collecting.external o hsched] at ho
  cases ho

/-- User code gets the references. -/
theorem Invariant.take {qs : List Ref} (hi : Invariant s (rs ++ qs))
    (hrs : ∀ x, .strong x ∈ rs → ¬ Scheduled s.heap x) :
    Invariant {s with external := pend s.external rs} qs := by
  refine ⟨hi.accounts.hand ?_ rfl hi.accounts.bottom, hi.collecting.setExternal fun x hx => ?_⟩
  · unfold owed
    rw [pend_append, pend_comm s.external, pend_comm _ rs]
  · have hcount : rs.count (.strong x) = 0 :=
      List.count_eq_zero.mpr fun hmem => hrs x hmem hx
    simp only [pend, hcount, hi.collecting.external x hx]

/-- User code gives the references up. -/
theorem Invariant.give {R : Ref → ℕ} (hi : Invariant s []) (hR : s.external = pend R rs) :
    Invariant {s with external := R} rs ∧ ∀ x, .strong x ∈ rs → ¬ Scheduled s.heap x := by
  have hheld : ∀ x, .strong x ∈ rs → ¬ Scheduled s.heap x := by
    intro x hx
    apply hi.not_scheduled
    rw [hR]
    have hpos := List.count_pos_iff.mpr hx
    simp only [pend]
    omega
  refine ⟨⟨hi.accounts.hand ?_ rfl hi.accounts.bottom, hi.collecting.setExternal fun x hx => ?_⟩,
    hheld⟩
  · unfold owed
    rw [hR, pend_nil, pend_comm]
  · have hzero := hi.collecting.external x hx
    rw [hR] at hzero
    simp only [pend] at hzero
    change R (.strong x) = 0
    omega

theorem Invariant.editable (hi : Invariant s rs) (ho : Editable s o) :
    o < s.heap.size ∧ ¬ Doomed s.heap o ∧ Idle s o ∧
      ((s.heap.obj o).destroyed = true → o ∈ s.stack.filterMap destroys) ∧
      (Scheduled s.heap o → o ∈ s.stack.filterMap collects) := by
  rcases ho with ho | ⟨c, K, hstack⟩
  · have hnot := not_scheduled_of_available ho
    refine ⟨hi.accounts.counted.lt_size ho.2.1, fun hd => hnot (scheduled_of_doomed hd), .inl hnot,
      fun hd => ?_, fun hs => absurd hs hnot⟩
    cases ho.2.1.symm.trans hd
  · have hmem : .dtor o c ∈ s.stack := hstack ▸ List.mem_cons_self
    obtain ⟨hlt, -, hnot⟩ := hi.finalizing (.inl hmem)
    refine ⟨hlt, hnot, hi.idle hstack (.inl rfl), ?_⟩
    cases c with
    | destroy =>
        have hdes : o ∈ s.stack.filterMap destroys := List.mem_filterMap.mpr ⟨_, hmem, rfl⟩
        refine ⟨fun _ => hdes, fun hs => ?_⟩
        cases (hi.accounts.destroying o hdes).symm.trans hs.1
    | collect =>
        have hgray : o ∈ s.stack.filterMap collects := List.mem_filterMap.mpr ⟨_, hmem, rfl⟩
        refine ⟨fun hd => ?_, fun _ => hgray⟩
        have halive := hi.accounts.counted.alive_of_held
          ((owed_of_collects hgray).trans_le (le_pend _ rs _))
        cases halive.symm.trans hd

/-- One more strong reference, for user code. -/
theorem Invariant.ref (hi : Invariant s []) (ho : Available s.heap o) :
    Invariant {s with
      heap := s.heap.modify o fun x => {x with refCount := x.refCount + 1}
      external := pend s.external [.strong o]} [] ∧
    Later s.heap (s.heap.modify o fun x => {x with refCount := x.refCount + 1}) := by
  set h' := s.heap.modify o fun x => {x with refCount := x.refCount + 1} with hh'
  have hsame : SameTables s.heap h' := .modify _ _ (fun _ => rfl) (fun _ => rfl) fun _ => rfl
  have hmarks : SameMarks s.heap h' :=
    ⟨s.heap.modify_same (·.mark) o rfl, s.heap.modify_same (·.refCountScan) o rfl, rfl⟩
  have hi' : Invariant {s with heap := h'} ([Ref.strong o] ++ []) :=
    ⟨hi.accounts.same (R := s.external) hsame (hi.accounts.counted.incRef ho.2.1),
      hi.collecting.same hsame.members hsame.destroyed hmarks⟩
  refine ⟨hi'.take fun x hx hsched => ?_, .same rfl hsame.destroyed hmarks.mark⟩
  cases List.mem_singleton.mp hx
  unfold Scheduled at hsched
  rw [hsame.destroyed, hmarks.mark] at hsched
  exact not_scheduled_of_available ho hsched

theorem removeMemberRaw_ok {name : Name} {v : DiValue}
    (hrun : diRemoveMemberRaw o name h = .ok (v, h')) :
    ∃ n, diLookup o n h = some v ∧ h' = h.removeMember o n := by
  unfold diRemoveMemberRaw at hrun
  split at hrun
  · cases hrun
  · split at hrun
    · cases hrun
    · rename_i hv
      cases hrun
      exact ⟨_, hv, rfl⟩

theorem Invariant.newObject (hi : Invariant s []) :
    Invariant {s with
      heap := (diNewObject s.heap).2
      external := pend s.external [.strong s.heap.size]} [] ∧
    Later s.heap (diNewObject s.heap).2 := by
  have hc := hi.accounts.counted
  have hi' : Invariant {s with heap := (diNewObject s.heap).2} ([Ref.strong s.heap.size] ++ []) :=
    ⟨hi.accounts.newObject, hi.collecting.newObject (hc.unallocated s.heap.size le_rfl)⟩
  refine ⟨hi'.take fun x hx hsched => ?_, Nat.le_succ _, fun x hlt hx => ?_⟩
  · cases List.mem_singleton.mp hx
    have hmark := hsched.2
    rw [diNewObject_self] at hmark
    simp at hmark
  · unfold Gone at hx ⊢
    rwa [diNewObject_ne s.heap (Nat.ne_of_lt hlt)]

/-- An object gets a destructor. -/
theorem Invariant.setDtor (hi : Invariant s []) (hlt : o < s.heap.size) :
    Invariant {s with heap := s.heap.modify o fun x => {x with dtor := true}} [] ∧
    Later s.heap (s.heap.modify o fun x => {x with dtor := true}) := by
  set h' := s.heap.modify o fun x => {x with dtor := true} with hh'
  have hsame : SameTables s.heap h' := .modify _ _ (fun _ => rfl) (fun _ => rfl) fun _ => rfl
  have hmarks : SameMarks s.heap h' :=
    ⟨s.heap.modify_same (·.mark) o rfl, s.heap.modify_same (·.refCountScan) o rfl, rfl⟩
  exact ⟨⟨hi.accounts.same (R := s.external) hsame (hi.accounts.counted.setDtor hlt true),
    hi.collecting.same hsame.members hsame.destroyed hmarks⟩, .same rfl hsame.destroyed hmarks.mark⟩

/-- One more weak reference, for user code. -/
theorem Invariant.weaklyRef (hi : Invariant s []) (ho : (s.heap.obj o).freed = false) :
    Invariant {s with
      heap := s.heap.modify o fun x => {x with weakRefCount := x.weakRefCount + 1}
      external := pend s.external [.weak o]} [] ∧
    Later s.heap (s.heap.modify o fun x => {x with weakRefCount := x.weakRefCount + 1}) := by
  set h' := s.heap.modify o fun x => {x with weakRefCount := x.weakRefCount + 1} with hh'
  have hsame : SameTables s.heap h' := .modify _ _ (fun _ => rfl) (fun _ => rfl) fun _ => rfl
  have hmarks : SameMarks s.heap h' :=
    ⟨s.heap.modify_same (·.mark) o rfl, s.heap.modify_same (·.refCountScan) o rfl, rfl⟩
  have hi' : Invariant {s with heap := h'} ([Ref.weak o] ++ []) :=
    ⟨hi.accounts.same (R := s.external) hsame (hi.accounts.counted.incWeak ho),
      hi.collecting.same hsame.members hsame.destroyed hmarks⟩
  refine ⟨hi'.take fun x hx => ?_, .same rfl hsame.destroyed hmarks.mark⟩
  cases List.mem_singleton.mp hx

theorem Invariant.addMember {name : String} {v : DiValue} (hi : Invariant s v.refs)
    (ho : Editable s o) (hv : ∀ x, .strong x ∈ v.refs → ¬ Scheduled s.heap x) (hvis : v.Visible) :
    Invariant {s with heap := s.heap.insertMember o name v} [] ∧
    Later s.heap (s.heap.insertMember o name v) := by
  obtain ⟨hlt, hnot, hidle, hdestroys, hcollects⟩ := hi.editable ho
  have hacc : Accounts s (v.refs ++ []) := by
    rw [List.append_nil]
    exact hi.accounts
  refine ⟨⟨hacc.insertMember hlt hdestroys hvis,
    hi.collecting.insertMember hnot (hi.not_todo hidle) name hv hcollects⟩, .same rfl ?_ ?_⟩
  · exact s.heap.modify_same (·.destroyed) o rfl
  · exact s.heap.modify_same (·.mark) o rfl

/-- A value that cannot be stored is released. -/
theorem Invariant.freeValue {v : DiValue} (hi : Invariant s v.refs)
    (hv : ∀ x, .strong x ∈ v.refs → ¬ Scheduled s.heap x) :
    Invariant {s with stack := .free v.refs :: s.stack} [] := by
  have hacc : Accounts s (v.refs ++ []) := by
    rw [List.append_nil]
    exact hi.accounts
  exact ⟨hacc.push rfl rfl nofun, hi.collecting.pushFree fun x hx hsched => absurd hsched (hv x hx)⟩

/-- User code takes the value of a member over. -/
theorem Invariant.removeMember {name : String} {v : DiValue} (hi : Invariant s [])
    (ho : Editable s o) (hv : ∀ x, .strong x ∈ v.refs → Available s.heap x)
    (hlookup : diLookup o name s.heap = some v) :
    Invariant {s with
      heap := s.heap.removeMember o name
      external := pend s.external v.refs} [] ∧
    Later s.heap (s.heap.removeMember o name) := by
  obtain ⟨-, hnot, hidle, -, -⟩ := hi.editable ho
  have hd := removeMember_field (·.destroyed) (fun _ _ => rfl) s.heap o name
  have hmark := removeMember_field (·.mark) (fun _ _ => rfl) s.heap o name
  have hi' : Invariant {s with heap := s.heap.removeMember o name} (v.refs ++ []) :=
    ⟨hi.accounts.removeMember hlookup,
      hi.collecting.removeMember hnot (hi.not_todo hidle) name⟩
  refine ⟨hi'.take fun x hx hsched => ?_, .same rfl hd hmark⟩
  unfold Scheduled at hsched
  rw [hd, hmark] at hsched
  exact not_scheduled_of_available (hv x hx) hsched

theorem Invariant.startCollect (hi : Invariant s []) (hstack : s.stack = []) :
    Invariant {s with stack := [.collect]} [] := by
  obtain ⟨hacc, hcol⟩ := hi
  refine ⟨hacc.hand ?_ ?_ ?_, ?_⟩
  · unfold owed
    rw [hstack]
    rfl
  · rw [hstack]
    rfl
  · intro fs K' heq
    cases fs with
    | nil =>
        injection heq with _ heq
        exact heq.symm
    | cons f fs =>
        injection heq with _ heq
        cases fs <;> cases heq
  · rw [hstack] at hcol
    refine hcol.setStack (show [Frame.collect].filterMap collects = _ from rfl) ?_ ?_ ?_ ?_
    · rintro x ⟨rs, hmem, -⟩
      cases List.mem_singleton.mp hmem
    · rintro y z - ⟨zs, hmem, -⟩
      exact absurd hmem List.not_mem_nil
    · exact fun y z hyz => absurd hyz todo_collect
    · exact fun hmem => absurd hmem List.not_mem_nil

theorem Invariant.dtorEnd {c : Cause} (hi : Invariant s []) (hstack : s.stack = .dtor o c :: K) :
    Invariant {s with stack := .members o c :: K} [] := by
  obtain ⟨hacc, hcol⟩ := hi
  have hbottom : Bottom (.members o c :: K) := (hstack ▸ hacc.bottom).tail.push nofun
  rw [hstack] at hcol
  have htodo : ∀ y z, Todo (.dtor o c :: K) y z ↔ Todo K y z :=
    fun y z => not_todo_cons fun _ _ => nofun
  refine ⟨hacc.hand ?_ ?_ hbottom, hcol.finalizeFrame (.inr rfl) ?_ ?_ htodo ?_⟩
  · unfold owed
    rw [hstack]
    cases c <;> rfl
  · rw [hstack]
    cases c <;> rfl
  · cases c <;> rfl
  · exact fun x hx => freeing_cons.mpr (.inr hx)
  · exact fun hmem => (List.mem_cons.mp hmem).resolve_left nofun

theorem Invariant.move {s' : State} (hi : Invariant s []) (hmove : Move s s') :
    Invariant s' [] ∧ Later s.heap s'.heap := by
  have hc := hi.accounts.counted
  cases hmove with
  | newObject hturn => exact hi.newObject
  | setDtor o hturn ho => exact hi.setDtor (hi.editable ho).1
  | refObject o h hturn ho hrun =>
      rw [diRefObject_eq (hc.not_freed ho.2.1)] at hrun
      cases hrun
      exact hi.ref ho
  | unrefObject o R s' hturn hR hrun =>
      obtain ⟨hi', hnot⟩ := hi.give hR
      obtain ⟨s'', hrun', hres⟩ :=
        hi'.unref fun hd => hnot o List.mem_cons_self (scheduled_of_doomed hd)
      cases hrun.symm.trans hrun'
      exact hres
  | weaklyRefObject o h hturn ho hrun =>
      rw [diWeaklyRefObject_eq ho] at hrun
      cases hrun
      exact hi.weaklyRef ho
  | dropWeakRef o R h hturn hR hrun =>
      obtain ⟨⟨hacc, hcol⟩, -⟩ := hi.give hR
      obtain ⟨h', hrun', hacc', hmarks, hsize, hm, hd⟩ := hacc.dropWeak
      cases hrun.symm.trans hrun'
      exact ⟨⟨hacc', hcol.same hm hd hmarks⟩, .same hsize hd hmarks.mark⟩
  | upgradeWeakRef o p h hturn ho hrun =>
      have hpos : 0 < pend (owed s) [] (.weak o) := by
        simp only [owed, pend]
        omega
      rw [diUpgradeWeakRef_eq (Counted.lt_of_weak hc hpos).2 (hc.calm o)] at hrun
      split_ifs at hrun with havail
      · cases hrun
        exact hi.ref havail
      · cases hrun
        have hnone : Invariant s ([] ++ []) := hi
        exact ⟨hnone.take fun x hx => absurd hx List.not_mem_nil, .refl _⟩
  | addMember o name v R hturn ho hR hvis hnew =>
      obtain ⟨hi', hnot⟩ := hi.give hR
      exact hi'.addMember ho hnot hvis
  | addMemberTaken o name v R hturn ho hR htaken =>
      obtain ⟨hi', hnot⟩ := hi.give hR
      exact ⟨hi'.freeValue hnot, .refl _⟩
  | deleteMember o name v h hturn ho hrun =>
      obtain ⟨n, hv, rfl⟩ := removeMemberRaw_ok hrun
      obtain ⟨-, hnot, hidle, -⟩ := hi.editable ho
      exact hi.freeMember hv hnot hidle
  | removeMember o name v h hturn ho hv hrun =>
      obtain ⟨n, hlookup, rfl⟩ := removeMemberRaw_ok hrun
      exact hi.removeMember ho hv hlookup
  | collectGarbage hstack => exact ⟨hi.startCollect hstack, .refl _⟩
  | dtorEnd o c K hstack => exact ⟨hi.dtorEnd hstack, .refl _⟩
  | resume s' hrun =>
      rcases hi.resume hrun with ⟨s'', hok, hres⟩ | herror
      · cases hok
        exact hres
      · cases herror

theorem run_invariant {s' : State} (hi : Invariant s []) (hrun : ReflTransGen Move s s') :
    Invariant s' [] ∧ Later s.heap s'.heap := by
  induction hrun with
  | refl => exact ⟨hi, .refl _⟩
  | tail _ hmove ih =>
      obtain ⟨hi', hlater'⟩ := ih.1.move hmove
      refine ⟨hi', ih.2.size.trans hlater'.size, fun x hx hgone => ?_⟩
      exact hlater'.gone x (Nat.lt_of_lt_of_le hx ih.2.size) (ih.2.gone x hx hgone)

end

/-! ## Every run -/

/-- The references of a value that is being released. -/
def valueRefs : Frame → List Ref
  | .free rs => rs
  | _ => []

/-- The number of weak references to the object: those of user code, those in members, and those
in values that are being released. -/
def outstanding (s : State) (o : ObjRef) : ℕ :=
  s.external (.weak o) + held s.heap (.weak o) + (s.stack.flatMap valueRefs).count (.weak o)

/-- The destruction of the object has finished. -/
def Finished (s : State) (o : ObjRef) : Prop :=
  (s.heap.obj o).destroyed = true ∧ o ∉ s.stack.filterMap destroys

instance decidableFinished (s : State) (o : ObjRef) : Decidable (Finished s o) :=
  inferInstanceAs (Decidable (_ ∧ _))

theorem count_frameRef (f : Frame) (o : ObjRef) :
    (frameRefs f).count (.weak o) =
      (valueRefs f).count (.weak o) + (destroys f).toList.count o := by
  cases f with
  | free rs => rfl
  | dtor p c => cases c <;> simp [frameRefs, valueRefs, destroys, List.count_cons]
  | members p c => cases c <;> simp [frameRefs, valueRefs, destroys, List.count_cons]
  | scan p zs => simp [frameRefs, valueRefs, destroys]
  | collect => rfl

theorem count_frameRefs (K : List Frame) (o : ObjRef) :
    (K.flatMap frameRefs).count (.weak o) =
      (K.flatMap valueRefs).count (.weak o) + (K.filterMap destroys).count o := by
  induction K with
  | nil => rfl
  | cons f K ih =>
      have hhead : (f :: K).filterMap destroys = (destroys f).toList ++ K.filterMap destroys := by
        cases hf : destroys f <;> simp [hf]
      rw [List.flatMap_cons, List.flatMap_cons, hhead, List.count_append, List.count_append,
        List.count_append, ih, count_frameRef f o]
      omega

theorem Invariant.weakRefCount {s : State} (hi : Invariant s []) (o : ObjRef) :
    (s.heap.obj o).weakRefCount = outstanding s o + if Finished s o then 0 else 1 := by
  have hw := hi.accounts.counted.weak o
  have hcount := count_frameRefs s.stack o
  rw [pend_nil] at hw
  unfold owed pend at hw
  unfold outstanding
  by_cases hmem : o ∈ s.stack.filterMap destroys
  · have hone := List.count_eq_one_of_mem hi.accounts.once hmem
    rw [hi.accounts.destroying o hmem, if_pos rfl] at hw
    rw [if_neg fun hfin : Finished s o => hfin.2 hmem]
    omega
  · have hzero := List.count_eq_zero.mpr hmem
    cases hd : (s.heap.obj o).destroyed with
    | true =>
        rw [hd, if_pos rfl] at hw
        rw [if_pos ⟨hd, hmem⟩]
        omega
    | false =>
        rw [hd, if_neg Bool.false_ne_true] at hw
        rw [if_neg fun hfin : Finished s o => Bool.false_ne_true (hd.symm.trans hfin.1)]
        omega

theorem invariant_init : Invariant {} [] := by
  have hempty := Settled.empty
  refine ⟨⟨hempty.counted, hempty.visible, ?_, ?_, List.nodup_nil, ?_, ?_⟩, ?_⟩
  · exact fun o _ => .inl rfl
  · exact fun o ho => absurd ho List.not_mem_nil
  · exact fun o => rfl
  · intro fs K heq
    cases fs <;> cases heq
  · exact collecting_nil (fun x hx => by cases hx.1) rfl fun x hx => by cases hx

theorem gone_iff {s : State} (hi : Invariant s []) (o : ObjRef) :
    ¬ Available s.heap o ↔ Gone s.heap o := by
  unfold Available Gone
  cases hd : (s.heap.obj o).destroyed with
  | true => simp
  | false =>
      have hpos := hi.accounts.counted.alive o hd
      simp only [hpos, true_and, Bool.false_eq_true, false_or]
      tauto

/-- A new object with a destructor. -/
def armed : State where
  heap := (diNewObject {}).2.modify 0 fun x => {x with dtor := true}
  external := pend (fun _ => 0) [.strong 0]

/-- User code has a strong and a weak reference to it. -/
def watched : State where
  heap := armed.heap.modify 0 fun x => {x with weakRefCount := x.weakRefCount + 1}
  external := pend armed.external [.weak 0]

/-- The strong reference is gone, and the destructor is running. -/
def dying : State where
  heap := callDtor 0 ((((watched.heap.modify 0 fun x =>
    {x with refCount := x.refCount - 1}).listDelInit 0).modify 0 fun x =>
      {x with destroyed := true}).record (.destroy 0))
  external := pend (fun _ => 0) [.weak 0]
  stack := [.dtor 0 .destroy]

/-- The destructor makes another weak reference to the object. -/
def clutching : State :=
  {dying with
    heap := dying.heap.modify 0 fun x => {x with weakRefCount := x.weakRefCount + 1}
    external := pend dying.external [.weak 0]}

end Deai.WeakReferences
