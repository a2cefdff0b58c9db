import Deai.CollectorScan
import Deai.Release

/-!
# Third pass: finalizing the garbage

The pass walks the doomed objects depth first. An object is white until the
walk meets it, gray while the walk is below it, and black once its post hook has
run. Each gray object is held by one extra reference, so `Γ`, the gray stack,
stands for references owed. Black objects have no members left, and what they
referred to is not white any more: this is why the last reference to a root
goes away when the walk from it ends.
-/
namespace Deai.CollectorFinalize
open Value ObjectHeap TrialDeletion Accounting Release Collector CollectorMark CollectorScan
open Relation

/-- The references that the gray stack stands for. -/
def grayRefs (Γ : List ObjRef) : List Ref := Γ.map .strong

theorem pend_gray_cons (R : Ref → ℕ) (x : ObjRef) (Γ : List ObjRef) :
    pend R (grayRefs (x :: Γ)) = pend (pend R (grayRefs Γ)) [.strong x] :=
  pend_append R [.strong x] (grayRefs Γ)

/-- The heap `h` in the middle of the third pass, which started from `a`. -/
structure FinInv (a : Heap) (R : Ref → ℕ) (Γ : List ObjRef) (h : Heap) : Prop where
  counted : Counted h (pend R (grayRefs Γ))
  size : h.size = a.size
  keep : ∀ x, ¬ Doomed a x → (h.obj x).members = (a.obj x).members ∧
    (h.obj x).dtor = (a.obj x).dtor ∧ (h.obj x).destroyed = (a.obj x).destroyed ∧
    (h.obj x).mark = (a.obj x).mark ∧ (h.obj x).refCountScan = (a.obj x).refCountScan
  white : ∀ x, Doomed a x → (h.obj x).mark ≠ 3 →
    (h.obj x).mark = 2 ∧ (h.obj x).destroyed = false ∧ (h.obj x).members = (a.obj x).members
  gray : ∀ x ∈ Γ, Doomed a x ∧ (h.obj x).mark = 3 ∧ (h.obj x).destroyed = false ∧
    (h.obj x).members = (a.obj x).members
  black : ∀ x, Doomed a x → (h.obj x).mark = 3 → x ∉ Γ →
    (h.obj x).members = [] ∧ (h.obj x).dtor = false ∧
    ∀ z, Edge (links a) x z → Doomed a z → (h.obj z).mark = 3
  dtors : ∀ x, h.log.count (.dtor x) + (h.obj x).dtor.toNat =
    a.log.count (.dtor x) + (a.obj x).dtor.toNat
  destroys : ∀ x, h.log.count (.destroy x) + (a.obj x).destroyed.toNat =
    a.log.count (.destroy x) + (h.obj x).destroyed.toNat
  again : ∀ x, h.log.count (.destroyAgain x) = a.log.count (.destroyAgain x)
  sublist : h.isolated.Sublist a.isolated
  isolated : ∀ x ∈ a.isolated, (h.obj x).destroyed = false → x ∈ h.isolated
  unreferred : ∀ x ∈ h.unreferred, ¬ Doomed a x
  headInit : h.headInit = true

/-- Objects the walk has not met. -/
def whiteCount (h : Heap) : ℕ :=
  ((Finset.range h.size).filter fun x => (h.obj x).mark = 2).card

theorem whiteCount_le_size (h : Heap) : whiteCount h ≤ h.size := by
  have := Finset.card_filter_le (Finset.range h.size) fun x => (h.obj x).mark = 2
  rwa [Finset.card_range] at this

theorem FinInv.mark_two_or_three {a h : Heap} {R : Ref → ℕ} {Γ : List ObjRef}
    (hI : FinInv a R Γ h) {x : ObjRef} (hx : Doomed a x) :
    (h.obj x).mark = 2 ∨ (h.obj x).mark = 3 := by
  by_cases hm : (h.obj x).mark = 3
  · exact Or.inr hm
  · exact Or.inl (hI.white x hx hm).1

/-- The pre hook on a white object. -/
def enter (x : ObjRef) (h : Heap) : Heap :=
  (h.modify x fun y => {y with refCount := y.refCount + 1}).modify x fun y => {y with mark := 3}

theorem enter_mark (x : ObjRef) (h : Heap) (y : ObjRef) :
    ((enter x h).obj y).mark = if y = x then 3 else (h.obj y).mark := by
  unfold enter
  rw [Heap.modify_obj, Heap.modify_obj]
  split_ifs <;> rfl

theorem enter_field {β : Type} (g : DiObject → β)
    (hg : ∀ x k m, g {x with refCount := k, mark := m} = g x) (x : ObjRef) (h : Heap)
    (y : ObjRef) : g ((enter x h).obj y) = g (h.obj y) := by
  unfold enter
  rw [Heap.modify_obj, Heap.modify_obj]
  split_ifs
  · exact hg (h.obj y) _ _
  · rfl

theorem FinInv.enter {a h : Heap} {R : Ref → ℕ} {Γ : List ObjRef} {x : ObjRef}
    (hI : FinInv a R Γ h) (hx : Doomed a x) (hm : (h.obj x).mark ≠ 3) :
    FinInv a R (x :: Γ) (enter x h) := by
  obtain ⟨hm₂, hlive, hmem⟩ := hI.white x hx hm
  have hmk := enter_mark x h
  have hfm := enter_field (·.members) (fun _ _ _ => rfl) x h
  have hfd := enter_field (·.destroyed) (fun _ _ _ => rfl) x h
  have hft := enter_field (·.dtor) (fun _ _ _ => rfl) x h
  have hfs := enter_field (·.refCountScan) (fun _ _ _ => rfl) x h
  have hthree : ∀ y, (h.obj y).mark = 3 → ((CollectorFinalize.enter x h).obj y).mark = 3 := by
    intro y hy
    rw [hmk, hy, ite_self]
  refine ⟨?_, hI.size, ?_, ?_, ?_, ?_, ?_, ?_, hI.again, hI.sublist, ?_, hI.unreferred,
    hI.headInit⟩
  · have hc := hI.counted.incRef hlive
    rw [pend_gray_cons]
    refine hc.setMarks rfl (fun y => ?_) (fun y hy => ?_) hc.nodup (fun y hy => ?_) fun y => ?_
    · unfold CollectorFinalize.enter
      rw [Heap.modify_obj]
      split_ifs <;> rfl
    · refine Heap.modify_obj_ne _ _ ?_
      rintro rfl
      exact absurd (hI.counted.lt_size hlive) (Nat.not_lt.mpr hy)
    · exact hc.listed y hy
    · rw [hmk]
      split_ifs
      · rfl
      · exact hI.counted.calm y
  · intro y hy
    have hyx : y ≠ x := by
      rintro rfl
      exact hy hx
    rw [hfm, hft, hfd, hfs, hmk, if_neg hyx]
    exact hI.keep y hy
  · intro y hy hym
    rw [hmk] at hym ⊢
    rw [hfd, hfm]
    split_ifs at hym ⊢ with hyx
    · exact absurd rfl hym
    · exact hI.white y hy hym
  · intro y hy
    rw [hfd, hfm]
    rcases List.mem_cons.mp hy with rfl | hy
    · exact ⟨hx, by rw [hmk, if_pos rfl], hlive, hmem⟩
    · obtain ⟨h₁, h₂, h₃⟩ := hI.gray y hy
      exact ⟨h₁, hthree y h₂, h₃⟩
  · intro y hy hym hyΓ
    rw [List.mem_cons, not_or] at hyΓ
    rw [hmk, if_neg hyΓ.1] at hym
    obtain ⟨h₁, h₂, h₃⟩ := hI.black y hy hym hyΓ.2
    rw [hfm, hft]
    exact ⟨h₁, h₂, fun z he hz => hthree z (h₃ z he hz)⟩
  · intro y
    rw [hft]
    exact hI.dtors y
  · intro y
    rw [hfd]
    exact hI.destroys y
  · intro y hy hyd
    rw [hfd] at hyd
    exact hI.isolated y hy hyd

theorem whiteCount_enter {x : ℕ} {h : Heap} (hx : x < h.size) (hm : (h.obj x).mark = 2) :
    whiteCount (enter x h) < whiteCount h := by
  refine Finset.card_lt_card ⟨fun y hy => ?_, fun hcon => ?_⟩
  · rw [Finset.mem_filter, enter_mark] at hy
    rw [Finset.mem_filter]
    refine ⟨hy.1, ?_⟩
    have := hy.2
    split_ifs at this
    · omega
    · exact this
  · have hmem := hcon (Finset.mem_filter.mpr ⟨Finset.mem_range.mpr hx, hm⟩)
    rw [Finset.mem_filter, enter_mark, if_pos rfl] at hmem
    exact absurd hmem.2 (by decide)

theorem Condemned.links_eq {h₀ a : Heap} {R : Ref → ℕ} (hD : Condemned h₀ R a) :
    links a = links h₀ := funext fun y => links_congr (hD.shape.members y)

/-- What the release of the members of `x` must not touch. -/
def protectedSet (a : Heap) (Γ : List ObjRef) (h : Heap) : Set ObjRef :=
  {y | ¬ Doomed a y ∧ (a.obj y).destroyed = false ∨
    Doomed a y ∧ (h.obj y).mark ≠ 3 ∨ y ∈ Γ}

/-- Survivors hold each other, white objects are held by white or gray ones. -/
theorem FinInv.sustained {h₀ a h : Heap} {R : Ref → ℕ} {Γ : List ObjRef} {x : ObjRef}
    (hC : Collectable h₀ R) (hD : Condemned h₀ R a) (hI : FinInv a R (x :: Γ) h)
    (hsucc : ∀ z, Edge (links a) x z → Doomed a z → (h.obj z).mark = 3) :
    Sustained h (pend R (grayRefs Γ)) (protectedSet a Γ h) := by
  have hlinks : ∀ y, (h.obj y).members = (a.obj y).members → links h y = links a y :=
    fun y hy => links_congr hy
  rintro y (⟨hnd, hlive⟩ | ⟨hdy, hm⟩ | hy)
  · obtain ⟨-, -, hd, -⟩ := hI.keep y hnd
    refine ⟨hd.trans hlive, ?_⟩
    rw [hD.shape.destroyed] at hlive
    rcases hD.held y hlive hnd with hR | ⟨y', he, hnd'⟩
    · exact Or.inl (hR.trans_le (le_pend R _ _))
    · refine Or.inr ⟨y', Or.inl ⟨hnd', ?_⟩, ?_⟩
      · rw [hD.shape.destroyed, ← Bool.not_eq_true]
        exact fun hdead => hC.no_edge_of_destroyed hdead he
      · unfold Edge at he ⊢
        rwa [hlinks y' (hI.keep y' hnd').1, Condemned.links_eq hD]
  · obtain ⟨-, hlive, -⟩ := hI.white y hdy hm
    refine ⟨hlive, Or.inr ?_⟩
    obtain ⟨hR, hpred⟩ := hD.garbage y hdy
    have hpos := hI.counted.alive y hlive
    rw [hI.counted.strong y] at hpos
    have hnogray : pend R (grayRefs (x :: Γ)) (.strong y) = 0 := by
      unfold pend
      rw [hR, Nat.zero_add, List.count_eq_zero]
      intro hmem
      obtain ⟨g, hg, heq⟩ := List.mem_map.mp hmem
      obtain rfl := Ref.strong.inj heq
      exact hm (hI.gray g hg).2.1
    rw [hnogray, Nat.add_zero] at hpos
    obtain ⟨y', he⟩ := exists_holder hpos
    -- the holder is doomed, and neither black nor `x` itself
    have hd' : Doomed a y' := by
      by_contra hnd'
      unfold Edge at he
      rw [hlinks y' (hI.keep y' hnd').1, Condemned.links_eq hD] at he
      exact hnd' (hpred y' he)
    refine ⟨y', Or.inr ?_, he⟩
    by_cases hm' : (h.obj y').mark = 3
    · by_cases hΓ : y' ∈ x :: Γ
      · rcases List.mem_cons.mp hΓ with rfl | hΓ
        · unfold Edge at he
          rw [hlinks y' (hI.gray y' hΓ).2.2.2] at he
          exact absurd (hsucc y he hdy) hm
        · exact Or.inr hΓ
      · unfold Edge links memberRefs at he
        rw [(hI.black y' hd' hm' hΓ).1] at he
        simp at he
    · exact Or.inl ⟨hd', hm'⟩
  · refine ⟨(hI.gray y (List.mem_cons_of_mem _ hy)).2.2.1, Or.inl ?_⟩
    have : 0 < (grayRefs Γ).count (.strong y) :=
      List.count_pos_iff.mpr (List.mem_map.mpr ⟨y, hy, rfl⟩)
    unfold pend
    omega

/-- How finalizing `x` and dropping the extra reference changes the heap: a
release for everybody else, and `x` is empty in the end. -/
theorem FinInv.release {a h h' : Heap} {R : Ref → ℕ} {Γ : List ObjRef} {x : ObjRef}
    (hI : FinInv a R (x :: Γ) h)
    (hxΓ : x ∉ Γ) (hsucc : ∀ z, Edge (links a) x z → Doomed a z → (h.obj z).mark = 3)
    (hc : Counted h' (pend R (grayRefs Γ))) (hr : Released {x} h h')
    (hkept : ∀ y ∈ protectedSet a Γ h, (h'.obj y).destroyed = false)
    (hmem : (h'.obj x).members = []) (hdt : (h'.obj x).dtor = false) :
    FinInv a R Γ h' := by
  obtain ⟨hdx, hmx, hlx, -⟩ := hI.gray x List.mem_cons_self
  have hmk : ∀ y, (h'.obj y).mark = (h.obj y).mark := fun y => (hr.marks y).1
  refine ⟨hc, hr.size.trans hI.size, ?_, ?_, ?_, ?_, ?_, ?_, ?_, hr.sublist.trans hI.sublist,
    ?_, ?_, hr.headInit hI.headInit⟩
  · intro y hy
    have hyx : y ∉ ({x} : Set ObjRef) := by
      rintro rfl
      exact hy hdx
    obtain ⟨h₁, h₂, h₃, h₄, h₅⟩ := hI.keep y hy
    rw [hmk, h₄, (hr.marks y).2, h₅, ← h₁, ← h₂, ← h₃]
    cases hb : (a.obj y).destroyed with
    | true =>
        obtain ⟨hd, hm, ht⟩ := (hr.obj y hyx).dead (h₃.trans hb)
        exact ⟨hm, ht, hd.trans (h₃.trans hb).symm, rfl, rfl⟩
    | false =>
        have hd := hkept y (Or.inl ⟨hy, hb⟩)
        obtain ⟨hm, ht⟩ := (hr.obj y hyx).same hd
        exact ⟨hm, ht, hd.trans (h₃.trans hb).symm, rfl, rfl⟩
  · intro y hy hm
    rw [hmk] at hm ⊢
    have hyx : y ∉ ({x} : Set ObjRef) := by
      rintro rfl
      exact hm hmx
    obtain ⟨h₁, -, h₃⟩ := hI.white y hy hm
    have hd := hkept y (Or.inr (Or.inl ⟨hy, hm⟩))
    exact ⟨h₁, hd, ((hr.obj y hyx).same hd).1.trans h₃⟩
  · intro y hy
    have hyx : y ∉ ({x} : Set ObjRef) := by
      rintro rfl
      exact hxΓ hy
    obtain ⟨h₁, h₂, -, h₄⟩ := hI.gray y (List.mem_cons_of_mem _ hy)
    have hd := hkept y (Or.inr (Or.inr hy))
    exact ⟨h₁, by rw [hmk, h₂], hd, ((hr.obj y hyx).same hd).1.trans h₄⟩
  · intro y hy hm hyΓ
    rw [hmk] at hm
    by_cases hyx : y = x
    · subst hyx
      exact ⟨hmem, hdt, fun z he hz => by rw [hmk]; exact hsucc z he hz⟩
    · obtain ⟨h₁, h₂, h₃⟩ := hI.black y hy hm (by simp [hyx, hyΓ])
      have hstep := hr.obj y hyx
      have hempty : (h'.obj y).members = [] ∧ (h'.obj y).dtor = false := by
        cases hb : (h'.obj y).destroyed with
        | false => exact (hstep.same hb).imp (·.trans h₁) (·.trans h₂)
        | true =>
            cases hb₀ : (h.obj y).destroyed with
            | false => exact hstep.done hb₀ hb
            | true => exact (hstep.dead hb₀).2.imp (·.trans h₁) (·.trans h₂)
      exact ⟨hempty.1, hempty.2, fun z he hz => by rw [hmk]; exact h₃ z he hz⟩
  · exact fun y => (hr.dtors y).trans (hI.dtors y)
  · intro y
    have h₁ := hr.destroys y
    have h₂ := hI.destroys y
    omega
  · exact fun y => (hr.again y).trans (hI.again y)
  · intro y hy hd
    refine hr.isolated y (hI.isolated y hy ?_) hd
    by_cases hyx : y = x
    · rw [hyx]
      exact hlx
    · exact (hr.obj y hyx).alive hd
  · intro y hy hdy
    rcases hr.added y hy with h₁ | h₁
    · exact hI.unreferred y h₁ hdy
    · rcases hI.mark_two_or_three hdy with h₂ | h₂ <;> omega

theorem liveCount_le_size (h : Heap) : liveCount h ≤ h.size := by
  have := Finset.card_filter_le (Finset.range h.size) fun x => (h.obj x).destroyed = false
  rwa [Finset.card_range] at this

/-- The post hook on the top of the gray stack. -/
theorem FinInv.leave {h₀ a h : Heap} {R : Ref → ℕ} {Γ : List ObjRef} {x : ObjRef} {fuel : ℕ}
    (hC : Collectable h₀ R) (hD : Condemned h₀ R a) (hI : FinInv a R (x :: Γ) h)
    (hxΓ : x ∉ Γ) (hsucc : ∀ z, Edge (links a) x z → Doomed a z → (h.obj z).mark = 3)
    (hfuel : a.size < fuel) :
    ∃ h', diCollectGarbageCollectPost fuel x h = .ok h' ∧ FinInv a R Γ h' ∧
      ∀ y, (h'.obj y).mark = (h.obj y).mark := by
  obtain ⟨hdx, hmx, hlx, -⟩ := hI.gray x List.mem_cons_self
  have hlive : liveCount h < fuel := by
    have := liveCount_le_size h
    rw [hI.size] at this
    omega
  have hun : ∀ p, Releases (liveCount h) (diUnrefObject fuel p) [.strong p] :=
    fun p => diUnrefObject_releases hlive p
  have hS := hI.sustained hC hD hsucc
  have hxS : x ∉ protectedSet a Γ h := by
    rintro (⟨hnd, -⟩ | ⟨-, hm⟩ | hx)
    · exact hnd hdx
    · exact hm hmx
    · exact hxΓ hx
  have hxR : 0 < pend R (grayRefs (x :: Γ)) (.strong x) := by
    rw [pend_gray_cons, pend_strong, if_pos rfl]
    omega
  have hSx : Sustained h (pend R (grayRefs (x :: Γ))) (protectedSet a Γ h) := by
    rw [pend_gray_cons]
    exact hS.mono (le_pend _ _)
  obtain ⟨h₁, hrun₁, hfin, hdt⟩ := diFinalizeObjectInner_spec hun hxS h hI.counted
    (fun _ => hxR) (hI.counted.lt_size hlx) hSx le_rfl
  have hm₁ : ∀ y ∈ protectedSet a Γ h, (h₁.obj y).members = (h.obj y).members := fun y hy =>
    ((hfin.released.obj y (by rintro rfl; exact hxS hy)).same (hfin.kept y hy)).1
  have hc₁ := hfin.counted
  rw [pend_gray_cons] at hc₁
  have hlive₁ : liveCount h₁ ≤ liveCount h := by
    unfold liveCount
    rw [hfin.released.size]
    refine Finset.card_le_card fun y hy => ?_
    rw [Finset.mem_filter] at hy ⊢
    refine ⟨hy.1, ?_⟩
    by_cases hyx : y = x
    · rw [hyx]
      exact hlx
    · exact (hfin.released.obj y hyx).alive hy.2
  obtain ⟨h₂, hrun₂, hout⟩ := hun x h₁ (pend R (grayRefs Γ)) (protectedSet a Γ h) hc₁
    (hS.transfer hfin.kept hm₁) hlive₁
  have hr : Released {x} h h₂ := by
    refine hfin.released.trans (hout.released.mono (Set.empty_subset _)) ?_
    rintro y rfl hy
    exact hout.released.alive hy
  have hempty : (h₂.obj x).members = [] ∧ (h₂.obj x).dtor = false := by
    have hstep := hout.released.obj x id
    cases hb : (h₂.obj x).destroyed with
    | false => exact (hstep.same hb).imp (·.trans hfin.members) (·.trans hdt)
    | true => exact hstep.done (hfin.destroyed.trans hlx) hb
  refine ⟨h₂, ?_, hI.release hxΓ hsucc hout.counted hr hout.kept hempty.1 hempty.2,
    fun y => (hr.marks y).1⟩
  unfold diCollectGarbageCollectPost
  rw [Heap.deref_ok (hI.counted.not_freed hlx)]
  simp only [bind, Except.bind]
  rw [if_neg (by simpa using hmx), hrun₁]
  exact hrun₂

/-- One call of the third pass, on any live object. -/
theorem finalize_visit {h₀ a : Heap} {R : Ref → ℕ} (hC : Collectable h₀ R)
    (hD : Condemned h₀ R a) {n : ℕ} (hn : a.size < n) (fuel : ℕ) (x : ObjRef)
    (Γ : List ObjRef) (h : Heap) (hI : FinInv a R Γ h) (hx : (h.obj x).destroyed = false)
    (hfuel : whiteCount h < fuel) :
    ∃ h', diScanObject diCollectGarbageCollectPre (diCollectGarbageCollectPost n)
        fuel 0 x h = .ok h' ∧ FinInv a R Γ h' ∧ (Doomed a x → (h'.obj x).mark = 3) ∧
      (∀ y, (h.obj y).mark = 3 → (h'.obj y).mark = 3) ∧ whiteCount h' ≤ whiteCount h ∧
      (Doomed a x → (h.obj x).mark ≠ 3 → whiteCount h' < whiteCount h) := by
  induction fuel generalizing x Γ h with
  | zero => omega
  | succ fuel ih =>
      have hnf := hI.counted.not_freed hx
      by_cases hw : Doomed a x ∧ (h.obj x).mark ≠ 3
      · obtain ⟨hdx, hm₃⟩ := hw
        have hm₂ := (hI.white x hdx hm₃).1
        have hpre : diCollectGarbageCollectPre x 0 h = .ok (0, enter x h) := by
          unfold diCollectGarbageCollectPre diRefObject
          rw [Heap.deref_ok hnf]
          simp only [bind, Except.bind]
          rw [if_neg (by omega)]
          rfl
        have hI₁ := hI.enter hdx hm₃
        have hlt := whiteCount_enter (hI.counted.lt_size hx) hm₂
        have hrefs : scannedRefs (enter x h) x = scannedRefs a x := by
          unfold scannedRefs
          rw [(hI₁.gray x List.mem_cons_self).2.2.2]
        have hvis : ∀ m ∈ (a.obj x).members, m.2.Visible := by
          rw [hD.shape.members]
          exact hC.visible x
        -- the loop over the members, with the doomed targets still to be visited
        obtain ⟨h₂, hloop, hI₂, -, hdone, hmono, hle⟩ := PendingWork.foldlM_consumes
          (f := fun h z => diScanObject diCollectGarbageCollectPre
            (diCollectGarbageCollectPost n) fuel 0 z h)
          (I := fun P u => FinInv a R (x :: Γ) u ∧ (∀ z ∈ P, Edge (links a) x z) ∧
            (∀ z, Edge (links a) x z → Doomed a z → (u.obj z).mark = 3 ∨ z ∈ P) ∧
            (∀ y, ((enter x h).obj y).mark = 3 → (u.obj y).mark = 3) ∧
            whiteCount u ≤ whiteCount (enter x h))
          (fun z P u hu => by
            obtain ⟨hIu, hP, htodo, hmono, hle⟩ := hu
            have hz : (u.obj z).destroyed = false := by
              apply hIu.counted.alive_of_edge (y := x)
              have he := hP z List.mem_cons_self
              unfold Edge at he ⊢
              rwa [links_congr (hIu.gray x List.mem_cons_self).2.2.2]
            obtain ⟨t, hrun, hIt, hzt, hmt, hlet, -⟩ := ih z (x :: Γ) u hIu hz (by omega)
            refine ⟨t, hrun, hIt, fun z' hz' => hP z' (List.mem_cons_of_mem _ hz'), ?_,
              fun y hy => hmt y (hmono y hy), hlet.trans hle⟩
            intro z' he hdz'
            rcases htodo z' he hdz' with h₃ | h₃
            · exact Or.inl (hmt z' h₃)
            · rcases List.mem_cons.mp h₃ with rfl | h₃
              · exact Or.inl (hzt hdz')
              · exact Or.inr h₃)
          (scannedRefs a x) [] (enter x h)
          ⟨hI₁, fun z hz => (mem_scannedRefs hvis).mp (by simpa using hz),
            fun z he _ => Or.inr (by simpa using (mem_scannedRefs hvis).mpr he),
            fun _ hy => hy, le_rfl⟩
        have hxΓ : x ∉ Γ := fun hmem => hm₃ (hI.gray x hmem).2.1
        obtain ⟨h₃, hpost, hI₃, hmk⟩ := hI₂.leave hC hD hxΓ
          (fun z he hz => (hdone z he hz).resolve_right List.not_mem_nil) hn
        have hthree : ∀ y, ((enter x h).obj y).mark = 3 → (h₃.obj y).mark = 3 :=
          fun y hy => (hmk y).trans (hmono y hy)
        have hsame : whiteCount h₃ = whiteCount h₂ := by
          unfold whiteCount
          rw [hI₃.size, hI₂.size]
          simp only [hmk]
        refine ⟨h₃, ?_, hI₃, fun _ => hthree x ?_, fun y hy => hthree y ?_, by omega,
          fun _ _ => by omega⟩
        · rw [diScanObject_descend hpre le_rfl, hrefs, hloop]
          exact hpost
        · rw [enter_mark, if_pos rfl]
        · rw [enter_mark, hy, ite_self]
      · have hstop : (h.obj x).mark = 0 ∨ (h.obj x).mark = 3 := by
          by_cases hdx : Doomed a x
          · exact Or.inr (not_not.mp fun hm => hw ⟨hdx, hm⟩)
          · obtain ⟨-, -, hd, hm, -⟩ := hI.keep x hdx
            rw [hd] at hx
            rw [hm]
            rcases hD.marks x (hD.shape.destroyed x ▸ hx) with h₂ | ⟨h₀, -⟩
            · exact absurd ⟨hx, h₂⟩ hdx
            · exact Or.inl h₀
        have hpre : diCollectGarbageCollectPre x 0 h = .ok (-1, h) := by
          unfold diCollectGarbageCollectPre
          rw [Heap.deref_ok hnf]
          simp only [bind, Except.bind]
          rw [if_pos hstop]
        exact ⟨h, diScanObject_stop hpre (by omega) fuel, hI,
          fun hdx => not_not.mp fun hm => hw ⟨hdx, hm⟩, fun _ hy => hy, le_rfl,
          fun hdx hm => absurd ⟨hdx, hm⟩ hw⟩

/-! ## The roots -/

/-- Between two roots, whatever a doomed object with mark 3 reaches has mark 3. -/
theorem FinInv.mark_three_of_reach {h₀ a h : Heap} {R : Ref → ℕ} (hD : Condemned h₀ R a)
    (hI : FinInv a R [] h) {r y : ObjRef} (hr : (h.obj r).mark = 3)
    (hry : ReflTransGen (Edge (links h₀)) r y) (hy : Doomed a y) : (h.obj y).mark = 3 := by
  induction hry with
  | refl => exact hr
  | tail _ he ih =>
      have hd := (hD.garbage _ hy).2 _ he
      rw [← Condemned.links_eq hD] at he
      exact (hI.black _ hd (ih hd) List.not_mem_nil).2.2 _ he hy

/-- A doomed object is destroyed once all doomed objects that refer to it have
been finalized. -/
theorem FinInv.destroyed_of_holders {h₀ a h : Heap} {R : Ref → ℕ} (hD : Condemned h₀ R a)
    (hI : FinInv a R [] h) {x : ObjRef} (hx : Doomed a x)
    (hy : ∀ y, Doomed a y → Edge (links h₀) y x → (h.obj y).mark = 3) :
    (h.obj x).destroyed = true := by
  rw [← Bool.not_eq_false]
  intro hlive
  have hpos := hI.counted.alive x hlive
  rw [hI.counted.strong x] at hpos
  have hR : pend R (grayRefs []) (.strong x) = 0 := by
    rw [show grayRefs [] = [] from rfl, pend_nil]
    exact (hD.garbage x hx).1
  rw [hR, Nat.add_zero] at hpos
  obtain ⟨y, he⟩ := exists_holder hpos
  by_cases hdy : Doomed a y
  · by_cases hm : (h.obj y).mark = 3
    · unfold Edge links memberRefs at he
      rw [(hI.black y hdy hm List.not_mem_nil).1] at he
      simp at he
    · unfold Edge at he
      rw [links_congr (hI.white y hdy hm).2.2, Condemned.links_eq hD] at he
      exact hm (hy y hdy he)
  · unfold Edge at he
    rw [links_congr (hI.keep y hdy).1, Condemned.links_eq hD] at he
    exact hdy ((hD.garbage x hx).2 y he)

/-- The root at the front of the list was not met yet: the roots that reach it
stand before it and are gone, so it would be gone with them. -/
theorem FinInv.root_white {h₀ a h : Heap} {R : Ref → ℕ} (hD : Condemned h₀ R a)
    (hI : FinInv a R [] h) {i : ObjRef} {is : List ObjRef} (hlist : h.isolated = i :: is) :
    (h.obj i).mark ≠ 3 := by
  intro hi
  have hmem : i ∈ h.isolated := hlist ▸ List.mem_cons_self
  have hdead : (h.obj i).destroyed = true := by
    refine hI.destroyed_of_holders hD (hD.isolated i (hI.sublist.subset hmem)) fun y hdy he => ?_
    obtain ⟨r, hr, hry⟩ := hD.rooted y hdy
    refine hI.mark_three_of_reach hD ?_ hry hdy
    by_cases hri : r = i
    · rw [hri]
      exact hi
    · have horder : (i :: is).Pairwise fun a b => ¬ ReflTransGen (Edge (links h₀)) b a :=
        hlist ▸ hD.order.sublist hI.sublist
      have hnot : r ∉ h.isolated := by
        rw [hlist]
        intro hmem
        exact (List.pairwise_cons.mp horder).1 r ((List.mem_cons.mp hmem).resolve_left hri)
          (hry.tail he)
      by_contra hm
      exact hnot (hI.isolated r hr (hI.white r (hD.isolated r hr) hm).2.1)
  have hlive := hI.counted.listed i (List.mem_append_right _ hmem)
  rw [hlive] at hdead
  cases hdead

theorem finalizeRoots_spec {h₀ a : Heap} {R : Ref → ℕ} (hC : Collectable h₀ R)
    (hD : Condemned h₀ R a) {fuel : ℕ} (hf : a.size < fuel) (n : ℕ) (h : Heap)
    (hI : FinInv a R [] h) (hn : whiteCount h < n) :
    ∃ h', finalizeRoots fuel n h = .ok h' ∧ FinInv a R [] h' ∧ h'.isolated = [] := by
  induction n generalizing h with
  | zero => omega
  | succ n ih =>
      unfold finalizeRoots
      cases hlist : h.isolated with
      | nil => exact ⟨h, rfl, hI, hlist⟩
      | cons i is =>
          have hi : i ∈ h.isolated := hlist ▸ List.mem_cons_self
          have hdi := hD.isolated i (hI.sublist.subset hi)
          have hlive := hI.counted.listed i (List.mem_append_right _ hi)
          have hsize := whiteCount_le_size h
          rw [hI.size] at hsize
          obtain ⟨h', hrun, hI', -, -, -, hlt⟩ :=
            finalize_visit hC hD hf fuel i [] h hI hlive (by omega)
          have := hlt hdi (hI.root_white hD hlist)
          obtain ⟨h'', hrest, hfin⟩ := ih h' hI' (by omega)
          refine ⟨h'', ?_, hfin⟩
          simp only [bind, Except.bind, hrun]
          exact hrest

theorem Condemned.counted {h₀ a : Heap} {R : Ref → ℕ} (hC : Collectable h₀ R)
    (hD : Condemned h₀ R a) : Counted a R := by
  refine hC.counted.setMarks hD.shape.size hD.shape.obj (fun x hx => ?_) ?_ ?_ fun x => ?_
  · apply hD.dead
    rw [hC.counted.unallocated x hx]
    rfl
  · rw [hD.unreferred]
    exact hD.nodup
  · rw [hD.unreferred]
    intro x hx
    exact hD.shape.destroyed x ▸ (hD.isolated x hx).1
  · cases hb : (h₀.obj x).destroyed with
    | true =>
        rw [hD.dead x hb]
        exact hC.counted.calm x
    | false =>
        rcases hD.marks x hb with hm | ⟨hm, -⟩
        · rw [hm]
          rfl
        · rw [hm]
          rfl

theorem Condemned.start {h₀ a : Heap} {R : Ref → ℕ} (hC : Collectable h₀ R)
    (hD : Condemned h₀ R a) : FinInv a R [] a := by
  refine ⟨?_, rfl, fun _ _ => ⟨rfl, rfl, rfl, rfl, rfl⟩, ?_, ?_, ?_, fun _ => rfl, fun _ => rfl,
    fun _ => rfl, .refl _, fun _ hx _ => hx, ?_, ?_⟩
  · rw [show grayRefs [] = [] from rfl, pend_nil]
    exact Condemned.counted hC hD
  · exact fun x hx _ => ⟨hx.2, hx.1, rfl⟩
  · exact fun x hx => absurd hx List.not_mem_nil
  · intro x hx hm
    have := hx.2
    omega
  · rw [hD.unreferred]
    exact fun x hx => absurd hx List.not_mem_nil
  · rw [hD.shape.headInit]
    exact hC.headInit

end Deai.CollectorFinalize
