import Deai.CollectorMark

/-!
# Second pass: reviving what is held from outside

Trial deletion over the marked set `M` of the first pass. An object ends with
mark 0 exactly when it is `Kept`: a holder outside `M` or outside the heap
reaches it. The others end with mark 2.

An item of the pending work is a call that is owed: the object and the `revive`
state it is called with.
-/
namespace Deai.CollectorScan
open Value ObjectHeap TrialDeletion Accounting Collector CollectorMark Relation

/-- The count that trial deletion compares with is the reference count. -/
theorem refCount_eq_total {h : Heap} {R : Ref → ℕ} (hc : Counted h R) (x : ObjRef) :
    (h.obj x).refCount =
      total (Finset.range h.size) (links h) (fun x => R (.strong x)) x := hc.strong x

/-- An object of `M` that the collection must keep. -/
def Survives (h₀ : Heap) (R : Ref → ℕ) (M : Finset ObjRef) (x : ObjRef) : Prop :=
  Kept (Finset.range h₀.size) (links h₀) (fun x => R (.strong x)) M x

/-- The heap `h` reached in the second pass from `h₁`, with the calls `P` owed. -/
structure ScanInv (h₀ h₁ : Heap) (R : Ref → ℕ) (P : List (ℤ × ObjRef)) (h : Heap) : Prop where
  shape : Marking h₀ h
  unreferred : h.unreferred = h₁.unreferred
  isolated : h.isolated = h₁.isolated
  outside : ∀ x, x ∉ marked h₁ → h.obj x = h₁.obj x
  inside : ∀ x ∈ marked h₁,
    (h.obj x).mark = 0 ∧ (h.obj x).refCountScan = 0 ∧ Survives h₀ R (marked h₁) x ∨
    (h.obj x).refCountScan = inner (links h₀) (marked h₁) x ∧ ((h.obj x).mark = 1 ∨
      (h.obj x).mark = 2 ∧ (h₀.obj x).refCount = inner (links h₀) (marked h₁) x)
  todo : ∀ p ∈ P, p.2 ∈ marked h₁ ∧ (p.1 = 0 ∨ p.1 = 1 ∧ Survives h₀ R (marked h₁) p.2)
  revived : ∀ y ∈ marked h₁, (h.obj y).mark = 0 → ∀ z, Edge (links h₀) y z →
    (h.obj z).mark = 0 ∨ (1, z) ∈ P
  condemned : ∀ y ∈ marked h₁, (h.obj y).mark = 2 → ∀ z, Edge (links h₀) y z →
    (h.obj z).mark ≠ 1 ∨ ∃ s, (s, z) ∈ P
  rooted : ∀ i ∈ h₁.isolated, (h.obj i).mark ≠ 1 ∨ ∃ s, (s, i) ∈ P

/-- A call on an object that is settled in that respect changes nothing. -/
theorem ScanInv.skip {h₀ h₁ h : Heap} {R : Ref → ℕ} {s : ℤ} {x : ObjRef}
    {P : List (ℤ × ObjRef)} (hI : ScanInv h₀ h₁ R ((s, x) :: P) h) (hx : (h.obj x).mark ≠ 1)
    (hs : s ≠ 0 → (h.obj x).mark = 0) : ScanInv h₀ h₁ R P h where
  shape := hI.shape
  unreferred := hI.unreferred
  isolated := hI.isolated
  outside := hI.outside
  inside := hI.inside
  todo p hp := hI.todo p (List.mem_cons_of_mem _ hp)
  revived y hy hm z he := by
    rcases hI.revived y hy hm z he with hz | hz
    · exact Or.inl hz
    · rcases List.mem_cons.mp hz with heq | hz
      · obtain ⟨rfl, rfl⟩ := Prod.mk.inj heq
        exact Or.inl (hs (by omega))
      · exact Or.inr hz
  condemned y hy hm z he := by
    rcases hI.condemned y hy hm z he with hz | ⟨t, hz⟩
    · exact Or.inl hz
    · rcases List.mem_cons.mp hz with heq | hz
      · exact Or.inl ((Prod.mk.inj heq).2 ▸ hx)
      · exact Or.inr ⟨t, hz⟩
  rooted i hi := by
    rcases hI.rooted i hi with hm | ⟨t, hz⟩
    · exact Or.inl hm
    · rcases List.mem_cons.mp hz with heq | hz
      · exact Or.inl ((Prod.mk.inj heq).2 ▸ hx)
      · exact Or.inr ⟨t, hz⟩

/-- The update of the second hook: `x` gets mark `m`, and the calls on what it
refers to are owed with state `s'`. -/
theorem ScanInv.descend {h₀ h₁ h : Heap} {R : Ref → ℕ} {s : ℤ} {x : ObjRef}
    {P : List (ℤ × ObjRef)} (hC : Collectable h₀ R)
    (hM : ∀ y ∈ marked h₁, ∀ z, Edge (links h₀) y z → z ∈ marked h₁)
    (hI : ScanInv h₀ h₁ R ((s, x) :: P) h) (s' : ℤ) (f : DiObject → DiObject)
    (hf : ∀ y, f y = {y with mark := (f y).mark, refCountScan := (f y).refCountScan})
    (hcase : (f (h.obj x)).mark = 0 ∧ (f (h.obj x)).refCountScan = 0 ∧ s' = 1 ∧
        Survives h₀ R (marked h₁) x ∨
      (h.obj x).mark = 1 ∧ (f (h.obj x)).mark = 2 ∧ s = 0 ∧ s' = 0 ∧
        (f (h.obj x)).refCountScan = inner (links h₀) (marked h₁) x ∧
        (h₀.obj x).refCount = inner (links h₀) (marked h₁) x) :
    ScanInv h₀ h₁ R ((scannedRefs h₀ x).map (s', ·) ++ P) (h.modify x f) := by
  have hx := (hI.todo (s, x) List.mem_cons_self).1
  have hne : ∀ y, y ≠ x → (h.modify x f).obj y = h.obj y := fun y hy => h.modify_obj_ne f hy
  have hself := h.modify_obj_self x f
  have hm₁ : ((h.modify x f).obj x).mark ≠ 1 := by
    rw [hself]
    rcases hcase with hc | hc <;> omega
  have hitem : ∀ z, Edge (links h₀) x z → (s', z) ∈ (scannedRefs h₀ x).map (s', ·) ++ P := by
    intro z he
    refine List.mem_append_left _ (List.mem_map.mpr ⟨z, ?_, rfl⟩)
    exact (mem_scannedRefs (hC.visible x)).mpr he
  -- an item owed before is settled by this call or still owed
  have hold : ∀ t z, (t, z) ∈ (s, x) :: P → z ≠ x →
      (t, z) ∈ (scannedRefs h₀ x).map (s', ·) ++ P := by
    intro t z hz hzx
    rcases List.mem_cons.mp hz with heq | hz
    · exact absurd (Prod.mk.inj heq).2 hzx
    · exact List.mem_append_right _ hz
  refine ⟨hI.shape.modify x f hf, hI.unreferred, hI.isolated, ?_, ?_, ?_, ?_, ?_, ?_⟩
  · intro y hy
    rw [hne y (by rintro rfl; exact hy hx)]
    exact hI.outside y hy
  · intro y hy
    by_cases hyx : y = x
    · subst hyx
      rw [hself]
      rcases hcase with ⟨h₁, h₂, -, h₃⟩ | ⟨-, h₁, -, -, h₂, h₃⟩
      · exact Or.inl ⟨h₁, h₂, h₃⟩
      · exact Or.inr ⟨h₂, Or.inr ⟨h₁, h₃⟩⟩
    · rw [hne y hyx]
      exact hI.inside y hy
  · intro p hp
    rcases List.mem_append.mp hp with hp | hp
    · obtain ⟨z, hz, rfl⟩ := List.mem_map.mp hp
      have he := (mem_scannedRefs (hC.visible x)).mp hz
      refine ⟨hM x hx z he, ?_⟩
      rcases hcase with ⟨-, -, h₁, u, hu, hux⟩ | ⟨-, -, -, h₁, -⟩
      · exact Or.inr ⟨h₁, u, hu, hux.tail he⟩
      · exact Or.inl h₁
    · exact hI.todo p (List.mem_cons_of_mem _ hp)
  · intro y hy hm z he
    by_cases hyx : y = x
    · subst hyx
      rw [hself] at hm
      rcases hcase with ⟨-, -, rfl, -⟩ | hc
      · exact Or.inr (hitem z he)
      · omega
    · rw [hne y hyx] at hm
      by_cases hzx : z = x
      · subst hzx
        rcases hcase with ⟨h₁, -⟩ | ⟨h₁, -, rfl, -⟩
        · exact Or.inl (by rw [hself]; exact h₁)
        · -- the call was made with state 0 on an object of mark 1
          rcases hI.revived y hy hm z he with h₂ | h₂
          · omega
          · rcases List.mem_cons.mp h₂ with heq | h₂
            · exact absurd (Prod.mk.inj heq).1 (by decide)
            · exact Or.inr (List.mem_append_right _ h₂)
      · rw [hne z hzx]
        exact (hI.revived y hy hm z he).imp_right fun h₂ => hold 1 z h₂ hzx
  · intro y hy hm z he
    by_cases hyx : y = x
    · subst hyx
      exact Or.inr ⟨s', hitem z he⟩
    · rw [hne y hyx] at hm
      by_cases hzx : z = x
      · exact Or.inl (hzx ▸ hm₁)
      · rw [hne z hzx]
        refine (hI.condemned y hy hm z he).imp_right ?_
        rintro ⟨t, h₂⟩
        exact ⟨t, hold t z h₂ hzx⟩
  · intro i hi
    by_cases hix : i = x
    · exact Or.inl (hix ▸ hm₁)
    · rw [hne i hix]
      refine (hI.rooted i hi).imp_right ?_
      rintro ⟨t, h₂⟩
      exact ⟨t, hold t i h₂ hix⟩

/-! ## Termination -/

/-- How often the pass may still descend into an object. -/
def weight : ℕ → ℕ
  | 1 => 2
  | 2 => 1
  | _ => 0

def scanMeasure (h : Heap) : ℕ := ∑ x ∈ Finset.range h.size, weight (h.obj x).mark

theorem weight_le (m : ℕ) : weight m ≤ 2 := by
  unfold weight
  split <;> omega

theorem scanMeasure_le (h : Heap) : scanMeasure h ≤ 2 * h.size := by
  have := Finset.sum_le_card_nsmul (Finset.range h.size) (fun x => weight (h.obj x).mark) 2
    fun x _ => weight_le _
  rw [Finset.card_range, smul_eq_mul, Nat.mul_comm] at this
  exact this

theorem scanMeasure_modify {h : Heap} {x : ℕ} {f : DiObject → DiObject} (hx : x < h.size)
    (hw : weight (f (h.obj x)).mark < weight (h.obj x).mark) :
    scanMeasure (h.modify x f) < scanMeasure h := by
  have hself := h.modify_obj_self x f
  refine Finset.sum_lt_sum (fun y _ => ?_) ⟨x, Finset.mem_range.mpr hx, ?_⟩
  · rw [Heap.modify_obj]
    split_ifs with hyx
    · rw [hyx]
      exact hw.le
    · exact le_rfl
  · rw [hself]
    exact hw

/-- The second hook on an object of `M`: it stops, or it settles the object and
descends. -/
theorem scan_visit {h₀ h₁ h : Heap} {R : Ref → ℕ} (hC : Collectable h₀ R)
    (hL : MarkLoop h₀ h₁) (halive : ∀ x ∈ marked h₁, (h₀.obj x).destroyed = false)
    {p : ℤ × ObjRef} {P : List (ℤ × ObjRef)} (hI : ScanInv h₀ h₁ R (p :: P) h) (fuel : ℕ) :
    (∃ t, diScanObject diCollectGarbageScan noPost (fuel + 1) p.1 p.2 h = .ok t ∧
      ScanInv h₀ h₁ R P t ∧ scanMeasure t ≤ scanMeasure h) ∨
    ∃ ys t, diScanObject diCollectGarbageScan noPost (fuel + 1) p.1 p.2 h =
        ys.foldlM (fun s q => diScanObject diCollectGarbageScan noPost fuel q.1 q.2 s) t ∧
      ScanInv h₀ h₁ R (ys ++ P) t ∧ scanMeasure t < scanMeasure h := by
  obtain ⟨s, x⟩ := p
  obtain ⟨hx, hs⟩ := hI.todo (s, x) List.mem_cons_self
  have hlive := halive x hx
  have hlt : x < h.size := hI.shape.size ▸ hC.counted.lt_size hlive
  have hf : (h.obj x).freed = false := by
    rw [hI.shape.freed]
    exact hC.counted.not_freed hlive
  have hmem : ∀ y, y ∈ marked h₁ ↔ y < h₁.size ∧ (h₁.obj y).mark = 1 := by
    intro y
    rw [marked, Finset.mem_filter, Finset.mem_range]
  have hsub : marked h₁ ⊆ Finset.range h₀.size := by
    intro y hy
    exact Finset.mem_range.mpr (hC.counted.lt_size (halive y hy))
  have hclosed : ∀ y ∈ marked h₁, ∀ z, Edge (links h₀) y z → z ∈ marked h₁ := by
    intro y hy z he
    have hz := hL.closed y ((hmem y).mp hy).2 z he
    refine (hmem z).mpr ⟨?_, hz⟩
    exact hL.shape.size ▸ hC.counted.lt_size (hC.counted.alive_of_edge he)
  have hrc := hI.shape.refCount x
  have hin : inner (links h₀) (marked h₁) x ≤ (h₀.obj x).refCount := by
    rw [refCount_eq_total hC.counted]
    exact inner_le_total hsub x
  have hlow : ¬ (h.obj x).refCount < (h.obj x).refCountScan := by
    rcases hI.inside x hx with ⟨-, h₂, -⟩ | ⟨h₂, -⟩ <;> omega
  have hpre : diCollectGarbageScan x s h =
      if s ≠ 0 ∨ (h.obj x).refCountScan ≠ (h.obj x).refCount then
        if (h.obj x).mark = 0 then .ok (-1, h)
        else .ok (1, h.modify x fun x => {x with refCountScan := 0, mark := 0})
      else if (h.obj x).mark = 2 ∨ (h.obj x).mark = 0 then .ok (-1, h)
      else .ok (0, h.modify x fun x => {x with mark := 2}) := by
    unfold diCollectGarbageScan
    rw [Heap.deref_ok hf]
    simp only [bind, Except.bind]
    rw [if_neg hlow]
  -- what a descent is, once the new mark is known to be right
  have hdescend : ∀ (s' : ℤ) (f : DiObject → DiObject), 0 ≤ s' →
      diCollectGarbageScan x s h = .ok (s', h.modify x f) →
      ScanInv h₀ h₁ R ((scannedRefs h₀ x).map (s', ·) ++ P) (h.modify x f) →
      diScanObject diCollectGarbageScan noPost (fuel + 1) s x h =
        ((scannedRefs h₀ x).map (s', ·)).foldlM
          (fun s q => diScanObject diCollectGarbageScan noPost fuel q.1 q.2 s)
          (h.modify x f) := by
    intro s' f hs' hrun hI'
    rw [diScanObject_descend hrun hs', bind_noPost, hI'.shape.scannedRefs, List.foldlM_map]
  by_cases hrev : s ≠ 0 ∨ (h.obj x).refCountScan ≠ (h.obj x).refCount
  · rw [if_pos hrev] at hpre
    by_cases hm : (h.obj x).mark = 0
    · rw [if_pos hm] at hpre
      exact Or.inl ⟨h, diScanObject_stop hpre (by omega) fuel,
        hI.skip (by omega) (fun _ => hm), le_rfl⟩
    · rw [if_neg hm] at hpre
      have hkept : Survives h₀ R (marked h₁) x := by
        rcases hs with hs | ⟨-, hs⟩
        · -- called with state 0, so the count falls short
          rcases hI.inside x hx with ⟨h₂, -⟩ | ⟨h₂, -⟩
          · exact absurd h₂ hm
          · refine ⟨x, ⟨hx, ?_⟩, .refl⟩
            rw [← refCount_eq_total hC.counted, ← h₂, ← hrc]
            exact hrev.resolve_left (fun h => h hs)
        · exact hs
      have hI' := hI.descend hC hclosed 1 (fun x => {x with refCountScan := 0, mark := 0})
        (fun _ => rfl)
        (Or.inl ⟨rfl, rfl, rfl, hkept⟩)
      refine Or.inr ⟨_, _, hdescend 1 _ (by decide) hpre hI', hI', scanMeasure_modify hlt ?_⟩
      rcases hI.inside x hx with ⟨h₂, -⟩ | ⟨-, h₂ | ⟨h₂, -⟩⟩
      · exact absurd h₂ hm
      · simp [h₂, weight]
      · simp [h₂, weight]
  · rw [if_neg hrev] at hpre
    push Not at hrev
    obtain ⟨hs₀, hcount⟩ := hrev
    by_cases hm : (h.obj x).mark = 2 ∨ (h.obj x).mark = 0
    · rw [if_pos hm] at hpre
      exact Or.inl ⟨h, diScanObject_stop hpre (by omega) fuel,
        hI.skip (by omega) (fun h => absurd hs₀ h), le_rfl⟩
    · rw [if_neg hm] at hpre
      have hone : (h.obj x).mark = 1 ∧
          (h.obj x).refCountScan = inner (links h₀) (marked h₁) x := by
        rcases hI.inside x hx with ⟨h₂, -⟩ | ⟨h₃, h₂ | ⟨h₂, -⟩⟩
        · omega
        · exact ⟨h₂, h₃⟩
        · omega
      have hI' := hI.descend hC hclosed 0 (fun x => {x with mark := 2}) (fun _ => rfl)
        (Or.inr ⟨hone.1, rfl, hs₀, rfl, hone.2, by omega⟩)
      refine Or.inr ⟨_, _, hdescend 0 _ le_rfl hpre hI', hI', scanMeasure_modify hlt ?_⟩
      simp [hone.1, weight]

theorem marked_alive {h₀ h₁ : Heap} {R : Ref → ℕ} (hC : Collectable h₀ R)
    (hL : MarkLoop h₀ h₁) {x : ObjRef} (hx : (h₁.obj x).mark = 1) :
    (h₀.obj x).destroyed = false := by
  obtain ⟨i, hi, hr⟩ := hL.origin x hx
  exact alive_of_reach hC.counted
    (hC.counted.listed i (List.mem_append_left _ hi)) hr

theorem mem_marked_iff {h₀ h₁ : Heap} {R : Ref → ℕ} (hC : Collectable h₀ R)
    (hL : MarkLoop h₀ h₁) {x : ObjRef} : x ∈ marked h₁ ↔ (h₁.obj x).mark = 1 := by
  rw [marked, Finset.mem_filter, Finset.mem_range, and_iff_right_iff_imp, hL.shape.size]
  exact fun hx => hC.counted.lt_size (marked_alive hC hL hx)

/-- The second pass settles every root. -/
theorem scanRoots_spec {h₀ h₁ : Heap} {R : Ref → ℕ} (hC : Collectable h₀ R)
    (hL : MarkLoop h₀ h₁) {fuel : ℕ} (hfuel : 2 * h₀.size < fuel) :
    ∃ h, scanRoots fuel h₁ = .ok h ∧ ScanInv h₀ h₁ R [] h := by
  have hmem : ∀ {x}, x ∈ marked h₁ ↔ (h₁.obj x).mark = 1 := mem_marked_iff hC hL
  have hstart : ScanInv h₀ h₁ R (h₁.isolated.map ((0 : ℤ), ·) ++ []) h₁ := by
    refine ⟨hL.shape, rfl, rfl, fun _ _ => rfl, ?_, ?_, ?_, ?_, ?_⟩
    · intro x hx
      have hm := hmem.mp hx
      exact Or.inr ⟨hL.scan x (marked_alive hC hL hm), Or.inl hm⟩
    · intro p hp
      rw [List.append_nil] at hp
      obtain ⟨i, hi, rfl⟩ := List.mem_map.mp hp
      exact ⟨hmem.mpr (hL.isolated i hi), Or.inl rfl⟩
    · intro y hy hm
      rw [hmem.mp hy] at hm
      cases hm
    · intro y hy hm
      rw [hmem.mp hy] at hm
      cases hm
    · intro i hi
      refine Or.inr ⟨0, ?_⟩
      rw [List.append_nil]
      exact List.mem_map.mpr ⟨i, hi, rfl⟩
  obtain ⟨h, hrun, hI⟩ := PendingWork.foldlM_consumes (I := ScanInv h₀ h₁ R)
    (f := fun h p => diScanObject diCollectGarbageScan noPost fuel p.1 p.2 h)
    (fun p P h hI => by
      have hsize := scanMeasure_le h
      rw [hI.shape.size] at hsize
      obtain ⟨t, hrun, hI', -⟩ := PendingWork.visit_consumes
        (f := fun fuel p h => diScanObject diCollectGarbageScan noPost fuel p.1 p.2 h)
        (I := ScanInv h₀ h₁ R) (μ := scanMeasure)
        (fun fuel p P h hI =>
          scan_visit hC hL (fun x hx => marked_alive hC hL (hmem.mp hx)) hI fuel)
        fuel p P h hI (by omega)
      exact ⟨t, hrun, hI'⟩)
    (h₁.isolated.map ((0 : ℤ), ·)) [] h₁ hstart
  refine ⟨h, ?_, hI⟩
  rw [List.foldlM_map] at hrun
  exact hrun

/-- After the second pass the marked set is split into what is kept, with mark
0, and the garbage, with mark 2. -/
theorem ScanInv.split {h₀ h₁ h : Heap} {R : Ref → ℕ} (hC : Collectable h₀ R)
    (hL : MarkLoop h₀ h₁) (hI : ScanInv h₀ h₁ R [] h) {x : ObjRef} (hx : x ∈ marked h₁) :
    (h.obj x).mark = 0 ∧ (h.obj x).refCountScan = 0 ∧ Survives h₀ R (marked h₁) x ∨
    (h.obj x).mark = 2 ∧ ¬ Survives h₀ R (marked h₁) x := by
  have hmem : ∀ {x}, x ∈ marked h₁ ↔ (h₁.obj x).mark = 1 := mem_marked_iff hC hL
  have hclosed : ∀ y z, y ∈ marked h₁ → Edge (links h₀) y z → z ∈ marked h₁ :=
    fun y z hy he => hmem.mpr (hL.closed y (hmem.mp hy) z he)
  -- nothing is left with mark 1: the roots are settled and so is what they refer to
  have hsettled : ∀ y, y ∈ marked h₁ → (h.obj y).mark ≠ 1 := by
    intro y hy
    obtain ⟨i, hi, hr⟩ := hL.rooted y (hmem.mp hy)
    have hroot : i ∈ marked h₁ ∧ (h.obj i).mark ≠ 1 := by
      refine ⟨hmem.mpr (hL.isolated i hi), (hI.rooted i hi).resolve_right ?_⟩
      rintro ⟨s, hs⟩
      exact List.not_mem_nil hs
    refine (closed_of_reachable (p := fun y => y ∈ marked h₁ ∧ (h.obj y).mark ≠ 1)
      (fun y z hy he => ⟨hclosed y z hy.1 he, ?_⟩) hroot hr).2
    rcases hI.inside y hy.1 with ⟨hm, -⟩ | ⟨-, hm | ⟨hm, -⟩⟩
    · rw [(hI.revived y hy.1 hm z he).resolve_right List.not_mem_nil]
      decide
    · exact absurd hm hy.2
    · refine (hI.condemned y hy.1 hm z he).resolve_right ?_
      rintro ⟨s, hs⟩
      exact List.not_mem_nil hs
  rcases hI.inside x hx with hk | ⟨-, hm | ⟨hm, hcount⟩⟩
  · exact Or.inl hk
  · exact absurd hm (hsettled x hx)
  · refine Or.inr ⟨hm, ?_⟩
    rintro ⟨u, ⟨hu, hshort⟩, hr⟩
    -- the object that falls short was revived, and everything it reaches with it
    have hzero : u ∈ marked h₁ ∧ (h.obj u).mark = 0 := by
      refine ⟨hu, ?_⟩
      rcases hI.inside u hu with ⟨hm, -⟩ | ⟨-, hm | ⟨-, hcount⟩⟩
      · exact hm
      · exact absurd hm (hsettled u hu)
      · exact absurd (hcount.symm.trans (refCount_eq_total hC.counted u)) hshort
    have := (closed_of_reachable (p := fun y => y ∈ marked h₁ ∧ (h.obj y).mark = 0)
      (fun y z hy he => ⟨hclosed y z hy.1 he,
        (hI.revived y hy.1 hy.2 z he).resolve_right List.not_mem_nil⟩) hzero hr).2
    omega

/-! ## The heap before anything is finalized -/

/-- The live objects with mark 2. -/
def Doomed (h : Heap) (x : ObjRef) : Prop := (h.obj x).destroyed = false ∧ (h.obj x).mark = 2

/-- What the first two passes and the removal of the revived roots give. -/
structure Condemned (h₀ : Heap) (R : Ref → ℕ) (h : Heap) : Prop where
  shape : Marking h₀ h
  unreferred : h.unreferred = []
  isolated : ∀ i ∈ h.isolated, Doomed h i
  nodup : h.isolated.Nodup
  order : h.isolated.Pairwise fun a b => ¬ ReflTransGen (Edge (links h₀)) b a
  rooted : ∀ x, Doomed h x → ReachableFrom (links h₀) {i | i ∈ h.isolated} x
  marks : ∀ x, (h₀.obj x).destroyed = false →
    (h.obj x).mark = 2 ∨ (h.obj x).mark = 0 ∧ (h.obj x).refCountScan = 0
  dead : ∀ x, (h₀.obj x).destroyed = true → h.obj x = h₀.obj x
  garbage : ∀ x, Doomed h x → R (.strong x) = 0 ∧ ∀ y, Edge (links h₀) y x → Doomed h y
  held : ∀ x, (h₀.obj x).destroyed = false → ¬ Doomed h x →
    0 < R (.strong x) ∨ ∃ y, Edge (links h₀) y x ∧ ¬ Doomed h y
  doomed : ∀ x, ReachableFrom (links h₀) {i | i ∈ h₀.unreferred} x →
    ¬ ReachableFrom (links h₀) {r | 0 < R (.strong r) ∨
      (h₀.obj r).destroyed = false ∧
        ¬ ReachableFrom (links h₀) {i | i ∈ h₀.unreferred} r} x → Doomed h x

theorem dropRevived_spec {h : Heap} (hf : ∀ i ∈ h.isolated, (h.obj i).freed = false)
    (hm : ∀ i ∈ h.isolated, (h.obj i).mark = 0 ∨ (h.obj i).mark = 2)
    (hnd : h.isolated.Nodup) (hu : h.unreferred = []) :
    ∃ is, dropRevived h = .ok {h with isolated := is} ∧ is.Sublist h.isolated ∧
      ∀ i, i ∈ is ↔ i ∈ h.isolated ∧ (h.obj i).mark = 2 := by
  obtain ⟨h', hrun, ⟨is, rfl, hsub, hin, hkeep, -⟩⟩ := PendingWork.foldlM_consumes
    (f := fun (h : Heap) (i : ObjRef) => do
      let x ← h.deref i
      if x.mark ≠ 0 ∧ x.mark ≠ 2 then .error (.rootNotScanned i)
      else if x.mark ≠ 2 then .ok (h.listDelInit i)
      else .ok h)
    (I := fun P u => ∃ is : List ObjRef, u = {h with isolated := is} ∧ is.Sublist h.isolated ∧
      (∀ i ∈ is, i ∈ P ∨ (h.obj i).mark = 2) ∧
      (∀ i ∈ h.isolated, (h.obj i).mark = 2 → i ∈ is) ∧ ∀ i ∈ P, i ∈ h.isolated)
    (fun i P u hu' => by
      obtain ⟨is, rfl, hsub, hin, hkeep, hP⟩ := hu'
      have hi := hP i List.mem_cons_self
      have hder : Heap.deref {h with isolated := is} i = .ok (h.obj i) :=
        Heap.deref_ok (hf i hi)
      rw [hder]
      simp only [bind, Except.bind]
      rw [if_neg (by have := hm i hi; omega)]
      by_cases h2 : (h.obj i).mark = 2
      · rw [if_neg (by simpa using h2)]
        refine ⟨_, rfl, is, rfl, hsub, fun j hj => ?_, hkeep,
          fun j hj => hP j (List.mem_cons_of_mem _ hj)⟩
        rcases hin j hj with hj | hj
        · rcases List.mem_cons.mp hj with rfl | hj
          · exact Or.inr h2
          · exact Or.inl hj
        · exact Or.inr hj
      · rw [if_pos h2]
        refine ⟨_, rfl, is.erase i, ?_, List.erase_sublist.trans hsub, fun j hj => ?_,
          fun j hj hj2 => ?_, fun j hj => hP j (List.mem_cons_of_mem _ hj)⟩
        · simp [Heap.listDelInit, hu]
        · rcases hin j (List.mem_of_mem_erase hj) with hj' | hj'
          · rcases List.mem_cons.mp hj' with rfl | hj'
            · exact absurd hj (hsub.nodup hnd).not_mem_erase
            · exact Or.inl hj'
          · exact Or.inr hj'
        · refine (List.mem_erase_of_ne ?_).mpr (hkeep j hj hj2)
          rintro rfl
          exact h2 hj2)
    h.isolated [] h ⟨h.isolated, rfl, .refl _, fun i hi => Or.inl (by simpa using hi),
      fun i hi _ => hi, fun i hi => by simpa using hi⟩
  refine ⟨is, hrun, hsub, fun i => ⟨fun hi => ⟨hsub.subset hi, ?_⟩, fun hi => hkeep i hi.1 hi.2⟩⟩
  exact (hin i hi).resolve_left List.not_mem_nil

/-- All that precedes the finalizing pass. -/
theorem condemned_spec {h₀ : Heap} {R : Ref → ℕ} (hC : Collectable h₀ R) {fuel : ℕ}
    (hfuel : 2 * h₀.size < fuel) (hlen : h₀.unreferred.length < fuel) :
    ∃ h₁ h₂ h₃, markCandidates fuel fuel {h₀ with isolated := []} = .ok h₁ ∧
      scanRoots fuel h₁ = .ok h₂ ∧ dropRevived h₂ = .ok h₃ ∧ Condemned h₀ R h₃ := by
  have hiso : {h₀ with isolated := []} = h₀ := by rw [← hC.isolated]
  rw [hiso]
  obtain ⟨h₁, hrun₁, hL, hu₁⟩ := markCandidates_spec hC (by omega : h₀.size < fuel) fuel h₀
    (.start hC) hlen
  obtain ⟨h₂, hrun₂, hI⟩ := scanRoots_spec hC hL hfuel
  have hmem : ∀ {x}, x ∈ marked h₁ ↔ (h₁.obj x).mark = 1 := mem_marked_iff hC hL
  have hsplit := fun {x} hx => hI.split hC hL (x := x) hx
  have halive : ∀ x ∈ marked h₁, (h₀.obj x).destroyed = false :=
    fun x hx => marked_alive hC hL (hmem.mp hx)
  have hsub : marked h₁ ⊆ Finset.range h₀.size :=
    fun x hx => Finset.mem_range.mpr (hC.counted.lt_size (halive x hx))
  have hclosed : ∀ y ∈ marked h₁, ∀ z, Edge (links h₀) y z → z ∈ marked h₁ :=
    fun y hy z he => hmem.mpr (hL.closed y (hmem.mp hy) z he)
  have hisoM : ∀ i ∈ h₂.isolated, i ∈ marked h₁ := by
    intro i hi
    rw [hI.isolated] at hi
    exact hmem.mpr (hL.isolated i hi)
  obtain ⟨is, hrun₃, hsubl, his⟩ := dropRevived_spec (h := h₂)
    (fun i hi => by
      rw [hI.shape.freed]
      exact hC.counted.not_freed (halive i (hisoM i hi)))
    (fun i hi => (hsplit (hisoM i hi)).imp (·.1) (·.1))
    (hI.isolated ▸ hL.nodup) (hI.unreferred.trans hu₁)
  refine ⟨h₁, h₂, _, hrun₁, hrun₂, hrun₃, ?_⟩
  set h₃ : Heap := {h₂ with isolated := is} with hh₃
  -- live objects outside the marked set were never touched
  have hout : ∀ x, x ∉ marked h₁ → (h₀.obj x).destroyed = false →
      (h₃.obj x).mark = 0 ∧ (h₃.obj x).refCountScan = 0 := by
    intro x hx hlive
    have hobj : h₃.obj x = h₁.obj x := hI.outside x hx
    rw [hobj, hL.keep x (fun hm => hx (hmem.mpr hm)), hL.scan x hlive]
    refine ⟨(hC.marks x hlive).1, ?_⟩
    by_contra hne
    obtain ⟨y, hy, he⟩ := inner_pos_iff.mp (Nat.pos_of_ne_zero hne)
    exact hx (hclosed y hy x he)
  have hdead : ∀ x, (h₀.obj x).destroyed = false ↔ (h₃.obj x).destroyed = false := by
    intro x
    rw [← hI.shape.destroyed x]
  have hdoom : ∀ x, Doomed h₃ x ↔ x ∈ marked h₁ ∧ ¬ Survives h₀ R (marked h₁) x := by
    intro x
    constructor
    · rintro ⟨hlive, hm⟩
      have hx : x ∈ marked h₁ := by
        by_contra hn
        have := (hout x hn ((hdead x).mpr hlive)).1
        omega
      rcases hsplit hx with ⟨hm', -⟩ | ⟨-, hns⟩
      · change (h₂.obj x).mark = 2 at hm
        omega
      · exact ⟨hx, hns⟩
    · rintro ⟨hx, hns⟩
      refine ⟨(hdead x).mp (halive x hx), ?_⟩
      rcases hsplit hx with ⟨-, -, hs⟩ | ⟨hm, -⟩
      · exact absurd hs hns
      · exact hm
  refine ⟨?_, ?_, ?_, ?_, ?_, ?_, ?_, ?_, ?_, ?_, ?_⟩
  · exact hI.shape.lists h₂.unreferred is
  · exact hI.unreferred.trans hu₁
  · intro i hi
    obtain ⟨hi₂, hm⟩ := (his i).mp hi
    exact ⟨(hdead i).mp (halive i (hisoM i hi₂)), hm⟩
  · exact hsubl.nodup (hI.isolated ▸ hL.nodup)
  · exact (hI.isolated ▸ hL.order : h₂.isolated.Pairwise _).sublist hsubl
  · intro x hx
    obtain ⟨hxM, hns⟩ := (hdoom x).mp hx
    obtain ⟨i, hi, hr⟩ := hL.rooted x (hmem.mp hxM)
    refine ⟨i, (his i).mpr ⟨hI.isolated ▸ hi, ?_⟩, hr⟩
    -- a revived root would have revived `x`
    rcases hsplit (hmem.mpr (hL.isolated i hi)) with ⟨-, -, u, hu, hui⟩ | ⟨hm, -⟩
    · exact absurd ⟨u, hu, hui.trans hr⟩ hns
    · exact hm
  · intro x hx
    by_cases hxM : x ∈ marked h₁
    · rcases hsplit hxM with ⟨hm, hs, -⟩ | ⟨hm, -⟩
      · exact Or.inr ⟨hm, hs⟩
      · exact Or.inl hm
    · exact Or.inr (hout x hxM hx)
  · intro x hx
    have hxM : x ∉ marked h₁ := fun hn => by
      rw [halive x hn] at hx
      cases hx
    exact (hI.outside x hxM).trans (hL.dead x hx)
  · intro x hx
    obtain ⟨hxM, hns⟩ := (hdoom x).mp hx
    obtain ⟨hR, hpred⟩ := garbage_held_by_garbage hsub hxM hns
    refine ⟨hR, fun y he => (hdoom y).mpr ?_⟩
    by_cases hy : y ∈ Finset.range h₀.size
    · exact hpred y hy he
    · have hu := hC.counted.unallocated y
        (Nat.le_of_not_lt fun hlt => hy (Finset.mem_range.mpr hlt))
      exact absurd he (hC.no_edge_of_destroyed (by rw [hu]; rfl))
  · intro x hx hnd
    have hpos := hC.counted.alive x hx
    rw [refCount_eq_total hC.counted] at hpos
    have hcase : x ∉ marked h₁ ∨ Survives h₀ R (marked h₁) x := by
      by_contra hcon
      push Not at hcon
      exact hnd ((hdoom x).mpr hcon)
    rcases held_of_not_garbage hsub hclosed hpos hcase with hR | ⟨y, -, he, hy⟩
    · exact Or.inl hR
    · refine Or.inr ⟨y, he, fun hdy => ?_⟩
      obtain ⟨hyM, hns⟩ := (hdoom y).mp hdy
      exact hy.elim (fun h => h hyM) hns
  · intro x hx hun
    have hmarkedAll : ∀ r, ReachableFrom (links h₀) {i | i ∈ h₀.unreferred} r → r ∈ marked h₁ := by
      rintro r ⟨i, hi, hr⟩
      have hi₁ : i ∈ marked h₁ := by
        rcases hL.taken i hi with h | h
        · rw [hu₁] at h
          exact absurd h List.not_mem_nil
        · exact hmem.mpr h
      exact closed_of_reachable (p := (· ∈ marked h₁)) (fun y z hy he => hclosed y hy z he) hi₁ hr
    refine (hdoom x).mpr ⟨hmarkedAll x hx, garbage_of_unreachable hsub fun hr => hun ?_⟩
    obtain ⟨r, ⟨-, hr⟩, hrx⟩ := hr
    refine ⟨r, hr.imp_right fun hnM => ⟨?_, fun hreach => hnM (hmarkedAll r hreach)⟩, hrx⟩
    -- a destroyed object refers to nothing, and `x` is alive
    rcases ReflTransGen.cases_head hrx with rfl | ⟨z, he, -⟩
    · exact absurd (hmarkedAll r hx) hnM
    · cases hd : (h₀.obj r).destroyed with
      | false => rfl
      | true => exact absurd he (hC.no_edge_of_destroyed hd)

end Deai.CollectorScan
