import Deai.Accounting
import Deai.Collector

/-!
# First pass: counting the references met from the candidates

After the pass the marked objects are exactly those reachable from a candidate,
the trial count of each object is the number of references from marked objects,
and every marked object is reachable from a root in `isolated`. The list keeps
the latest root first, and no root reaches one that stands before it: the code
comment asks for more, but this is what the finalizing pass needs.
-/
namespace Deai.CollectorMark
open Value ObjectHeap TrialDeletion Accounting Collector Relation

/-- A heap as the collector finds it outside a collection: live objects carry no
marks, what is destroyed has no members, and the scan sees every strong
reference that a member holds. -/
structure Collectable (h : Heap) (R : Ref → ℕ) : Prop where
  counted : Counted h R
  visible : ∀ o, ∀ m ∈ (h.obj o).members, m.2.Visible
  finished : ∀ o, (h.obj o).destroyed = true → (h.obj o).members = []
  marks : ∀ o, (h.obj o).destroyed = false → (h.obj o).mark = 0 ∧ (h.obj o).refCountScan = 0
  isolated : h.isolated = []
  headInit : h.headInit = true

theorem Collectable.no_edge_of_destroyed {h : Heap} {R : Ref → ℕ} (hC : Collectable h R)
    {y z : ObjRef} (hy : (h.obj y).destroyed = true) : ¬ Edge (links h) y z := by
  unfold Edge links memberRefs
  rw [hC.finished y hy]
  simp

/-- The objects the scan of `o` passes on to, in order. -/
def scannedRefs (h : Heap) (o : ObjRef) : List ObjRef :=
  (h.obj o).members.flatMap (·.2.scanned)

theorem foldlM_members (visit : ObjRef → Heap → Except Fault Heap)
    (ms : List (String × DiValue)) (h : Heap) :
    ms.foldlM (fun h m => diScanType visit m.2 h) h =
      (ms.flatMap (·.2.scanned)).foldlM (fun h z => visit z h) h := by
  induction ms generalizing h with
  | nil => rfl
  | cons m ms ih =>
      rw [List.foldlM_cons, List.flatMap_cons, List.foldlM_append, diScanType_eq]
      exact congrArg _ (funext fun t => ih t)

theorem count_scanned {ms : List (String × DiValue)} (hv : ∀ m ∈ ms, m.2.Visible)
    (x : ObjRef) :
    (ms.flatMap (·.2.scanned)).count x = (ms.flatMap (·.2.refs)).count (.strong x) := by
  induction ms with
  | nil => rfl
  | cons m ms ih =>
      rw [List.flatMap_cons, List.flatMap_cons, List.count_append, List.count_append,
        hv m List.mem_cons_self x, ih fun m' hm' => hv m' (List.mem_cons_of_mem _ hm')]

theorem count_scannedRefs {h : Heap} {o : ObjRef}
    (hv : ∀ m ∈ (h.obj o).members, m.2.Visible) (x : ObjRef) :
    (scannedRefs h o).count x = links h o x := count_scanned hv x

theorem mem_scannedRefs {h : Heap} {o x : ObjRef}
    (hv : ∀ m ∈ (h.obj o).members, m.2.Visible) :
    x ∈ scannedRefs h o ↔ Edge (links h) o x := by
  rw [← List.count_pos_iff, count_scannedRefs hv]
  exact Iff.rfl

/-- Only marks, trial counts and lists differ between the two heaps. -/
structure Marking (h₀ h : Heap) : Prop where
  size : h.size = h₀.size
  obj : ∀ x, h.obj x =
    {h₀.obj x with mark := (h.obj x).mark, refCountScan := (h.obj x).refCountScan}
  headInit : h.headInit = h₀.headInit
  log : h.log = h₀.log

theorem Marking.refl (h : Heap) : Marking h h := ⟨rfl, fun _ => rfl, rfl, rfl⟩

theorem Marking.members {h₀ h : Heap} (hk : Marking h₀ h) (x : ObjRef) :
    (h.obj x).members = (h₀.obj x).members := by rw [hk.obj x]

theorem Marking.refCount {h₀ h : Heap} (hk : Marking h₀ h) (x : ObjRef) :
    (h.obj x).refCount = (h₀.obj x).refCount := by rw [hk.obj x]

theorem Marking.freed {h₀ h : Heap} (hk : Marking h₀ h) (x : ObjRef) :
    (h.obj x).freed = (h₀.obj x).freed := by rw [hk.obj x]

theorem Marking.destroyed {h₀ h : Heap} (hk : Marking h₀ h) (x : ObjRef) :
    (h.obj x).destroyed = (h₀.obj x).destroyed := by rw [hk.obj x]

theorem Marking.scannedRefs {h₀ h : Heap} (hk : Marking h₀ h) (x : ObjRef) :
    scannedRefs h x = CollectorMark.scannedRefs h₀ x := by
  unfold CollectorMark.scannedRefs
  rw [hk.members x]

/-- An update of mark and trial count of one object. -/
theorem Marking.modify {h₀ h : Heap} (hk : Marking h₀ h) (o : ObjRef) (f : DiObject → DiObject)
    (hf : ∀ x, f x = {x with mark := (f x).mark, refCountScan := (f x).refCountScan}) :
    Marking h₀ (h.modify o f) := by
  refine ⟨hk.size, fun x => ?_, hk.headInit, hk.log⟩
  rw [Heap.modify_obj]
  split_ifs with hx
  · exact (hf _).trans (congrArg (fun y : DiObject => {y with
      mark := (f (h.obj x)).mark, refCountScan := (f (h.obj x)).refCountScan}) (hk.obj x))
  · exact hk.obj x

theorem Marking.lists {h₀ h : Heap} (hk : Marking h₀ h) (us is : List ObjRef) :
    Marking h₀ {h with unreferred := us, isolated := is} := ⟨hk.size, hk.obj, hk.headInit, hk.log⟩

/-- The objects that carry mark 1. -/
def marked (h : Heap) : Finset ObjRef :=
  (Finset.range h.size).filter fun x => (h.obj x).mark = 1

def unmarkedCount (h : Heap) : ℕ :=
  ((Finset.range h.size).filter fun x => (h.obj x).mark ≠ 1).card

/-- The heap `h` reached while the candidate `i` is scanned from `h₁`, with the
objects `P` still to be visited. -/
structure MarkInv (h₀ h₁ : Heap) (i : ObjRef) (P : List ObjRef) (h : Heap) : Prop where
  shape : Marking h₀ h
  dead : ∀ x, (h₀.obj x).destroyed = true → h.obj x = h₀.obj x
  mono : ∀ x, (h₁.obj x).mark = 1 → (h.obj x).mark = 1
  keep : ∀ x, (h.obj x).mark ≠ 1 → (h.obj x).mark = (h₁.obj x).mark
  scan : ∀ x, (h₀.obj x).destroyed = false → (h.obj x).refCountScan + P.count x =
    inner (links h₀) (marked h) x + if x = i then 1 else 0
  closed : ∀ y, (h.obj y).mark = 1 → ∀ z, Edge (links h₀) y z → (h.obj z).mark = 1 ∨ z ∈ P
  root : (h.obj i).mark = 1 ∨ i ∈ P
  todo : ∀ x ∈ P, ReflTransGen (Edge (links h₀)) i x
  new : ∀ x, (h.obj x).mark = 1 → (h₁.obj x).mark = 1 ∨ ReflTransGen (Edge (links h₀)) i x
  unreferred : h.unreferred.Sublist h₁.unreferred
  taken : ∀ x ∈ h₁.unreferred, x ∈ h.unreferred ∨ (h.obj x).mark = 1
  untouched : ∀ x ∈ h.unreferred, (h.obj x).mark ≠ 1
  nodup : h.unreferred.Nodup
  isolated : h.isolated.Sublist h₁.isolated
  removed : ∀ x ∈ h₁.isolated, x ∈ h.isolated ∨ ReflTransGen (Edge (links h₀)) i x

theorem alive_of_reach {h : Heap} {R : Ref → ℕ} (hc : Counted h R) {i x : ObjRef}
    (hi : (h.obj i).destroyed = false) (hx : ReflTransGen (Edge (links h)) i x) :
    (h.obj x).destroyed = false :=
  closed_of_reachable (p := fun x => (h.obj x).destroyed = false)
    (fun _ _ _ he => hc.alive_of_edge he) hi hx

theorem marked_modify_eq {h : Heap} {o : ObjRef} {f : DiObject → DiObject}
    (hf : ((f (h.obj o)).mark = 1) ↔ (h.obj o).mark = 1) : marked (h.modify o f) = marked h := by
  unfold marked
  apply Finset.filter_congr
  intro x _
  rw [Heap.modify_obj]
  split_ifs with hx
  · rw [hx, hf]
  · exact Iff.rfl

theorem marked_modify_insert {h : Heap} {o : ObjRef} (ho : o < h.size)
    {f : DiObject → DiObject} (hf : (f (h.obj o)).mark = 1) :
    marked (h.modify o f) = insert o (marked h) := by
  ext x
  simp only [marked, Finset.mem_filter, Finset.mem_range, Heap.modify_size, Finset.mem_insert]
  rw [Heap.modify_obj]
  by_cases hx : x = o
  · rw [if_pos hx, hx]
    simp [ho, hf]
  · rw [if_neg hx]
    simp [hx]

/-! ## One scan -/

theorem diScanObject_stop {pre : ObjRef → ℤ → Heap → Except Fault (ℤ × Heap)}
    {post : ObjRef → Heap → Except Fault Heap} {state next : ℤ} {o : ObjRef} {h h' : Heap}
    (hpre : pre o state h = .ok (next, h')) (hn : next < 0) (fuel : ℕ) :
    diScanObject pre post (fuel + 1) state o h = .ok h' := by
  unfold diScanObject
  rw [hpre]
  simp only [bind, Except.bind]
  rw [if_neg (by omega)]

theorem diScanObject_descend {pre : ObjRef → ℤ → Heap → Except Fault (ℤ × Heap)}
    {post : ObjRef → Heap → Except Fault Heap} {state next : ℤ} {o : ObjRef} {h h' : Heap}
    (hpre : pre o state h = .ok (next, h')) (hn : 0 ≤ next) (fuel : ℕ) :
    diScanObject pre post (fuel + 1) state o h =
      ((scannedRefs h' o).foldlM (fun h z => diScanObject pre post fuel next z h) h') >>=
        post o := by
  rw [diScanObject, hpre]
  simp only [bind, Except.bind]
  rw [if_pos hn, foldlM_members]
  rfl

theorem bind_noPost (x : Except Fault Heap) (o : ObjRef) : x >>= noPost o = x := by
  cases x <;> rfl

/-- The update of the first hook, whether it descends or not. -/
def markOnce (o : ObjRef) (h : Heap) : Heap :=
  (h.listDelInit o).modify o fun x => {x with refCountScan := x.refCountScan + 1, mark := 1}

theorem markOnce_mark (x : ObjRef) (h : Heap) (y : ObjRef) :
    ((markOnce x h).obj y).mark = if y = x then 1 else (h.obj y).mark := by
  unfold markOnce
  rw [Heap.modify_obj]
  split_ifs <;> rfl

theorem marked_markOnce {x y : ObjRef} {h : Heap} (hy : (h.obj y).mark = 1) :
    ((markOnce x h).obj y).mark = 1 := by
  rw [markOnce_mark, hy, ite_self]

theorem diCollectGarbageMark_eq {h : Heap} {o : ObjRef} (hf : (h.obj o).freed = false)
    (state : ℤ) :
    diCollectGarbageMark o state h =
      .ok (if (h.obj o).mark = 1 then -1 else 0, markOnce o h) := by
  unfold diCollectGarbageMark markOnce
  rw [Heap.deref_ok hf]
  simp only [bind, Except.bind]
  split_ifs with hm
  · have hx : (h.obj o) = {h.obj o with mark := 1} := by rw [← hm]
    simp only [Heap.modify, Heap.listDelInit_obj]
    rw [hx]
  · simp [Heap.modify]

theorem MarkInv.visit {h₀ h₁ h : Heap} {R : Ref → ℕ} {i x : ObjRef} {P Q : List ObjRef}
    (hC : Collectable h₀ R) (hI : MarkInv h₀ h₁ i (x :: P) h)
    (hlive : (h₀.obj x).destroyed = false)
    (hQ : (h.obj x).mark = 1 ∧ Q = P ∨ (h.obj x).mark ≠ 1 ∧ Q = scannedRefs h₀ x ++ P) :
    MarkInv h₀ h₁ i Q (markOnce x h) := by
  have hx : x < h.size := hI.shape.size ▸ hC.counted.lt_size hlive
  have hmk := markOnce_mark x h
  have hsub : ∀ y ∈ P, y ∈ Q := by
    intro y hy
    rcases hQ with ⟨-, rfl⟩ | ⟨-, rfl⟩
    · exact hy
    · exact List.mem_append_right _ hy
  have hone : ∀ y, (h.obj y).mark = 1 → ((markOnce x h).obj y).mark = 1 :=
    fun y => marked_markOnce
  refine ⟨?_, ?_, ?_, ?_, ?_, ?_, ?_, ?_, ?_, ?_, ?_, ?_, hI.nodup.erase x, ?_, ?_⟩
  · exact (hI.shape.lists _ _).modify x _ fun _ => rfl
  · intro y hy
    rw [← hI.dead y hy]
    refine Heap.modify_obj_ne _ _ ?_
    rintro rfl
    rw [hlive] at hy
    cases hy
  · exact fun y hy => hone y (hI.mono y hy)
  · intro y hy
    rw [hmk] at hy ⊢
    split_ifs at hy ⊢ with hyx
    · exact absurd rfl hy
    · exact hI.keep y hy
  · intro y hy
    have hs := hI.scan y hy
    have hscan : ((markOnce x h).obj y).refCountScan =
        (h.obj y).refCountScan + if y = x then 1 else 0 := by
      unfold markOnce
      rw [Heap.modify_obj]
      split_ifs <;> rfl
    have hcount : (x :: P).count y = P.count y + if y = x then 1 else 0 := by
      rw [List.count_cons]
      by_cases hyx : y = x
      · simp [hyx]
      · simp [hyx, Ne.symm hyx]
    rw [hcount] at hs
    rcases hQ with ⟨hm, rfl⟩ | ⟨hm, rfl⟩
    · have hmarked : marked (markOnce x h) = marked h :=
        marked_modify_eq (h := h.listDelInit x) (by simp [hm])
      rw [hscan, hmarked]
      omega
    · have hmarked : marked (markOnce x h) = insert x (marked h) :=
        marked_modify_insert (h := h.listDelInit x) hx rfl
      have hnot : x ∉ marked h := by simp [marked, hm]
      rw [hscan, hmarked, List.count_append, count_scannedRefs (hC.visible x)]
      unfold TrialDeletion.inner at hs ⊢
      rw [Finset.sum_insert hnot]
      omega
  · intro y hy z he
    rw [hmk] at hy
    by_cases hz : z = x
    · exact Or.inl (by rw [hmk, if_pos hz])
    · have hold : (h.obj y).mark = 1 → ((markOnce x h).obj z).mark = 1 ∨ z ∈ Q := by
        intro hy
        rcases hI.closed y hy z he with h₁ | h₁
        · exact Or.inl (hone z h₁)
        · exact Or.inr (hsub z ((List.mem_cons.mp h₁).resolve_left hz))
      split_ifs at hy with hyx
      · rcases hQ with ⟨hm, -⟩ | ⟨-, rfl⟩
        · exact hold (hyx ▸ hm)
        · subst hyx
          exact Or.inr (List.mem_append_left _ ((mem_scannedRefs (hC.visible y)).mpr he))
      · exact hold hy
  · by_cases hix : i = x
    · exact Or.inl (by rw [hmk, if_pos hix])
    · exact hI.root.imp (hone i) fun hP => hsub i ((List.mem_cons.mp hP).resolve_left hix)
  · intro y hy
    rcases hQ with ⟨-, rfl⟩ | ⟨-, rfl⟩
    · exact hI.todo y (List.mem_cons_of_mem _ hy)
    · rcases List.mem_append.mp hy with hy | hy
      · exact (hI.todo x List.mem_cons_self).tail ((mem_scannedRefs (hC.visible x)).mp hy)
      · exact hI.todo y (List.mem_cons_of_mem _ hy)
  · intro y hy
    rw [hmk] at hy
    split_ifs at hy with hyx
    · exact Or.inr (hyx ▸ hI.todo x List.mem_cons_self)
    · exact hI.new y hy
  · exact List.erase_sublist.trans hI.unreferred
  · intro y hy
    by_cases hyx : y = x
    · exact Or.inr (by rw [hmk, if_pos hyx])
    · rcases hI.taken y hy with h₁ | h₁
      · exact Or.inl ((List.mem_erase_of_ne hyx).mpr h₁)
      · exact Or.inr (hone y h₁)
  · intro y hy
    have hyx : y ≠ x := by
      rintro rfl
      exact hI.nodup.not_mem_erase hy
    rw [hmk, if_neg hyx]
    exact hI.untouched y (List.mem_of_mem_erase hy)
  · exact List.erase_sublist.trans hI.isolated
  · intro y hy
    by_cases hyx : y = x
    · exact Or.inr (hyx ▸ hI.todo x List.mem_cons_self)
    · exact (hI.removed y hy).imp_left (List.mem_erase_of_ne hyx).mpr

theorem unmarkedCount_markOnce {h : Heap} {x : ObjRef} :
    unmarkedCount (markOnce x h) ≤ unmarkedCount h ∧
      (x < h.size → (h.obj x).mark ≠ 1 → unmarkedCount (markOnce x h) < unmarkedCount h) := by
  have hmk := markOnce_mark x h
  have hsub : ((Finset.range h.size).filter fun y => ((markOnce x h).obj y).mark ≠ 1) ⊆
      (Finset.range h.size).filter fun y => (h.obj y).mark ≠ 1 := by
    intro y hy
    rw [Finset.mem_filter, hmk] at hy
    rw [Finset.mem_filter]
    refine ⟨hy.1, fun h₁ => hy.2 ?_⟩
    rw [h₁, ite_self]
  refine ⟨Finset.card_le_card hsub, fun hx hm => Finset.card_lt_card ?_⟩
  refine ⟨hsub, fun hcon => ?_⟩
  have hmem := hcon (Finset.mem_filter.mpr ⟨Finset.mem_range.mpr hx, hm⟩)
  rw [Finset.mem_filter, hmk, if_pos rfl] at hmem
  exact hmem.2 rfl

/-- A scan whose visits each consume the first pending object, and add what that refers to if it was
not marked, visits everything it owes. -/
theorem scan_consumes {h₀ h : Heap} {R : Ref → ℕ} {i : ObjRef} {I : List ObjRef → Heap → Prop}
    (hc : Counted h₀ R) (hshape : ∀ P h, I P h → Marking h₀ h)
    (hlive : ∀ x P h, I (x :: P) h → (h₀.obj x).destroyed = false)
    (hvisit : ∀ x P Q h, I (x :: P) h →
      (h.obj x).mark = 1 ∧ Q = P ∨ (h.obj x).mark ≠ 1 ∧ Q = scannedRefs h₀ x ++ P →
        I Q (markOnce x h))
    (hI : I [i] h) {fuel : ℕ} (hfuel : unmarkedCount h < fuel) :
    ∃ h', diScanObject diCollectGarbageMark noPost fuel 0 i h = .ok h' ∧ I [] h' := by
  obtain ⟨h', hrun, hI', -⟩ := PendingWork.visit_consumes
    (f := fun fuel x h => diScanObject diCollectGarbageMark noPost fuel 0 x h)
    (I := I) (μ := unmarkedCount)
    (fun fuel x P h hI => by
      have hx := hlive x P h hI
      have hk := hshape _ h hI
      have hf : (h.obj x).freed = false := by
        rw [hk.freed]
        exact hc.not_freed hx
      have hpre := diCollectGarbageMark_eq hf 0
      by_cases hm : (h.obj x).mark = 1
      · rw [if_pos hm] at hpre
        exact Or.inl ⟨_, diScanObject_stop hpre (by omega) fuel,
          hvisit x P P h hI (Or.inl ⟨hm, rfl⟩), unmarkedCount_markOnce.1⟩
      · rw [if_neg hm] at hpre
        have hI' := hvisit x P _ h hI (Or.inr ⟨hm, rfl⟩)
        have hsize : x < h.size := hk.size ▸ hc.lt_size hx
        refine Or.inr ⟨scannedRefs h₀ x, markOnce x h, ?_, hI', unmarkedCount_markOnce.2 hsize hm⟩
        rw [diScanObject_descend hpre le_rfl, bind_noPost, (hshape _ _ hI').scannedRefs])
    fuel i [] h hI hfuel
  exact ⟨h', hrun, hI'⟩

/-- The scan from one candidate visits everything it owes. -/
theorem mark_scan {h₀ h₁ h : Heap} {R : Ref → ℕ} {i : ObjRef} (hC : Collectable h₀ R)
    (hi : (h₀.obj i).destroyed = false) (hI : MarkInv h₀ h₁ i [i] h) {fuel : ℕ}
    (hfuel : unmarkedCount h < fuel) :
    ∃ h', diScanObject diCollectGarbageMark noPost fuel 0 i h = .ok h' ∧
      MarkInv h₀ h₁ i [] h' := by
  have hlive : ∀ x P h, MarkInv h₀ h₁ i (x :: P) h → (h₀.obj x).destroyed = false :=
    fun x _ _ hI => alive_of_reach hC.counted hi (hI.todo x List.mem_cons_self)
  exact scan_consumes hC.counted (fun _ _ hI => hI.shape) hlive
    (fun x P Q h hI hQ => hI.visit hC (hlive x P h hI) hQ) hI hfuel

/-! ## All candidates -/

/-- Between two candidates of the first pass. -/
structure MarkLoop (h₀ h : Heap) : Prop where
  shape : Marking h₀ h
  dead : ∀ x, (h₀.obj x).destroyed = true → h.obj x = h₀.obj x
  keep : ∀ x, (h.obj x).mark ≠ 1 → (h.obj x).mark = (h₀.obj x).mark
  scan : ∀ x, (h₀.obj x).destroyed = false →
    (h.obj x).refCountScan = inner (links h₀) (marked h) x
  closed : ∀ y, (h.obj y).mark = 1 → ∀ z, Edge (links h₀) y z → (h.obj z).mark = 1
  origin : ∀ x, (h.obj x).mark = 1 → ReachableFrom (links h₀) {i | i ∈ h₀.unreferred} x
  unreferred : h.unreferred.Sublist h₀.unreferred
  taken : ∀ x ∈ h₀.unreferred, x ∈ h.unreferred ∨ (h.obj x).mark = 1
  untouched : ∀ x ∈ h.unreferred, (h.obj x).mark ≠ 1
  isolated : ∀ x ∈ h.isolated, (h.obj x).mark = 1
  nodup : h.isolated.Nodup
  rooted : ∀ x, (h.obj x).mark = 1 → ReachableFrom (links h₀) {i | i ∈ h.isolated} x
  order : h.isolated.Pairwise fun a b => ¬ ReflTransGen (Edge (links h₀)) b a

theorem MarkLoop.start {h : Heap} {R : Ref → ℕ} (hC : Collectable h R) : MarkLoop h h := by
  have hmark : ∀ x, (h.obj x).mark ≠ 1 := by
    intro x hx
    have := hC.counted.calm x
    rw [hx] at this
    cases this
  have hempty : marked h = ∅ := by
    unfold marked
    exact Finset.filter_false_of_mem fun x _ => hmark x
  have hno : ∀ {p : Prop} (x : ObjRef), (h.obj x).mark = 1 → p := fun x hx => absurd hx (hmark x)
  refine ⟨.refl h, fun _ _ => rfl, fun _ _ => rfl, ?_, fun y hy => hno y hy, fun y hy => hno y hy, .refl _,
    fun x hx => Or.inl hx, fun x _ => hmark x, ?_, ?_, fun y hy => hno y hy, ?_⟩
  · intro x hx
    rw [(hC.marks x hx).2, hempty]
    rfl
  · rw [hC.isolated]
    exact fun x hx => absurd hx List.not_mem_nil
  · rw [hC.isolated]
    exact List.nodup_nil
  · rw [hC.isolated]
    exact List.Pairwise.nil

theorem MarkLoop.scan_start {h₀ h : Heap} {R : Ref → ℕ} {i : ObjRef} (hC : Collectable h₀ R)
    (hL : MarkLoop h₀ h) : MarkInv h₀ h i [i] h := by
  refine ⟨hL.shape, hL.dead, fun _ hx => hx, fun _ _ => rfl, ?_, ?_, Or.inr List.mem_cons_self, ?_,
    fun _ hx => Or.inl hx,
    .refl _, fun _ hx => Or.inl hx, hL.untouched, ?_, .refl _, fun _ hx => Or.inl hx⟩
  · intro x hx
    rw [hL.scan x hx]
    by_cases hxi : x = i
    · simp [hxi]
    · simp [hxi, Ne.symm hxi]
  · exact fun y hy z he => Or.inl (hL.closed y hy z he)
  · intro x hx
    rw [List.mem_singleton.mp hx]
  · exact hL.unreferred.nodup (List.nodup_append.mp hC.counted.nodup).1

/-- The heap the loop goes on with after the scan from `i`. -/
def addRoot (i : ObjRef) (h : Heap) : Heap :=
  {h.modify i (fun x => {x with refCountScan := x.refCountScan - 1}) with
    isolated := i :: h.isolated}

theorem addRoot_obj (i : ObjRef) (h : Heap) (x : ObjRef) :
    (addRoot i h).obj x =
      if x = i then {h.obj x with refCountScan := (h.obj x).refCountScan - 1} else h.obj x :=
  h.modify_obj i x fun x => {x with refCountScan := x.refCountScan - 1}

theorem MarkLoop.next {h₀ h h' : Heap} {i : ObjRef} (hL : MarkLoop h₀ h)
    (hi : i ∈ h.unreferred) (hlive : (h₀.obj i).destroyed = false)
    (hI : MarkInv h₀ h i [] h') : MarkLoop h₀ (addRoot i h') := by
  have hmk : ∀ x, ((addRoot i h').obj x).mark = (h'.obj x).mark := by
    intro x
    rw [addRoot_obj]
    split_ifs <;> rfl
  have hmarked : marked (addRoot i h') = marked h' :=
    Finset.filter_congr fun x _ => by rw [hmk]
  have hnew : i ∉ h'.isolated := fun hx =>
    hL.untouched i hi (hL.isolated i (hI.isolated.subset hx))
  refine ⟨?_, ?_, ?_, ?_, ?_, ?_, ?_, ?_, ?_, ?_, ?_, ?_, ?_⟩
  · exact (hI.shape.modify i _ fun _ => rfl).lists _ _
  · intro x hx
    rw [addRoot_obj, if_neg, hI.dead x hx]
    rintro rfl
    rw [hlive] at hx
    cases hx
  · intro x hx
    rw [hmk] at hx ⊢
    rw [hI.keep x hx]
    exact hL.keep x fun h₁ => hx (hI.mono x h₁)
  · intro x hx
    have hs := hI.scan x hx
    rw [List.count_nil] at hs
    have hscan : ((addRoot i h').obj x).refCountScan =
        (h'.obj x).refCountScan - if x = i then 1 else 0 := by
      rw [addRoot_obj]
      split_ifs <;> rfl
    rw [hscan, hmarked]
    omega
  · intro y hy z he
    rw [hmk] at hy ⊢
    exact (hI.closed y hy z he).resolve_right List.not_mem_nil
  · intro x hx
    rw [hmk] at hx
    rcases hI.new x hx with h₁ | h₁
    · exact hL.origin x h₁
    · exact ⟨i, hL.unreferred.subset hi, h₁⟩
  · exact hI.unreferred.trans hL.unreferred
  · intro x hx
    rw [hmk]
    rcases hL.taken x hx with h₁ | h₁
    · exact hI.taken x h₁
    · exact Or.inr (hI.mono x h₁)
  · intro x hx
    rw [hmk]
    exact hI.untouched x hx
  · intro x hx
    rw [hmk]
    rcases List.mem_cons.mp hx with rfl | hx
    · exact hI.root.resolve_right List.not_mem_nil
    · exact hI.mono x (hL.isolated x (hI.isolated.subset hx))
  · exact List.nodup_cons.mpr ⟨hnew, hI.isolated.nodup hL.nodup⟩
  · intro x hx
    rw [hmk] at hx
    rcases hI.new x hx with h₁ | h₁
    · obtain ⟨r, hr, hrx⟩ := hL.rooted x h₁
      rcases hI.removed r hr with h₂ | h₂
      · exact ⟨r, List.mem_cons_of_mem _ h₂, hrx⟩
      · exact ⟨i, List.mem_cons_self, h₂.trans hrx⟩
    · exact ⟨i, List.mem_cons_self, h₁⟩
  · refine List.pairwise_cons.mpr ⟨fun b hb hr => ?_, hL.order.sublist hI.isolated⟩
    -- an older root is marked, and what it reaches was marked before `i` was taken
    exact hL.untouched i hi (closed_of_reachable (p := fun x => (h.obj x).mark = 1)
      (fun y z hy he => hL.closed y hy z he) (hL.isolated b (hI.isolated.subset hb)) hr)

/-- A candidate that is not marked is scanned and becomes a root. -/
theorem markCandidates_cons {h h' : Heap} {i : ObjRef} {us : List ObjRef} {fuel : ℕ} (n : ℕ)
    (hu : h.unreferred = i :: us) (hf : (h.obj i).freed = false) (hmark : (h.obj i).mark = 0)
    (hrun : diScanObject diCollectGarbageMark noPost fuel 0 i h = .ok h') :
    markCandidates fuel (n + 1) h = markCandidates fuel n (addRoot i h') := by
  rw [markCandidates, hu]
  simp only [bind, Except.bind, Heap.deref_ok hf]
  rw [if_neg (by simpa using hmark), hrun]
  rfl

theorem unmarkedCount_le (h : Heap) : unmarkedCount h ≤ h.size := by
  have := Finset.card_filter_le (Finset.range h.size) fun x => (h.obj x).mark ≠ 1
  rwa [Finset.card_range] at this

/-- The first pass takes every candidate and fails nowhere. -/
theorem markCandidates_spec {h₀ : Heap} {R : Ref → ℕ} (hC : Collectable h₀ R) {fuel : ℕ}
    (hfuel : h₀.size < fuel) (n : ℕ) (h : Heap) (hL : MarkLoop h₀ h)
    (hn : h.unreferred.length < n) :
    ∃ h', markCandidates fuel n h = .ok h' ∧ MarkLoop h₀ h' ∧ h'.unreferred = [] := by
  induction n generalizing h with
  | zero => omega
  | succ n ih =>
      cases hu : h.unreferred with
      | nil => exact ⟨h, by rw [markCandidates, hu], hL, hu⟩
      | cons i us =>
          have hi : i ∈ h.unreferred := by rw [hu]; exact List.mem_cons_self
          have hlive : (h₀.obj i).destroyed = false :=
            hC.counted.listed i (List.mem_append_left _ (hL.unreferred.subset hi))
          have hf : (h.obj i).freed = false := by
            rw [hL.shape.freed]
            exact hC.counted.not_freed hlive
          have hmark : (h.obj i).mark = 0 := by
            rw [hL.keep i (hL.untouched i hi)]
            exact (hC.marks i hlive).1
          have hsize := unmarkedCount_le h
          rw [hL.shape.size] at hsize
          obtain ⟨h', hrun, hI⟩ := mark_scan hC hlive (hL.scan_start hC) (by omega : _ < fuel)
          have hlen : h'.unreferred.length < h.unreferred.length := by
            refine lt_of_le_of_ne hI.unreferred.length_le fun heq => ?_
            have hi' : i ∈ h'.unreferred := hI.unreferred.eq_of_length heq ▸ hi
            exact hI.untouched i hi' (hI.root.resolve_right List.not_mem_nil)
          obtain ⟨h'', hrest, hL', hu'⟩ := ih (addRoot i h') (hL.next hi hlive hI) (by
            change h'.unreferred.length < n
            omega)
          exact ⟨h'', (markCandidates_cons n hu hf hmark hrun).trans hrest, hL', hu'⟩

end Deai.CollectorMark
