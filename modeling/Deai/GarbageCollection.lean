import Deai.CollectorFinalize

/-!
# Soundness and completeness of `di_collect_garbage`

A round destroys a set of objects that nobody else refers to, and leaves the
heap as the next round expects to find it. The rounds end because a round that
destroys nothing leaves no candidates.
-/
namespace Deai.GarbageCollection
open Value ObjectHeap TrialDeletion Accounting Collector CollectorMark CollectorScan
open CollectorFinalize Relation

/-- From `h` to `h'` exactly the objects of `D` were destroyed, and nobody
outside `D` referred to them. -/
structure Swept (R : Ref → ℕ) (D : ObjRef → Prop) (h h' : Heap) : Prop where
  size : h'.size = h.size
  isolation : ∀ x, D x → R (.strong x) = 0 ∧ ∀ y, Edge (links h) y x → D y
  gone : ∀ x, D x → (h.obj x).destroyed = false ∧ (h'.obj x).destroyed = true ∧
    (h'.obj x).dtor = false
  keep : ∀ x, ¬ D x → (h'.obj x).members = (h.obj x).members ∧
    (h'.obj x).dtor = (h.obj x).dtor ∧ (h'.obj x).destroyed = (h.obj x).destroyed
  dtors : ∀ x, h'.log.count (.dtor x) + (h'.obj x).dtor.toNat =
    h.log.count (.dtor x) + (h.obj x).dtor.toNat
  destroys : ∀ x, h'.log.count (.destroy x) + (h.obj x).destroyed.toNat =
    h.log.count (.destroy x) + (h'.obj x).destroyed.toNat
  again : ∀ x, h'.log.count (.destroyAgain x) = h.log.count (.destroyAgain x)

/-- Reachable from an object that somebody outside the heap refers to. -/
def ExternallyReachable (h : Heap) (R : Ref → ℕ) (x : ObjRef) : Prop :=
  ReachableFrom (links h) {r | 0 < R (.strong r)} x

/-- Reachable from a candidate. -/
def CandidateReachable (h : Heap) (x : ObjRef) : Prop :=
  ReachableFrom (links h) {i | i ∈ h.unreferred} x

/-- Reachable from a candidate, and neither from outside the heap nor from a
live object that no candidate reaches. -/
def Collected (h : Heap) (R : Ref → ℕ) (x : ObjRef) : Prop :=
  CandidateReachable h x ∧ ¬ ReachableFrom (links h) {r | 0 < R (.strong r) ∨
    (h.obj r).destroyed = false ∧ ¬ CandidateReachable h r} x

theorem Swept.refl (R : Ref → ℕ) (h : Heap) : Swept R (fun _ => False) h h where
  size := rfl
  isolation _ hx := hx.elim
  gone _ hx := hx.elim
  keep _ _ := ⟨rfl, rfl, rfl⟩
  dtors _ := rfl
  destroys _ := rfl
  again _ := rfl

theorem Swept.trans {R : Ref → ℕ} {D₁ D₂ : ObjRef → Prop} {h₁ h₂ h₃ : Heap}
    (hs : Swept R D₁ h₁ h₂) (hs' : Swept R D₂ h₂ h₃) (hf : ∀ x, D₁ x → (h₃.obj x).dtor = false) :
    Swept R (fun x => D₁ x ∨ D₂ x) h₁ h₃ := by
  have hnot : ∀ x, D₁ x → ¬ D₂ x := by
    intro x h₁ h₂
    have ha := (hs.gone x h₁).2.1
    have hb := (hs'.gone x h₂).1
    rw [ha] at hb
    cases hb
  refine ⟨hs'.size.trans hs.size, ?_, ?_, ?_, ?_, ?_, ?_⟩
  · intro x hx
    rcases hx with hx | hx
    · obtain ⟨hR, hp⟩ := hs.isolation x hx
      exact ⟨hR, fun y he => Or.inl (hp y he)⟩
    · obtain ⟨hR, hp⟩ := hs'.isolation x hx
      refine ⟨hR, fun y he => ?_⟩
      by_cases hy : D₁ y
      · exact Or.inl hy
      · apply Or.inr
        apply hp
        unfold Edge at he ⊢
        rwa [links_congr (hs.keep y hy).1]
  · intro x hx
    rcases hx with hx | hx
    · have hk := (hs'.keep x (hnot x hx)).2.2
      exact ⟨(hs.gone x hx).1, hk.trans (hs.gone x hx).2.1, hf x hx⟩
    · have hx₁ : ¬ D₁ x := fun h => hnot x h hx
      exact ⟨(hs.keep x hx₁).2.2 ▸ (hs'.gone x hx).1, (hs'.gone x hx).2⟩
  · intro x hx
    rw [not_or] at hx
    obtain ⟨a₁, b₁, c₁⟩ := hs.keep x hx.1
    obtain ⟨a₂, b₂, c₂⟩ := hs'.keep x hx.2
    exact ⟨a₂.trans a₁, b₂.trans b₁, c₂.trans c₁⟩
  · exact fun x => (hs'.dtors x).trans (hs.dtors x)
  · intro x
    have h₁ := hs.destroys x
    have h₂ := hs'.destroys x
    omega
  · exact fun x => (hs'.again x).trans (hs.again x)

/-- Whatever can be reached from outside is not swept. -/
theorem Swept.not_externallyReachable {R : Ref → ℕ} {D : ObjRef → Prop} {h h' : Heap}
    (hs : Swept R D h h') {x : ObjRef} (hx : ExternallyReachable h R x) : ¬ D x := by
  obtain ⟨r, hr, hrx⟩ := hx
  induction hrx with
  | refl =>
      intro hd
      have := (hs.isolation r hd).1
      change 0 < R (.strong r) at hr
      omega
  | tail _ he ih => exact fun hd => ih ((hs.isolation _ hd).2 _ he)

/-- One iteration of the outer loop. -/
theorem collectRound_spec {h : Heap} {R : Ref → ℕ} (hC : Collectable h R) {fuel : ℕ}
    (hfuel : 2 * h.size < fuel) (hlen : h.unreferred.length < fuel) :
    ∃ D h', collectRound fuel h = .ok h' ∧ Collectable h' R ∧ Swept R D h h' ∧
      (∀ x, Collected h R x → D x) ∧ ((∀ x, ¬ D x) → h'.unreferred = []) := by
  obtain ⟨h₁, h₂, a, hrun₁, hrun₂, hrun₃, hD⟩ := condemned_spec hC hfuel hlen
  have hstart := Condemned.start hC hD
  have hasize : a.size < fuel := by
    rw [hD.shape.size]
    omega
  have hwhite : whiteCount a < fuel := (whiteCount_le_size a).trans_lt hasize
  obtain ⟨h', hrun₄, hI, hnil⟩ := finalizeRoots_spec hC hD hasize fuel a hstart hwhite
  have hthree : ∀ x, Doomed a x → (h'.obj x).mark = 3 := by
    intro x hx
    obtain ⟨r, hr, hrx⟩ := hD.rooted x hx
    refine hI.mark_three_of_reach hD ?_ hrx hx
    by_contra hm
    have hmem := hI.isolated r hr (hI.white r (hD.isolated r hr) hm).2.1
    rw [hnil] at hmem
    exact List.not_mem_nil hmem
  have hgone : ∀ x, Doomed a x → (h'.obj x).destroyed = true := fun x hx =>
    hI.destroyed_of_holders hD hx fun y hy _ => hthree y hy
  have hblack := fun x hx => hI.black x hx (hthree x hx) List.not_mem_nil
  have hkeep : ∀ x, ¬ Doomed a x → (h'.obj x).members = (h.obj x).members ∧
      (h'.obj x).dtor = (h.obj x).dtor ∧ (h'.obj x).destroyed = (h.obj x).destroyed := by
    intro x hx
    obtain ⟨h₁, h₂, h₃, -⟩ := hI.keep x hx
    rw [h₁, h₂, h₃, hD.shape.members, hD.shape.destroyed, hD.shape.obj x]
    exact ⟨rfl, rfl, rfl⟩
  have hlog : a.log = h.log := hD.shape.log
  have hdt : ∀ x, (a.obj x).dtor = (h.obj x).dtor := fun x => by rw [hD.shape.obj x]
  refine ⟨Doomed a, h', ?_, ?_, ?_, ?_, ?_⟩
  · unfold collectRound
    simp only [bind, Except.bind, hrun₁, hrun₂, hrun₃]
    exact hrun₄
  · refine ⟨?_, ?_, ?_, ?_, hnil, hI.headInit⟩
    · have := hI.counted
      rwa [show grayRefs [] = [] from rfl, pend_nil] at this
    · intro x m hm
      by_cases hx : Doomed a x
      · rw [(hblack x hx).1] at hm
        exact absurd hm List.not_mem_nil
      · rw [(hkeep x hx).1] at hm
        exact hC.visible x m hm
    · intro x hx
      by_cases hdx : Doomed a x
      · exact (hblack x hdx).1
      · rw [(hkeep x hdx).2.2] at hx
        rw [(hkeep x hdx).1]
        exact hC.finished x hx
    · intro x hx
      have hdx : ¬ Doomed a x := by
        intro hdx
        rw [hgone x hdx] at hx
        cases hx
      obtain ⟨-, -, hd, hm, hs⟩ := hI.keep x hdx
      rw [hd] at hx
      rw [hm, hs]
      rcases hD.marks x (hD.shape.destroyed x ▸ hx) with h₂ | h₀
      · exact absurd ⟨hx, h₂⟩ hdx
      · exact h₀
  · refine ⟨hI.size.trans hD.shape.size, hD.garbage, ?_, hkeep, ?_, ?_, ?_⟩
    · exact fun x hx => ⟨hD.shape.destroyed x ▸ hx.1, hgone x hx, (hblack x hx).2.1⟩
    · intro x
      rw [← hlog, ← hdt]
      exact hI.dtors x
    · intro x
      rw [← hlog, ← hD.shape.destroyed]
      exact hI.destroys x
    · intro x
      rw [← hlog]
      exact hI.again x
  · exact fun x hx => hD.doomed x hx.1 hx.2
  · intro hno
    have hiso : a.isolated = [] := by
      cases hl : a.isolated with
      | nil => rfl
      | cons i is => exact absurd (hD.isolated i (hl ▸ List.mem_cons_self)) (hno i)
    obtain ⟨k, rfl⟩ : ∃ k, fuel = k + 1 := ⟨fuel - 1, by omega⟩
    rw [finalizeRoots, hiso] at hrun₄
    cases hrun₄
    exact hD.unreferred

theorem Swept.liveCount_le {R : Ref → ℕ} {D : ObjRef → Prop} {h h' : Heap}
    (hs : Swept R D h h') :
    liveCount h' ≤ liveCount h ∧ ((∃ x, x < h.size ∧ D x) → liveCount h' < liveCount h) := by
  have hsub : ((Finset.range h'.size).filter fun x => (h'.obj x).destroyed = false) ⊆
      (Finset.range h.size).filter fun x => (h.obj x).destroyed = false := by
    intro x hx
    rw [hs.size, Finset.mem_filter] at hx
    rw [Finset.mem_filter]
    refine ⟨hx.1, ?_⟩
    by_cases hd : D x
    · exact (hs.gone x hd).1
    · rw [← (hs.keep x hd).2.2]
      exact hx.2
  constructor
  · exact Finset.card_le_card hsub
  · intro hex
    obtain ⟨x, hx, hd⟩ := hex
    obtain ⟨hlive, hdead, -⟩ := hs.gone x hd
    refine Finset.card_lt_card ⟨hsub, fun hcon => ?_⟩
    have hmem := hcon (Finset.mem_filter.mpr ⟨Finset.mem_range.mpr hx, hlive⟩)
    rw [Finset.mem_filter, hdead] at hmem
    cases hmem.2

theorem length_unreferred_le {h : Heap} {R : Ref → ℕ} (hc : Counted h R) :
    h.unreferred.length ≤ h.size := by
  have hnd : h.unreferred.Nodup := (List.nodup_append.mp hc.nodup).1
  have hsub : h.unreferred.toFinset ⊆ Finset.range h.size := by
    intro x hx
    rw [List.mem_toFinset] at hx
    exact Finset.mem_range.mpr (hc.lt_size (hc.listed x (List.mem_append_left _ hx)))
  have hcard := Finset.card_le_card hsub
  rwa [List.toFinset_card_of_nodup hnd, Finset.card_range] at hcard

/-- The rounds of `di_collect_garbage` end, and together they sweep at least
what the first of them must. -/
theorem collectRounds_spec {R : Ref → ℕ} {fuel : ℕ} (n : ℕ) (h : Heap) (hC : Collectable h R)
    (hfuel : 2 * h.size < fuel)
    (hn : liveCount h + (if h.unreferred = [] then 0 else 1) < n) :
    ∃ D h', collectRounds fuel n h = .ok h' ∧ Collectable h' R ∧ h'.unreferred = [] ∧
      Swept R D h h' ∧ ∀ x, Collected h R x → D x := by
  induction n generalizing h with
  | zero => omega
  | succ n ih =>
      unfold collectRounds
      rw [if_neg (by rw [hC.headInit]; simp)]
      by_cases hnil : h.unreferred = []
      · rw [if_pos hnil]
        refine ⟨_, h, rfl, hC, hnil, .refl R h, fun x hx => ?_⟩
        obtain ⟨⟨i, hi, -⟩, -⟩ := hx
        change i ∈ h.unreferred at hi
        rw [hnil] at hi
        exact List.not_mem_nil hi
      · rw [if_neg hnil]
        rw [if_neg hnil] at hn
        have hlen := length_unreferred_le hC.counted
        obtain ⟨D, h₁, hrun, hC₁, hs, hcol, hend⟩ := collectRound_spec hC hfuel (by omega)
        -- a round that destroys nothing is the last one
        have hdec : liveCount h₁ + (if h₁.unreferred = [] then 0 else 1) < n := by
          by_cases hD : ∃ x, x < h.size ∧ D x
          · have := hs.liveCount_le.2 hD
            split_ifs <;> omega
          · rw [if_pos]
            · have := hs.liveCount_le.1
              omega
            · refine hend fun x hx => hD ⟨x, ?_, hx⟩
              exact hC.counted.lt_size (hs.gone x hx).1
        obtain ⟨D', h₂, hrun', hC₂, hnil₂, hs', -⟩ := ih h₁ hC₁ (by rw [hs.size]; omega) hdec
        have hdt : ∀ x, D x → (h₂.obj x).dtor = false := by
          intro x hx
          by_cases hx' : D' x
          · exact (hs'.gone x hx').2.2
          · rw [(hs'.keep x hx').2.1]
            exact (hs.gone x hx).2.2
        refine ⟨_, h₂, ?_, hC₂, hnil₂, hs.trans hs' hdt, fun x hx => Or.inl (hcol x hx)⟩
        simp only [bind, Except.bind, hrun]
        exact hrun'

/-- Fuel that is enough for a collection. -/
def collectionFuel (h : Heap) : ℕ := 2 * h.size + 2

theorem diCollectGarbage_spec {h : Heap} {R : Ref → ℕ} (hC : Collectable h R) {fuel : ℕ}
    (hfuel : collectionFuel h ≤ fuel) :
    ∃ D h', diCollectGarbage fuel h = .ok h' ∧ Collectable h' R ∧ h'.unreferred = [] ∧
      Swept R D h h' ∧ ∀ x, Collected h R x → D x := by
  unfold collectionFuel at hfuel
  have hlive := liveCount_le_size h
  apply collectRounds_spec fuel h hC (by omega)
  split_ifs <;> omega

/-! ## Heaps given by a list of objects -/

def heapOf (objs : List DiObject) (us : List ObjRef) : Heap where
  size := objs.length
  obj o := objs.getD o .unallocated
  unreferred := us
  headInit := true

/-- The external references, given as a list. -/
def refsOf (rs : List Ref) (r : Ref) : ℕ := rs.count r

theorem heapOf_unallocated {objs : List DiObject} {us : List ObjRef} {o : ℕ}
    (ho : objs.length ≤ o) : (heapOf objs us).obj o = .unallocated := by
  change objs.getD o .unallocated = _
  rw [List.getD_eq_getElem?_getD, List.getElem?_eq_none ho]
  rfl

theorem held_eq_zero {h : Heap} {r : Ref} (hr : h.size ≤ r.target)
    (hm : ∀ y < h.size, ∀ r ∈ memberRefs h y, r.target < h.size) : held h r = 0 := by
  refine Finset.sum_eq_zero fun y hy => ?_
  rw [List.count_eq_zero]
  intro hmem
  exact absurd (hm y (Finset.mem_range.mp hy) r hmem) (Nat.not_lt.mpr hr)

/-- A finite check gives a heap the collector accepts. -/
theorem collectable_heapOf {objs : List DiObject} {us : List ObjRef} {rs : List Ref}
    (hr : ∀ r ∈ rs, r.target < objs.length)
    (hm : ∀ y < objs.length, ∀ r ∈ memberRefs (heapOf objs us) y, r.target < objs.length)
    (hv : ∀ y < objs.length, ∀ m ∈ ((heapOf objs us).obj y).members,
      m.2.refs = m.2.scanned.map .strong)
    (ho : ∀ y < objs.length,
      ((heapOf objs us).obj y).refCount =
        held (heapOf objs us) (.strong y) + rs.count (.strong y) ∧
      ((heapOf objs us).obj y).weakRefCount =
        1 + held (heapOf objs us) (.weak y) + rs.count (.weak y) ∧
      0 < ((heapOf objs us).obj y).refCount ∧ ((heapOf objs us).obj y).destroyed = false ∧
      ((heapOf objs us).obj y).freed = false ∧ ((heapOf objs us).obj y).mark = 0 ∧
      ((heapOf objs us).obj y).refCountScan = 0)
    (hu : us.Nodup) (hul : ∀ i ∈ us, i < objs.length) :
    Collectable (heapOf objs us) (refsOf rs) := by
  have hsplit : ∀ y, y < objs.length ∨ objs.length ≤ y := fun y => Nat.lt_or_ge y objs.length
  have hzero : ∀ r : Ref, objs.length ≤ r.target →
      held (heapOf objs us) r = 0 ∧ refsOf rs r = 0 := by
    intro r hle
    refine ⟨held_eq_zero hle hm, List.count_eq_zero.mpr fun hmem => ?_⟩
    exact absurd (hr r hmem) (Nat.not_lt.mpr hle)
  have hunalloc : ∀ y, objs.length ≤ y → (heapOf objs us).obj y = .unallocated :=
    fun y hy => heapOf_unallocated hy
  refine ⟨⟨hunalloc, ?_, ?_, ?_, ?_, ?_, ?_, ?_, ?_⟩, ?_, ?_, ?_, rfl, rfl⟩
  · intro y
    rcases hsplit y with hy | hy
    · exact (ho y hy).1
    · rw [hunalloc y hy, (hzero (.strong y) hy).1, (hzero (.strong y) hy).2]
      rfl
  · intro y hd
    rcases hsplit y with hy | hy
    · rw [(ho y hy).2.2.2.1] at hd
      cases hd
    · rw [hunalloc y hy]
      rfl
  · intro y hd
    rcases hsplit y with hy | hy
    · exact (ho y hy).2.2.1
    · rw [hunalloc y hy] at hd
      cases hd
  · intro y
    rcases hsplit y with hy | hy
    · rw [(ho y hy).2.2.2.1]
      exact (ho y hy).2.1
    · rw [hunalloc y hy, (hzero (.weak y) hy).1, (hzero (.weak y) hy).2]
      rfl
  · intro y
    rcases hsplit y with hy | hy
    · obtain ⟨-, hw, -, -, hf, -⟩ := ho y hy
      rw [hf, hw]
      constructor
      · intro h
        cases h
      · intro h
        omega
    · rw [hunalloc y hy]
      exact ⟨fun _ => rfl, fun _ => rfl⟩
  · change (us ++ []).Nodup
    rwa [List.append_nil]
  · intro y hy
    change y ∈ us ++ [] at hy
    rw [List.append_nil] at hy
    exact (ho y (hul y hy)).2.2.2.1
  · intro y
    rcases hsplit y with hy | hy
    · rw [(ho y hy).2.2.2.2.2.1]
      rfl
    · rw [hunalloc y hy]
      rfl
  · intro y m hmem
    rcases hsplit y with hy | hy
    · intro o
      rw [hv y hy m hmem, List.count_map_of_injective _ _ fun a b h => Ref.strong.inj h]
    · rw [hunalloc y hy] at hmem
      cases hmem
  · intro y hd
    rcases hsplit y with hy | hy
    · rw [(ho y hy).2.2.2.1] at hd
      cases hd
    · rw [hunalloc y hy]
      rfl
  · intro y hd
    rcases hsplit y with hy | hy
    · exact (ho y hy).2.2.2.2.2
    · rw [hunalloc y hy] at hd
      cases hd

/-- Object 0 is held from outside and holds 1, which holds itself; 2 holds only
itself. -/
def threeObjects : Heap := heapOf
  [{ members := [("next", .object 1)], dtor := true, refCount := 1, weakRefCount := 1 },
   { members := [("self", .object 1)], refCount := 2, weakRefCount := 1 },
   { members := [("self", .variant (.object 2))], dtor := true, refCount := 1,
     weakRefCount := 1 }] [2, 1]

theorem threeObjects_collectable : Collectable threeObjects (refsOf [.strong 0]) := by
  apply collectable_heapOf
  · decide
  · decide
  · decide
  · decide
  · decide
  · decide

/-- Object 0 holds itself and 1; only 1 is a candidate. -/
def hiddenCycle : Heap := heapOf
  [{ members := [("self", .object 0), ("next", .object 1)], refCount := 1, weakRefCount := 1 },
   { refCount := 1, weakRefCount := 1 }] [1]

theorem hiddenCycle_collectable : Collectable hiddenCycle (refsOf []) := by
  apply collectable_heapOf
  · decide
  · decide
  · decide
  · decide
  · decide
  · decide

/-! ## The two results -/

/-- The collector fails nowhere and leaves alone whatever can be reached from
outside: it stays alive, keeps its members, and neither its destructor is called
nor its destruction started. -/
theorem diCollectGarbage_sound {h : Heap} {R : Ref → ℕ} (hC : Collectable h R) {fuel : ℕ}
    (hfuel : collectionFuel h ≤ fuel) :
    ∃ h', diCollectGarbage fuel h = .ok h' ∧ ∀ x, ExternallyReachable h R x →
      (h'.obj x).destroyed = false ∧ (h'.obj x).freed = false ∧
      (h'.obj x).members = (h.obj x).members ∧ (h'.obj x).dtor = (h.obj x).dtor ∧
      h'.log.count (.dtor x) = h.log.count (.dtor x) ∧
      h'.log.count (.destroy x) = h.log.count (.destroy x) := by
  obtain ⟨D, h', hrun, hC', -, hs, -⟩ := diCollectGarbage_spec hC hfuel
  refine ⟨h', hrun, fun x hx => ?_⟩
  obtain ⟨hm, ht, hd⟩ := hs.keep x (hs.not_externallyReachable hx)
  have hlive : (h.obj x).destroyed = false := by
    obtain ⟨r, hr, hrx⟩ := hx
    exact alive_of_reach hC.counted (hC.counted.alive_of_held hr) hrx
  have hlive' : (h'.obj x).destroyed = false := hd.trans hlive
  have h₁ := hs.dtors x
  have h₂ := hs.destroys x
  rw [ht] at h₁
  rw [hd] at h₂
  exact ⟨hlive', hC'.counted.not_freed hlive', hm, ht, by omega, by omega⟩

theorem diCollectGarbage_sound_threeObjects :
    ∃ h', diCollectGarbage 8 threeObjects = .ok h' ∧
      (h'.obj 1).destroyed = false ∧ (h'.obj 1).members = (threeObjects.obj 1).members := by
  obtain ⟨h', hrun, hsafe⟩ := diCollectGarbage_sound threeObjects_collectable
    (show collectionFuel threeObjects ≤ 8 by decide)
  have hreach : ExternallyReachable threeObjects (refsOf [.strong 0]) 1 :=
    ⟨0, by decide, .single (by unfold Edge; decide)⟩
  exact ⟨h', hrun, (hsafe 1 hreach).1, (hsafe 1 hreach).2.2.1⟩

/-- The references to `x` from live objects. -/
def liveLinks (h : Heap) (x : ObjRef) : ℕ :=
  ∑ y ∈ (Finset.range h.size).filter fun y => (h.obj y).destroyed = false, links h y x

theorem Collectable.held_eq {h : Heap} {R : Ref → ℕ} (hC : Collectable h R) (x : ObjRef) :
    held h (.strong x) = liveLinks h x := by
  refine (Finset.sum_filter_of_ne fun y _ hne => ?_).symm
  rw [← Bool.not_eq_true]
  exact fun hdead => hC.no_edge_of_destroyed hdead (Nat.pos_of_ne_zero hne)

/-- The collector ends with every object that only garbage and candidates hold
destroyed, exactly once, and with the survivors as they were. -/
theorem diCollectGarbage_complete {h : Heap} {R : Ref → ℕ} (hC : Collectable h R) {fuel : ℕ}
    (hfuel : collectionFuel h ≤ fuel) :
    ∃ h', diCollectGarbage fuel h = .ok h' ∧ h'.unreferred = [] ∧
      (∀ x, Collected h R x → (h'.obj x).destroyed = true ∧ (h'.obj x).refCount = 0 ∧
        (h'.obj x).members = [] ∧
        h'.log.count (.dtor x) = h.log.count (.dtor x) + (h.obj x).dtor.toNat ∧
        h'.log.count (.destroy x) = h.log.count (.destroy x) + 1 ∧
        h'.log.count (.destroyAgain x) = h.log.count (.destroyAgain x)) ∧
      ∀ x, (h'.obj x).destroyed = false → (h'.obj x).mark = 0 ∧
        (h'.obj x).refCountScan = 0 ∧ (h'.obj x).refCount = liveLinks h' x + R (.strong x) := by
  obtain ⟨D, h', hrun, hC', hnil, hs, hcol⟩ := diCollectGarbage_spec hC hfuel
  refine ⟨h', hrun, hnil, fun x hx => ?_, fun x hx => ?_⟩
  · obtain ⟨hlive, hdead, hdt⟩ := hs.gone x (hcol x hx)
    have h₁ := hs.dtors x
    have h₂ := hs.destroys x
    rw [hdt] at h₁
    rw [hlive, hdead] at h₂
    exact ⟨hdead, hC'.counted.dead x hdead, hC'.finished x hdead, h₁, h₂, hs.again x⟩
  · obtain ⟨hm, hsc⟩ := hC'.marks x hx
    refine ⟨hm, hsc, ?_⟩
    rw [hC'.counted.strong x, Collectable.held_eq hC']

theorem diCollectGarbage_complete_threeObjects :
    ∃ h', diCollectGarbage 8 threeObjects = .ok h' ∧ h'.unreferred = [] ∧
      (h'.obj 2).destroyed = true ∧ h'.log.count (.dtor 2) = 1 := by
  obtain ⟨h', hrun, hnil, hgone, -⟩ := diCollectGarbage_complete threeObjects_collectable
    (show collectionFuel threeObjects ≤ 8 by decide)
  -- only object 2 itself refers to 2
  have hpred : ∀ y, Edge (links threeObjects) y 2 → y = 2 := by
    intro y he
    by_cases hy : y < 3
    · revert he
      unfold Edge
      interval_cases y <;> decide
    · have hu : threeObjects.obj y = .unallocated := heapOf_unallocated (Nat.le_of_not_lt hy)
      unfold Edge links memberRefs at he
      rw [hu] at he
      cases he
  have hcol : Collected threeObjects (refsOf [.strong 0]) 2 := by
    refine ⟨.of_mem (by decide), ?_⟩
    intro hr
    obtain ⟨r, hr, hr2⟩ := hr
    have hr0 : r = 2 := by
      clear hr
      induction hr2 using ReflTransGen.head_induction_on with
      | refl => rfl
      | head he _ ih => exact hpred _ (ih ▸ he)
    subst hr0
    rcases hr with hr | ⟨-, hr⟩
    · exact absurd hr (by decide)
    · exact hr (.of_mem (by decide))
  exact ⟨h', hrun, hnil, (hgone 2 hcol).1, (hgone 2 hcol).2.2.2.1⟩

/-- Without the last condition of `Collected` the collector is not complete: a
garbage cycle with no candidate in it holds a candidate. -/
theorem diCollectGarbage_keeps_held_candidate :
    ¬ ∀ (h : Heap) (R : Ref → ℕ) (fuel : ℕ), Collectable h R → collectionFuel h ≤ fuel →
      ∃ h', diCollectGarbage fuel h = .ok h' ∧ ∀ x, CandidateReachable h x →
        ¬ ExternallyReachable h R x → (h'.obj x).destroyed = true := by
  intro hall
  obtain ⟨h', hrun, hgone⟩ := hall hiddenCycle (refsOf []) 6 hiddenCycle_collectable (by decide)
  have hdead := hgone 1 (.of_mem (by decide)) (by
    intro hr
    obtain ⟨r, hr, -⟩ := hr
    exact absurd hr (by simp [refsOf]))
  have hlive : (diCollectGarbage 6 hiddenCycle).map (fun h => (h.obj 1).destroyed) =
      .ok false := by decide
  rw [hrun] at hlive
  change Except.ok (h'.obj 1).destroyed = _ at hlive
  rw [hdead] at hlive
  cases hlive

end Deai.GarbageCollection
