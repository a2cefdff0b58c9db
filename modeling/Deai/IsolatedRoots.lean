import Deai.CountedReferences
import Deai.GarbageCollection
import Deai.SearchRoots

/-!
# Which candidates are left as isolated roots

The first pass of the collector is a search from the candidates. `di_collect_garbage_mark` takes an
object off its list whenever it comes to it, but it does not go on from an object that is marked
already. So a root stays in the list although a later one reaches it, as long as all the ways there
lead through objects that were marked before. A comment in the code promises the opposite.

Nothing is assumed about the types of the members here: a reference that the scan does not see is
one that it does not follow.
-/
namespace Deai.IsolatedRoots
open Value ObjectHeap TrialDeletion Accounting Collector CollectorMark GarbageCollection SearchRoots
open CountedReferences Relation

/-- The scan of `y` goes on to `x`. -/
def Scans (h : Heap) (y x : ObjRef) : Prop := x ∈ scannedRefs h y

/-- The scan from the candidate has marked `y`. -/
def Met (h₁ h : Heap) (y : ObjRef) : Prop := (h.obj y).mark = 1 ∧ (h₁.obj y).mark ≠ 1

/-- The heap `h` reached while the candidate `i` is scanned from `h₁`, with the objects `P` still to
be visited. -/
structure Scanning (h₀ h₁ : Heap) (i : ObjRef) (P : List ObjRef) (h : Heap) : Prop where
  shape : Marking h₀ h
  mono : ∀ x, (h₁.obj x).mark = 1 → (h.obj x).mark = 1
  keep : ∀ x, (h.obj x).mark ≠ 1 → (h.obj x).mark = (h₁.obj x).mark
  closed : ∀ y, (h.obj y).mark = 1 → ∀ z, Scans h₀ y z → (h.obj z).mark = 1 ∨ z ∈ P
  root : (h.obj i).mark = 1 ∨ i ∈ P
  todo : ∀ x ∈ P, x = i ∨ ∃ y, Met h₁ h y ∧ Scans h₀ y x
  met : ∀ x, Met h₁ h x → ReflTransGen (Scans h₀) i x
  unreferred : h.unreferred.Sublist h₁.unreferred
  taken : ∀ x ∈ h₁.unreferred, x ∈ h.unreferred ∨ (h.obj x).mark = 1
  untouched : ∀ x ∈ h.unreferred, (h.obj x).mark ≠ 1
  isolated : h.isolated.Sublist h₁.isolated
  removed : ∀ x ∈ h₁.isolated, x ∉ h.isolated → ∃ y, Met h₁ h y ∧ Scans h₀ y x
  kept : ∀ y, Met h₁ h y → ∀ x ∈ h.isolated, Scans h₀ y x → x ∈ P

variable {h₀ h₁ h : Heap} {R : Ref → ℕ} {i x y : ObjRef} {P Q : List ObjRef}

theorem edge_of_scans (hs : Scans h y x) : Edge (links h) y x := by
  obtain ⟨m, hm, hx⟩ := List.mem_flatMap.mp hs
  have hmem : Ref.strong x ∈ m.2.refs := by
    rw [← List.count_pos_iff, count_refs]
    exact Nat.lt_of_lt_of_le (List.count_pos_iff.mpr hx) (Nat.le_add_right _ _)
  exact List.count_pos_iff.mpr (List.mem_flatMap.mpr ⟨m, hm, hmem⟩)

theorem alive_of_scanned (hc : Counted h R) (hi : (h.obj i).destroyed = false)
    (hx : ReflTransGen (Scans h) i x) : (h.obj x).destroyed = false := by
  cases hx with
  | refl => exact hi
  | tail _ he => exact hc.alive_of_edge (edge_of_scans he)

theorem Scanning.reaches (hI : Scanning h₀ h₁ i P h) (hx : x ∈ P) :
    ReflTransGen (Scans h₀) i x := by
  rcases hI.todo x hx with rfl | ⟨y, hy, he⟩
  · exact .refl
  · exact (hI.met y hy).tail he

/-! ## One scan -/

theorem Scanning.visit (hI : Scanning h₀ h₁ i (x :: P) h) (hnodup : h₁.isolated.Nodup)
    (hunref : h₁.unreferred.Nodup) (hi : i ∉ h₁.isolated)
    (hQ : (h.obj x).mark = 1 ∧ Q = P ∨ (h.obj x).mark ≠ 1 ∧ Q = scannedRefs h₀ x ++ P) :
    Scanning h₀ h₁ i Q (markOnce x h) := by
  have hmk := markOnce_mark x h
  have hsub : ∀ y ∈ P, y ∈ Q := by
    intro y hy
    rcases hQ with ⟨-, rfl⟩ | ⟨-, rfl⟩
    · exact hy
    · exact List.mem_append_right _ hy
  have hone : ∀ y, (h.obj y).mark = 1 → ((markOnce x h).obj y).mark = 1 :=
    fun y => marked_markOnce
  have hmet : ∀ y, Met h₁ h y → Met h₁ (markOnce x h) y := fun y hy => ⟨hone y hy.1, hy.2⟩
  -- what is met now was met before, or it is `x`, and then the scan goes on from `x`
  have hmet' : ∀ y, Met h₁ (markOnce x h) y →
      Met h₁ h y ∨ y = x ∧ ∀ z, Scans h₀ y z → z ∈ Q := by
    rintro y ⟨hy, hnot⟩
    rw [hmk] at hy
    split_ifs at hy with hyx
    · subst hyx
      rcases hQ with ⟨hm, -⟩ | ⟨-, rfl⟩
      · exact .inl ⟨hm, hnot⟩
      · exact .inr ⟨rfl, fun z hz => List.mem_append_left _ hz⟩
    · exact .inl ⟨hy, hnot⟩
  have hentry : x ≠ i → ∃ y, Met h₁ (markOnce x h) y ∧ Scans h₀ y x := by
    intro hxi
    obtain ⟨y, hy, he⟩ := (hI.todo x List.mem_cons_self).resolve_left hxi
    exact ⟨y, hmet y hy, he⟩
  have hiso : h.isolated.Nodup := hI.isolated.nodup hnodup
  refine ⟨(hI.shape.lists _ _).modify x _ fun _ => rfl, fun y hy => hone y (hI.mono y hy), ?_, ?_,
    ?_, ?_, ?_, List.erase_sublist.trans hI.unreferred, ?_, ?_,
    List.erase_sublist.trans hI.isolated, ?_, ?_⟩
  · intro y hy
    rw [hmk] at hy ⊢
    split_ifs at hy ⊢ with hyx
    · exact absurd rfl hy
    · exact hI.keep y hy
  · intro y hy z he
    by_cases hz : z = x
    · exact .inl (by rw [hmk, if_pos hz])
    by_cases hyold : (h.obj y).mark = 1
    · exact (hI.closed y hyold z he).imp (hone z) fun hzP =>
        hsub z ((List.mem_cons.mp hzP).resolve_left hz)
    · rw [hmk] at hy
      split_ifs at hy with hyx
      · subst hyx
        rcases hQ with ⟨hm, -⟩ | ⟨-, rfl⟩
        · exact absurd hm hyold
        · exact .inr (List.mem_append_left _ he)
      · exact absurd hy hyold
  · by_cases hix : i = x
    · exact .inl (by rw [hmk, if_pos hix])
    · exact hI.root.imp (hone i) fun hP => hsub i ((List.mem_cons.mp hP).resolve_left hix)
  · intro z hz
    have hold : z ∈ P → z = i ∨ ∃ y, Met h₁ (markOnce x h) y ∧ Scans h₀ y z := by
      intro hzP
      rcases hI.todo z (List.mem_cons_of_mem _ hzP) with hzi | ⟨y, hy, he⟩
      · exact .inl hzi
      · exact .inr ⟨y, hmet y hy, he⟩
    rcases hQ with ⟨-, rfl⟩ | ⟨hm, rfl⟩
    · exact hold hz
    · rcases List.mem_append.mp hz with hz | hz
      · refine .inr ⟨x, ⟨by rw [hmk, if_pos rfl], fun h₁x => hm (hI.mono x h₁x)⟩, hz⟩
      · exact hold hz
  · intro y hy
    rcases hmet' y hy with hy | ⟨rfl, -⟩
    · exact hI.met y hy
    · exact hI.reaches List.mem_cons_self
  · intro y hy
    by_cases hyx : y = x
    · exact .inr (by rw [hmk, if_pos hyx])
    · exact (hI.taken y hy).imp (List.mem_erase_of_ne hyx).mpr (hone y)
  · intro y hy
    have hyx : y ≠ x := by
      rintro rfl
      exact (hI.unreferred.nodup hunref).not_mem_erase hy
    rw [hmk, if_neg hyx]
    exact hI.untouched y (List.mem_of_mem_erase hy)
  · intro z hz hnot
    by_cases hzx : z = x
    · subst hzx
      exact hentry fun hzi => hi (hzi ▸ hz)
    · obtain ⟨y, hy, he⟩ := hI.removed z hz fun hmem => hnot ((List.mem_erase_of_ne hzx).mpr hmem)
      exact ⟨y, hmet y hy, he⟩
  · intro y hy z hz he
    have hzx : z ≠ x := by
      rintro rfl
      exact hiso.not_mem_erase hz
    rcases hmet' y hy with hy | ⟨-, hall⟩
    · exact hsub z ((List.mem_cons.mp (hI.kept y hy z (List.mem_of_mem_erase hz) he)).resolve_left
        hzx)
    · exact hall z he

/-- The scan from one candidate visits everything it owes. -/
theorem scan_candidate (hc : Counted h₀ R) (hlive : (h₀.obj i).destroyed = false)
    (hnodup : h₁.isolated.Nodup) (hunref : h₁.unreferred.Nodup) (hi : i ∉ h₁.isolated)
    (hI : Scanning h₀ h₁ i [i] h) {fuel : ℕ} (hfuel : unmarkedCount h < fuel) :
    ∃ h', diScanObject diCollectGarbageMark noPost fuel 0 i h = .ok h' ∧
      Scanning h₀ h₁ i [] h' := by
  exact scan_consumes hc (fun _ _ hI => hI.shape)
    (fun x _ _ hI => alive_of_scanned hc hlive (hI.reaches List.mem_cons_self))
    (fun _ _ _ _ hI hQ => hI.visit hnodup hunref hi hQ) hI hfuel

/-! ## All candidates -/

/-- Between two candidates: the search has been through the candidates `done`. -/
structure Searched (h₀ : Heap) (done : List ObjRef) (h : Heap) : Prop where
  shape : Marking h₀ h
  keep : ∀ x, (h.obj x).mark ≠ 1 → (h.obj x).mark = (h₀.obj x).mark
  rest : ∃ rest, h₀.unreferred = done ++ rest ∧ h.unreferred.Sublist rest
  taken : ∀ x ∈ h₀.unreferred, x ∈ h.unreferred ∨ (h.obj x).mark = 1
  untouched : ∀ x ∈ h.unreferred, (h.obj x).mark ≠ 1
  marks : ∀ x, (h.obj x).mark = 1 ↔ ReachedBy (Scans h₀) done x
  roots : ∀ x, x ∈ h.isolated ↔ Root (Scans h₀) done x
  nodup : h.isolated.Nodup

theorem Searched.start (hc : Counted h R) (hq : Quiet h) : Searched h [] h := by
  have hmark : ∀ x, (h.obj x).mark ≠ 1 := by
    intro x hx
    have hcalm := hc.calm x
    rw [hx] at hcalm
    cases hcalm
  refine ⟨.refl h, fun _ _ => rfl, ⟨_, rfl, .refl _⟩, fun x hx => .inl hx, fun x _ => hmark x, ?_, ?_,
    ?_⟩
  · refine fun x => iff_of_false (hmark x) ?_
    rintro ⟨c, hc, -⟩
    exact List.not_mem_nil hc
  · rw [hq.1]
    exact fun x => iff_of_false List.not_mem_nil fun hr => List.not_mem_nil hr.1.1
  · rw [hq.1]
    exact List.nodup_nil

theorem Searched.scan_start {done : List ObjRef} (hS : Searched h₀ done h) :
    Scanning h₀ h i [i] h := by
  have hno : ∀ y, ¬ Met h h y := fun y hy => hy.2 hy.1
  refine ⟨hS.shape, fun _ hx => hx, fun _ _ => rfl, fun y hy z he => .inl ?_,
    .inr List.mem_cons_self, fun x hx => .inl (List.mem_singleton.mp hx), fun x hx => (hno x hx).elim,
    .refl _, fun x hx => .inl hx, hS.untouched, .refl _, fun x hx hnot => absurd hx hnot,
    fun y hy => (hno y hy).elim⟩
  exact (hS.marks z).mpr (((hS.marks y).mp hy).step he)

/-- The candidates before the next one that the search takes have been reached. -/
theorem Searched.split {done us : List ObjRef} (hS : Searched h₀ done h)
    (hunref : h₀.unreferred.Nodup) (hu : h.unreferred = i :: us) :
    ∃ skipped rest, h₀.unreferred = done ++ skipped ++ [i] ++ rest ∧ us.Sublist rest ∧
      ∀ c ∈ skipped, ReachedBy (Scans h₀) done c := by
  obtain ⟨rest, hrest, hsub⟩ := hS.rest
  rw [hu, List.cons_sublist_iff] at hsub
  obtain ⟨r₁, r₂, rfl, hmem, hus⟩ := hsub
  obtain ⟨skipped, r, rfl⟩ := List.append_of_mem hmem
  have hall : h₀.unreferred = done ++ skipped ++ [i] ++ (r ++ r₂) := by
    rw [hrest]
    simp
  have hlater : us.Sublist (r ++ r₂) := hus.trans (List.sublist_append_right _ _)
  refine ⟨skipped, r ++ r₂, hall, hlater, fun c hc => (hS.marks c).mp ?_⟩
  refine (hS.taken c (by simp [hall, hc])).resolve_left fun hcu => ?_
  -- what is still in the list stands behind `c`
  rw [hall, List.append_assoc, List.append_assoc] at hunref
  have hdisjoint := (List.nodup_append'.mp (List.nodup_append'.mp hunref).2.1).2.2
  refine hdisjoint hc ?_
  rw [hu] at hcu
  rcases List.mem_cons.mp hcu with rfl | hcu
  · exact List.mem_append_left _ List.mem_cons_self
  · exact List.mem_append_right _ (hlater.subset hcu)

theorem Searched.next {h' : Heap} {done skipped rest us : List ObjRef} (hS : Searched h₀ done h)
    (hu : h.unreferred = i :: us) (hsplit : h₀.unreferred = done ++ skipped ++ [i] ++ rest)
    (hus : us.Sublist rest) (hskipped : ∀ c ∈ skipped, ReachedBy (Scans h₀) done c)
    (hI : Scanning h₀ h i [] h') : Searched h₀ (done ++ skipped ++ [i]) (addRoot i h') := by
  have hmk : ∀ x, ((addRoot i h').obj x).mark = (h'.obj x).mark := by
    intro x
    rw [addRoot_obj]
    split_ifs <;> rfl
  have hunmarked : (h.obj i).mark ≠ 1 := hS.untouched i (by rw [hu]; exact List.mem_cons_self)
  have hbefore : ∀ x, ReachedBy (Scans h₀) (done ++ skipped) x ↔ (h.obj x).mark = 1 := fun x =>
    (reachedBy_append_of_reached hskipped).trans (hS.marks x).symm
  have hmarked : (h'.obj i).mark = 1 := hI.root.resolve_right List.not_mem_nil
  have hreached : ∀ x, ReflTransGen (Scans h₀) i x → (h'.obj x).mark = 1 := by
    intro x hx
    induction hx with
    | refl => exact hmarked
    | tail _ he ih => exact (hI.closed _ ih _ he).resolve_right List.not_mem_nil
  have hmet : ∀ y, Met h h' y ↔
      ReflTransGen (Scans h₀) i y ∧ ¬ ReachedBy (Scans h₀) (done ++ skipped) y := by
    intro y
    rw [hbefore]
    exact ⟨fun hy => ⟨hI.met y hy, hy.2⟩, fun hy => ⟨hreached y hy.1, hy.2⟩⟩
  have hnew : i ∉ h'.isolated := fun hx =>
    hunmarked ((hS.marks i).mpr (.of_mem ((hS.roots i).mp (hI.isolated.subset hx)).1.1))
  refine ⟨(hI.shape.modify i _ fun _ => rfl).lists _ _, ?_, ⟨rest, hsplit, ?_⟩, ?_, ?_, ?_, ?_,
    List.nodup_cons.mpr ⟨hnew, hI.isolated.nodup hS.nodup⟩⟩
  · intro x hx
    rw [hmk] at hx ⊢
    rw [hI.keep x hx]
    exact hS.keep x fun hx₁ => hx (hI.mono x hx₁)
  · -- `i` is marked now, so it is in the list no longer
    have hsub := hI.unreferred
    rw [hu] at hsub
    refine ((List.sublist_cons_iff.mp hsub).resolve_right ?_).trans hus
    rintro ⟨r, hr, -⟩
    exact hI.untouched i (by rw [hr]; exact List.mem_cons_self) hmarked
  · intro x hx
    rw [hmk]
    rcases hS.taken x hx with hxu | hxm
    · exact hI.taken x hxu
    · exact .inr (hI.mono x hxm)
  · intro x hx
    rw [hmk]
    exact hI.untouched x hx
  · intro x
    rw [hmk, reachedBy_append, reachedBy_singleton, hbefore]
    constructor
    · intro hx
      by_cases hxm : (h.obj x).mark = 1
      · exact .inl hxm
      · exact .inr (hI.met x ⟨hx, hxm⟩)
    · rintro (hx | hx)
      · exact hI.mono x hx
      · exact hreached x hx
  · intro x
    have hi : ¬ ReachedBy (Scans h₀) (done ++ skipped) i := by rwa [hbefore]
    rw [root_append_singleton hi, root_append_of_reached hskipped, ← hS.roots]
    refine List.mem_cons.trans (or_congr_right ?_)
    constructor
    · refine fun hx => ⟨hI.isolated.subset hx, ?_⟩
      rintro ⟨y, hy, hnot, he⟩
      exact List.not_mem_nil (hI.kept y ((hmet y).mpr ⟨hy, hnot⟩) x hx he)
    · rintro ⟨hx, hnone⟩
      by_contra hgone
      obtain ⟨y, hy, he⟩ := hI.removed x hx hgone
      exact hnone ⟨y, ((hmet y).mp hy).1, ((hmet y).mp hy).2, he⟩

/-- When the first pass ends, the isolated roots are the roots of the search through the list of
candidates. -/
theorem markCandidates_roots (hc : Counted h₀ R) (hq : Quiet h₀) {fuel : ℕ}
    (hfuel : h₀.size < fuel) (n : ℕ) (h : Heap) {done : List ObjRef} (hS : Searched h₀ done h)
    (hn : h.unreferred.length < n) :
    ∃ h', markCandidates fuel n h = .ok h' ∧
      ∀ x, x ∈ h'.isolated ↔ Root (Scans h₀) h₀.unreferred x := by
  induction n generalizing h done with
  | zero => omega
  | succ n ih =>
      have hunref : h₀.unreferred.Nodup := (List.nodup_append.mp hc.nodup).1
      cases hu : h.unreferred with
      | nil =>
          refine ⟨h, by rw [markCandidates, hu], fun x => ?_⟩
          obtain ⟨rest, hrest, -⟩ := hS.rest
          rw [hS.roots, hrest, root_append_of_reached]
          intro c hc
          have hmem : c ∈ h₀.unreferred := by
            rw [hrest]
            exact List.mem_append_right _ hc
          refine (hS.marks c).mp ((hS.taken c hmem).resolve_left ?_)
          rw [hu]
          exact List.not_mem_nil
      | cons i us =>
          obtain ⟨skipped, rest, hsplit, hus, hskipped⟩ := hS.split hunref hu
          have hmem : i ∈ h₀.unreferred := by simp [hsplit]
          have hunmarked : (h.obj i).mark ≠ 1 :=
            hS.untouched i (by rw [hu]; exact List.mem_cons_self)
          have hlive : (h₀.obj i).destroyed = false :=
            hc.listed i (List.mem_append_left _ hmem)
          have hf : (h.obj i).freed = false := by
            rw [hS.shape.freed]
            exact hc.not_freed hlive
          have hmark : (h.obj i).mark = 0 := by
            rw [hS.keep i hunmarked]
            exact hq.2 i hlive
          have hnew : i ∉ h.isolated := fun hx =>
            hunmarked ((hS.marks i).mpr (.of_mem ((hS.roots i).mp hx).1.1))
          have hsize := unmarkedCount_le h
          rw [hS.shape.size] at hsize
          have hnodup : h.unreferred.Nodup := by
            obtain ⟨r, hr, hsub⟩ := hS.rest
            rw [hr] at hunref
            exact hsub.nodup (List.nodup_append'.mp hunref).2.1
          obtain ⟨h', hrun, hI⟩ := scan_candidate hc hlive hS.nodup hnodup hnew hS.scan_start
            (by omega : _ < fuel)
          have hS' := hS.next hu hsplit hus hskipped hI
          have hlen : (addRoot i h').unreferred.length < n := by
            have hsub := hI.unreferred
            have hlt : h'.unreferred.length < h.unreferred.length := by
              refine lt_of_le_of_ne hsub.length_le fun heq => ?_
              refine hI.untouched i ?_ (hI.root.resolve_right List.not_mem_nil)
              rw [hsub.eq_of_length heq, hu]
              exact List.mem_cons_self
            change h'.unreferred.length < n
            omega
          obtain ⟨h'', hrest, hroots⟩ := ih (addRoot i h') hS' hlen
          exact ⟨h'', (markCandidates_cons n hu hf hmark hrun).trans hrest, hroots⟩

/-! ## Roots that reach each other -/

/-- No object of the list is reachable from another one of it. -/
def Apart (h : Heap) (os : List ObjRef) : Prop :=
  ∀ a ∈ os, ∀ b ∈ os, a ≠ b → ¬ ReflTransGen (Edge (links h)) a b

/-- The isolated roots cannot reach each other exactly if, whenever the search takes two candidates
and one of them reaches the other, it comes to one of the two again. -/
theorem isolated_roots_apart_iff (hc : Counted h R) (hq : Quiet h) {fuel n : ℕ}
    (hfuel : h.size < fuel) (hn : h.unreferred.length < n) :
    ∃ h', markCandidates fuel n h = .ok h' ∧
      (Apart h h'.isolated ↔ ∀ a b, Taken (Scans h) h.unreferred a → Taken (Scans h) h.unreferred b →
        a ≠ b → ReflTransGen (Edge (links h)) a b →
          Reentered (Scans h) h.unreferred a ∨ Reentered (Scans h) h.unreferred b) := by
  obtain ⟨h', hrun, hroots⟩ := markCandidates_roots hc hq hfuel n h (.start hc hq) hn
  refine ⟨h', hrun, ?_⟩
  constructor
  · intro hapart a b ha hb hab hreach
    by_contra hnot
    obtain ⟨hna, hnb⟩ := not_or.mp hnot
    exact hapart a ((hroots a).mpr ⟨ha, hna⟩) b ((hroots b).mpr ⟨hb, hnb⟩) hab hreach
  · intro hmet a ha b hb hab hreach
    obtain ⟨hta, hna⟩ := (hroots a).mp ha
    obtain ⟨htb, hnb⟩ := (hroots b).mp hb
    exact (hmet a b hta htb hab hreach).elim hna hnb

theorem Collectable.quiet (hC : Collectable h R) : Quiet h :=
  ⟨hC.isolated, fun x hx => (hC.marks x hx).1⟩

theorem isolated_roots_apart_iff_threeObjects :
    ∃ h', markCandidates 4 3 threeObjects = .ok h' ∧
      (Apart threeObjects h'.isolated ↔ ∀ a b, Taken (Scans threeObjects) [2, 1] a →
        Taken (Scans threeObjects) [2, 1] b → a ≠ b →
          ReflTransGen (Edge (links threeObjects)) a b →
            Reentered (Scans threeObjects) [2, 1] a ∨ Reentered (Scans threeObjects) [2, 1] b) :=
  isolated_roots_apart_iff threeObjects_collectable.counted
    (Collectable.quiet threeObjects_collectable) (by decide) (by decide)

/-- Objects 0 and 1 hold each other, and 2 holds 1. The candidates are 0 and then 2. -/
def sharedCycle : Heap := heapOf
  [{ members := [("next", .object 1)], refCount := 1, weakRefCount := 1 },
   { members := [("back", .object 0)], refCount := 2, weakRefCount := 1 },
   { members := [("next", .object 1)], refCount := 1, weakRefCount := 1 }] [0, 2]

theorem sharedCycle_collectable : Collectable sharedCycle (refsOf [.strong 2]) := by
  apply collectable_heapOf
  · decide
  · decide
  · decide
  · decide
  · decide
  · decide

/-- Object 1 is marked when the scan from 2 comes to it, so 0 stays in the list: 2 reaches it. -/
theorem isolated_roots_not_apart :
    ¬ ∀ (h : Heap) (R : Ref → ℕ) (fuel n : ℕ), Counted h R → Quiet h → h.size < fuel →
      h.unreferred.length < n → ∃ h', markCandidates fuel n h = .ok h' ∧ Apart h h'.isolated := by
  intro hall
  obtain ⟨h', hrun, hapart⟩ := hall sharedCycle (refsOf [.strong 2]) 4 3
    sharedCycle_collectable.counted (Collectable.quiet sharedCycle_collectable) (by decide)
    (by decide)
  have hroots : (markCandidates 4 3 sharedCycle).map (·.isolated) = .ok [2, 0] := by rfl
  rw [hrun] at hroots
  have hiso : h'.isolated = [2, 0] := Except.ok.inj hroots
  rw [hiso] at hapart
  have h21 : Edge (links sharedCycle) 2 1 := by
    unfold Edge
    decide
  have h10 : Edge (links sharedCycle) 1 0 := by
    unfold Edge
    decide
  exact hapart 2 (by decide) 0 (by decide) (by decide) (.head h21 (.single h10))

end Deai.IsolatedRoots
