import Deai.Accounting

/-!
# Releasing references

One specification per function of the release cascade, each in the form
`Releases n run rs`: with at most `n` live objects, `run` gives a result and
releases exactly the references `rs`. Callers use these and never look inside.
-/
namespace Deai.Release
open Value ObjectHeap TrialDeletion Accounting

/-- Covering only depends on the references and on the roots. -/
theorem covered_of_links {h h' : Heap} {R R' : Ref → ℕ} {A A' : Set ObjRef}
    (hl : ∀ y, links h' y = links h y)
    (hd : ∀ x, (h'.obj x).destroyed = false → (h.obj x).destroyed = false)
    (hr : ∀ y, y ∈ roots h R A → y ∈ roots h' R' A') (hc : Covered h R A) :
    Covered h' R' A' := by
  intro x hx
  refine (hc x (hd x hx)).transfer (fun a ha => .of_mem (hr a ha)) fun y z hy he => hy.step ?_
  unfold Edge at he ⊢
  rwa [hl]

/-- `di_drop_weak_ref` releases one weak reference. -/
theorem diDropWeakRef_releases (n : ℕ) (o : ObjRef) :
    Releases n (diDropWeakRef o) [.weak o] := by
  intro h R S hc hS _
  have hw := hc.weak o
  rw [pend_weak, if_pos rfl] at hw
  have hnf : (h.obj o).freed = false := by
    rw [← Bool.not_eq_true, hc.freed o]
    omega
  -- the decremented heap, with the memory released or not
  have key : ∀ b : Bool, (b = true ↔ (h.obj o).weakRefCount - 1 = 0) → ∀ l : List Event,
      (∀ e, (∀ x, e ≠ .free x) → l.count e = h.log.count e) →
      Outcome R S [.weak o] h {h.modify o (fun x =>
        {x with weakRefCount := x.weakRefCount - 1, freed := b}) with log := l} := by
    intro b hb l hl
    set f : DiObject → DiObject := fun x =>
      {x with weakRefCount := x.weakRefCount - 1, freed := b} with hf
    set h' : Heap := {h.modify o f with log := l} with hh'
    have hobj : ∀ x, h'.obj x = if x = o then f (h.obj x) else h.obj x :=
      fun x => Heap.modify_obj h o x f
    have hm : ∀ x, (h'.obj x).members = (h.obj x).members := h.modify_same (·.members) o rfl
    have hd : ∀ x, (h'.obj x).destroyed = (h.obj x).destroyed := h.modify_same (·.destroyed) o rfl
    have hcnt : ∀ x, (h'.obj x).refCount = (h.obj x).refCount := h.modify_same (·.refCount) o rfl
    have hk : ∀ x, (h'.obj x).mark = (h.obj x).mark ∧
        (h'.obj x).refCountScan = (h.obj x).refCountScan :=
      fun x => ⟨h.modify_same (·.mark) o rfl x, h.modify_same (·.refCountScan) o rfl x⟩
    have hheld : ∀ r, held h' r = held h r := held_congr rfl hm
    refine ⟨⟨?_, ?_, ?_, ?_, ?_, ?_, hc.nodup, ?_, ?_⟩, ?_, ?_, ?_⟩
    · intro x hx
      have hu := hc.unallocated x hx
      rw [hobj]
      split_ifs with hxo
      · subst hxo
        rw [hu] at hnf
        cases hnf
      · exact hu
    · intro x
      rw [hcnt, hheld, hc.strong x, pend_weak_strong]
    · intro x hx
      rw [hcnt]
      exact hc.dead x (hd x ▸ hx)
    · intro x hx
      rw [hcnt]
      exact hc.alive x (hd x ▸ hx)
    · intro x
      have hx := hc.weak x
      rw [pend_weak] at hx
      rw [hheld, hd, hobj]
      by_cases hxo : x = o
      · subst hxo
        rw [if_pos rfl] at hx ⊢
        show (h.obj x).weakRefCount - 1 = _
        omega
      · rw [if_neg hxo] at hx ⊢
        exact hx
    · intro x
      rw [hobj]
      split_ifs with hxo
      · subst hxo
        exact hb
      · exact hc.freed x
    · intro x hx
      rw [hd]
      exact hc.listed x hx
    · intro x
      rw [(hk x).1]
      exact hc.calm x
    · have hs : h'.size = h.size := rfl
      exact .of_counts hs hm (h.modify_same (·.dtor) o rfl) hd hk hl rfl
        (fun _ hx => hx) (fun _ hx => Or.inl hx) id _
    · intro x hx
      rw [hd]
      exact (hS x hx).1
    · intro _ A
      refine covered_of_links (fun y => links_congr (hm y)) (fun x hx => hd x ▸ hx) ?_
      intro y hy
      simpa [roots, hh'] using hy
  unfold diDropWeakRef diDecrementWeakRefCount
  rw [Heap.deref_ok hnf]
  simp only [bind, Except.bind]
  by_cases hz : (h.obj o).weakRefCount - 1 = 0
  · have hrc : (h.obj o).refCount = 0 := by
      apply hc.dead
      cases hb : (h.obj o).destroyed with
      | true => rfl
      | false => rw [hb] at hw; simp at hw; omega
    rw [if_pos hz, if_neg (by simpa using hrc)]
    refine ⟨_, rfl, ?_⟩
    have := key true (by simpa using hz) (.free o :: h.log) (by
      intro e he
      rw [List.count_cons]
      simp [(he o).symm])
    simpa [Heap.modify, Heap.record] using this
  · rw [if_neg hz]
    refine ⟨_, rfl, ?_⟩
    have := key false (by simpa using hz) h.log (fun _ _ => rfl)
    have hsame : (h.modify o fun x => {x with weakRefCount := x.weakRefCount - 1}) =
        {h.modify o (fun x => {x with weakRefCount := x.weakRefCount - 1, freed := false})
          with log := h.log} := by
      simp only [Heap.modify, hnf]
    rw [hsame]
    exact this

/-- References released one after another. -/
theorem foldlM_releases {n : ℕ} {act : Heap → Ref → Except Fault Heap}
    (hact : ∀ r, Releases n (fun h => act h r) [r]) (rs : List Ref) :
    Releases n (fun h => rs.foldlM act h) rs := by
  intro h R S hc hS hn
  have hloop := PendingWork.foldlM_consumes (f := act)
    (I := fun qs u => Counted u (pend R qs) ∧ Released ∅ h u ∧
      (∀ x ∈ S, (u.obj x).destroyed = false) ∧
      (Quiet h → ∀ A, Covered h (pend R rs) A → Covered u (pend R qs) A))
    (fun r qs u hu => by
      obtain ⟨hcu, hru, hku, hvu⟩ := hu
      have hSu : Sustained u R S := hS.transfer hku fun x hx => ((hru.obj x id).same (hku x hx)).1
      rw [show r :: qs = [r] ++ qs from rfl, pend_append] at hcu hvu
      obtain ⟨v, hv, ho⟩ := hact r u (pend R qs) S hcu (hSu.mono (le_pend R qs))
        (hru.liveCount_le.trans hn)
      refine ⟨v, hv, ho.counted, hru.trans' ho.released, ho.kept, fun hq A hA => ?_⟩
      exact ho.covered (hru.quiet (fun _ hx => hx.elim) hq) A (hvu hq A hA))
    rs [] h ⟨by simpa using hc, .refl _ _, fun x hx => (hS x hx).1,
      fun _ A hA => by simpa using hA⟩
  obtain ⟨h', hrun, hcu, hru, hku, hvu⟩ := hloop
  rw [pend_nil] at hcu hvu
  exact ⟨h', hrun, hcu, hru, hku, hvu⟩

/-- `di_free_value` releases the references of the value. -/
theorem diFreeValue_releases {n : ℕ} {unref : ObjRef → Heap → Except Fault Heap}
    (hun : ∀ p, Releases n (unref p) [.strong p]) (v : DiValue) :
    Releases n (diFreeValue unref v) v.refs := by
  have hact : ∀ r, Releases n (fun h => onRef unref diDropWeakRef h r) [r] := by
    intro r
    cases r with
    | strong p => exact hun p
    | weak p => exact diDropWeakRef_releases n p
  intro h R S hc hS hn
  obtain ⟨h', hrun, ho⟩ := foldlM_releases hact v.refs h R S hc hS hn
  refine ⟨h', ?_, ho⟩
  rw [diFreeValue, forRefs_eq]
  exact hrun

/-- What finalizing `o` gives: it has no members left, everybody else is as
after a release. -/
structure Finalized (R : Ref → ℕ) (S : Set ObjRef) (o : ObjRef) (h h' : Heap) : Prop where
  counted : Counted h' R
  released : Released {o} h h'
  members : (h'.obj o).members = []
  destroyed : (h'.obj o).destroyed = (h.obj o).destroyed
  kept : ∀ x ∈ S, (h'.obj x).destroyed = false
  covered : Quiet h → ∀ A, Covered h R (insert o A) → Covered h' R (insert o A)

theorem count_eraseP {ms : List (String × DiValue)} {name : String} {m : String × DiValue}
    (hm : ms.find? (·.1 == name) = some m) (r : Ref) :
    (ms.flatMap (·.2.refs)).count r =
      m.2.refs.count r + ((ms.eraseP (·.1 == name)).flatMap (·.2.refs)).count r := by
  induction ms with
  | nil => cases hm
  | cons x xs ih =>
      rw [List.find?_cons] at hm
      rw [List.eraseP_cons]
      cases hx : x.1 == name with
      | true =>
          rw [hx] at hm
          cases hm
          simp only [cond_true, List.flatMap_cons, List.count_append]
      | false =>
          rw [hx] at hm
          simp only [cond_false, List.flatMap_cons, List.count_append, ih hm]
          omega

/-- The references of the member that is taken out. -/
theorem count_removeMember {h : Heap} {o : ObjRef} {name : String} {v : DiValue}
    (hv : diLookup o name h = some v) (r : Ref) :
    (memberRefs h o).count r =
      v.refs.count r + (memberRefs (h.removeMember o name) o).count r := by
  obtain ⟨m, hm, rfl⟩ := Option.map_eq_some_iff.mp hv
  have := count_eraseP hm r
  unfold memberRefs
  rw [Heap.removeMember, Heap.modify_obj_self]
  exact this

theorem diLookup_head {h : Heap} {o : ObjRef} {m : String × DiValue}
    {ms : List (String × DiValue)} (hm : (h.obj o).members = m :: ms) :
    diLookup o m.1 h = some m.2 := by
  simp [diLookup, hm]

/-- Taking a member out of the table moves its references to the pending ones. -/
theorem Counted.removeMember {h : Heap} {R : Ref → ℕ} {o : ObjRef} {name : String}
    {v : DiValue} (hc : Counted h R) (ho : o < h.size) (hv : diLookup o name h = some v) :
    Counted (h.removeMember o name) (pend R v.refs) := by
  refine hc.setMembers ho ((h.obj o).members.eraseP (·.1 == name)) fun r => ?_
  obtain ⟨m, hm, rfl⟩ := Option.map_eq_some_iff.mp hv
  have hcount := count_eraseP hm r
  unfold pend memberRefs
  omega

/-- The member's objects stay covered: they are pending now. -/
theorem Covered.removeMember {h : Heap} {R : Ref → ℕ} {o : ObjRef} {name : String}
    {v : DiValue} {A : Set ObjRef} (hl : diLookup o name h = some v) (hv : Covered h R A) :
    Covered (h.removeMember o name) (pend R v.refs) A := by
  have hcount := count_removeMember hl
  set h' := h.removeMember o name with hh'
  intro x hx
  have hd : (h'.obj x).destroyed = (h.obj x).destroyed := h.modify_same (·.destroyed) o rfl x
  rw [hd] at hx
  refine (hv x hx).transfer (fun a ha => .of_mem ?_) fun y z hy he => ?_
  · rcases ha with ha | ha | ha
    · exact Or.inl (ha.trans_le (le_pend R _ _))
    · exact Or.inr (Or.inl ha)
    · exact Or.inr (Or.inr ha)
  · by_cases hyo : y = o
    · subst hyo
      unfold Edge links at he
      rw [hcount] at he
      rcases Nat.eq_zero_or_pos (v.refs.count (.strong z)) with h₀ | h₀
      · apply hy.step
        unfold Edge links
        omega
      · exact .of_mem (Or.inl (h₀.trans_le (Nat.le_add_left _ _)))
    · have hl : links h' y = links h y :=
        links_congr (by rw [hh', Heap.removeMember, h.modify_obj_ne _ hyo])
      apply hy.step
      unfold Edge at he ⊢
      rwa [hl]

theorem Released.removeMember (h : Heap) (o : ObjRef) (name : String) :
    Released {o} h (h.removeMember o name) := by
  have hfield : ∀ {β : Type} (g : DiObject → β),
      (∀ x l, g {x with members := l} = g x) →
      ∀ x, g ((h.removeMember o name).obj x) = g (h.obj x) :=
    fun g hg => h.modify_same g o (hg _ _)
  refine ⟨rfl, ?_, ?_, ?_, ?_, fun _ => rfl, .refl _, fun _ hx _ => hx, fun _ hx _ => hx,
    fun _ hx => Or.inl hx, id⟩
  · intro x hx
    rw [Heap.removeMember, h.modify_obj_ne _ hx]
    exact .refl _
  · intro x
    exact ⟨hfield (·.mark) (fun _ _ => rfl) x, hfield (·.refCountScan) (fun _ _ => rfl) x⟩
  · intro x
    rw [hfield (·.dtor) (fun _ _ => rfl) x]
    rfl
  · intro x
    rw [hfield (·.destroyed) (fun _ _ => rfl) x]
    rfl

/-- The member loop of `di_finalize_object_inner`. The object is either being
destroyed already or held by somebody, so the releases leave it alone. -/
theorem finalize_loop {n : ℕ} {unref : ObjRef → Heap → Except Fault Heap}
    (hun : ∀ p, Releases n (unref p) [.strong p]) {R : Ref → ℕ} {S : Set ObjRef} {o : ObjRef}
    (hoS : o ∉ S) (ms : List (String × DiValue)) (h : Heap) (hm : (h.obj o).members = ms)
    (hc : Counted h R) (ho : (h.obj o).destroyed = false → 0 < R (.strong o))
    (hsz : o < h.size) (hS : Sustained h R S) (hn : liveCount h ≤ n) :
    ∃ h', ms.foldlM (fun h m => diFreeValue unref m.2 (h.removeMember o m.1)) h = .ok h' ∧
      Finalized R S o h h' ∧ (h'.obj o).dtor = (h.obj o).dtor := by
  induction ms generalizing h with
  | nil =>
      exact ⟨h, rfl, ⟨hc, .refl _ _, hm, rfl, fun x hx => (hS x hx).1, fun _ _ hA => hA⟩, rfl⟩
  | cons m ms ih =>
      have hr₁ := Released.removeMember h o m.1
      have hc₁ := Counted.removeMember hc hsz (diLookup_head hm)
      set h₁ := h.removeMember o m.1 with hh₁
      have hd₁ : ∀ x, (h₁.obj x).destroyed = (h.obj x).destroyed :=
        h.modify_same (·.destroyed) o rfl
      -- protect `o` as well while it is alive
      have hS₁ : Sustained h₁ R (S ∪ {x | x = o ∧ (h.obj o).destroyed = false}) := by
        rintro x (hx | ⟨rfl, hx⟩)
        · refine ⟨(hd₁ x).trans (hS x hx).1, (hS x hx).2.imp_right ?_⟩
          rintro ⟨y, hy, he⟩
          refine ⟨y, Or.inl hy, ?_⟩
          unfold Edge at he ⊢
          rwa [links_congr]
          rw [hh₁, Heap.removeMember, h.modify_obj_ne]
          rintro rfl
          exact hoS hy
        · exact ⟨(hd₁ x).trans hx, Or.inl (ho hx)⟩
      have hn₁ : liveCount h₁ ≤ n := by
        unfold liveCount at hn ⊢
        rw [hr₁.size]
        simpa only [hd₁] using hn
      obtain ⟨h₂, hrun, hout⟩ := diFreeValue_releases hun m.2 h₁ R _ hc₁ hS₁ hn₁
      have hstep := hout.released.obj o id
      have hd₂ : (h₂.obj o).destroyed = (h.obj o).destroyed := by
        cases hb : (h.obj o).destroyed with
        | false => exact hout.kept o (Or.inr ⟨rfl, hb⟩)
        | true => exact (hstep.dead ((hd₁ o).trans hb)).1
      have hsame : (h₂.obj o).members = (h₁.obj o).members ∧
          (h₂.obj o).dtor = (h₁.obj o).dtor := by
        cases hb : (h₂.obj o).destroyed with
        | false => exact hstep.same hb
        | true => exact (hstep.dead ((hd₁ o).trans (hd₂.symm.trans hb))).2
      have hms₂ : (h₂.obj o).members = ms := by
        rw [hsame.1, hh₁]
        simp [Heap.removeMember, hm]
      have hSk : ∀ x ∈ S, (h₂.obj x).destroyed = false := fun x hx => hout.kept x (Or.inl hx)
      have hS₂ : Sustained h₂ R S := by
        refine hS.transfer hSk fun x hx => ?_
        rw [((hout.released.obj x id).same (hSk x hx)).1, hh₁, Heap.removeMember,
          h.modify_obj_ne]
        rintro rfl
        exact hoS hx
      obtain ⟨h₃, hrun₃, hfin, hdt⟩ := ih h₂ hms₂ hout.counted
        (fun hx => ho (hd₂ ▸ hx)) (hout.released.size ▸ hsz) hS₂
        (hout.released.liveCount_le.trans hn₁)
      have hX : ∀ x ∈ ({o} : Set ObjRef), (h₃.obj x).destroyed = false →
          (h₂.obj x).destroyed = false := by
        rintro x rfl hx
        rwa [hfin.destroyed] at hx
      have hX₁ : ∀ x ∈ ({o} : Set ObjRef), (h₂.obj x).destroyed = false →
          (h₁.obj x).destroyed = false := fun x _ hx => hout.released.alive hx
      have hr₂ : Released {o} h h₂ :=
        hr₁.trans (hout.released.mono (Set.empty_subset _)) hX₁
      refine ⟨h₃, ?_, ⟨hfin.counted, hr₂.trans hfin.released hX, hfin.members,
        hfin.destroyed.trans hd₂, hfin.kept, ?_⟩, ?_⟩
      · rw [List.foldlM_cons]
        change (diFreeValue unref m.2 h₁ >>= _) = _
        rw [hrun]
        exact hrun₃
      · intro hq A hA
        have hq₁ : Quiet h₁ := hr₁.quiet (fun x _ hx => (hd₁ x) ▸ hx) hq
        have hq₂ : Quiet h₂ := hout.released.quiet (fun _ hx => hx.elim) hq₁
        exact hfin.covered hq₂ A (hout.covered hq₁ _ (Covered.removeMember (diLookup_head hm) hA))
      · rw [hdt, hsame.2]
        exact h.modify_same (·.dtor) o rfl o

/-- Calling the destructor changes nothing else. -/
theorem callDtor_spec (o : ObjRef) (h : Heap) :
    Released {o} h (callDtor o h) ∧ ((callDtor o h).obj o).dtor = false ∧
      (callDtor o h).unreferred = h.unreferred ∧ (callDtor o h).isolated = h.isolated ∧
      ∀ {β : Type} (g : DiObject → β), (∀ x b, g {x with dtor := b} = g x) →
        ∀ x, g ((callDtor o h).obj x) = g (h.obj x) := by
  unfold callDtor
  split_ifs with hb
  · have hfield : ∀ {β : Type} (g : DiObject → β), (∀ x b, g {x with dtor := b} = g x) →
        ∀ x, g (((h.modify o fun x => {x with dtor := false}).record (.dtor o)).obj x) =
          g (h.obj x) := by
      intro β g hg x
      rw [Heap.record_obj]
      exact h.modify_same g o (hg _ _) x
    refine ⟨⟨rfl, ?_, ?_, ?_, ?_, ?_, .refl _, fun _ hx _ => hx, fun _ hx _ => hx,
      fun _ hx => Or.inl hx, id⟩, by simp, rfl, rfl, hfield⟩
    · intro x hx
      rw [Heap.record_obj, h.modify_obj_ne _ hx]
      exact .refl _
    · exact fun x =>
        ⟨hfield (·.mark) (fun _ _ => rfl) x, hfield (·.refCountScan) (fun _ _ => rfl) x⟩
    · intro x
      by_cases hx : x = o
      · subst hx
        simp [hb]
      · rw [Heap.record_log, Heap.record_obj, h.modify_obj_ne _ hx, List.count_cons]
        simp [Ne.symm hx]
    · intro x
      rw [hfield (·.destroyed) (fun _ _ => rfl) x]
      simp
    · intro x
      simp
  · exact ⟨.refl _ _, by simpa using hb, rfl, rfl, fun _ _ _ => rfl⟩

/-- `di_finalize_object_inner` -/
theorem diFinalizeObjectInner_spec {n : ℕ} {unref : ObjRef → Heap → Except Fault Heap}
    (hun : ∀ p, Releases n (unref p) [.strong p]) {R : Ref → ℕ} {S : Set ObjRef} {o : ObjRef}
    (hoS : o ∉ S) (h : Heap) (hc : Counted h R)
    (ho : (h.obj o).destroyed = false → 0 < R (.strong o)) (hsz : o < h.size)
    (hS : Sustained h R S) (hn : liveCount h ≤ n) :
    ∃ h', diFinalizeObjectInner unref o h = .ok h' ∧ Finalized R S o h h' ∧
      (h'.obj o).dtor = false := by
  obtain ⟨hr, hdt, hu, hi, hfield⟩ := callDtor_spec o h
  set h₁ := callDtor o h with hh₁
  have hm : ∀ x, (h₁.obj x).members = (h.obj x).members := hfield (·.members) fun _ _ => rfl
  have hd : ∀ x, (h₁.obj x).destroyed = (h.obj x).destroyed :=
    hfield (·.destroyed) fun _ _ => rfl
  have hc₁ : Counted h₁ R := hc.callDtor hsz
  have hS₁ : Sustained h₁ R S :=
    hS.transfer (fun x hx => (hd x).trans (hS x hx).1) fun x _ => hm x
  have hn₁ : liveCount h₁ ≤ n := by
    unfold liveCount at hn ⊢
    rw [hr.size]
    simpa only [hd] using hn
  obtain ⟨h', hrun, hfin, hdt'⟩ := finalize_loop hun hoS _ h₁ rfl hc₁
    (fun hx => ho (hd o ▸ hx)) (hr.size ▸ hsz) hS₁ hn₁
  have hX : ∀ x ∈ ({o} : Set ObjRef), (h'.obj x).destroyed = false →
      (h₁.obj x).destroyed = false := by
    rintro x rfl hx
    rwa [hfin.destroyed] at hx
  refine ⟨h', hrun, ⟨hfin.counted, hr.trans hfin.released hX, hfin.members,
    hfin.destroyed.trans (hd o), hfin.kept, ?_⟩, hdt'.trans hdt⟩
  intro hq A hA
  refine hfin.covered (hr.quiet (fun x _ hx => hd x ▸ hx) hq) A ?_
  refine covered_of_links (fun y => links_congr (hm y)) (fun x hx => hd x ▸ hx) ?_ hA
  intro y hy
  unfold roots at hy ⊢
  rwa [hu]

/-- One reference less to an object that has another one. -/
theorem Counted.decRef {h : Heap} {R : Ref → ℕ} {o : ObjRef}
    (hc : Counted h (pend R [.strong o])) (hgt : 1 < (h.obj o).refCount) :
    Counted (h.modify o fun x => {x with refCount := x.refCount - 1}) R := by
  have ho : (h.obj o).destroyed = false :=
    hc.alive_of_held (by rw [pend_strong, if_pos rfl]; omega)
  refine hc.recount ho (· - 1) (Nat.sub_pos_of_lt hgt) (fun x => ?_)
    fun x => (pend_strong_weak R o x).symm
  have hx := hc.strong x
  rw [pend_strong] at hx
  split_ifs at hx ⊢ with hxo
  · subst hxo
    omega
  · omega

theorem Counted.addUnreferred {h : Heap} {R : Ref → ℕ} {o : ObjRef} (hc : Counted h R)
    (ho : (h.obj o).destroyed = false) (hu : h.unlisted o = true) :
    Counted (h.addUnreferred o) R := by
  simp only [Heap.unlisted, Bool.and_eq_true, Bool.not_eq_true', List.contains_eq_mem,
    decide_eq_false_iff_not] at hu
  refine {hc with nodup := ?_, listed := ?_}
  · change (o :: (h.unreferred ++ h.isolated)).Nodup
    rw [List.nodup_cons, List.mem_append]
    exact ⟨fun h => h.elim hu.1 hu.2, hc.nodup⟩
  · intro x hx
    change x ∈ o :: (h.unreferred ++ h.isolated) at hx
    rcases List.mem_cons.mp hx with rfl | hx
    · exact ho
    · exact hc.listed x hx

/-- The object with no reference left is marked destroyed; the weak reference
that its strong references held implicitly is pending now. -/
theorem Counted.startDestroy {h h' : Heap} {R : Ref → ℕ} {o : ObjRef}
    (hc : Counted h (pend R [.strong o])) (hone : (h.obj o).refCount = 1)
    (hh' : h' = (((h.modify o fun x => {x with refCount := x.refCount - 1}).listDelInit
      o).modify o fun x => {x with destroyed := true}).record (.destroy o)) :
    Counted h' (pend R [.weak o]) ∧ Released {o} h h' ∧ (h'.obj o).destroyed = true ∧
      ∀ y, y ≠ o → h'.obj y = h.obj y := by
  have halive : (h.obj o).destroyed = false :=
    hc.alive_of_held (by rw [pend_strong, if_pos rfl]; omega)
  have hne : ∀ y, y ≠ o → h'.obj y = h.obj y := by
    intro y hy
    rw [hh', Heap.record_obj, Heap.modify_obj_ne _ _ hy, Heap.listDelInit_obj,
      Heap.modify_obj_ne _ _ hy]
  have hself : h'.obj o = {h.obj o with refCount := (h.obj o).refCount - 1, destroyed := true} := by
    simp [hh']
  have hm : ∀ x, (h'.obj x).members = (h.obj x).members := by
    intro x
    by_cases hx : x = o
    · rw [hx, hself]
    · rw [hne x hx]
  have hheld : ∀ r, held h' r = held h r := held_congr (by rw [hh']; rfl) hm
  have hunr : h'.unreferred = h.unreferred.erase o := by rw [hh']; rfl
  have hiso : h'.isolated = h.isolated.erase o := by rw [hh']; rfl
  have hlog : h'.log = .destroy o :: h.log := by rw [hh']; rfl
  have hsz : h'.size = h.size := by rw [hh']; rfl
  have hdis : ∀ x, x ∈ h.unreferred.erase o ++ h.isolated.erase o →
      x ≠ o ∧ x ∈ h.unreferred ++ h.isolated := by
    intro x hx
    have hnd := List.nodup_append'.mp hc.nodup
    rcases List.mem_append.mp hx with hx | hx
    · exact ⟨fun he => hnd.1.not_mem_erase (he ▸ hx),
        List.mem_append_left _ (List.mem_of_mem_erase hx)⟩
    · exact ⟨fun he => hnd.2.1.not_mem_erase (he ▸ hx),
        List.mem_append_right _ (List.mem_of_mem_erase hx)⟩
  refine ⟨⟨?_, ?_, ?_, ?_, ?_, ?_, ?_, ?_, ?_⟩, ⟨hsz, ?_, ?_, ?_, ?_, ?_, ?_, ?_, ?_, ?_, ?_⟩,
    by rw [hself], hne⟩
  · intro x hx
    rw [hsz] at hx
    have hu := hc.unallocated x hx
    rw [hne x, hu]
    rintro rfl
    rw [hu] at halive
    cases halive
  · intro x
    have hx := hc.strong x
    rw [pend_strong] at hx
    rw [hheld, pend_weak_strong]
    by_cases hxo : x = o
    · rw [hxo, hself]
      rw [hxo, if_pos rfl] at hx
      change (h.obj o).refCount - 1 = _
      omega
    · rw [hne x hxo, hx, if_neg hxo, Nat.add_zero]
  · intro x hx
    by_cases hxo : x = o
    · rw [hxo, hself]
      change (h.obj o).refCount - 1 = 0
      omega
    · rw [hne x hxo] at hx ⊢
      exact hc.dead x hx
  · intro x hx
    by_cases hxo : x = o
    · rw [hxo, hself] at hx
      cases hx
    · rw [hne x hxo] at hx ⊢
      exact hc.alive x hx
  · intro x
    have hx := hc.weak x
    rw [pend_strong_weak] at hx
    rw [hheld, pend_weak]
    by_cases hxo : x = o
    · rw [hxo, halive] at hx
      rw [hxo, hself, if_pos rfl]
      simp only [Bool.false_eq_true, if_false, if_true] at hx ⊢
      omega
    · rw [hne x hxo, hx, if_neg hxo, Nat.add_zero]
  · intro x
    by_cases hxo : x = o
    · rw [hxo, hself]
      exact hc.freed o
    · rw [hne x hxo]
      exact hc.freed x
  · rw [hunr, hiso]
    exact hc.nodup.sublist (List.erase_sublist.append List.erase_sublist)
  · intro x hx
    rw [hunr, hiso] at hx
    rw [hne x (hdis x hx).1]
    exact hc.listed x (hdis x hx).2
  · intro x
    by_cases hxo : x = o
    · rw [hxo, hself]
      exact hc.calm o
    · rw [hne x hxo]
      exact hc.calm x
  · intro x hx
    rw [hne x hx]
    exact .refl _
  · intro x
    by_cases hxo : x = o
    · rw [hxo, hself]
      exact ⟨rfl, rfl⟩
    · rw [hne x hxo]
      exact ⟨rfl, rfl⟩
  · intro x
    have hdt : (h'.obj x).dtor = (h.obj x).dtor := by
      by_cases hxo : x = o
      · rw [hxo, hself]
      · rw [hne x hxo]
    rw [hlog, hdt]
    simp
  · intro x
    rw [hlog]
    by_cases hxo : x = o
    · rw [hxo, hself, halive]
      simp
    · rw [hne x hxo, List.count_cons]
      simp [Ne.symm hxo]
  · intro x
    rw [hlog]
    simp
  · rw [hiso]
    exact List.erase_sublist
  · intro x hx hd
    rw [hiso]
    refine (List.mem_erase_of_ne ?_).mpr hx
    rintro rfl
    rw [hself] at hd
    cases hd
  · intro x hx hd
    rw [hunr]
    refine (List.mem_erase_of_ne ?_).mpr hx
    rintro rfl
    rw [hself] at hd
    cases hd
  · intro x hx
    rw [hunr] at hx
    exact Or.inl (List.mem_of_mem_erase hx)
  · intro hh
    rw [hh']
    exact hh

/-- A root without members and without life covers nobody. -/
theorem Covered.dropRoot {h : Heap} {R : Ref → ℕ} {o : ObjRef} {A : Set ObjRef}
    (ho : (h.obj o).destroyed = true) (hm : (h.obj o).members = [])
    (hv : Covered h R (insert o A)) : Covered h R A := by
  intro x hx
  obtain ⟨r, hr, hrx⟩ := hv x hx
  suffices hs : x = o ∨ ReachableFrom (links h) (roots h R A) x by
    rcases hs with rfl | hs
    · rw [ho] at hx
      cases hx
    · exact hs
  clear hx
  induction hrx with
  | refl =>
      rcases hr with hr | hr | rfl | hr
      · exact Or.inr (.of_mem (Or.inl hr))
      · exact Or.inr (.of_mem (Or.inr (Or.inl hr)))
      · exact Or.inl rfl
      · exact Or.inr (.of_mem (Or.inr (Or.inr hr)))
  | tail _ he ih =>
      rcases ih with rfl | ih
      · simp [Edge, links, memberRefs, hm] at he
      · exact Or.inr (ih.step he)

/-- Destroying an object that has just lost its last reference. -/
theorem destroy_outcome {unref : ObjRef → Heap → Except Fault Heap} {h : Heap}
    (hun : ∀ p m, m < liveCount h → Releases m (unref p) [.strong p])
    {R : Ref → ℕ} {S : Set ObjRef} {o : ObjRef} (hc : Counted h (pend R [.strong o]))
    (hS : Sustained h R S) (hone : (h.obj o).refCount = 1) :
    ∃ h', diDestroyObject unref o ((h.modify o fun x =>
        {x with refCount := x.refCount - 1}).listDelInit o) = .ok h' ∧
      Outcome R S [.strong o] h h' := by
  have halive : (h.obj o).destroyed = false :=
    hc.alive_of_held (by rw [pend_strong, if_pos rfl]; omega)
  have hnf := hc.not_freed halive
  have hsz := hc.lt_size halive
  set h₁ := (h.modify o fun x => {x with refCount := x.refCount - 1}).listDelInit o with hh₁
  set h₂ := (h₁.modify o fun x => {x with destroyed := true}).record (.destroy o) with hh₂
  obtain ⟨hc₂, hr₂, hd₂, hne₂⟩ := Counted.startDestroy hc hone hh₂
  have hoS : o ∉ S := by
    have hst := hc.strong o
    rw [pend_strong, if_pos rfl] at hst
    exact hS.not_mem (fun x hx => hc.lt_size hx) (by omega) (by omega)
  have hS₂ : Sustained h₂ (pend R [.weak o]) S := by
    refine Sustained.mono (le_pend R _) (hS.transfer ?_ ?_)
    · intro x hx
      rw [hne₂ x (fun he => hoS (he ▸ hx))]
      exact (hS x hx).1
    · intro x hx
      rw [hne₂ x (fun he => hoS (he ▸ hx))]
  have hlt : liveCount h₂ < liveCount h := by
    unfold liveCount
    rw [hr₂.size]
    refine Finset.card_lt_card ⟨?_, fun hsub => ?_⟩
    · intro x hx
      rw [Finset.mem_filter] at hx ⊢
      refine ⟨hx.1, ?_⟩
      rw [← hne₂ x]
      · exact hx.2
      · rintro rfl
        rw [hd₂] at hx
        cases hx.2
    · have := hsub (Finset.mem_filter.mpr ⟨Finset.mem_range.mpr hsz, halive⟩)
      rw [Finset.mem_filter, hd₂] at this
      cases this.2
  obtain ⟨h₃, hrun₃, hfin, hdt₃⟩ := diFinalizeObjectInner_spec (n := liveCount h₂)
    (fun p => hun p _ hlt) hoS h₂ hc₂ (fun hx => by rw [hd₂] at hx; cases hx)
    (hr₂.size ▸ hsz) hS₂ le_rfl
  have hd₃ : (h₃.obj o).destroyed = true := hfin.destroyed.trans hd₂
  have hr₃ : Released {o} h h₃ := hr₂.trans hfin.released (by
    rintro x rfl hx
    rw [hd₃] at hx
    cases hx)
  have hS₃ : Sustained h₃ R S := by
    refine hS.transfer hfin.kept fun x hx => ?_
    exact ((hr₃.obj x fun he => hoS (he ▸ hx)).same (hfin.kept x hx)).1
  obtain ⟨h₄, hrun₄, hout⟩ := diDropWeakRef_releases (liveCount h₃) o h₃ R S
    hfin.counted hS₃ le_rfl
  have hstep := (hout.released.obj o id).dead hd₃
  have hr₄ : Released {o} h h₄ := hr₃.trans (hout.released.mono (Set.empty_subset _)) (by
    rintro x rfl hx
    rw [hstep.1] at hx
    cases hx)
  refine ⟨h₄, ?_, hout.counted, {hr₄ with obj := ?_}, hout.kept, ?_⟩
  · unfold diDestroyObject
    have hnf₁ : (h₁.obj o).freed = false := by
      simpa [hh₁] using hnf
    have hrc₁ : ¬ (h₁.obj o).refCount ≠ 0 := by
      simp [hh₁, hone]
    have hda₁ : (h₁.obj o).destroyed = false := by
      simpa [hh₁] using halive
    rw [Heap.deref_ok hnf₁]
    simp only [bind, Except.bind]
    rw [if_neg hrc₁, hda₁]
    simp only [Bool.false_eq_true, if_false]
    rw [← hh₂, hrun₃]
    exact hrun₄
  · intro x _
    by_cases hx : x = o
    · subst hx
      refine ⟨fun hd => ?_, fun hd => ?_, fun _ _ => ?_⟩
      · rw [halive] at hd
        cases hd
      · rw [hstep.1] at hd
        cases hd
      · exact ⟨hstep.2.1.trans hfin.members, hstep.2.2.trans hdt₃⟩
    · exact hr₄.obj x hx
  · intro hq A hA
    -- the object counts as a root until its members have been released
    have hA₂ : Covered h₂ (pend R [.weak o]) (insert o A) := by
      refine covered_of_links (fun y => ?_) (fun x hx => ?_) (fun y hy => ?_) hA
      · apply links_congr
        by_cases hy : y = o
        · subst hy
          simp [hh₂, hh₁]
        · rw [hne₂ y hy]
      · by_cases hxo : x = o
        · rw [hxo, hd₂] at hx
          cases hx
        · rwa [hne₂ x hxo] at hx
      · by_cases hyo : y = o
        · exact Or.inr (Or.inr (Or.inl hyo))
        · rcases hy with hy | hy | hy
          · rw [pend_strong, if_neg hyo, Nat.add_zero] at hy
            exact Or.inl (by rwa [pend_weak_strong])
          · refine Or.inr (Or.inl ?_)
            change y ∈ h.unreferred.erase o
            exact (List.mem_erase_of_ne hyo).mpr hy
          · exact Or.inr (Or.inr (Or.inr hy))
    have hq₂ : Quiet h₂ := hr₂.quiet (by
      rintro x rfl hx
      rw [hd₂] at hx
      cases hx) hq
    have hq₃ : Quiet h₃ := hfin.released.quiet (by
      rintro x rfl hx
      rw [hd₃] at hx
      cases hx) hq₂
    exact hout.covered hq₃ A
      (Covered.dropRoot hd₃ hfin.members (hfin.covered hq₂ A hA₂))

/-- `di_unref_object` releases one strong reference, with fuel for every object
that may die on the way. -/
theorem diUnrefObject_releases {n fuel : ℕ} (hf : n < fuel) (o : ObjRef) :
    Releases n (diUnrefObject fuel o) [.strong o] := by
  induction fuel generalizing n o with
  | zero => omega
  | succ fuel ih =>
      intro h R S hc hS hn
      have hst := hc.strong o
      rw [pend_strong, if_pos rfl] at hst
      have halive : (h.obj o).destroyed = false :=
        hc.alive_of_held (by rw [pend_strong, if_pos rfl]; omega)
      have hcalm : (!calmMark (h.obj o).mark) = false := by rw [hc.calm o]; rfl
      unfold diUnrefObject
      rw [Heap.deref_ok (hc.not_freed halive)]
      simp only [bind, Except.bind]
      rw [if_neg (by omega), halive]
      simp only [Bool.false_eq_true, if_false, hcalm]
      by_cases hz : (h.obj o).refCount - 1 = 0
      · rw [if_pos hz]
        exact destroy_outcome (fun p m hm => ih (by omega) p) hc hS (by omega)
      · rw [if_neg hz]
        have hc₁ := Counted.decRef hc (by omega)
        set h₁ := h.modify o fun x => {x with refCount := x.refCount - 1} with hh₁
        have hfield : ∀ {β : Type} (g : DiObject → β),
            (∀ x k, g {x with refCount := k} = g x) → ∀ x, g (h₁.obj x) = g (h.obj x) :=
          fun g hg => h.modify_same g o (hg _ _)
        have hm := hfield (·.members) fun _ _ => rfl
        have hd := hfield (·.destroyed) fun _ _ => rfl
        have hk : ∀ x, (h₁.obj x).mark = (h.obj x).mark ∧
            (h₁.obj x).refCountScan = (h.obj x).refCountScan := fun x =>
          ⟨hfield (·.mark) (fun _ _ => rfl) x, hfield (·.refCountScan) (fun _ _ => rfl) x⟩
        have hkept : ∀ x ∈ S, (h₁.obj x).destroyed = false := fun x hx =>
          (hd x).trans (hS x hx).1
        by_cases hadd : (h₁.unlisted o && (h.obj o).mark == 0) = true
        · rw [if_pos hadd]
          obtain ⟨hul, hmk⟩ := Bool.and_eq_true_iff.mp hadd
          refine ⟨_, rfl, Counted.addUnreferred hc₁ ((hd o).trans halive) hul, ?_, hkept, ?_⟩
          · have hs : (h₁.addUnreferred o).size = h.size := rfl
            refine .of_counts hs hm (hfield (·.dtor) fun _ _ => rfl) hd hk (fun _ _ => rfl) rfl
              (fun x hx => List.mem_cons_of_mem _ hx) (fun x hx => ?_) (fun _ => rfl) _
            rcases List.mem_cons.mp hx with rfl | hx
            · exact Or.inr (by simpa using hmk)
            · exact Or.inl hx
          · intro _ A
            refine covered_of_links (fun y => links_congr (hm y)) (fun x hx => hd x ▸ hx) ?_
            rintro y (hy | hy | hy)
            · by_cases hyo : y = o
              · exact Or.inr (Or.inl (hyo ▸ List.mem_cons_self))
              · rw [pend_strong, if_neg hyo, Nat.add_zero] at hy
                exact Or.inl hy
            · exact Or.inr (Or.inl (List.mem_cons_of_mem _ hy))
            · exact Or.inr (Or.inr hy)
        · rw [if_neg hadd]
          refine ⟨_, rfl, hc₁, ?_, hkept, ?_⟩
          · have hs : h₁.size = h.size := rfl
            exact .of_counts hs hm (hfield (·.dtor) fun _ _ => rfl) hd hk (fun _ _ => rfl) rfl
              (fun x hx => hx) (fun x hx => Or.inl hx) id _
          · intro hq A
            refine covered_of_links (fun y => links_congr (hm y)) (fun x hx => hd x ▸ hx) ?_
            rintro y (hy | hy | hy)
            · by_cases hyo : y = o
              · -- outside a collection the object is a candidate already
                refine Or.inr (Or.inl ?_)
                by_contra hnot
                apply hadd
                rw [hq.2 o halive]
                have hi : h₁.isolated = [] := hq.1
                simp only [Heap.unlisted, hi, List.contains_eq_mem, Bool.and_eq_true,
                  Bool.not_eq_true', decide_eq_false_iff_not, beq_self_eq_true, and_true]
                exact ⟨hyo ▸ hnot, List.not_mem_nil⟩
              · rw [pend_strong, if_neg hyo, Nat.add_zero] at hy
                exact Or.inl hy
            · exact Or.inr (Or.inl hy)
            · exact Or.inr (Or.inr hy)

end Deai.Release
