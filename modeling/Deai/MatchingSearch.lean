import Mathlib.Data.Finset.Card
import Mathlib.Data.Finset.Union
import Mathlib.Data.Finset.Insert
import Mathlib.Tactic.SplitIfs

/-!
# Augmenting a bipartite matching by depth first search

The nodes on the left are paired one after the other. A search tries the edges of a node in order,
takes the first free node on the right, or one whose owner can be moved elsewhere. Each node on the
right is tried at most once in a search. The search is a relation, so that no bound on its depth is
part of its meaning.
-/
namespace Deai.MatchingSearch

variable {L R : Type*} [DecidableEq L] [DecidableEq R]

/-- The pairs found so far, the nodes tried in this search, and all nodes that a search has come to. -/
structure Progress (L R : Type*) where
  owner : R → Option L
  mate : L → Option R
  visited : Finset R
  looked : Finset R

def Progress.look (s : Progress L R) (r : R) : Progress L R :=
  {s with looked := insert r s.looked}

def Progress.mark (s : Progress L R) (r : R) : Progress L R :=
  {s with visited := insert r s.visited, looked := insert r s.looked}

def Progress.assign (s : Progress L R) (l : L) (r : R) : Progress L R :=
  {s with mate := Function.update s.mate l (some r), owner := Function.update s.owner r (some l)}

def Progress.clear (s : Progress L R) : Progress L R := {s with visited := ∅}

/-- The search for the left node `l` over what is left of its edges. -/
inductive Scan (adj : L → List R) : L → List R → Progress L R → Bool → Progress L R → Prop
  | exhausted (l : L) (s : Progress L R) : Scan adj l [] s false s
  | skipped {l : L} {r : R} {rest : List R} {s t : Progress L R} {found : Bool} :
      r ∈ s.visited → Scan adj l rest (s.look r) found t → Scan adj l (r :: rest) s found t
  | free {l : L} {r : R} {rest : List R} {s : Progress L R} :
      r ∉ s.visited → s.owner r = none → Scan adj l (r :: rest) s true ((s.mark r).assign l r)
  | moved {l k : L} {r : R} {rest : List R} {s t : Progress L R} :
      r ∉ s.visited → s.owner r = some k → Scan adj k (adj k) (s.mark r) true t →
      Scan adj l (r :: rest) s true (t.assign l r)
  | stuck {l k : L} {r : R} {rest : List R} {s t u : Progress L R} {found : Bool} :
      r ∉ s.visited → s.owner r = some k → Scan adj k (adj k) (s.mark r) false t →
      Scan adj l rest t found u → Scan adj l (r :: rest) s found u

/-- One search for each of the left nodes. -/
inductive Searches (adj : L → List R) : List L → Progress L R → Progress L R → Prop
  | done (s : Progress L R) : Searches adj [] s s
  | next {l : L} {rest : List L} {s t u : Progress L R} {found : Bool} :
      Scan adj l (adj l) s.clear found t → Searches adj rest t u → Searches adj (l :: rest) s u

variable {adj : L → List R} {l : L} {rest : List R} {s t : Progress L R} {found : Bool}

/-! ## What a search leaves alone -/

theorem Scan.visited_subset (h : Scan adj l rest s found t) : s.visited ⊆ t.visited := by
  induction h with
  | exhausted => exact Finset.Subset.refl _
  | skipped _ _ ih => exact ih
  | free => exact Finset.subset_insert _ _
  | moved _ _ _ ih => exact (Finset.subset_insert _ _).trans ih
  | stuck _ _ _ _ ihk ih => exact ((Finset.subset_insert _ _).trans ihk).trans ih

theorem Scan.looked_subset (h : Scan adj l rest s found t) : s.looked ⊆ t.looked := by
  induction h with
  | exhausted => exact Finset.Subset.refl _
  | skipped _ _ ih => exact (Finset.subset_insert _ _).trans ih
  | free => exact Finset.subset_insert _ _
  | moved _ _ _ ih => exact (Finset.subset_insert _ _).trans ih
  | stuck _ _ _ _ ihk ih => exact ((Finset.subset_insert _ _).trans ihk).trans ih

theorem Searches.looked_subset {roots : List L} (h : Searches adj roots s t) :
    s.looked ⊆ t.looked := by
  induction h with
  | done => exact Finset.Subset.refl _
  | next hscan _ ih => exact Finset.Subset.trans hscan.looked_subset ih

/-- A search only comes to the ends of edges. -/
theorem Scan.looked_mem (h : Scan adj l rest s found t) {r : R} (hr : r ∈ t.looked) :
    r ∈ s.looked ∨ r ∈ rest ∨ ∃ k, r ∈ adj k := by
  induction h with
  | exhausted => exact .inl hr
  | skipped _ _ ih =>
      rcases ih hr with hlooked | hrest | hadj
      · rcases Finset.mem_insert.mp hlooked with rfl | hlooked
        · exact .inr (.inl (List.mem_cons_self ..))
        · exact .inl hlooked
      · exact .inr (.inl (List.mem_cons_of_mem _ hrest))
      · exact .inr (.inr hadj)
  | free =>
      rcases Finset.mem_insert.mp hr with rfl | hlooked
      · exact .inr (.inl (List.mem_cons_self ..))
      · exact .inl hlooked
  | moved _ _ _ ih =>
      rcases ih hr with hlooked | hadj | hadj
      · rcases Finset.mem_insert.mp hlooked with rfl | hlooked
        · exact .inr (.inl (List.mem_cons_self ..))
        · exact .inl hlooked
      · exact .inr (.inr ⟨_, hadj⟩)
      · exact .inr (.inr hadj)
  | stuck _ _ _ _ ihk ih =>
      rcases ih hr with hlooked | hrest | hadj
      · rcases ihk hlooked with hlooked | hadj | hadj
        · rcases Finset.mem_insert.mp hlooked with rfl | hlooked
          · exact .inr (.inl (List.mem_cons_self ..))
          · exact .inl hlooked
        · exact .inr (.inr ⟨_, hadj⟩)
        · exact .inr (.inr hadj)
      · exact .inr (.inl (List.mem_cons_of_mem _ hrest))
      · exact .inr (.inr hadj)

theorem Searches.looked_mem {roots : List L} (h : Searches adj roots s t) {r : R}
    (hr : r ∈ t.looked) : r ∈ s.looked ∨ ∃ k, r ∈ adj k := by
  induction h with
  | done => exact .inl hr
  | next hscan _ ih =>
      rcases ih hr with hlooked | hadj
      · rcases hscan.looked_mem hlooked with hlooked | hadj | hadj
        · exact .inl hlooked
        · exact .inr ⟨_, hadj⟩
        · exact .inr hadj
      · exact .inr hadj

/-! ## A search ends -/

/-- Every node on the right is marked at most once. -/
theorem Scan.exists_of_subset {nodes : Finset R} (hadj : ∀ k, ∀ r ∈ adj k, r ∈ nodes) (bound : ℕ)
    (hbound : (nodes \ s.visited).card < bound) (hrest : ∀ r ∈ rest, r ∈ nodes) :
    ∃ found t, Scan adj l rest s found t := by
  induction bound generalizing l rest s with
  | zero => exact absurd hbound (Nat.not_lt_zero _)
  | succ bound ihbound =>
      induction rest generalizing s with
      | nil => exact ⟨false, s, .exhausted l s⟩
      | cons r rest ihrest =>
          have hr : r ∈ nodes := hrest r (List.mem_cons_self ..)
          have htail : ∀ k ∈ rest, k ∈ nodes := fun k hk => hrest k (List.mem_cons_of_mem r hk)
          by_cases hvisited : r ∈ s.visited
          · obtain ⟨found, t, ht⟩ := ihrest (s := s.look r) hbound htail
            exact ⟨found, t, .skipped hvisited ht⟩
          · cases howner : s.owner r with
            | none => exact ⟨true, _, .free hvisited howner⟩
            | some k =>
                have hless : (nodes \ (s.mark r).visited).card < (nodes \ s.visited).card := by
                  apply Finset.card_lt_card
                  refine Finset.ssubset_iff_of_subset (Finset.sdiff_subset_sdiff (le_refl _)
                    (Finset.subset_insert r s.visited)) |>.mpr ⟨r, ?_, ?_⟩
                  · exact Finset.mem_sdiff.mpr ⟨hr, hvisited⟩
                  · exact fun h => (Finset.mem_sdiff.mp h).2 (Finset.mem_insert_self r s.visited)
                obtain ⟨found, t, ht⟩ := ihbound (l := k) (s := s.mark r) (by omega) (hadj k)
                cases found with
                | true => exact ⟨true, _, .moved hvisited howner ht⟩
                | false =>
                    have hsub : s.visited ⊆ t.visited :=
                      (Finset.subset_insert r s.visited).trans ht.visited_subset
                    have hfewer : (nodes \ t.visited).card ≤ (nodes \ s.visited).card :=
                      Finset.card_le_card (Finset.sdiff_subset_sdiff (le_refl _) hsub)
                    obtain ⟨found, u, hu⟩ := ihrest (s := t) (by omega) htail
                    exact ⟨found, u, .stuck hvisited howner ht hu⟩

theorem Searches.exists_of_subset (nodes : Finset R) (hadj : ∀ k, ∀ r ∈ adj k, r ∈ nodes)
    (roots : List L) (s : Progress L R) : ∃ t, Searches adj roots s t := by
  induction roots generalizing s with
  | nil => exact ⟨s, .done s⟩
  | cons l rest ih =>
      obtain ⟨found, t, ht⟩ := Scan.exists_of_subset (l := l) (s := s.clear) hadj _
        (Nat.lt_succ_self _) (hadj l)
      obtain ⟨u, hu⟩ := ih t
      exact ⟨u, .next ht hu⟩

/-- A search has one outcome. -/
theorem Scan.deterministic {found' : Bool} {t' : Progress L R} (h : Scan adj l rest s found t)
    (h' : Scan adj l rest s found' t') : found = found' ∧ t = t' := by
  induction h generalizing found' t' with
  | exhausted =>
      cases h'
      exact ⟨rfl, rfl⟩
  | skipped hvisited _ ih =>
      cases h' with
      | skipped _ h => exact ih h
      | free hnot => exact absurd hvisited hnot
      | moved hnot => exact absurd hvisited hnot
      | stuck hnot => exact absurd hvisited hnot
  | free hnot howner =>
      cases h' with
      | skipped hvisited => exact absurd hvisited hnot
      | free => exact ⟨rfl, rfl⟩
      | moved _ hk => simp [howner] at hk
      | stuck _ hk => simp [howner] at hk
  | moved hnot howner _ ih =>
      cases h' with
      | skipped hvisited => exact absurd hvisited hnot
      | free _ hnone => simp [howner] at hnone
      | moved _ hk h =>
          obtain rfl := Option.some.inj (howner.symm.trans hk)
          exact ⟨rfl, by rw [(ih h).2]⟩
      | stuck _ hk h =>
          obtain rfl := Option.some.inj (howner.symm.trans hk)
          exact absurd (ih h).1 (by simp)
  | stuck hnot howner _ _ ihk ih =>
      cases h' with
      | skipped hvisited => exact absurd hvisited hnot
      | free _ hnone => simp [howner] at hnone
      | moved _ hk h =>
          obtain rfl := Option.some.inj (howner.symm.trans hk)
          exact absurd (ihk h).1 (by simp)
      | stuck _ hk hl h =>
          obtain rfl := Option.some.inj (howner.symm.trans hk)
          obtain rfl := (ihk hl).2
          exact ih h

/-! ## A search that fails -/

/-- The owners of the nodes `W` have no edge that leaves `W`. -/
def Closed (adj : L → List R) (owner : R → Option L) (W : Finset R) : Prop :=
  ∀ r ∈ W, ∃ k, owner r = some k ∧ ∀ r' ∈ adj k, r' ∈ W

/-- A search that fails changes no pair and closes what it has marked. -/
theorem Scan.failed (h : Scan adj l rest s found t) (hfound : found = false) :
    t.owner = s.owner ∧ t.mate = s.mate ∧ (∀ r ∈ rest, r ∈ t.visited) ∧
      ∀ r ∈ t.visited, r ∈ s.visited ∨ ∃ k, s.owner r = some k ∧ ∀ r' ∈ adj k, r' ∈ t.visited := by
  induction h with
  | exhausted => exact ⟨rfl, rfl, nofun, fun r hr => .inl hr⟩
  | skipped hvisited hscan ih =>
      obtain ⟨howner, hmate, hrest, hclosed⟩ := ih hfound
      refine ⟨howner, hmate, fun r hr => ?_, hclosed⟩
      rcases List.mem_cons.mp hr with rfl | hr
      · exact hscan.visited_subset hvisited
      · exact hrest r hr
  | free => cases hfound
  | moved => cases hfound
  | @stuck l k r rest s t u found hnot hk hscan hrestscan ihk ih =>
      obtain ⟨howner, hmate, hrest, hclosed⟩ := ih hfound
      obtain ⟨hownerk, hmatek, hadj, hclosedk⟩ := ihk rfl
      have hsub := hrestscan.visited_subset
      refine ⟨howner.trans hownerk, hmate.trans hmatek, fun r' hr' => ?_, fun r' hr' => ?_⟩
      · rcases List.mem_cons.mp hr' with rfl | hr'
        · exact hsub (hscan.visited_subset (Finset.mem_insert_self r' s.visited))
        · exact hrest r' hr'
      · rcases hclosed r' hr' with hvisited | ⟨k', hk', hadj'⟩
        · rcases hclosedk r' hvisited with hmarked | ⟨k', hk', hadj'⟩
          · rcases Finset.mem_insert.mp hmarked with rfl | hold
            · exact .inr ⟨k, hk, fun x hx => hsub (hadj x hx)⟩
            · exact .inl hold
          · exact .inr ⟨k', hk', fun x hx => hsub (hadj' x hx)⟩
        · refine .inr ⟨k', ?_, hadj'⟩
          rw [hownerk] at hk'
          exact hk'

/-! ## A search that succeeds -/

/-- The two tables agree, and every pair is an edge. -/
structure Paired (adj : L → List R) (s : Progress L R) : Prop where
  mate_iff : ∀ l r, s.mate l = some r ↔ s.owner r = some l
  edge : ∀ l r, s.mate l = some r → r ∈ adj l

/-- What a search for `l` that succeeds has done. The node that `l` had before is one of those that
were marked before, and still names `l` as its owner. -/
structure Augmented (adj : L → List R) (l : L) (s t : Progress L R) : Prop where
  kept : ∀ r ∈ s.visited, t.owner r = s.owner r
  others : ∀ k, k ≠ l → t.mate k = s.mate k ∨
    ∃ r r', s.mate k = some r ∧ r ∉ s.visited ∧ t.mate k = some r'
  new : ∃ r, r ∉ s.visited ∧ t.mate l = some r
  mate_others : ∀ k, k ≠ l → ∀ r, t.mate k = some r ↔ t.owner r = some k
  mate_new : ∀ r, r ∉ s.visited → (t.mate l = some r ↔ t.owner r = some l)
  edge : ∀ k r, t.mate k = some r → r ∈ adj k

/-- The last step of a search that succeeds: `l` takes `r`, which is free. -/
theorem Augmented.of_free {r : R} (hpaired : Paired adj s) (hown : ∀ r, s.owner r = some l → r ∈ s.visited)
    (hr : r ∉ s.visited) (howner : s.owner r = none) (hedge : r ∈ adj l) :
    Augmented adj l s ((s.mark r).assign l r) := by
  refine ⟨fun r' hr' => ?_, fun k hk => .inl ?_, ⟨r, hr, ?_⟩, fun k hk r' => ?_, fun r' hr' => ?_,
    fun k r' h => ?_⟩
  · have hne : r' ≠ r := fun h => hr (h ▸ hr')
    simp [Progress.assign, Progress.mark, Function.update_of_ne hne]
  · simp [Progress.assign, Progress.mark, Function.update_of_ne hk]
  · simp [Progress.assign]
  · simp only [Progress.assign, Progress.mark, Function.update_of_ne hk]
    by_cases hne : r' = r
    · subst hne
      simp only [Function.update_self, Option.some.injEq, hpaired.mate_iff, howner]
      exact ⟨nofun, fun h => absurd h.symm hk⟩
    · simp only [Function.update_of_ne hne]
      exact hpaired.mate_iff k r'
  · simp only [Progress.assign, Progress.mark, Function.update_self, Option.some.injEq]
    by_cases hne : r' = r
    · subst hne
      simp
    · simp only [Function.update_of_ne hne]
      exact ⟨fun h => absurd h.symm hne, fun h => absurd (hown r' h) hr'⟩
  · by_cases hk : k = l
    · subst hk
      simp only [Progress.assign, Function.update_self, Option.some.injEq] at h
      exact h ▸ hedge
    · simp only [Progress.assign, Progress.mark, Function.update_of_ne hk] at h
      exact hpaired.edge k r' h

theorem Augmented.of_moved {k : L} {r : R} (hpaired : Paired adj s)
    (hown : ∀ r, s.owner r = some l → r ∈ s.visited) (hr : r ∉ s.visited) (howner : s.owner r = some k)
    (hedge : r ∈ adj l) (h : Augmented adj k (s.mark r) t) : Augmented adj l s (t.assign l r) := by
  have hkl : k ≠ l := by
    rintro rfl
    exact hr (hown r howner)
  have hunvisited : ∀ {r'}, r' ∉ (s.mark r).visited → r' ∉ s.visited := fun h h' =>
    h (Finset.mem_insert_of_mem h')
  have hownr : t.owner r = some k := (h.kept r (Finset.mem_insert_self r s.visited)).trans howner
  -- The mate of `l`, if it has one, is marked, so the search for `k` has not moved `l`.
  have hmatel : t.mate l = s.mate l := by
    rcases h.others l hkl.symm with heq | ⟨r', r'', hmate, hnot, -⟩
    · exact heq
    · exact absurd (hown r' ((hpaired.mate_iff l r').mp hmate)) (hunvisited hnot)
  refine ⟨fun r' hr' => ?_, fun k' hk' => ?_, ⟨r, hr, ?_⟩, fun k' hk' r' => ?_, fun r' hr' => ?_,
    fun k' r' hmate => ?_⟩
  · have hne : r' ≠ r := fun heq => hr (heq ▸ hr')
    simp only [Progress.assign, Function.update_of_ne hne]
    exact h.kept r' (Finset.mem_insert_of_mem hr')
  · simp only [Progress.assign, Function.update_of_ne hk']
    by_cases hkk : k' = k
    · subst hkk
      obtain ⟨r', -, hr'⟩ := h.new
      exact .inr ⟨r, r', (hpaired.mate_iff k' r).mpr howner, hr, hr'⟩
    · rcases h.others k' hkk with heq | ⟨r', r'', hmate, hnot, hr''⟩
      · exact .inl heq
      · exact .inr ⟨r', r'', hmate, hunvisited hnot, hr''⟩
  · simp [Progress.assign]
  · simp only [Progress.assign, Function.update_of_ne hk']
    by_cases hne : r' = r
    · subst hne
      simp only [Function.update_self, Option.some.injEq]
      refine ⟨fun hmate => ?_, fun heq => absurd heq.symm hk'⟩
      by_cases hkk : k' = k
      · subst hkk
        obtain ⟨r'', hr'', hnew⟩ := h.new
        obtain rfl := Option.some.inj (hmate.symm.trans hnew)
        exact absurd (Finset.mem_insert_self _ _) hr''
      · exact absurd (Option.some.inj (((h.mate_others k' hkk r').mp hmate).symm.trans hownr)) hkk
    · simp only [Function.update_of_ne hne]
      by_cases hkk : k' = k
      · subst hkk
        by_cases hmarked : r' ∈ (s.mark r).visited
        · obtain ⟨r'', hr'', hnew⟩ := h.new
          refine ⟨fun hmate => ?_, fun hown' => ?_⟩
          · obtain rfl := Option.some.inj (hmate.symm.trans hnew)
            exact absurd hmarked hr''
          · rw [h.kept r' hmarked] at hown'
            have hmate := (hpaired.mate_iff k' r).mpr howner
            rw [(hpaired.mate_iff k' r').mpr hown'] at hmate
            exact absurd (Option.some.inj hmate) hne
        · exact h.mate_new r' hmarked
      · exact h.mate_others k' hkk r'
  · simp only [Progress.assign, Function.update_self, Option.some.injEq]
    by_cases hne : r' = r
    · subst hne
      simp
    · simp only [Function.update_of_ne hne]
      refine ⟨fun heq => absurd heq.symm hne, fun hown' => ?_⟩
      have hmate := (h.mate_others l hkl.symm r').mpr hown'
      rw [hmatel] at hmate
      exact absurd (hown r' ((hpaired.mate_iff l r').mp hmate)) hr'
  · by_cases hk' : k' = l
    · subst hk'
      simp only [Progress.assign, Function.update_self, Option.some.injEq] at hmate
      exact hmate ▸ hedge
    · simp only [Progress.assign, Function.update_of_ne hk'] at hmate
      exact h.edge k' r' hmate

omit [DecidableEq L] [DecidableEq R] in
theorem Paired.congr {s' : Progress L R} (hpaired : Paired adj s) (howner : s'.owner = s.owner)
    (hmate : s'.mate = s.mate) : Paired adj s' := by
  refine ⟨fun l r => ?_, fun l r h => ?_⟩
  · rw [howner, hmate]
    exact hpaired.mate_iff l r
  · rw [hmate] at h
    exact hpaired.edge l r h

omit [DecidableEq L] in
theorem Augmented.mono {s' : Progress L R} (h : Augmented adj l s' t) (howner : s'.owner = s.owner)
    (hmate : s'.mate = s.mate) (hsub : s.visited ⊆ s'.visited)
    (hown : ∀ r, s.owner r = some l → r ∈ s.visited) : Augmented adj l s t := by
  obtain ⟨r, hr, hnew⟩ := h.new
  refine ⟨fun r' hr' => ?_, fun k hk => ?_, ⟨r, fun h => hr (hsub h), hnew⟩, h.mate_others,
    fun r' hr' => ?_, h.edge⟩
  · rw [h.kept r' (hsub hr'), howner]
  · rcases h.others k hk with heq | ⟨r', r'', hmate', hnot, hr''⟩
    · exact .inl (by rw [heq, hmate])
    · rw [hmate] at hmate'
      exact .inr ⟨r', r'', hmate', fun h => hnot (hsub h), hr''⟩
  · by_cases hmarked : r' ∈ s'.visited
    · refine ⟨fun hmate' => ?_, fun hown' => ?_⟩
      · obtain rfl := Option.some.inj (hmate'.symm.trans hnew)
        exact absurd hmarked hr
      · rw [h.kept r' hmarked, howner] at hown'
        exact absurd (hown r' hown') hr'
    · exact h.mate_new r' hmarked

/-- A search that succeeds moves owners along the path that it has found. -/
theorem Scan.succeeded (h : Scan adj l rest s found t) (hfound : found = true)
    (hpaired : Paired adj s) (hown : ∀ r, s.owner r = some l → r ∈ s.visited)
    (hrest : ∀ r ∈ rest, r ∈ adj l) : Augmented adj l s t := by
  induction h with
  | exhausted => cases hfound
  | skipped _ _ ih =>
      exact (ih hfound (hpaired.congr rfl rfl) hown fun r hr => hrest r (List.mem_cons_of_mem _ hr)).mono
        rfl rfl (Finset.Subset.refl _) hown
  | free hnot howner => exact .of_free hpaired hown hnot howner (hrest _ (List.mem_cons_self ..))
  | @moved l k r rest s t hnot howner _ ih =>
      refine .of_moved hpaired hown hnot howner (hrest _ (List.mem_cons_self ..)) ?_
      refine ih rfl (hpaired.congr rfl rfl) (fun r' hr' => ?_) fun r' hr' => hr'
      -- `k` has one mate, the node just marked.
      have hmate := (hpaired.mate_iff k r).mpr howner
      rw [(hpaired.mate_iff k r').mpr hr'] at hmate
      exact Option.some.inj hmate ▸ Finset.mem_insert_self r s.visited
  | @stuck l k r rest s t u found hnot howner hscan _ _ ih =>
      obtain ⟨howners, hmates, -, -⟩ := hscan.failed rfl
      have hsub : s.visited ⊆ t.visited := (Finset.subset_insert r s.visited).trans hscan.visited_subset
      refine (ih hfound (hpaired.congr howners hmates) (fun r' hr' => ?_) fun r' hr' =>
        hrest r' (List.mem_cons_of_mem _ hr')).mono howners hmates hsub hown
      rw [howners] at hr'
      exact hsub (hown r' hr')

/-- A search that succeeds does not go through a closed set. -/
theorem Scan.avoids {W : Finset R} (h : Scan adj l rest s found t) (hfound : found = true)
    (hclosed : Closed adj s.owner W) :
    (∀ r ∈ W, t.owner r = s.owner r) ∧ ∃ r ∈ rest, r ∉ W := by
  induction h with
  | exhausted => cases hfound
  | skipped _ _ ih =>
      obtain ⟨hkept, r', hr', hnot⟩ := ih hfound hclosed
      exact ⟨hkept, r', List.mem_cons_of_mem _ hr', hnot⟩
  | @free l r rest s _ howner =>
      have hnot : r ∉ W := by
        intro hr
        obtain ⟨k, hk, -⟩ := hclosed r hr
        rw [howner] at hk
        cases hk
      refine ⟨fun r' hr' => ?_, r, List.mem_cons_self .., hnot⟩
      have hne : r' ≠ r := fun heq => hnot (heq ▸ hr')
      simp [Progress.assign, Progress.mark, Function.update_of_ne hne]
  | @moved l k r rest s t _ howner _ ih =>
      obtain ⟨hkept, r', hr', hleaves⟩ := ih rfl hclosed
      have hnot : r ∉ W := by
        intro hr
        obtain ⟨k', hk', hadj⟩ := hclosed r hr
        obtain rfl := Option.some.inj (howner.symm.trans hk')
        exact hleaves (hadj r' hr')
      refine ⟨fun r'' hr'' => ?_, r, List.mem_cons_self .., hnot⟩
      have hne : r'' ≠ r := fun heq => hnot (heq ▸ hr'')
      simp only [Progress.assign, Function.update_of_ne hne]
      exact hkept r'' hr''
  | @stuck l k r rest s t u found _ _ hscan _ _ ih =>
      have howners : t.owner = s.owner := (hscan.failed rfl).1
      have hclosed' : Closed adj t.owner W := howners ▸ hclosed
      obtain ⟨hkept, r', hr', hnot⟩ := ih hfound hclosed'
      refine ⟨fun r'' hr'' => ?_, r', List.mem_cons_of_mem _ hr', hnot⟩
      rw [hkept r'' hr'', howners]

/-! ## All searches -/

/-- The pairs after a search for each of the nodes `tried`, and why the others are not paired: all
their edges go to nodes that are closed. -/
structure Certified (adj : L → List R) (tried : Finset L) (s : Progress L R) : Prop where
  paired : Paired adj s
  tried_of_mate : ∀ l r, s.mate l = some r → l ∈ tried
  certificate : ∃ W, Closed adj s.owner W ∧ ∀ l ∈ tried, s.mate l = none → ∀ r ∈ adj l, r ∈ W

theorem Certified.search {tried : Finset L} (hcert : Certified adj tried s) (hnew : l ∉ tried)
    (h : Scan adj l (adj l) s.clear found t) : Certified adj (insert l tried) t := by
  have hpaired : Paired adj s.clear := hcert.paired.congr rfl rfl
  obtain ⟨W, hclosed, huntried⟩ := hcert.certificate
  cases found with
  | false =>
      obtain ⟨howner, hmate, hadj, hmarked⟩ := h.failed rfl
      have hmarked' : ∀ r ∈ t.visited, ∃ k, s.owner r = some k ∧ ∀ r' ∈ adj k, r' ∈ t.visited := by
        intro r hr
        exact (hmarked r hr).resolve_left (Finset.notMem_empty r)
      refine ⟨hpaired.congr howner hmate, fun k r hk => ?_, W ∪ t.visited, ?_, fun k hk hnone r hr => ?_⟩
      · rw [hmate] at hk
        exact Finset.mem_insert_of_mem (hcert.tried_of_mate k r hk)
      · intro r hr
        rw [howner]
        rcases Finset.mem_union.mp hr with hr | hr
        · obtain ⟨k, hk, hk'⟩ := hclosed r hr
          exact ⟨k, hk, fun r' hr' => Finset.mem_union_left _ (hk' r' hr')⟩
        · obtain ⟨k, hk, hk'⟩ := hmarked' r hr
          exact ⟨k, hk, fun r' hr' => Finset.mem_union_right _ (hk' r' hr')⟩
      · rcases Finset.mem_insert.mp hk with rfl | hk
        · exact Finset.mem_union_right _ (hadj r hr)
        · rw [hmate] at hnone
          exact Finset.mem_union_left _ (huntried k hk hnone r hr)
  | true =>
      have hown : ∀ r, s.clear.owner r = some l → r ∈ s.clear.visited := fun r hr =>
        absurd (hcert.tried_of_mate l r ((hcert.paired.mate_iff l r).mpr hr)) hnew
      have haug := h.succeeded rfl hpaired hown fun r hr => hr
      obtain ⟨hkept, -⟩ := h.avoids rfl (show Closed adj s.clear.owner W from hclosed)
      refine ⟨⟨fun k r => ?_, haug.edge⟩, fun k r hk => ?_, W, fun r hr => ?_, fun k hk hnone => ?_⟩
      · by_cases hkl : k = l
        · subst hkl
          exact haug.mate_new r (Finset.notMem_empty r)
        · exact haug.mate_others k hkl r
      · by_cases hkl : k = l
        · exact hkl ▸ Finset.mem_insert_self l tried
        · rcases haug.others k hkl with heq | ⟨r', -, hmate, -⟩
          · rw [heq] at hk
            exact Finset.mem_insert_of_mem (hcert.tried_of_mate k r hk)
          · exact Finset.mem_insert_of_mem (hcert.tried_of_mate k r' hmate)
      · obtain ⟨k, hk, hk'⟩ := hclosed r hr
        exact ⟨k, (hkept r hr).trans hk, hk'⟩
      · by_cases hkl : k = l
        · obtain ⟨r, -, hr⟩ := haug.new
          rw [hkl, hr] at hnone
          cases hnone
        · rcases haug.others k hkl with heq | ⟨-, r', -, -, hmate⟩
          · rw [heq] at hnone
            exact huntried k (Finset.mem_of_mem_insert_of_ne hk hkl) hnone
          · rw [hmate] at hnone
            cases hnone

theorem Certified.searches {tried : Finset L} {roots : List L} (hcert : Certified adj tried s)
    (hnew : ∀ l ∈ roots, l ∉ tried) (hnodup : roots.Nodup) (h : Searches adj roots s t) :
    Certified adj (tried ∪ roots.toFinset) t := by
  induction h generalizing tried with
  | done => simpa using hcert
  | @next l rest s t u found hscan _ ih =>
      have hnext := hcert.search (hnew l (List.mem_cons_self ..)) hscan
      obtain ⟨hl, hrest⟩ := List.nodup_cons.mp hnodup
      have hall := ih hnext (fun k hk hmem => ?_) hrest
      · rwa [List.toFinset_cons, Finset.union_insert, ← Finset.insert_union]
      · rcases Finset.mem_insert.mp hmem with rfl | hmem
        · exact hl hk
        · exact hnew k (List.mem_cons_of_mem l hk) hmem

/-! ## The pairs are as many as can be -/

/-- A set of pairs: no node on the right is used twice, and every pair is an edge. -/
structure IsMatching (adj : L → List R) (m : L → Option R) : Prop where
  edge : ∀ l r, m l = some r → r ∈ adj l
  injective : ∀ l l' r, m l = some r → m l' = some r → l = l'

omit [DecidableEq L] [DecidableEq R] in
theorem Paired.isMatching (h : Paired adj s) : IsMatching adj s.mate := by
  refine ⟨h.edge, fun l l' r hl hl' => ?_⟩
  rw [h.mate_iff] at hl hl'
  exact Option.some.inj (hl.symm.trans hl')

omit [DecidableEq L] in
/-- The nodes `B` whose edges all go to `W` cannot be paired with more nodes than `W` has. -/
theorem IsMatching.card_le {m : L → Option R} (hm : IsMatching adj m) {B : Finset L} {W : Finset R}
    (hB : ∀ l ∈ B, ∀ r ∈ adj l, r ∈ W) : (B.filter fun l => (m l).isSome).card ≤ W.card := by
  have hmaps : ∀ l ∈ B.filter fun l => (m l).isSome, m l ∈ W.image some := by
    intro l hl
    obtain ⟨hmem, hsome⟩ := Finset.mem_filter.mp hl
    obtain ⟨r, hr⟩ := Option.isSome_iff_exists.mp hsome
    exact hr ▸ Finset.mem_image_of_mem some (hB l hmem r (hm.edge l r hr))
  calc (B.filter fun l => (m l).isSome).card
      ≤ (W.image some).card := Finset.card_le_card_of_injOn m hmaps fun l hl l' _ heq => by
        obtain ⟨r, hr⟩ := Option.isSome_iff_exists.mp (Finset.mem_filter.mp hl).2
        exact hm.injective l l' r hr (heq ▸ hr)
    _ ≤ W.card := Finset.card_image_le

omit [DecidableEq R] in
/-- Closed nodes are all paired, with nodes whose edges all go to closed nodes. -/
theorem Certified.card_closed_le {tried B : Finset L} {W : Finset R} (hcert : Certified adj tried s)
    (hclosed : Closed adj s.owner W) (hB : ∀ l ∈ tried, (∀ r ∈ adj l, r ∈ W) → l ∈ B) :
    W.card ≤ (B.filter fun l => (s.mate l).isSome).card := by
  have hmaps : ∀ r ∈ W, s.owner r ∈ (B.filter fun l => (s.mate l).isSome).image some := by
    intro r hr
    obtain ⟨k, hk, hadj⟩ := hclosed r hr
    have hmate := (hcert.paired.mate_iff k r).mpr hk
    rw [hk]
    refine Finset.mem_image_of_mem some (Finset.mem_filter.mpr ⟨?_, ?_⟩)
    · exact hB k (hcert.tried_of_mate k r hmate) hadj
    · rw [hmate]
      rfl
  calc W.card
      ≤ ((B.filter fun l => (s.mate l).isSome).image some).card :=
        Finset.card_le_card_of_injOn s.owner hmaps fun r hr r' _ heq => by
          obtain ⟨k, hk, -⟩ := hclosed r hr
          have hmate := (hcert.paired.mate_iff k r).mpr hk
          rw [(hcert.paired.mate_iff k r').mpr (heq ▸ hk)] at hmate
          exact (Option.some.inj hmate).symm
    _ ≤ (B.filter fun l => (s.mate l).isSome).card := Finset.card_image_le

theorem Certified.maximum {tried : Finset L} (hcert : Certified adj tried s) {m : L → Option R}
    (hm : IsMatching adj m) :
    (tried.filter fun l => (m l).isSome).card ≤ (tried.filter fun l => (s.mate l).isSome).card := by
  obtain ⟨W, hclosed, huntried⟩ := hcert.certificate
  -- Split the nodes into those whose edges all go to closed nodes, and the others, which are paired.
  let B := tried.filter fun l => ∀ r ∈ adj l, r ∈ W
  let rest := tried.filter fun l => ¬ ∀ r ∈ adj l, r ∈ W
  have hsplit : ∀ p : L → Bool, (tried.filter fun l => p l).card =
      (B.filter fun l => p l).card + (rest.filter fun l => p l).card := by
    intro p
    have hB : (B.filter fun l => p l) = (tried.filter fun l => p l).filter fun l => ∀ r ∈ adj l, r ∈ W :=
      Finset.filter_comm ..
    have hrest : (rest.filter fun l => p l) =
        (tried.filter fun l => p l).filter fun l => ¬ ∀ r ∈ adj l, r ∈ W := Finset.filter_comm ..
    rw [hB, hrest, Finset.card_filter_add_card_filter_not]
  have hrest : rest.filter (fun l => (s.mate l).isSome) = rest := by
    refine Finset.filter_eq_self.mpr fun l hl => ?_
    obtain ⟨hmem, hleaves⟩ := Finset.mem_filter.mp hl
    rw [Option.isSome_iff_ne_none]
    exact fun hnone => hleaves (huntried l hmem hnone)
  calc (tried.filter fun l => (m l).isSome).card
      = (B.filter fun l => (m l).isSome).card + (rest.filter fun l => (m l).isSome).card := hsplit _
    _ ≤ W.card + rest.card := Nat.add_le_add
        (hm.card_le fun l hl => (Finset.mem_filter.mp hl).2) (Finset.card_filter_le _ _)
    _ ≤ (B.filter fun l => (s.mate l).isSome).card + rest.card := Nat.add_le_add_right
        (hcert.card_closed_le hclosed fun l hl hall => Finset.mem_filter.mpr ⟨hl, hall⟩) _
    _ = (tried.filter fun l => (s.mate l).isSome).card := by rw [hsplit, hrest]

end Deai.MatchingSearch
