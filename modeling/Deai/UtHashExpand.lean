import Deai.UtHashChains
import Mathlib.Data.List.Nodup
import Mathlib.Data.List.Range

/-!
# Expanding the buckets

`HASH_EXPAND_BUCKETS` takes the elements out of the old buckets one after another, and chains each
in the new bucket it belongs to. What was moved is spread over the new buckets, and what was not
is still chained in the old ones.
-/
namespace Deai.UtHash
open LinkedNodes

variable {N : Type*} [DecidableEq N] {s : Hash N} {e : Expansion N} {idx : N → ℕ}
  {done c : List N} {ideal numBuckets fuel : ℕ} {x : N}

/-- The elements in `done` have moved, in a state that began as `s`. -/
structure Moved (s : Hash N) (idx : N → ℕ) (e : Expansion N) (done : List N) : Prop where
  spread : Spread e.hash.hh e.newBuckets idx done
  elements : SameElements s.hh e.hash.hh
  head : e.hash.head = s.head
  tbl : e.hash.tbl = s.tbl

/-- Elements that have not moved keep the links of their old chain. -/
def Untouched (e e' : Expansion N) (moved : List N) : Prop :=
  ∀ y, y ∉ moved → (e'.hash.hh y).hhPrev = (e.hash.hh y).hhPrev ∧
    (e'.hash.hh y).hhNext = (e.hash.hh y).hhNext

/-- The new bucket of an element only depends on its hash. -/
def newIndex (s : Hash N) (numBuckets : ℕ) (x : N) : ℕ :=
  hashToBkt (s.hh x).hashv (numBuckets * 2 % 2 ^ 32)

/-- One element moves. -/
theorem Moved.item (ideal : ℕ) (h : Moved s (newIndex s numBuckets) e done) (hnodup : done.Nodup)
    (hx : x ∉ done) :
    Moved s (newIndex s numBuckets) (hashExpandItem ideal numBuckets e x) (x :: done) ∧
      Untouched e (hashExpandItem ideal numBuckets e x) (x :: done) := by
  have hidx : hashToBkt (e.hash.hh x).hashv (numBuckets * 2 % 2 ^ 32) =
      newIndex s numBuckets x := by
    rw [(h.elements x).2.2.2.2]
    rfl
  have hspread := h.spread.chained hnodup hx
  rw [← hidx] at hspread
  refine ⟨⟨hspread _, ?_, ?_, ?_⟩, ?_⟩
  · exact h.elements.trans (chained_sameElements _ _ _)
  · exact (chained_head ..).trans h.head
  · exact (chained_tbl ..).trans h.tbl
  · intro y hy
    obtain ⟨d, hd, hchain⟩ := h.spread (newIndex s numBuckets x)
    rw [← hidx] at hchain
    have hin : ∀ z, (e.newBuckets _).hhHead = some z → z ∈ done := fun z hz =>
      List.mem_of_mem_filter (hd.subset (hchain.head_mem hz))
    have hyx : y ≠ x := fun heq => hy (heq ▸ List.mem_cons_self)
    have hyb : some y ≠ (e.newBuckets _).hhHead := fun heq =>
      hy (List.mem_cons_of_mem _ (hin y heq.symm))
    have hne : (e.newBuckets _).hhHead ≠ some x := fun heq => hx (hin x heq)
    refine ⟨?_, ?_⟩
    · exact (chained_hhPrev hne y).trans (by rw [if_neg hyx, if_neg hyb])
    · exact (chained_hhNext _ _ x y).trans (if_neg hyx)

/-- A whole chain moves. -/
theorem Moved.chain (ideal : ℕ) (h : Moved s (newIndex s numBuckets) e done) (hnodup : (c ++ done).Nodup)
    {before : Option N} (hlinked : Linked some (fun x => (e.hash.hh x).hhPrev)
      (fun x => (e.hash.hh x).hhNext) before c none) (hfuel : c.length ≤ fuel) :
    ∃ e', hashExpandChain ideal numBuckets fuel e (first some c none) = .ok e' ∧
      Moved s (newIndex s numBuckets) e' (c ++ done) ∧ Untouched e e' (c ++ done) := by
  induction c generalizing e done before fuel with
  | nil => exact ⟨e, by cases fuel <;> rfl, h, fun _ _ => ⟨rfl, rfl⟩⟩
  | cons x c ih =>
      cases fuel with
      | zero => exact absurd hfuel (Nat.not_succ_le_zero _)
      | succ fuel =>
          have hperm : (c ++ x :: done).Perm (x :: c ++ done) := List.perm_middle
          have hnodup' : (c ++ x :: done).Nodup := hperm.nodup_iff.mpr hnodup
          obtain ⟨hc, hxdone, hdisj⟩ := List.nodup_append.mp hnodup'
          obtain ⟨hx, hdone⟩ := List.nodup_cons.mp hxdone
          obtain ⟨hmoved, hsame⟩ := h.item ideal hdone hx
          obtain ⟨-, (hnext : (e.hash.hh x).hhNext = _), hlinked⟩ := hlinked
          have hrest := hlinked.congr (fun y hy => (hsame y fun hmem => hdisj y hy y hmem rfl).1)
            fun y hy => (hsame y fun hmem => hdisj y hy y hmem rfl).2
          obtain ⟨e', hrun, hmoved', hsame'⟩ := ih hmoved hnodup' hrest
            (Nat.le_of_succ_le_succ hfuel)
          refine ⟨e', ?_, ⟨?_, hmoved'.elements, hmoved'.head, hmoved'.tbl⟩, ?_⟩
          · rw [first_cons, hashExpandChain, hnext]
            exact hrun
          · exact hmoved'.spread.perm (fun _ _ => rfl) hperm.symm
          · intro y hy
            have hyc : y ∉ c ++ x :: done := fun hmem => hy (hperm.subset hmem)
            have hyd : y ∉ x :: done := fun hmem => hyc (List.mem_append_right _ hmem)
            exact ⟨(hsame' y hyc).1.trans (hsame y hyd).1, (hsame' y hyc).2.trans (hsame y hyd).2⟩

/-- All the chains move, bucket by bucket. -/
theorem Moved.buckets {is : List ℕ} {chains : ℕ → List N} (heads : ℕ → Option N)
    (h : Moved s (newIndex s numBuckets) e done) (hnodup : (is.flatMap chains ++ done).Nodup)
    (hchains : ∀ i ∈ is, heads i = first some (chains i) none ∧
      Linked some (fun x => (e.hash.hh x).hhPrev) (fun x => (e.hash.hh x).hhNext) none (chains i)
        none)
    (hfuel : ∀ i ∈ is, (chains i).length ≤ fuel) :
    ∃ e', is.foldlM (fun e i => hashExpandChain ideal numBuckets fuel e (heads i)) e = .ok e' ∧
      Moved s (newIndex s numBuckets) e' (is.flatMap chains ++ done) := by
  induction is generalizing e done with
  | nil => exact ⟨e, rfl, h⟩
  | cons i is ih =>
      obtain ⟨hhead, hlinked⟩ := hchains i List.mem_cons_self
      have hperm : (is.flatMap chains ++ (chains i ++ done)).Perm
          ((i :: is).flatMap chains ++ done) := by
        rw [List.flatMap_cons, ← List.append_assoc]
        exact List.perm_append_comm.append_right done
      have hnodup' := hperm.nodup_iff.mpr hnodup
      obtain ⟨-, hmid, hdisj⟩ := List.nodup_append.mp hnodup'
      obtain ⟨e', hrun, hmoved, hsame⟩ :=
        h.chain ideal hmid hlinked (hfuel i List.mem_cons_self)
      have hrest : ∀ j ∈ is, ∀ y ∈ chains j, y ∉ chains i ++ done := fun j hj y hy hmem =>
        hdisj y (List.mem_flatMap.mpr ⟨j, hj, hy⟩) y hmem rfl
      obtain ⟨e'', hruns, hmoved'⟩ := ih hmoved hnodup'
        (fun j hj => by
          obtain ⟨hhead', hlinked'⟩ := hchains j (List.mem_cons_of_mem _ hj)
          exact ⟨hhead', hlinked'.congr (fun y hy => (hsame y (hrest j hj y hy)).1)
            fun y hy => (hsame y (hrest j hj y hy)).2⟩)
        fun j hj => hfuel j (List.mem_cons_of_mem _ hj)
      refine ⟨e'', ?_, hmoved'.spread.perm (fun _ _ => rfl) hperm.symm, hmoved'.elements,
        hmoved'.head, hmoved'.tbl⟩
      rw [List.foldlM_cons, hhead, hrun]
      exact hruns

/-- The buckets are a power of two, and each chains what the low bits of the hash say. -/
structure Stored (s : Hash N) (l : List N) : Prop where
  size : s.tbl.numBuckets = 2 ^ s.tbl.log2NumBuckets
  small : s.tbl.log2NumBuckets < 32
  spread : Spread s.hh s.tbl.buckets (fun x => hashToBkt (s.hh x).hashv s.tbl.numBuckets) l

theorem hashToBkt_lt (hashv : ℕ) {k : ℕ} (hk : k < 32) : hashToBkt hashv (2 ^ k) < 2 ^ k := by
  have hpos : 0 < 2 ^ k := Nat.two_pow_pos k
  have hlt : 2 ^ k < 2 ^ 32 := Nat.pow_lt_pow_right (by omega) hk
  have hdecr : decr (2 ^ k) = 2 ^ k - 1 := by
    unfold decr
    exact if_neg (by omega)
  rw [hashToBkt, hdecr, Nat.and_two_pow_sub_one_eq_mod]
  exact Nat.mod_lt _ hpos

omit [DecidableEq N] in
/-- The chains of the buckets there are, one behind the other, are all the elements. -/
theorem Stored.chains {l : List N} (h : Stored s l) (hnodup : l.Nodup) :
    ∃ chains : ℕ → List N, (∀ i, (chains i).length ≤ l.length ∧
        IsChain s.hh (s.tbl.buckets i) (chains i)) ∧
      ((List.range s.tbl.numBuckets).flatMap chains).Perm l := by
  choose chains hperm hchain using h.spread
  refine ⟨chains, fun i => ⟨?_, hchain i⟩, ?_⟩
  · exact (hperm i).length_eq.trans_le (List.length_filter_le _ _)
  · have hmem : ∀ i x, x ∈ chains i ↔ x ∈ l ∧ hashToBkt (s.hh x).hashv s.tbl.numBuckets = i := by
      intro i x
      rw [(hperm i).mem_iff, List.mem_filter, decide_eq_true_iff]
    have hall : ((List.range s.tbl.numBuckets).flatMap chains).Nodup := by
      refine List.nodup_flatMap.mpr ⟨fun i _ => ?_, ?_⟩
      · exact (hperm i).nodup_iff.mpr (hnodup.filter _)
      · refine List.nodup_range.imp fun {i j} hne => ?_
        exact fun x hi hj => hne (((hmem i x).mp hi).2.symm.trans ((hmem j x).mp hj).2)
    refine (List.perm_ext_iff_of_nodup hall hnodup).mpr fun x => ⟨fun hx => ?_, fun hx => ?_⟩
    · obtain ⟨i, -, hi⟩ := List.mem_flatMap.mp hx
      exact ((hmem i x).mp hi).1
    · refine List.mem_flatMap.mpr ⟨_, List.mem_range.mpr ?_, (hmem _ x).mpr ⟨hx, rfl⟩⟩
      rw [h.size]
      exact hashToBkt_lt _ h.small

/-- What a hash is after its buckets were expanded. -/
structure Expanded (s s' : Hash N) (l : List N) : Prop where
  stored : Stored s' l
  elements : SameElements s.hh s'.hh
  head : s'.head = s.head
  tail : s'.tbl.tail = s.tbl.tail
  items : s'.tbl.numItems = s.tbl.numItems
  log2 : s'.tbl.log2NumBuckets = s.tbl.log2NumBuckets + 1

/-- Expanding the buckets succeeds if the memory for them is there. -/
theorem hashExpandBuckets_spec {malloc : ℕ → Bool} {l : List N} (h : Stored s l) (hnodup : l.Nodup)
    (hfuel : l.length ≤ fuel) (hlimit : ∀ n, 2 ^ 36 ≤ n → malloc n = false)
    (hm : malloc (2 * s.tbl.numBuckets * 16)) :
    ∃ s', hashExpandBuckets malloc fuel s = .ok s' ∧ Expanded s s' l := by
  -- Twice as many buckets would not have been allocated if their number did not fit.
  have hlog : s.tbl.log2NumBuckets + 1 < 32 := by
    by_contra hge
    have hpow : 2 ^ 31 ≤ s.tbl.numBuckets := by
      rw [h.size]
      exact Nat.pow_le_pow_right (by omega) (by omega)
    rw [hlimit _ (by omega)] at hm
    exact nomatch hm
  have hsize : s.tbl.numBuckets * 2 % 2 ^ 32 = 2 ^ (s.tbl.log2NumBuckets + 1) := by
    rw [h.size, ← Nat.pow_succ]
    exact Nat.mod_eq_of_lt (Nat.pow_lt_pow_right (by omega) hlog)
  have hincr : incr s.tbl.log2NumBuckets = s.tbl.log2NumBuckets + 1 := by
    unfold incr
    exact if_neg (by omega)
  obtain ⟨chains, hchains, hperm⟩ := h.chains hnodup
  have hstart : Moved s (newIndex s s.tbl.numBuckets)
      {hash := s, newBuckets := fun _ => {}, nonidealItems := 0} [] :=
    ⟨Spread.empty _ _, SameElements.refl _, rfl, rfl⟩
  have hroom : ∀ i ∈ List.range s.tbl.numBuckets, (chains i).length ≤ fuel := fun i _ =>
    (hchains i).1.trans hfuel
  obtain ⟨e, hrun, hmoved⟩ := hstart.buckets (fun i => (s.tbl.buckets i).hhHead)
    (by rw [List.append_nil]; exact hperm.nodup_iff.mpr hnodup)
    (fun i _ => ⟨(hchains i).2.head, (hchains i).2.linked⟩) hroom
  unfold hashExpandBuckets
  simp only [hm, Bool.not_true, Bool.false_eq_true, if_false]
  rw [hrun]
  refine ⟨_, rfl, ⟨?_, ?_, ?_⟩, hmoved.elements, hmoved.head, rfl, rfl, hincr⟩
  · exact hsize.trans (congrArg (2 ^ ·) hincr.symm)
  · exact hincr.trans_lt hlog
  · refine hmoved.spread.perm (fun x _ => ?_) (by rw [List.append_nil]; exact hperm.symm)
    simp only [(hmoved.elements x).2.2.2.2, newIndex]

end Deai.UtHash
