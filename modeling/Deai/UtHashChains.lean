import Deai.UtHash
import Mathlib.Data.List.Perm.Basic
import Mathlib.Tactic.SplitIfs

/-!
# The chains of the buckets

The elements of a table are spread over its buckets, and each bucket chains its own. What the links
back and forth spell is a list for each bucket, a permutation of the elements that belong there.
-/
namespace Deai.UtHash
open LinkedNodes

variable {N : Type*}

/-- The chain of one bucket. -/
structure IsChain (hh : N → Handle N) (b : Bucket N) (c : List N) : Prop where
  linked : Linked some (fun x => (hh x).hhPrev) (fun x => (hh x).hhNext) none c none
  head : b.hhHead = first some c none
  count : b.count = c.length % 2 ^ 32

/-- Every bucket chains the elements that belong to it. -/
def Spread (hh : N → Handle N) (buckets : ℕ → Bucket N) (idx : N → ℕ) (l : List N) : Prop :=
  ∀ b, ∃ c : List N, c.Perm (l.filter fun x => idx x = b) ∧ IsChain hh (buckets b) c

/-- The links of the chains are as they were. -/
def SameChains (hh hh' : N → Handle N) : Prop :=
  ∀ x, (hh' x).hhPrev = (hh x).hhPrev ∧ (hh' x).hhNext = (hh x).hhNext

/-- Everything but the links of the chains is as it was. -/
def SameElements (hh hh' : N → Handle N) : Prop :=
  ∀ x, (hh' x).prev = (hh x).prev ∧ (hh' x).next = (hh x).next ∧ (hh' x).key = (hh x).key ∧
    (hh' x).keylen = (hh x).keylen ∧ (hh' x).hashv = (hh x).hashv

theorem SameElements.refl (hh : N → Handle N) : SameElements hh hh :=
  fun _ => ⟨rfl, rfl, rfl, rfl, rfl⟩

theorem SameElements.trans {a b c : N → Handle N} (hab : SameElements a b)
    (hbc : SameElements b c) : SameElements a c := by
  intro x
  obtain ⟨h₁, h₂, h₃, h₄, h₅⟩ := hbc x
  obtain ⟨g₁, g₂, g₃, g₄, g₅⟩ := hab x
  exact ⟨h₁.trans g₁, h₂.trans g₂, h₃.trans g₃, h₄.trans g₄, h₅.trans g₅⟩

/-! ## Arithmetic of the counters -/

theorem incr_mod (n : ℕ) : incr (n % 2 ^ 32) = (n + 1) % 2 ^ 32 := by
  unfold incr
  split_ifs <;> omega

theorem decr_mod_succ (n : ℕ) : decr ((n + 1) % 2 ^ 32) = n % 2 ^ 32 := by
  unfold decr
  split_ifs <;> omega

/-! ## One chain -/

section
variable {hh hh' : N → Handle N} {b : Bucket N} {c : List N}

theorem IsChain.empty (hh : N → Handle N) : IsChain hh {} ([] : List N) :=
  ⟨trivial, rfl, rfl⟩

theorem IsChain.frame (h : IsChain hh b c)
    (hsame : ∀ x ∈ c, (hh' x).hhPrev = (hh x).hhPrev ∧ (hh' x).hhNext = (hh x).hhNext) :
    IsChain hh' b c :=
  ⟨h.linked.congr (fun x hx => (hsame x hx).1) fun x hx => (hsame x hx).2, h.head, h.count⟩

/-- The head of a chain is one of its elements. -/
theorem IsChain.head_mem (h : IsChain hh b c) {x : N} (hx : b.hhHead = some x) : x ∈ c := by
  rw [h.head] at hx
  cases c with
  | nil => exact nomatch hx
  | cons y c => exact Option.some.inj hx ▸ List.mem_cons_self

end

variable [DecidableEq N] {s : Hash N} {b : Bucket N} {c : List N} {x : N}

/-- An element is chained in front of the others of its bucket. -/
def Hash.chained (s : Hash N) (b : Bucket N) (x : N) : Hash N :=
  (s.put (some x) fun h => {h with hhPrev := none, hhNext := b.hhHead}).put b.hhHead
    fun h => {h with hhPrev := some x}

theorem chained_head (s : Hash N) (b : Bucket N) (x : N) : (s.chained b x).head = s.head := by
  simp [Hash.chained]

theorem chained_tbl (s : Hash N) (b : Bucket N) (x : N) : (s.chained b x).tbl = s.tbl := by
  simp [Hash.chained]

theorem chained_sameElements (s : Hash N) (b : Bucket N) (x : N) :
    SameElements s.hh (s.chained b x).hh := by
  intro y
  simp only [Hash.chained, put_hh]
  split_ifs <;> exact ⟨rfl, rfl, rfl, rfl, rfl⟩

theorem chained_hhNext (s : Hash N) (b : Bucket N) (x y : N) :
    ((s.chained b x).hh y).hhNext = if y = x then b.hhHead else (s.hh y).hhNext := by
  simp only [Hash.chained, put_hh, Option.some.injEq]
  split_ifs <;> rfl

theorem chained_hhPrev (hx : b.hhHead ≠ some x) (y : N) :
    ((s.chained b x).hh y).hhPrev =
      if y = x then none else if some y = b.hhHead then some x else (s.hh y).hhPrev := by
  simp only [Hash.chained, put_hh, Option.some.injEq]
  by_cases hyx : y = x
  · rw [if_neg (by rw [hyx]; exact fun h => hx h.symm), if_pos hyx, if_pos hyx]
  · rw [if_neg hyx, if_neg hyx]
    split_ifs <;> rfl

/-- The bucket that the element was chained in. -/
theorem IsChain.chained (h : IsChain s.hh b c) (hnodup : c.Nodup) (hx : x ∉ c) (m : ℕ) :
    IsChain (s.chained b x).hh ⟨some x, incr b.count, m⟩ (x :: c) := by
  have hne : b.hhHead ≠ some x := fun hb => hx (h.head_mem hb)
  have hother : ∀ y ∈ c, y ≠ x := fun y hy heq => hx (heq ▸ hy)
  refine ⟨?_, rfl, ?_⟩
  · refine Linked.insert (a := []) (b := c) h.linked (Option.some_injective N) hnodup ?_
      nofun nofun (fun y hy => ?_) fun y hy => ?_
    · rw [chained_hhPrev hne, chained_hhNext, if_pos rfl, if_pos rfl, h.head]
      exact ⟨rfl, rfl⟩
    · rw [chained_hhPrev hne, if_neg (hother y hy), h.head]
    · rw [chained_hhNext, if_neg (hother y hy)]
  · rw [h.count, incr_mod, List.length_cons]

/-- Any other bucket. -/
theorem IsChain.chained_ne (h : IsChain s.hh b c) {d : Bucket N} {e : List N}
    (hd : IsChain s.hh d e) (hx : x ∉ e) (hxc : x ∉ c) (hdisj : ∀ y ∈ e, y ∉ c) :
    IsChain (s.chained b x).hh d e := by
  have hne : b.hhHead ≠ some x := fun hb => hxc (h.head_mem hb)
  refine hd.frame fun y hy => ?_
  have hyx : y ≠ x := fun heq => hx (heq ▸ hy)
  have hyb : some y ≠ b.hhHead := fun hb => hdisj y hy (h.head_mem hb.symm)
  rw [chained_hhPrev hne, chained_hhNext, if_neg hyx, if_neg hyx, if_neg hyb]
  exact ⟨rfl, rfl⟩

theorem hashDelInBkt_head (s : Hash N) (bkt : ℕ) (x : N) : (hashDelInBkt s bkt x).head = s.head := by
  simp [hashDelInBkt]

theorem hashDelInBkt_sameElements (s : Hash N) (bkt : ℕ) (x : N) :
    SameElements s.hh (hashDelInBkt s bkt x).hh := by
  intro y
  simp only [hashDelInBkt, put_hh]
  split_ifs <;> exact ⟨rfl, rfl, rfl, rfl, rfl⟩

/-- The bucket that an element leaves. -/
def Bucket.leave (hh : N → Handle N) (b : Bucket N) (x : N) : Bucket N where
  hhHead := if b.hhHead = some x then (hh x).hhNext else b.hhHead
  count := decr b.count
  expandMult := b.expandMult

theorem hashDelInBkt_tbl (s : Hash N) (bkt : ℕ) (x : N) :
    (hashDelInBkt s bkt x).tbl =
      s.tbl.putBucket bkt ((s.tbl.buckets bkt).leave s.hh x) := by
  simp only [hashDelInBkt, put_tbl, Bucket.leave]
  split_ifs <;> rfl

theorem hashDelInBkt_hhNext (s : Hash N) (bkt : ℕ) {x y : N} (hx : (s.hh x).hhPrev ≠ some x) :
    ((hashDelInBkt s bkt x).hh y).hhNext =
      if some y = (s.hh x).hhPrev then (s.hh x).hhNext else (s.hh y).hhNext := by
  simp only [hashDelInBkt, put_hh, if_neg hx.symm]
  split_ifs <;> rfl

theorem hashDelInBkt_hhPrev (s : Hash N) (bkt : ℕ) {x y : N} (hx : (s.hh x).hhPrev ≠ some x) :
    ((hashDelInBkt s bkt x).hh y).hhPrev =
      if some y = (s.hh x).hhNext then (s.hh x).hhPrev else (s.hh y).hhPrev := by
  simp only [hashDelInBkt, put_hh, if_neg hx.symm]
  split_ifs <;> rfl

omit [DecidableEq N] in
/-- An element of a chain, with the neighbours its links name. -/
theorem IsChain.split (h : IsChain s.hh b c) (hnodup : c.Nodup) (hx : x ∈ c) :
    ∃ d e, c = d ++ x :: e ∧ x ∉ d ∧ x ∉ e ∧ (s.hh x).hhPrev = last some none d ∧
      (s.hh x).hhNext = first some e none ∧ (s.hh x).hhPrev ≠ some x := by
  obtain ⟨d, e, rfl⟩ := List.append_of_mem hx
  obtain ⟨-, hxe, hde⟩ := List.nodup_append.mp hnodup
  have hd : x ∉ d := fun hmem => hde x hmem x List.mem_cons_self rfl
  obtain ⟨hprev, hnext⟩ := h.linked.middle
  refine ⟨d, e, rfl, hd, (List.nodup_cons.mp hxe).1, hprev, hnext, ?_⟩
  intro hself
  exact hd (last_eq_some (hprev.symm.trans hself))

/-- The bucket that the element left. -/
theorem IsChain.erase (h : IsChain s.hh b c) (hnodup : c.Nodup) (hx : x ∈ c) (bkt : ℕ) :
    IsChain (hashDelInBkt s bkt x).hh (b.leave s.hh x) (c.erase x) := by
  obtain ⟨d, e, rfl, hd, he, hprev, hnext, hself⟩ := h.split hnodup hx
  obtain ⟨hlinked, hhead, hcount⟩ := h
  have hde : ∀ y ∈ d, y ∉ x :: e := fun y hy hmem =>
    (List.nodup_append.mp hnodup).2.2 y hy y hmem rfl
  have herase : (d ++ x :: e).erase x = d ++ e := by
    rw [List.erase_append_right _ hd, List.erase_cons_head]
  rw [herase]
  refine ⟨?_, ?_, ?_⟩
  · refine hlinked.unlink (Option.some_injective N) hnodup (fun y hy => ?_) (fun y hy => ?_)
      (fun y hy => ?_) fun y hy => ?_
    · rw [hashDelInBkt_hhPrev s bkt hself, if_neg]
      rw [hnext]
      exact fun hy' => hde y hy (List.mem_cons_of_mem _ (first_eq_some hy'.symm))
    · exact hashDelInBkt_hhNext s bkt hself
    · exact hashDelInBkt_hhPrev s bkt hself
    · rw [hashDelInBkt_hhNext s bkt hself, if_neg]
      rw [hprev]
      exact fun hy' => hde y (last_eq_some hy'.symm) (List.mem_cons_of_mem _ hy)
  · rw [first_append] at hhead
    cases d with
    | nil => exact (if_pos hhead).trans hnext
    | cons y d =>
        have hyx : b.hhHead ≠ some x := by
          rw [hhead]
          exact fun heq => hd (Option.some.inj heq ▸ List.mem_cons_self)
        exact (if_neg hyx).trans hhead
  · simp only [Bucket.leave, hcount, List.length_append, List.length_cons, ← Nat.add_assoc,
      decr_mod_succ]

/-- Any other bucket. -/
theorem IsChain.erase_ne (h : IsChain s.hh b c) (hnodup : c.Nodup) (hx : x ∈ c) {d : Bucket N}
    {e : List N} (hd : IsChain s.hh d e) (hdisj : ∀ y ∈ e, y ∉ c) (bkt : ℕ) :
    IsChain (hashDelInBkt s bkt x).hh d e := by
  obtain ⟨a, f, rfl, -, -, hprev, hnext, hself⟩ := h.split hnodup hx
  refine hd.frame fun y hy => ?_
  rw [hashDelInBkt_hhPrev s bkt hself, hashDelInBkt_hhNext s bkt hself, hprev, hnext,
    if_neg fun heq => ?_, if_neg fun heq => ?_]
  · exact ⟨rfl, rfl⟩
  · exact hdisj y hy (List.mem_append_left _ (last_eq_some heq.symm))
  · exact hdisj y hy (List.mem_append_right _ (List.mem_cons_of_mem _ (first_eq_some heq.symm)))

/-! ## All the chains -/

variable {buckets : ℕ → Bucket N} {idx : N → ℕ} {l : List N}

omit [DecidableEq N] in
theorem Spread.empty (hh : N → Handle N) (idx : N → ℕ) :
    Spread hh (fun _ => {}) idx [] :=
  fun _ => ⟨[], List.Perm.refl _, IsChain.empty hh⟩

omit [DecidableEq N] in
theorem Spread.frame {hh hh' : N → Handle N} (h : Spread hh buckets idx l)
    (hsame : SameChains hh hh') : Spread hh' buckets idx l := by
  intro b
  obtain ⟨c, hc, hchain⟩ := h b
  exact ⟨c, hc, hchain.frame fun x _ => hsame x⟩

omit [DecidableEq N] in
/-- Only where the elements belong matters, and which ones they are. -/
theorem Spread.perm {hh : N → Handle N} (h : Spread hh buckets idx l) {idx' : N → ℕ} {l' : List N}
    (hidx : ∀ x ∈ l, idx' x = idx x) (hl : l'.Perm l) : Spread hh buckets idx' l' := by
  intro b
  obtain ⟨c, hc, hchain⟩ := h b
  have hfilter : (l.filter fun x => idx' x = b) = l.filter fun x => idx x = b :=
    List.filter_congr fun x hx => by rw [hidx x hx]
  refine ⟨c, hc.trans ?_, hchain⟩
  rw [← hfilter]
  exact (hl.filter _).symm

/-- One more element. -/
theorem Spread.chained (h : Spread s.hh buckets idx l) (hnodup : l.Nodup) (hx : x ∉ l) (m : ℕ) :
    Spread (s.chained (buckets (idx x)) x).hh
      (Function.update buckets (idx x) ⟨some x, incr (buckets (idx x)).count, m⟩) idx
      (x :: l) := by
  obtain ⟨c, hc, hchain⟩ := h (idx x)
  have hxc : x ∉ c := fun hmem => hx (List.mem_of_mem_filter (hc.subset hmem))
  intro b
  by_cases hb : b = idx x
  · subst hb
    refine ⟨x :: c, ?_, ?_⟩
    · rw [List.filter_cons_of_pos (by simp)]
      exact hc.cons x
    · rw [Function.update_self]
      exact hchain.chained (hc.nodup_iff.mpr (hnodup.filter _)) hxc m
  · obtain ⟨d, hd, hother⟩ := h b
    refine ⟨d, ?_, ?_⟩
    · rw [List.filter_cons_of_neg (by simpa using fun heq => hb heq.symm)]
      exact hd
    · rw [Function.update_of_ne hb]
      have hbelongs : ∀ y ∈ d, idx y = b := fun y hy => by
        simpa using (List.mem_filter.mp (hd.subset hy)).2
      refine hchain.chained_ne hother ?_ hxc ?_
      · exact fun hmem => hb (hbelongs x hmem).symm
      · intro y hy hyc
        have hyx : idx y = idx x := by simpa using (List.mem_filter.mp (hc.subset hyc)).2
        exact hb ((hbelongs y hy).symm.trans hyx)

/-- One element less. -/
theorem Spread.delete (h : Spread s.hh s.tbl.buckets idx l) (hnodup : l.Nodup) (hx : x ∈ l) :
    Spread (hashDelInBkt s (idx x) x).hh (hashDelInBkt s (idx x) x).tbl.buckets idx
      (l.erase x) := by
  obtain ⟨c, hc, hchain⟩ := h (idx x)
  have hxc : x ∈ c := hc.symm.subset (List.mem_filter.mpr ⟨hx, by simp⟩)
  have hcnodup : c.Nodup := hc.nodup_iff.mpr (hnodup.filter _)
  rw [hashDelInBkt_tbl]
  intro b
  by_cases hb : b = idx x
  · subst hb
    refine ⟨c.erase x, ?_, ?_⟩
    · rw [← List.erase_filter]
      exact hc.erase x
    · simp only [Table.putBucket, write, Function.update_self]
      exact hchain.erase hcnodup hxc _
  · obtain ⟨d, hd, hother⟩ := h b
    have hbelongs : ∀ y ∈ d, idx y = b := fun y hy => by
      simpa using (List.mem_filter.mp (hd.subset hy)).2
    refine ⟨d, ?_, ?_⟩
    · rwa [← List.erase_filter, List.erase_of_not_mem]
      exact fun hmem => hb (of_decide_eq_true (List.mem_filter.mp hmem).2).symm
    · simp only [Table.putBucket, write, Function.update_of_ne hb]
      refine hchain.erase_ne hcnodup hxc hother ?_ _
      intro y hy hyc
      have hyx : idx y = idx x := by simpa using (List.mem_filter.mp (hc.subset hyc)).2
      exact hb ((hbelongs y hy).symm.trans hyx)

/-! ## Along a chain -/

section
variable {hh : N → Handle N} {fuel : ℕ} {before : Option N}

omit [DecidableEq N] in
/-- Whether an element is taken for the one with a key. -/
def matchesKey (hh : N → Handle N) (key : Key) (hashval : ℕ) (x : N) : Bool :=
  ((hh x).hashv = hashval ∧ (hh x).keylen = key.length) ∧ (hh x).key.take key.length = key

omit [DecidableEq N] in
/-- The search of a chain finds the first match. -/
theorem hashFindInBkt_eq (key : Key) (hashval : ℕ)
    (h : Linked some (fun x => (hh x).hhPrev) (fun x => (hh x).hhNext) before c none)
    (hfuel : c.length ≤ fuel) :
    hashFindInBkt hh key hashval fuel (first some c none) =
      .ok (c.find? (matchesKey hh key hashval)) := by
  induction c generalizing before fuel with
  | nil => cases fuel <;> rfl
  | cons x c ih =>
      cases fuel with
      | zero => exact absurd hfuel (Nat.not_succ_le_zero _)
      | succ fuel =>
          obtain ⟨-, (hnext : (hh x).hhNext = _), hlinked⟩ := h
          rw [first_cons, hashFindInBkt]
          by_cases hx : matchesKey hh key hashval x
          · rw [if_pos (of_decide_eq_true hx), List.find?_cons_of_pos hx]
          · rw [if_neg fun hm => hx (decide_eq_true hm), List.find?_cons_of_neg hx, hnext]
            exact ih hlinked (Nat.le_of_succ_le_succ hfuel)

/-- The check of the links counts the elements. -/
theorem hashFsckLoop_eq {prev next : N → Option N} (n : ℕ)
    (h : Linked some prev next before c none) (hfuel : c.length ≤ fuel) :
    hashFsckLoop prev next fuel before (first some c none) (n % 2 ^ 32) =
      .ok (some ((n + c.length) % 2 ^ 32)) := by
  induction c generalizing before fuel n with
  | nil => cases fuel <;> rfl
  | cons x c ih =>
      cases fuel with
      | zero => exact absurd hfuel (Nat.not_succ_le_zero _)
      | succ fuel =>
          obtain ⟨hprev, hnext, hlinked⟩ := h
          rw [first_cons, hashFsckLoop, if_neg (by simp [hprev]), hnext, incr_mod,
            ih (n + 1) hlinked (Nat.le_of_succ_le_succ hfuel), List.length_cons,
            Nat.add_assoc n 1, Nat.add_comm 1]

end

end Deai.UtHash
