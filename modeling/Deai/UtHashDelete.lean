import Deai.UtHashTable

/-!
# Deleting from a hash

`HASH_DELETE` takes an element out of the order and out of its bucket. The last element takes the
table with it.
-/
namespace Deai.UtHash
open LinkedNodes

variable {N : Type*} [DecidableEq N] {s : Hash N} {es a b : List (N × Key)} {x : N} {k : Key}
  {m : ℕ}

/-- A hash with one element less in its order. The element is still in its bucket. -/
def Hash.unlinked (s : Hash N) (del : N) : Hash N :=
  let s := if s.tbl.tail = some del then
      {s with tbl := {s.tbl with tail := (s.hh del).prev}} else s
  let s := if (s.hh del).prev ≠ none then
      s.put (s.hh del).prev fun h => {h with next := (s.hh del).next}
    else {s with head := (s.hh del).next}
  s.put (s.hh del).next fun h => {h with prev := (s.hh del).prev}

/-- The bucket that the element leaves then. -/
def Hash.bucketOf (s : Hash N) (x : N) : ℕ := hashToBkt (s.hh x).hashv s.tbl.numBuckets

/-- A hash that counts one element less. -/
def Hash.uncounted (s : Hash N) : Hash N :=
  {s with tbl := {s.tbl with numItems := decr s.tbl.numItems}}

theorem hashDelete_eq (s : Hash N) (x : N) : hashDelete s x =
    if (s.hh x).prev = none ∧ (s.hh x).next = none then {s with head := none}
    else (hashDelInBkt (s.unlinked x) ((s.unlinked x).bucketOf x) x).uncounted := rfl

omit [DecidableEq N] in
theorem Rep.uncounted (horder : InOrder s es) (hstored : Stored s (es.map Prod.fst))
    (htail : s.tbl.tail = last some none (es.map Prod.fst))
    (hitems : s.tbl.numItems = (es.length + 1) % 2 ^ 32) (hgrown : s.tbl.log2NumBuckets ≤ 5 + m) :
    Rep s.uncounted es m := by
  obtain ⟨hnodup, hhead, hlinked, hkeys⟩ := horder
  obtain ⟨hsize, hsmall, hspread⟩ := hstored
  refine ⟨⟨hnodup, hhead, hlinked, hkeys⟩, fun _ => ⟨⟨hsize, hsmall, hspread⟩, htail, ?_, hgrown⟩⟩
  rw [Hash.uncounted, hitems, decr_mod_succ]

theorem unlinked_tbl (s : Hash N) (x : N) : (s.unlinked x).tbl =
    {s.tbl with tail := if s.tbl.tail = some x then (s.hh x).prev else s.tbl.tail} := by
  simp only [Hash.unlinked, put_tbl]
  split_ifs <;> simp

theorem unlinked_head (s : Hash N) (x : N) : (s.unlinked x).head =
    if (s.hh x).prev = none then (s.hh x).next else s.head := by
  simp only [Hash.unlinked, put_head]
  split_ifs <;> simp_all

section
variable (hprev : (s.hh x).prev ≠ some x)
include hprev

/-- The handles after the element has left the order. -/
theorem unlinked_hh (y : N) : (s.unlinked x).hh y =
    {s.hh y with
      prev := if some y = (s.hh x).next then (s.hh x).prev else (s.hh y).prev
      next := if some y = (s.hh x).prev then (s.hh x).next else (s.hh y).next} := by
  -- The tail does not touch the handles.
  obtain ⟨t, ht, hhh⟩ : ∃ t, (if s.tbl.tail = some x then
      {s with tbl := {s.tbl with tail := (s.hh x).prev}} else s) = t ∧ t.hh = s.hh :=
    ⟨_, rfl, by split_ifs <;> rfl⟩
  simp only [Hash.unlinked, ht]
  rw [← hhh] at hprev ⊢
  by_cases hp : (t.hh x).prev = none
  · simp only [hp, put_hh, ne_eq, not_true_eq_false, if_false, reduceCtorEq]
    split_ifs <;> rfl
  · simp only [put_hh, ne_eq, hp, not_false_eq_true, if_true, if_neg hprev.symm]
    split_ifs <;> rfl

end

/-- The order without the element. -/
theorem InOrder.unlinked (h : InOrder s (a ++ (x, k) :: b)) : InOrder (s.unlinked x) (a ++ b) := by
  have hnodup := h.nodup
  have hlinked := h.linked
  have hhead := h.head
  rw [List.map_append, List.map_cons] at hnodup hlinked hhead
  obtain ⟨hprev, hnext⟩ := hlinked.middle
  obtain ⟨-, hxb, hdisj⟩ := List.nodup_append.mp hnodup
  have hxa : x ∉ a.map Prod.fst := fun hmem => hdisj x hmem x List.mem_cons_self rfl
  have hself : (s.hh x).prev ≠ some x := fun heq => hxa (last_eq_some (hprev.symm.trans heq))
  refine ⟨?_, ?_, ?_, fun e he => ?_⟩
  · rw [List.map_append]
    exact hnodup.sublist (List.Sublist.append_left (List.sublist_cons_self _ _) _)
  · rw [unlinked_head, List.map_append, first_append]
    cases a with
    | nil => exact (if_pos hprev).trans hnext
    | cons e a =>
        have hne : (s.hh x).prev ≠ none := by
          obtain ⟨y, -, hy⟩ := last_mem some none e.1 (a.map Prod.fst)
          rw [hprev, List.map_cons, hy]
          exact Option.some_ne_none y
        exact (if_neg hne).trans hhead
  · rw [List.map_append]
    refine hlinked.unlink (Option.some_injective N) hnodup (fun y hy => ?_) (fun y hy => ?_)
      (fun y hy => ?_) fun y hy => ?_
    · rw [unlinked_hh hself]
      refine if_neg fun heq => ?_
      rw [hnext] at heq
      exact hdisj y hy y (List.mem_cons_of_mem _ (first_eq_some heq.symm)) rfl
    · rw [unlinked_hh hself]
    · rw [unlinked_hh hself]
    · rw [unlinked_hh hself]
      refine if_neg fun heq => ?_
      rw [hprev] at heq
      exact hdisj y (last_eq_some heq.symm) y (List.mem_cons_of_mem _ hy) rfl
  · rw [unlinked_hh hself]
    refine h.keys e ?_
    rcases List.mem_append.mp he with he | he
    · exact List.mem_append_left _ he
    · exact List.mem_append_right _ (List.mem_cons_of_mem _ he)

/-- `HASH_DELETE` takes the element out, and leaves the others in their order. -/
theorem hashDelete_spec (h : Rep s (a ++ (x, k) :: b) m) : Rep (hashDelete s x) (a ++ b) m := by
  have hnodup := h.order.nodup
  have hlinked := h.order.linked
  rw [List.map_append, List.map_cons] at hnodup hlinked
  obtain ⟨hprev, hnext⟩ := hlinked.middle
  have hxa : x ∉ a.map Prod.fst := fun hmem =>
    (List.nodup_append.mp hnodup).2.2 x hmem x List.mem_cons_self rfl
  have hself : (s.hh x).prev ≠ some x := fun heq => hxa (last_eq_some (hprev.symm.trans heq))
  have hne : a ++ (x, k) :: b ≠ [] := List.append_ne_nil_of_right_ne_nil _ nofun
  obtain ⟨hstored, htail, hitems, hgrown⟩ := h.table hne
  have hmap : (a ++ (x, k) :: b).map Prod.fst = a.map Prod.fst ++ x :: b.map Prod.fst := by simp
  have herase : ((a ++ (x, k) :: b).map Prod.fst).erase x = (a ++ b).map Prod.fst := by
    rw [hmap, List.erase_append_right _ hxa, List.erase_cons_head, List.map_append]
  rw [hashDelete_eq]
  split_ifs with halone
  · obtain rfl := List.map_eq_nil_iff.mp (last_eq_none (hprev.symm.trans halone.1))
    obtain rfl := List.map_eq_nil_iff.mp (first_eq_none (hnext.symm.trans halone.2))
    exact Rep.nil rfl m
  · have hstored' : Stored (s.unlinked x) ((a ++ (x, k) :: b).map Prod.fst) := by
      refine hstored.frame (fun y => ?_) (fun y _ => ?_) ?_ ?_ ?_ (List.Perm.refl _)
      · rw [unlinked_hh hself]
        exact ⟨rfl, rfl⟩
      · rw [unlinked_hh hself]
      all_goals rw [unlinked_tbl]
    have hspread := hstored'.spread.delete (x := x) h.order.nodup (by simp)
    rw [herase] at hspread
    have helements := hashDelInBkt_sameElements (s.unlinked x) ((s.unlinked x).bucketOf x) x
    have htbl := hashDelInBkt_tbl (s.unlinked x) ((s.unlinked x).bucketOf x) x
    refine Rep.uncounted (h.order.unlinked.frame helements (hashDelInBkt_head _ _ _))
      ⟨?_, ?_, ?_⟩ ?_ ?_ ?_
    · rw [htbl]
      exact hstored'.size
    · rw [htbl]
      exact hstored'.small
    · refine hspread.perm (fun y _ => ?_) (List.Perm.refl _)
      rw [(helements y).2.2.2.2, htbl]
      rfl
    · rw [htbl, Table.putBucket, unlinked_tbl, List.map_append, last_append]
      rw [hmap, last_append, last_cons] at htail
      cases b with
      | nil => exact (if_pos htail).trans hprev
      | cons e b =>
          -- The tail is further on, so it stays.
          have hxb : x ∉ (e :: b).map Prod.fst := by
            have hxl := (List.nodup_append.mp hnodup).2.1
            exact (List.nodup_cons.mp hxl).1
          refine (if_neg fun heq => hxb ?_).trans htail
          exact last_eq_some (htail.symm.trans heq)
    · rw [htbl, Table.putBucket, unlinked_tbl]
      simp only [hitems, List.length_append, List.length_cons, Nat.add_assoc]
    · rw [htbl, Table.putBucket, unlinked_tbl]
      exact hgrown

end Deai.UtHash
