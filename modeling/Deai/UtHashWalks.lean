import Deai.UtHashDelete

/-!
# Walking a hash

`HASH_FSCK` walks all chains and then the elements in their order. `HASH_ITER` walks the elements,
and what is done with each may delete it, as the one after it is known by then.
-/
namespace Deai.UtHash
open LinkedNodes

variable {N : Type*} [DecidableEq N] {s : Hash N} {es : List (N × Key)} {m fuel : ℕ}

omit [DecidableEq N] in
theorem hashCnt_spec (h : Rep s es m) : hashCnt s = es.length % 2 ^ 32 := by
  unfold hashCnt
  cases hhead : s.head with
  | none =>
      rw [h.head_eq_none.mp hhead]
      rfl
  | some x =>
      have hne : es ≠ [] := fun hnil => by simp [h.head_eq_none.mpr hnil] at hhead
      exact (h.table hne).items

/-! ## Checking the integrity -/

/-- The buckets in a list are as long as they say. -/
theorem hashFsckBuckets_eq {chains : ℕ → List N}
    (hchains : ∀ i, (chains i).length ≤ fuel ∧ IsChain s.hh (s.tbl.buckets i) (chains i))
    (is : List ℕ) (n : ℕ) :
    is.foldlM (hashFsckBucket s fuel) (some (n % 2 ^ 32)) =
      .ok (some ((n + (is.flatMap chains).length) % 2 ^ 32)) := by
  induction is generalizing n with
  | nil => rfl
  | cons i is ih =>
      obtain ⟨hlen, hlinked, hhead, hcount⟩ := hchains i
      have hloop := hashFsckLoop_eq 0 hlinked hlen
      rw [Nat.zero_mod, Nat.zero_add] at hloop
      have hbucket : hashFsckBucket s fuel (some (n % 2 ^ 32)) i =
          .ok (some ((n + (chains i).length) % 2 ^ 32)) := by
        simp only [hashFsckBucket, hhead, hloop, hcount, Except.map, Option.bind_some, ne_eq,
          not_true_eq_false, if_false]
        rw [← Nat.add_mod]
      rw [List.foldlM_cons, hbucket]
      refine (ih _).trans ?_
      rw [List.flatMap_cons, List.length_append, Nat.add_assoc]

/-- The integrity check of a hash passes. -/
theorem hashFsck_spec (h : Rep s es m) (hfuel : es.length ≤ fuel) : hashFsck fuel s = .ok true := by
  cases hhead : s.head with
  | none => rw [hashFsck, hhead]
  | some x =>
      have hne : es ≠ [] := fun hnil => by simp [h.head_eq_none.mpr hnil] at hhead
      obtain ⟨hstored, -, hitems, -⟩ := h.table hne
      obtain ⟨chains, hchains, hperm⟩ := hstored.chains h.order.nodup
      have hmap : (es.map Prod.fst).length ≤ fuel := by rwa [List.length_map]
      have hbuckets := hashFsckBuckets_eq (fun i => ⟨(hchains i).1.trans hmap, (hchains i).2⟩)
        (List.range s.tbl.numBuckets) 0
      have happ := hashFsckLoop_eq 0 h.order.linked hmap
      rw [← h.order.head] at happ
      simp only [Nat.zero_mod, Nat.zero_add, hperm.length_eq, List.length_map] at hbuckets happ
      simp only [hashFsck, hhead, hbuckets, Except.bind, hitems, ne_eq, not_true_eq_false, if_false]
      rw [← hhead, happ]
      exact congrArg Except.ok (decide_eq_true rfl)

/-! ## Iterating -/

section
variable {S : Type*} {hash : S → Hash N} {body : N → S → Except Stop S} {st : S}

omit [DecidableEq N] in
/-- The first element of a hash, and the one after it. -/
theorem Rep.first_next {rest : List (N × Key)} (h : Rep s (es ++ rest) m) :
    ((rest.head?.map Prod.fst).bind fun x => (s.hh x).next) = rest.tail.head?.map Prod.fst := by
  cases rest with
  | nil => rfl
  | cons e rest =>
      have hlinked := h.order.linked
      rw [List.map_append, List.map_cons] at hlinked
      refine hlinked.middle.2.trans ?_
      cases rest <;> rfl

omit [DecidableEq N] in
/-- What holds of a walk if each of its steps keeps it: the elements that were visited are still
there if they are to be kept, and those to come are all there. -/
theorem hashIterRounds_rule (keep : N × Key → Bool) (I : List (N × Key) → S → Prop)
    (hrep : ∀ visited rest st, es = visited ++ rest → I visited st →
      Rep (hash st) (visited.filter keep ++ rest) m)
    (hbody : ∀ visited e rest st, es = visited ++ e :: rest → I visited st →
      ∃ st', body e.1 st = .ok st' ∧ I (visited ++ [e]) st')
    {visited rest : List (N × Key)} (hes : es = visited ++ rest) (hI : I visited st)
    (hfuel : rest.length ≤ fuel) :
    ∃ st', hashIterRounds hash body fuel st (rest.head?.map Prod.fst)
      (rest.tail.head?.map Prod.fst) = .ok st' ∧ I es st' := by
  induction rest generalizing visited st fuel with
  | nil => exact ⟨st, by cases fuel <;> rfl, by rwa [hes, List.append_nil]⟩
  | cons e rest ih =>
      cases fuel with
      | zero => exact absurd hfuel (Nat.not_succ_le_zero _)
      | succ fuel =>
          obtain ⟨st', hrun, hI'⟩ := hbody visited e rest st hes hI
          have hes' : es = (visited ++ [e]) ++ rest := by rw [hes, List.append_assoc]; rfl
          obtain ⟨st'', hruns, hI''⟩ := ih hes' hI' (Nat.le_of_succ_le_succ hfuel)
          refine ⟨st'', ?_, hI''⟩
          simp only [List.head?_cons, Option.map_some, List.tail_cons, hashIterRounds, hrun]
          -- The next element is the first of the rest, and so is the one after it.
          rw [← hruns, ← (hrep _ _ _ hes' hI').first_next]
          rfl

omit [DecidableEq N] in
theorem hashIter_rule (keep : N × Key → Bool) (I : List (N × Key) → S → Prop)
    (hrep : ∀ visited rest st, es = visited ++ rest → I visited st →
      Rep (hash st) (visited.filter keep ++ rest) m)
    (hbody : ∀ visited e rest st, es = visited ++ e :: rest → I visited st →
      ∃ st', body e.1 st = .ok st' ∧ I (visited ++ [e]) st')
    (hI : I [] st) (hfuel : es.length ≤ fuel) :
    ∃ st', hashIter hash body fuel st = .ok st' ∧ I es st' := by
  have hes : es = [] ++ es := rfl
  obtain ⟨st', hrun, hI'⟩ := hashIterRounds_rule keep I hrep hbody hes hI hfuel
  refine ⟨st', ?_, hI'⟩
  have hstart : Rep (hash st) es m := hrep [] es st rfl hI
  have hhead : (hash st).head = es.head?.map Prod.fst := by
    rw [hstart.order.head]
    cases es <;> rfl
  rw [hashIter, hhead, Rep.first_next (hes ▸ hstart : Rep (hash st) ([] ++ es) m)]
  exact hrun

end

end Deai.UtHash
