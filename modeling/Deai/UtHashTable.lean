import Deai.UtHashExpand

/-!
# What a hash stores

The elements of a hash with their keys, in the order they were added. The links in that order spell
the elements, and the chains of the buckets spell them once more. Every macro keeps both, and does
to the list what its name says.
-/
namespace Deai.UtHash
open LinkedNodes

variable {N : Type*}

/-- The key that an element gets. Its length is kept as `unsigned`. -/
def storedKey (key : Key) : Key := key.take (key.length % 2 ^ 32)

theorem storedKey_length (key : Key) : (storedKey key).length = key.length % 2 ^ 32 := by
  rw [storedKey, List.length_take]
  exact Nat.min_eq_left (Nat.mod_le _ _)

/-- The hash function does not look further than that. -/
theorem hashJen_storedKey (key : Key) : hashJen (storedKey key) = hashJen key := by
  have hlen : (storedKey key).length % 2 ^ 32 = key.length % 2 ^ 32 := by
    rw [storedKey_length, Nat.mod_mod]
  have htake : (storedKey key).take (key.length % 2 ^ 32) = key.take (key.length % 2 ^ 32) := by
    rw [storedKey, List.take_take, Nat.min_self]
  simp only [hashJen, hlen, htake]

/-- The elements are linked in order, and each knows its key. -/
structure InOrder (s : Hash N) (es : List (N × Key)) : Prop where
  nodup : (es.map Prod.fst).Nodup
  head : s.head = first some (es.map Prod.fst) none
  linked : Linked some (fun x => (s.hh x).prev) (fun x => (s.hh x).next) none (es.map Prod.fst) none
  keys : ∀ e ∈ es, (s.hh e.1).key.take (s.hh e.1).keylen = e.2 ∧ (s.hh e.1).keylen = e.2.length ∧
    e.2.length < 2 ^ 32 ∧ (s.hh e.1).hashv = hashJen e.2

/-- The table holds the elements, and has doubled its buckets at most `m` times. -/
structure InTable (s : Hash N) (es : List (N × Key)) (m : ℕ) : Prop where
  stored : Stored s (es.map Prod.fst)
  tail : s.tbl.tail = last some none (es.map Prod.fst)
  items : s.tbl.numItems = es.length % 2 ^ 32
  grown : s.tbl.log2NumBuckets ≤ 5 + m

/-- A hash and what it stores. Without elements there is no table. -/
structure Rep (s : Hash N) (es : List (N × Key)) (m : ℕ) : Prop where
  order : InOrder s es
  table : es ≠ [] → InTable s es m

theorem Rep.nil {s : Hash N} (hs : s.head = none) (m : ℕ) : Rep s [] m :=
  ⟨⟨List.nodup_nil, hs, trivial, nofun⟩, fun h => absurd rfl h⟩

theorem Rep.head_eq_none {s : Hash N} {es : List (N × Key)} {m : ℕ} (h : Rep s es m) :
    s.head = none ↔ es = [] := by
  rw [h.order.head]
  cases es <;> simp

theorem InOrder.frame {s s' : Hash N} {es : List (N × Key)} (h : InOrder s es)
    (hsame : SameElements s.hh s'.hh) (hhead : s'.head = s.head) : InOrder s' es := by
  refine ⟨h.nodup, hhead.trans h.head, ?_, fun e he => ?_⟩
  · exact h.linked.congr (fun x _ => (hsame x).1) fun x _ => (hsame x).2.1
  · obtain ⟨-, -, hkey, hkeylen, hhashv⟩ := hsame e.1
    rw [hkey, hkeylen, hhashv]
    exact h.keys e he

variable [DecidableEq N] {s : Hash N} {es : List (N × Key)} {x : N} {key : Key} {m fuel : ℕ}
  {malloc : ℕ → Bool}

/-! ## Adding an element -/

/-- The element stands behind the others, but is not in a bucket yet. -/
structure Appended (s : Hash N) (es : List (N × Key)) (x : N) (key : Key) (m : ℕ) : Prop where
  order : InOrder s (es ++ [(x, storedKey key)])
  stored : Stored s (es.map Prod.fst)
  tail : s.tbl.tail = some x
  items : s.tbl.numItems = es.length % 2 ^ 32
  grown : s.tbl.log2NumBuckets ≤ 5 + m

/-- The element gets its key. -/
def Hash.keyed (s : Hash N) (key : Key) (x : N) : Hash N :=
  s.put (some x) fun h => {h with hashv := hashJen key, key := key, keylen := key.length % 2 ^ 32}

/-- A new element at the end of the order, when the links say so. -/
theorem InOrder.append (h : InOrder s es) (hx : x ∉ es.map Prod.fst) {s' : Hash N}
    (hhead : s'.head = first some ((es.map Prod.fst) ++ [x]) none)
    (hself : (s'.hh x).prev = last some none (es.map Prod.fst) ∧ (s'.hh x).next = none ∧
      (s'.hh x).key = key ∧ (s'.hh x).keylen = key.length % 2 ^ 32 ∧
      (s'.hh x).hashv = hashJen key)
    (hother : ∀ y, y ≠ x → (s'.hh y).prev = (s.hh y).prev ∧
      ((s'.hh y).next = if some y = last some none (es.map Prod.fst) then some x
        else (s.hh y).next) ∧
      (s'.hh y).key = (s.hh y).key ∧ (s'.hh y).keylen = (s.hh y).keylen ∧
      (s'.hh y).hashv = (s.hh y).hashv) :
    InOrder s' (es ++ [(x, storedKey key)]) := by
  obtain ⟨hprev, hnext, hkey, hkeylen, hhashv⟩ := hself
  have hne : ∀ y ∈ es.map Prod.fst, y ≠ x := fun y hy heq => hx (heq ▸ hy)
  have hmap : (es ++ [(x, storedKey key)]).map Prod.fst = es.map Prod.fst ++ [x] := by simp
  refine ⟨?_, ?_, ?_, fun e he => ?_⟩
  · rw [hmap]
    exact h.nodup.append (List.nodup_singleton x) (List.disjoint_singleton.mpr hx)
  · rw [hmap, hhead]
  · rw [hmap]
    refine Linked.insert (b := []) (by rw [List.append_nil]; exact h.linked)
      (Option.some_injective N) (by rw [List.append_nil]; exact h.nodup) ⟨hprev, hnext⟩
      (fun y hy => (hother y (hne y hy)).1) (fun y hy => (hother y (hne y hy)).2.1) nofun nofun
  · rcases List.mem_append.mp he with he | he
    · obtain ⟨-, -, hk, hl, hv⟩ := hother e.1 (hne e.1 (List.mem_map_of_mem he))
      rw [hk, hl, hv]
      exact h.keys e he
    · rw [List.mem_singleton.mp he, hkey, hkeylen, hhashv, storedKey_length, hashJen_storedKey]
      exact ⟨rfl, rfl, Nat.mod_lt _ (by omega), rfl⟩

omit [DecidableEq N] in
/-- The order of the elements does not matter to the buckets, nor do links in it. -/
theorem Stored.frame {l l' : List N} (h : Stored s l) {s' : Hash N}
    (hchains : SameChains s.hh s'.hh) (hhashv : ∀ x ∈ l, (s'.hh x).hashv = (s.hh x).hashv)
    (hbuckets : s'.tbl.buckets = s.tbl.buckets) (hnum : s'.tbl.numBuckets = s.tbl.numBuckets)
    (hlog : s'.tbl.log2NumBuckets = s.tbl.log2NumBuckets) (hl : l'.Perm l) : Stored s' l' := by
  refine ⟨?_, ?_, ?_⟩
  · rw [hnum, hlog, h.size]
  · rw [hlog]
    exact h.small
  · rw [hbuckets, hnum]
    exact (h.spread.frame hchains).perm (fun x hx => by rw [hhashv x hx]) hl

theorem hashAppendList_tbl (s : Hash N) (key : Key) (x : N) :
    (hashAppendList (s.keyed key x) x).tbl = {s.tbl with tail := some x} := by
  simp [hashAppendList, Hash.keyed]

/-- `HASH_APPEND_LIST`, behind other elements. -/
theorem hashAppendList_spec (h : Rep s es m) (hne : es ≠ []) (hx : x ∉ es.map Prod.fst) :
    Appended (hashAppendList (s.keyed key x) x) es x key m := by
  obtain ⟨hstored, htail, hitems, hgrown⟩ := h.table hne
  have hself : s.tbl.tail ≠ some x := fun heq => hx (last_eq_some (htail.symm.trans heq))
  refine ⟨h.order.append hx ?_ ?_ fun y hy => ?_, ?_, ?_, ?_, ?_⟩
  · simp only [hashAppendList, Hash.keyed, put_head, h.order.head]
    cases es with
    | nil => exact absurd rfl hne
    | cons e es => rfl
  · simp [hashAppendList, Hash.keyed, put_hh, htail ▸ hself.symm, htail]
  · simp only [hashAppendList, Hash.keyed, put_hh, put_tbl, Option.some.injEq, if_neg hy, htail]
    split_ifs <;> exact ⟨rfl, rfl, rfl, rfl, rfl⟩
  · have htbl := hashAppendList_tbl s key x
    refine hstored.frame (fun y => ?_) (fun y hy => ?_) (by rw [htbl]) (by rw [htbl])
      (by rw [htbl]) (List.Perm.refl _)
    · simp only [hashAppendList, Hash.keyed, put_hh]
      split_ifs <;> exact ⟨rfl, rfl⟩
    · have hyx : y ≠ x := fun heq => hx (heq ▸ hy)
      simp only [hashAppendList, Hash.keyed, put_hh, Option.some.injEq, if_neg hyx]
      split_ifs <;> rfl
  · rw [hashAppendList_tbl]
  · rw [hashAppendList_tbl]
    exact hitems
  · rw [hashAppendList_tbl]
    exact hgrown

omit [DecidableEq N] in
theorem hashMakeTable_error {e : Stop} (ht : hashMakeTable malloc x = .error e) :
    (∃ n ≤ 2 ^ 10, malloc n = false) ∧ e = .exited := by
  unfold hashMakeTable at ht
  split_ifs at ht with htable hbuckets
  · exact ⟨⟨64, by decide, by simpa using htable⟩, (Except.error.inj ht).symm⟩
  · exact ⟨⟨32 * 16, by decide, by simpa using hbuckets⟩, (Except.error.inj ht).symm⟩

/-- The first element of a hash, in the table that is made for it. -/
theorem hashMakeTable_spec (hs : Rep s [] m) {t : Table N}
    (ht : hashMakeTable malloc x = .ok t) :
    Appended {(s.keyed key x).put (some x) (fun h => {h with next := none, prev := none}) with
      head := some x, tbl := t} [] x key m := by
  have htable : t = {tail := some x, numBuckets := 32, log2NumBuckets := 5} := by
    unfold hashMakeTable at ht
    split_ifs at ht
    exact (Except.ok.inj ht).symm
  subst htable
  refine ⟨hs.order.append nofun rfl ?_ fun y hy => ?_, ⟨rfl, ?_, Spread.empty _ _⟩, rfl, rfl, ?_⟩
  · simp [Hash.keyed, put_hh]
  · simp [Hash.keyed, put_hh, hy]
  · exact show 5 < 32 by decide
  · exact Nat.le_add_right 5 m

/-- A hash whose last element has just got into its bucket. -/
def Hash.added (s : Hash N) (bkt : ℕ) (x : N) : Hash N :=
  let b := s.tbl.buckets bkt
  let s := s.chained b x
  {s with tbl := s.tbl.putBucket bkt {b with hhHead := some x, count := incr b.count}}

theorem hashAddToBkt_cases (malloc : ℕ → Bool) (fuel : ℕ) (s : Hash N) (bkt : ℕ) (x : N) :
    hashAddToBkt malloc fuel s bkt x = .ok (s.added bkt x) ∨
      hashAddToBkt malloc fuel s bkt x = hashExpandBuckets malloc fuel (s.added bkt x) := by
  simp only [hashAddToBkt]
  split_ifs
  · exact .inr rfl
  · exact .inl rfl

theorem added_tbl (s : Hash N) (bkt : ℕ) (x : N) :
    (s.added bkt x).tbl = s.tbl.putBucket bkt
      ⟨some x, incr (s.tbl.buckets bkt).count, (s.tbl.buckets bkt).expandMult⟩ := by
  simp only [Hash.added, chained_tbl]

/-- The element is in its bucket, before the buckets are expanded. -/
theorem Appended.added (h : Appended s es x key m) (hx : x ∉ es.map Prod.fst) :
    Rep ({s with tbl := {s.tbl with numItems := incr s.tbl.numItems}}.added
      (hashToBkt (hashJen key) s.tbl.numBuckets) x) (es ++ [(x, storedKey key)]) m := by
  obtain ⟨-, -, -, hhashv⟩ := h.order.keys (x, storedKey key) (by simp)
  rw [hashJen_storedKey] at hhashv
  have hnodup : (es.map Prod.fst).Nodup := by
    have := h.order.nodup
    rw [List.map_append] at this
    exact this.of_append_left
  have hmap : (es ++ [(x, storedKey key)]).map Prod.fst = es.map Prod.fst ++ [x] := by simp
  have hspread := Spread.chained (s := {s with tbl := {s.tbl with numItems := incr s.tbl.numItems}})
    h.stored.spread hnodup hx
  simp only [hhashv] at hspread
  refine ⟨h.order.frame (chained_sameElements _ _ _) (chained_head _ _ _), fun _ => ?_⟩
  refine ⟨⟨?_, ?_, ?_⟩, ?_, ?_, ?_⟩
  all_goals rw [added_tbl]
  · exact h.stored.size
  · exact h.stored.small
  · rw [hmap]
    have hperm : (es.map Prod.fst ++ [x]).Perm (x :: es.map Prod.fst) := List.perm_append_comm
    refine (hspread _).perm (fun y _ => ?_) hperm
    exact congrArg (hashToBkt · _) (chained_sameElements _ _ _ y).2.2.2.2
  · rw [hmap, last_append]
    exact h.tail
  · exact (congrArg incr h.items).trans (by rw [incr_mod, List.length_append]; rfl)
  · exact h.grown

omit [DecidableEq N] in
/-- A hash whose buckets were expanded stores the same. -/
theorem Rep.expanded (h : Rep s es m) (hne : es ≠ []) {s' : Hash N}
    (hs' : Expanded s s' (es.map Prod.fst)) : Rep s' es (m + 1) := by
  obtain ⟨-, htail, hitems, hgrown⟩ := h.table hne
  refine ⟨h.order.frame hs'.elements hs'.head, fun _ => ⟨hs'.stored, ?_, ?_, ?_⟩⟩
  · rw [hs'.tail, htail]
  · rw [hs'.items, hitems]
  · rw [hs'.log2]
    omega

omit [DecidableEq N] in
theorem Rep.mono (h : Rep s es m) {n : ℕ} (hn : m ≤ n) : Rep s es n :=
  ⟨h.order, fun hne => ⟨(h.table hne).stored, (h.table hne).tail, (h.table hne).items,
    (h.table hne).grown.trans (Nat.add_le_add_left hn 5)⟩⟩

/-- An allocation that a hash with at most `m` doublings asked for has failed. -/
def Refused (malloc : ℕ → Bool) (m : ℕ) : Prop := ∃ n ≤ 2 ^ (10 + m), malloc n = false

/-- `HASH_ADD_TO_TABLE` -/
theorem hashAddToTable_spec (h : Appended s es x key m) (hx : x ∉ es.map Prod.fst)
    (hfuel : es.length < fuel) (hlimit : ∀ n, 2 ^ 36 ≤ n → malloc n = false) :
    (Refused malloc m ∧ hashAddToTable malloc fuel s (hashJen key) x = .error .exited) ∨
      ∃ s', hashAddToTable malloc fuel s (hashJen key) x = .ok s' ∧
        Rep s' (es ++ [(x, storedKey key)]) (m + 1) := by
  have hrep := h.added hx
  have hne : es ++ [(x, storedKey key)] ≠ [] := List.append_ne_nil_of_right_ne_nil _ nofun
  have htable := hrep.table hne
  rcases hashAddToBkt_cases malloc fuel _ (hashToBkt (hashJen key) s.tbl.numBuckets) x with
    hrun | hrun
  · exact .inr ⟨_, hrun, hrep.mono (Nat.le_succ m)⟩
  · cases hm : malloc (2 * s.tbl.numBuckets * 16) with
    | false =>
        refine .inl ⟨⟨_, ?_, hm⟩, ?_⟩
        · calc 2 * s.tbl.numBuckets * 16 = 2 ^ (5 + s.tbl.log2NumBuckets) := by
                rw [h.stored.size, Nat.pow_add]
                omega
            _ ≤ 2 ^ (10 + m) := Nat.pow_le_pow_right (by decide) (by have := h.grown; omega)
        · refine hrun.trans ?_
          simp only [hashExpandBuckets, added_tbl, Table.putBucket, hm, Bool.not_false, if_true]
    | true =>
        obtain ⟨s', hok, hexpanded⟩ := hashExpandBuckets_spec htable.stored hrep.order.nodup
          (by simpa using Nat.succ_le_of_lt hfuel) hlimit (by rw [added_tbl]; exact hm)
        exact .inr ⟨s', hrun.trans hok, hrep.expanded hne hexpanded⟩

/-- `HASH_ADD_KEYPTR` puts the element behind all others. -/
theorem hashAddKeyptr_spec (key : Key) (h : Rep s es m) (hx : x ∉ es.map Prod.fst) (hfuel : es.length < fuel)
    (hlimit : ∀ n, 2 ^ 36 ≤ n → malloc n = false) :
    (Refused malloc m ∧ hashAddKeyptr malloc fuel s key x = .error .exited) ∨
      ∃ s', hashAddKeyptr malloc fuel s key x = .ok s' ∧
        Rep s' (es ++ [(x, storedKey key)]) (m + 1) := by
  unfold hashAddKeyptr
  simp only [put_head]
  cases hhead : s.head with
  | some y =>
      have hne : es ≠ [] := fun hnil => by simp [h.head_eq_none.mpr hnil] at hhead
      exact hashAddToTable_spec (hashAppendList_spec h hne hx) hx hfuel hlimit
  | none =>
      obtain rfl := h.head_eq_none.mp hhead
      cases ht : hashMakeTable malloc x with
      | ok t => exact hashAddToTable_spec (hashMakeTable_spec h ht) hx hfuel hlimit
      | error e =>
          obtain ⟨⟨n, hn, hm⟩, rfl⟩ := hashMakeTable_error ht
          refine .inl ⟨⟨n, hn.trans ?_, hm⟩, rfl⟩
          exact Nat.pow_le_pow_right (by decide) (Nat.le_add_right 10 m)

/-! ## Finding an element -/

omit [DecidableEq N] in
/-- An element matches a key if that is the one it stores. -/
theorem InOrder.matchesKey_iff (h : InOrder s es) {k : Key} (hx : (x, k) ∈ es) :
    matchesKey s.hh key (hashJen key) x ↔ k = key := by
  obtain ⟨hkey, hkeylen, -, hhashv⟩ := h.keys (x, k) hx
  simp only at hkey hkeylen hhashv
  simp only [matchesKey, decide_eq_true_iff]
  constructor
  · rintro ⟨⟨-, hlen⟩, htake⟩
    rw [← hkey, hlen, htake]
  · rintro rfl
    exact ⟨⟨hhashv, hkeylen⟩, by rw [← hkeylen, hkey]⟩

omit [DecidableEq N] in
/-- `HASH_FIND` finds an element with the key if there is one. -/
theorem hashFind_spec (h : Rep s es m) (hfuel : es.length ≤ fuel) (key : Key) :
    ∃ r, hashFind fuel s key = .ok r ∧ (∀ x, r = some x → (x, key) ∈ es) ∧
      (r = none → ∀ e ∈ es, e.2 ≠ key) := by
  cases hhead : s.head with
  | none =>
      obtain rfl := h.head_eq_none.mp hhead
      exact ⟨none, by rw [hashFind, hhead], nofun, fun _ => nofun⟩
  | some y =>
      have hne : es ≠ [] := fun hnil => by simp [h.head_eq_none.mpr hnil] at hhead
      obtain ⟨c, hc, hchain⟩ :=
        (h.table hne).stored.spread (hashToBkt (hashJen key) s.tbl.numBuckets)
      have hlen : c.length ≤ fuel := by
        have := hc.length_eq.trans_le (List.length_filter_le _ _)
        rw [List.length_map] at this
        exact this.trans hfuel
      have hin : ∀ x ∈ c, ∃ k, (x, k) ∈ es := by
        intro x hx
        obtain ⟨e, he, rfl⟩ := List.mem_map.mp (List.mem_of_mem_filter (hc.subset hx))
        exact ⟨e.2, he⟩
      refine ⟨c.find? (matchesKey s.hh key (hashJen key)), ?_, fun x hx => ?_, fun hnone e he => ?_⟩
      · rw [hashFind, hhead]
        simp only [hchain.head]
        exact hashFindInBkt_eq key _ hchain.linked hlen
      · obtain ⟨k, hk⟩ := hin x (List.mem_of_find?_eq_some hx)
        exact (h.order.matchesKey_iff hk).mp (List.find?_some hx) ▸ hk
      · rintro rfl
        -- The element is in the bucket that its key belongs to.
        have hec : e.1 ∈ c := by
          refine hc.symm.subset (List.mem_filter.mpr ⟨List.mem_map_of_mem he, ?_⟩)
          exact decide_eq_true (congrArg (hashToBkt · _) (h.order.keys e he).2.2.2)
        exact List.find?_eq_none.mp hnone e.1 hec ((h.order.matchesKey_iff he).mpr rfl)

end Deai.UtHash
