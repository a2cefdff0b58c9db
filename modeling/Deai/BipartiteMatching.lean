import Deai.BipartiteMatch
import Deai.MatchingSearch
import Mathlib.Data.Finset.Range
import Mathlib.Data.List.GetD

/-!
# The matching that the search returns

The vectors of the search represent the tables of an augmenting search over the graph, as long as it
comes to no node on the right whose index is beyond `visited`, which has one entry for each node on
the left.
-/
namespace Deai.BipartiteMatching
open CountedLoop MatchingSearch BipartiteMatch
open DifferenceConstraints (toUnsigned)

variable {graph : List (List ℤ)} {s : State} {p q : Progress ℕ ℕ}

/-- The graph that the input describes. -/
def neighbours (graph : List (List ℤ)) (l : ℕ) : List ℕ := (graph.getD l []).map Int.toNat

/-- No exception is thrown: no index is negative, and the vector for the right side can be made. -/
def Accepted (graph : List (List ℤ)) : Prop := ∀ edges ∈ graph, ∀ j ∈ edges, 0 ≤ j ∧ j + 1 < 2 ^ 60

/-- An entry of `ret` or `right`. -/
def entry : Option ℕ → ℤ
  | none => -1
  | some k => k

structure Represents (graph : List (List ℤ)) (s : State) (p : Progress ℕ ℕ) : Prop where
  ret_length : s.ret.length = graph.length
  visited_length : s.visited.length = graph.length
  right_covers : ∀ l, ∀ r ∈ neighbours graph l, r < s.right.length
  visited : ∀ r < graph.length, s.visited[r]? = some (decide (r ∈ p.visited))
  right : ∀ r < s.right.length, s.right[r]? = some (entry (p.owner r))
  ret : ∀ l < graph.length, s.ret[l]? = some (entry (p.mate l))
  owner_lt : ∀ r k, p.owner r = some k → k < graph.length

/-! ## Vectors and numbers -/

theorem readAt_of_some {α : Type} {xs : List α} {i : ℕ} {x : α} (h : xs[i]? = some x) :
    readAt xs i = .ok x := by
  rw [readAt, h]

theorem readAt_of_length_le {α : Type} {xs : List α} {i : ℕ} (h : xs.length ≤ i) :
    readAt xs i = .error .outOfBounds := by
  rw [readAt, List.getElem?_eq_none h]

theorem readAt_of_lt {graph : List (List ℤ)} {l : ℕ} (h : l < graph.length) :
    readAt graph l = .ok (graph.getD l []) := by
  rw [readAt, List.getElem?_eq_getElem h, List.getD_eq_getElem graph [] h]

theorem writeAt_of_lt {α : Type} {xs : List α} {i : ℕ} (x : α) (h : i < xs.length) :
    writeAt xs i x = .ok (xs.set i x) := by
  rw [writeAt, if_pos h]

theorem toSize_of_accepted {j : ℤ} (h : 0 ≤ j ∧ j + 1 < 2 ^ 60) : toSize j = j.toNat := by
  unfold toSize
  rw [Int.emod_eq_of_lt h.1 (by omega)]

theorem toUnsigned_natCast {k : ℕ} (h : k < 2 ^ 32) : toUnsigned (k : ℤ) = k := by
  unfold toUnsigned
  rw [Int.emod_eq_of_lt (by omega) (by exact_mod_cast h), Int.toNat_natCast]

theorem entry_ne_neg_one (k : ℕ) : entry (some k) ≠ -1 := by
  simp only [entry]
  omega

theorem Accepted.getD (h : Accepted graph) {l : ℕ} {j : ℤ} (hj : j ∈ graph.getD l []) :
    0 ≤ j ∧ j + 1 < 2 ^ 60 := by
  rcases Nat.lt_or_ge l graph.length with hl | hl
  · rw [List.getD_eq_getElem graph [] hl] at hj
    exact h _ (List.getElem_mem hl) j hj
  · rw [List.getD_eq_default graph [] hl] at hj
    cases hj

/-! ## The steps of the search -/

theorem Represents.look (h : Represents graph s p) (r : ℕ) : Represents graph s (p.look r) :=
  ⟨h.ret_length, h.visited_length, h.right_covers, h.visited, h.right, h.ret, h.owner_lt⟩

theorem Represents.mark (h : Represents graph s p) (r : ℕ) :
    Represents graph {s with visited := s.visited.set r true} (p.mark r) := by
  refine ⟨h.ret_length, ?_, h.right_covers, fun r' hr' => ?_, h.right, h.ret, h.owner_lt⟩
  · rw [List.length_set, h.visited_length]
  · by_cases heq : r = r'
    · subst heq
      rw [List.getElem?_set_self (h.visited_length ▸ hr')]
      simp [Progress.mark]
    · rw [List.getElem?_set_ne heq, h.visited r' hr']
      have hne : r' ≠ r := fun h' => heq h'.symm
      simp [Progress.mark, hne]

/-- The end of a search that succeeds. -/
theorem Represents.take (h : Represents graph s p) {l : ℕ} {j : ℤ} (hl : l < graph.length)
    (hj : 0 ≤ j ∧ j + 1 < 2 ^ 60) (hr : j.toNat < s.right.length) :
    ∃ s', BipartiteMatch.take l j s = .ok (true, s') ∧ Represents graph s' (p.assign l j.toNat) := by
  refine ⟨{s with ret := s.ret.set l j, right := s.right.set j.toNat l}, ?_, ?_⟩
  · simp only [BipartiteMatch.take, toSize_of_accepted hj, writeAt_of_lt j (h.ret_length.symm ▸ hl),
      writeAt_of_lt (l : ℤ) hr]
    rfl
  · refine ⟨?_, h.visited_length, fun k r hk => ?_, h.visited, fun r hr' => ?_, fun k hk => ?_,
      fun r k hk => ?_⟩
    · rw [List.length_set, h.ret_length]
    · rw [List.length_set]
      exact h.right_covers k r hk
    · rw [List.length_set] at hr'
      by_cases heq : j.toNat = r
      · subst heq
        rw [List.getElem?_set_self hr']
        simp [Progress.assign, entry]
      · rw [List.getElem?_set_ne heq, h.right r hr']
        simp only [Progress.assign, Function.update_of_ne (fun h' : r = j.toNat => heq h'.symm)]
    · by_cases heq : l = k
      · subst heq
        rw [List.getElem?_set_self (h.ret_length.symm ▸ hk)]
        simp only [Progress.assign, Function.update_self, entry]
        rw [Int.toNat_of_nonneg hj.1]
      · rw [List.getElem?_set_ne heq, h.ret k hk]
        simp only [Progress.assign, Function.update_of_ne (fun h' : k = l => heq h'.symm)]
    · by_cases heq : r = j.toNat
      · subst heq
        simp only [Progress.assign, Function.update_self, Option.some.injEq] at hk
        exact hk ▸ hl
      · simp only [Progress.assign, Function.update_of_ne heq] at hk
        exact h.owner_lt r k hk

/-- The code returns what the search says, unless that has come to an index beyond `visited`. -/
def Outcome (graph : List (List ℤ)) (q : Progress ℕ ℕ) (found : Bool)
    (result : Except Stop (Bool × State)) : Prop :=
  ((∀ r ∈ q.looked, r < graph.length) ∧ ∃ s', result = .ok (found, s') ∧ Represents graph s' q) ∨
    ((∃ r ∈ q.looked, graph.length ≤ r) ∧ result = .error .outOfBounds)

theorem looked_mark_lt (hp : ∀ r ∈ p.looked, r < graph.length) {r' : ℕ} (hr' : r' < graph.length) :
    ∀ r ∈ (p.mark r').looked, r < graph.length := by
  intro r hr
  rcases Finset.mem_insert.mp hr with rfl | hr
  · exact hr'
  · exact hp r hr

/-- The loop comes to a node that is not marked. -/
theorem Represents.scan_unmarked (h : Represents graph s p)
    {search : ℕ → State → Except Stop (Bool × State)} {l : ℕ} {j : ℤ} {edges : List ℤ}
    (hj : 0 ≤ j ∧ j + 1 < 2 ^ 60) (hlt : j.toNat < graph.length) (hr : j.toNat < s.right.length)
    (hnot : j.toNat ∉ p.visited) :
    scan search l (j :: edges) s =
      if entry (p.owner j.toNat) = -1 then
        BipartiteMatch.take l j {s with visited := s.visited.set j.toNat true}
      else search (toUnsigned (entry (p.owner j.toNat)))
          {s with visited := s.visited.set j.toNat true} >>= fun t =>
        if t.1 = true then BipartiteMatch.take l j t.2 else scan search l edges t.2 := by
  rw [scan, toSize_of_accepted hj, readAt_of_some (h.visited _ hlt), decide_eq_false hnot,
    writeAt_of_lt true (h.visited_length.symm ▸ hlt), readAt_of_some (h.right _ hr)]
  rfl

/-- The loop comes to an index beyond `visited`. -/
theorem Represents.scan_beyond (h : Represents graph s p)
    {search : ℕ → State → Except Stop (Bool × State)} {l : ℕ} {j : ℤ} {edges : List ℤ}
    (hj : 0 ≤ j ∧ j + 1 < 2 ^ 60) (hge : graph.length ≤ j.toNat) :
    scan search l (j :: edges) s = .error .outOfBounds := by
  rw [scan, toSize_of_accepted hj, readAt_of_length_le (h.visited_length.symm ▸ hge)]
  rfl

theorem dfs_succ {fuel k : ℕ} (hk : k < graph.length) (s : State) :
    dfs graph (fuel + 1) k s = scan (dfs graph fuel) k (graph.getD k []) s := by
  rw [dfs, readAt_of_lt hk]
  rfl

/-- A search of the code is the search over the graph. -/
theorem scan_outcome (hn : graph.length < 2 ^ 32) (haccepted : Accepted graph) {l : ℕ}
    {rest : List ℕ} {found : Bool} (h : Scan (neighbours graph) l rest p found q)
    (hl : l < graph.length) {edges : List ℤ} (hedges : ∀ j ∈ edges, j ∈ graph.getD l [])
    (hrest : edges.map Int.toNat = rest) :
    ∃ bound, ∀ fuel, bound ≤ fuel → ∀ s, Represents graph s p →
      (∀ r ∈ p.looked, r < graph.length) → Outcome graph q found (scan (dfs graph fuel) l edges s) := by
  induction h generalizing edges with
  | exhausted l p =>
      obtain rfl := List.map_eq_nil_iff.mp hrest
      exact ⟨0, fun fuel _ s hs hp => .inl ⟨hp, s, rfl, hs⟩⟩
  | @skipped l r rest p q found hvisited hscan ih =>
      obtain ⟨j, edges, rfl, rfl, rfl⟩ := List.map_eq_cons_iff.mp hrest
      have hj := haccepted.getD (hedges j (List.mem_cons_self ..))
      obtain ⟨bound, hbound⟩ := ih hl (fun k hk => hedges k (List.mem_cons_of_mem j hk)) rfl
      refine ⟨bound, fun fuel hfuel s hs hp => ?_⟩
      rcases Nat.lt_or_ge j.toNat graph.length with hlt | hge
      · rw [scan, toSize_of_accepted hj, readAt_of_some (hs.visited _ hlt), decide_eq_true hvisited]
        exact hbound fuel hfuel s (hs.look _) (looked_mark_lt hp hlt)
      · rw [hs.scan_beyond hj hge]
        exact .inr ⟨⟨_, hscan.looked_subset (Finset.mem_insert_self _ _), hge⟩, rfl⟩
  | @free l r rest p hnot howner =>
      obtain ⟨j, edges, rfl, rfl, rfl⟩ := List.map_eq_cons_iff.mp hrest
      have hmem := hedges j (List.mem_cons_self ..)
      have hj := haccepted.getD hmem
      refine ⟨0, fun fuel _ s hs hp => ?_⟩
      have hright := hs.right_covers l j.toNat (List.mem_map_of_mem hmem)
      rcases Nat.lt_or_ge j.toNat graph.length with hlt | hge
      · obtain ⟨s', htake, hs'⟩ := (hs.mark j.toNat).take hl hj hright
        rw [hs.scan_unmarked hj hlt hright hnot, howner, if_pos (show entry none = -1 from rfl)]
        exact .inl ⟨looked_mark_lt hp hlt, s', htake, hs'⟩
      · rw [hs.scan_beyond hj hge]
        exact .inr ⟨⟨_, Finset.mem_insert_self _ _, hge⟩, rfl⟩
  | @moved l k r rest p q hnot howner hscan ih =>
      obtain ⟨j, edges, rfl, rfl, rfl⟩ := List.map_eq_cons_iff.mp hrest
      have hmem := hedges j (List.mem_cons_self ..)
      have hj := haccepted.getD hmem
      by_cases hk : k < graph.length
      · obtain ⟨bound, hbound⟩ := ih hk (fun j hj => hj) rfl
        refine ⟨bound + 1, fun fuel hfuel s hs hp => ?_⟩
        obtain ⟨fuel, rfl⟩ := Nat.exists_eq_add_of_le' (Nat.le_of_add_left_le hfuel)
        have hright := hs.right_covers l j.toNat (List.mem_map_of_mem hmem)
        rcases Nat.lt_or_ge j.toNat graph.length with hlt | hge
        · rw [hs.scan_unmarked hj hlt hright hnot, howner, if_neg (entry_ne_neg_one k), entry,
            toUnsigned_natCast (hk.trans hn), dfs_succ hk]
          rcases hbound fuel (by omega) _ (hs.mark j.toNat) (looked_mark_lt hp hlt) with
            ⟨hlooked, s', hok, hs'⟩ | ⟨hlooked, herror⟩
          · obtain ⟨s'', htake, hs''⟩ := hs'.take hl hj (hs'.right_covers l _ (List.mem_map_of_mem hmem))
            rw [hok]
            exact .inl ⟨hlooked, s'', htake, hs''⟩
          · rw [herror]
            exact .inr ⟨hlooked, rfl⟩
        · rw [hs.scan_beyond hj hge]
          exact .inr ⟨⟨_, hscan.looked_subset (Finset.mem_insert_self _ _), hge⟩, rfl⟩
      · exact ⟨0, fun fuel _ s hs _ => absurd (hs.owner_lt _ k howner) hk⟩
  | @stuck l k r rest p t q found hnot howner hscan hscan' ihk ih =>
      obtain ⟨j, edges, rfl, rfl, rfl⟩ := List.map_eq_cons_iff.mp hrest
      have hmem := hedges j (List.mem_cons_self ..)
      have hj := haccepted.getD hmem
      by_cases hk : k < graph.length
      · obtain ⟨boundk, hboundk⟩ := ihk hk (fun j hj => hj) rfl
        obtain ⟨bound, hbound⟩ := ih hl (fun k hk => hedges k (List.mem_cons_of_mem j hk)) rfl
        refine ⟨max boundk bound + 1, fun fuel hfuel s hs hp => ?_⟩
        obtain ⟨fuel, rfl⟩ := Nat.exists_eq_add_of_le' (Nat.le_of_add_left_le hfuel)
        have hright := hs.right_covers l j.toNat (List.mem_map_of_mem hmem)
        rcases Nat.lt_or_ge j.toNat graph.length with hlt | hge
        · rw [hs.scan_unmarked hj hlt hright hnot, howner, if_neg (entry_ne_neg_one k), entry,
            toUnsigned_natCast (hk.trans hn), dfs_succ hk]
          rcases hboundk fuel (by omega) _ (hs.mark j.toNat) (looked_mark_lt hp hlt) with
            ⟨hlooked, s', hok, hs'⟩ | ⟨⟨r, hr, hge⟩, herror⟩
          · rw [hok]
            exact hbound (fuel + 1) (by omega) s' hs' hlooked
          · rw [herror]
            exact .inr ⟨⟨r, hscan'.looked_subset hr, hge⟩, rfl⟩
        · rw [hs.scan_beyond hj hge]
          exact .inr ⟨⟨_, hscan'.looked_subset (hscan.looked_subset (Finset.mem_insert_self _ _)), hge⟩,
            rfl⟩
      · exact ⟨0, fun fuel _ s hs _ => absurd (hs.owner_lt _ k howner) hk⟩

/-! ## The loops over the nodes on the left -/

theorem checkEdges_ok {edges : List ℤ} (hedges : ∀ j ∈ edges, 0 ≤ j ∧ j + 1 < 2 ^ 60) {right : List ℤ}
    (hright : ∀ x ∈ right, x = -1) :
    ∃ right', checkEdges edges right = .ok right' ∧ (∀ x ∈ right', x = -1) ∧
      right.length ≤ right'.length ∧ ∀ j ∈ edges, j.toNat < right'.length := by
  induction edges generalizing right with
  | nil => exact ⟨right, rfl, hright, le_refl _, nofun⟩
  | cons j rest ih =>
      obtain ⟨hj, hsmall⟩ := hedges j (List.mem_cons_self ..)
      have hrest := fun k hk => hedges k (List.mem_cons_of_mem j hk)
      have hsize : toSize j = j.toNat := toSize_of_accepted ⟨hj, hsmall⟩
      rw [checkEdges, if_neg (not_lt.mpr hj), hsize]
      by_cases hlength : right.length ≤ j.toNat
      · have hsize' : toSize (j + 1) = j.toNat + 1 := by
          unfold toSize
          omega
        have hresize : resize right j = .ok (right ++ List.replicate (j.toNat + 1 - right.length) (-1)) := by
          rw [resize, if_neg (by omega), if_neg (by omega), hsize']
        have hgrown : ∀ x ∈ right ++ List.replicate (j.toNat + 1 - right.length) (-1), x = -1 := fun x hx =>
          (List.mem_append.mp hx).elim (hright x) List.eq_of_mem_replicate
        obtain ⟨right', hok, hall, hle, hcovers⟩ := ih hrest hgrown
        rw [List.length_append, List.length_replicate] at hle
        rw [if_pos hlength, hresize]
        refine ⟨right', hok, hall, by omega, fun k hk => ?_⟩
        rcases List.mem_cons.mp hk with rfl | hk
        · omega
        · exact hcovers k hk
      · obtain ⟨right', hok, hall, hle, hcovers⟩ := ih hrest hright
        rw [if_neg hlength]
        refine ⟨right', hok, hall, hle, fun k hk => ?_⟩
        rcases List.mem_cons.mp hk with rfl | hk
        · omega
        · exact hcovers k hk

theorem checkNode_ok (haccepted : Accepted graph) {i : ℕ} (hi : i < graph.length) {right : List ℤ}
    (hright : ∀ x ∈ right, x = -1) :
    ∃ right', checkNode graph i right = .ok right' ∧ (∀ x ∈ right', x = -1) ∧
      right.length ≤ right'.length ∧ ∀ r ∈ neighbours graph i, r < right'.length := by
  obtain ⟨right', hok, hall, hle, hcovers⟩ := checkEdges_ok (fun j hj => haccepted.getD hj) hright
  refine ⟨right', ?_, hall, hle, fun r hr => ?_⟩
  · rw [checkNode, readAt_of_lt hi]
    exact hok
  · obtain ⟨j, hj, rfl⟩ := List.mem_map.mp hr
    exact hcovers j hj

/-- The first loop makes room for every node on the right. -/
theorem check_outcome (hn : graph.length < 2 ^ 32) (haccepted : Accepted graph) {fuel : ℕ}
    (hfuel : graph.length < fuel) :
    ∃ right, countedLoop .running 32 1 graph.length (fun _ => true) (checkNode graph) fuel 0 [] = .ok right ∧
      (∀ x ∈ right, x = -1) ∧ ∀ l, ∀ r ∈ neighbours graph l, r < right.length := by
  let I : ℕ → List ℤ → Prop := fun i right =>
    (∀ x ∈ right, x = -1) ∧ ∀ l < i, ∀ r ∈ neighbours graph l, r < right.length
  have hstart : I 0 [] := ⟨nofun, nofun⟩
  have hbody : ∀ i right right', i < graph.length → true = true → I i right →
      checkNode graph i right = .ok right' → I (i + 1) right' := by
    intro i right right' hi _ hright hstep
    obtain ⟨right'', hok, hall, hle, hcovers⟩ := checkNode_ok haccepted hi hright.1
    obtain rfl := Except.ok.inj (hstep.symm.trans hok)
    refine ⟨hall, fun l hl r hr => ?_⟩
    rcases Nat.lt_succ_iff_lt_or_eq.mp hl with hl | rfl
    · exact Nat.lt_of_lt_of_le (hright.2 l hl r hr) hle
    · exact hcovers r hr
  cases hloop : countedLoop .running 32 1 graph.length (fun _ => true) (checkNode graph) fuel 0 [] with
  | error e =>
      obtain ⟨i, right, hi, -, hright, herror⟩ := countedLoop_error_of_fuel (by omega) Nat.one_pos I hbody
        hstart hfuel hloop
      obtain ⟨right', hok, -⟩ := checkNode_ok haccepted hi hright.1
      rw [hok] at herror
      cases herror
  | ok right =>
      obtain ⟨i, ⟨hall, hcovers⟩, hend⟩ := countedLoop_ok (by omega) I hbody hstart hloop
      refine ⟨right, rfl, hall, fun l r hr => ?_⟩
      rcases Nat.lt_or_ge l graph.length with hl | hl
      · exact hcovers l (Nat.lt_of_lt_of_le hl (hend.resolve_left (by simp))) r hr
      · rw [neighbours, List.getD_eq_default graph [] hl] at hr
        cases hr

theorem Represents.clear (h : Represents graph s p) :
    Represents graph {s with visited := List.replicate s.visited.length false} p.clear := by
  refine ⟨h.ret_length, ?_, h.right_covers, fun r hr => ?_, h.right, h.ret, h.owner_lt⟩
  · rw [List.length_replicate, h.visited_length]
  · rw [List.getElem?_replicate, if_pos (h.visited_length.symm ▸ hr)]
    simp [Progress.clear]

/-- The second loop makes one search after the other. -/
theorem searches_outcome (hn : graph.length < 2 ^ 32) (haccepted : Accepted graph) {roots : List ℕ}
    (h : Searches (neighbours graph) roots p q) {i : ℕ}
    (hroots : roots = List.range' i (graph.length - i)) :
    ∃ bound, ∀ fuel, bound ≤ fuel → ∀ depth, bound ≤ depth → ∀ s, Represents graph s p →
      (∀ r ∈ p.looked, r < graph.length) →
      ((∀ r ∈ q.looked, r < graph.length) ∧ ∃ s',
        countedLoop .running 32 1 graph.length (fun _ => true) (searchFrom graph depth) fuel i s = .ok s' ∧
          Represents graph s' q) ∨
      ((∃ r ∈ q.looked, graph.length ≤ r) ∧
        countedLoop .running 32 1 graph.length (fun _ => true) (searchFrom graph depth) fuel i s =
          .error .outOfBounds) := by
  induction h generalizing i with
  | done p =>
      have hi : ¬ i < graph.length := by
        have hlength := congrArg List.length hroots
        rw [List.length_nil, List.length_range'] at hlength
        omega
      refine ⟨1, fun fuel hfuel depth _ s hs hp => .inl ⟨hp, s, ?_, hs⟩⟩
      obtain ⟨fuel, rfl⟩ := Nat.exists_eq_add_of_le' hfuel
      rw [countedLoop_succ, if_neg fun h => hi h.2]
  | @next l rest p t q found hscan hrest ih =>
      have hi : i < graph.length := by
        have hlength := congrArg List.length hroots
        rw [List.length_cons, List.length_range'] at hlength
        omega
      obtain ⟨k, hk⟩ : ∃ k, graph.length - i = k + 1 := ⟨graph.length - i - 1, by omega⟩
      rw [hk, List.range'_succ, List.cons.injEq] at hroots
      obtain ⟨rfl, rfl⟩ := hroots
      obtain ⟨bound, hbound⟩ := scan_outcome hn haccepted hscan hi (fun j hj => hj) rfl
      obtain ⟨bound', hbound'⟩ := ih (i := l + 1) (by rw [show graph.length - (l + 1) = k by omega])
      refine ⟨max bound bound' + 1, fun fuel hfuel depth hdepth s hs hp => ?_⟩
      obtain ⟨fuel, rfl⟩ := Nat.exists_eq_add_of_le' (Nat.le_of_add_left_le hfuel)
      obtain ⟨depth, rfl⟩ := Nat.exists_eq_add_of_le' (Nat.le_of_add_left_le hdepth)
      have hwrap : (l + 1) % 2 ^ 32 = l + 1 := Nat.mod_eq_of_lt (by omega)
      rw [countedLoop_succ, if_pos ⟨rfl, hi⟩, hwrap, searchFrom, dfs_succ hi]
      rcases hbound depth (by omega) _ hs.clear hp with ⟨hlooked, s', hok, hs'⟩ | ⟨⟨r, hr, hge⟩, herror⟩
      · rw [hok]
        exact hbound' fuel (by omega) (depth + 1) (by omega) s' hs' hlooked
      · rw [herror]
        exact .inr ⟨⟨r, hrest.looked_subset hr, hge⟩, rfl⟩

/-- No node is paired, and no search was made. -/
def start : Progress ℕ ℕ := {owner := fun _ => none, mate := fun _ => none, visited := ∅, looked := ∅}

/-- A call returns the pairs of the searches over the graph, unless these come to an index beyond
`visited`. -/
theorem bipartiteMatch_outcome (hn : graph.length < 2 ^ 32) (haccepted : Accepted graph)
    (h : Searches (neighbours graph) (List.range graph.length) start q) :
    ∃ bound, ∀ fuel, bound ≤ fuel →
      ((∀ r ∈ q.looked, r < graph.length) ∧ ∃ s, bipartiteMatch fuel graph = .ok s.ret ∧
        Represents graph s q) ∨
      ((∃ r ∈ q.looked, graph.length ≤ r) ∧ bipartiteMatch fuel graph = .error .outOfBounds) := by
  obtain ⟨bound, hbound⟩ := searches_outcome hn haccepted h (i := 0) (by rw [List.range_eq_range', Nat.sub_zero])
  refine ⟨max bound (graph.length + 1), fun fuel hfuel => ?_⟩
  obtain ⟨right, hcheck, hall, hcovers⟩ := check_outcome hn haccepted (show graph.length < fuel by omega)
  have hstart : Represents graph
      ⟨List.replicate graph.length (-1), right, List.replicate graph.length false⟩ start := by
    refine ⟨List.length_replicate, List.length_replicate, hcovers, fun r hr => ?_, fun r hr => ?_,
      fun l hl => ?_, nofun⟩
    · rw [List.getElem?_replicate, if_pos hr]
      simp [start]
    · rw [List.getElem?_eq_getElem hr, hall _ (List.getElem_mem hr)]
      rfl
    · rw [List.getElem?_replicate, if_pos hl]
      rfl
  simp only [bipartiteMatch, hcheck, bind, Except.bind]
  rcases hbound fuel (by omega) fuel (by omega) _ hstart nofun with ⟨hlooked, s, hok, hs⟩ | ⟨hlooked, herror⟩
  · rw [hok]
    exact .inl ⟨hlooked, s, rfl, hs⟩
  · rw [herror]
    exact .inr ⟨hlooked, rfl⟩

/-! ## More depth changes nothing -/

theorem scan_mono {search search' : ℕ → State → Except Stop (Bool × State)}
    (hsearch : ∀ k s r, search k s = r → r ≠ .error .running → search' k s = r) {l : ℕ}
    {edges : List ℤ} {s : State} {r : Except Stop (Bool × State)} (h : scan search l edges s = r)
    (hr : r ≠ .error .running) : scan search' l edges s = r := by
  induction edges generalizing s with
  | nil => exact h
  | cons j rest ih =>
      rw [scan] at h ⊢
      cases hseen : readAt s.visited (toSize j) with
      | error e => rwa [hseen] at h
      | ok seen =>
          rw [hseen] at h
          cases seen with
          | true => exact ih h
          | false =>
              cases hmark : writeAt s.visited (toSize j) true with
              | error e => rwa [hmark] at h
              | ok visited =>
                  cases howner : readAt s.right (toSize j) with
                  | error e => rwa [hmark, howner] at h
                  | ok owner =>
                      rw [hmark, howner] at h
                      simp only [bind, Except.bind, Bool.false_eq_true, if_false] at h ⊢
                      by_cases hfree : owner = -1
                      · rwa [if_pos hfree] at h ⊢
                      · rw [if_neg hfree] at h ⊢
                        cases hfound : search (toUnsigned owner) {s with visited := visited} with
                        | error e =>
                            rw [hfound] at h
                            subst h
                            rw [hsearch _ _ _ hfound hr]
                        | ok t =>
                            rw [hfound] at h
                            rw [hsearch _ _ _ hfound nofun]
                            simp only at h ⊢
                            by_cases ht : t.1 = true
                            · rwa [if_pos ht] at h ⊢
                            · rw [if_neg ht] at h ⊢
                              exact ih h

theorem dfs_mono {fuel fuel' : ℕ} (hfuel : fuel ≤ fuel') {k : ℕ} {s : State}
    {r : Except Stop (Bool × State)} (h : dfs graph fuel k s = r) (hr : r ≠ .error .running) :
    dfs graph fuel' k s = r := by
  induction fuel generalizing fuel' k s r with
  | zero => exact absurd h.symm hr
  | succ fuel ih =>
      obtain ⟨fuel', rfl⟩ := Nat.exists_eq_add_of_le' (Nat.le_of_add_left_le hfuel)
      rw [dfs] at h ⊢
      cases hread : readAt graph k with
      | error e => rwa [hread] at h
      | ok edges =>
          rw [hread] at h
          exact scan_mono (fun k s r h hr => ih (Nat.le_of_succ_le_succ hfuel) h hr) h hr

theorem searchFrom_mono {fuel fuel' : ℕ} (hfuel : fuel ≤ fuel') {i : ℕ} {s : State}
    {r : Except Stop State} (h : searchFrom graph fuel i s = r) (hr : r ≠ .error .running) :
    searchFrom graph fuel' i s = r := by
  rw [searchFrom] at h ⊢
  cases hdfs : dfs graph fuel i {s with visited := List.replicate s.visited.length false} with
  | error e =>
      rw [hdfs] at h
      subst h
      have hne : (.error e : Except Stop (Bool × State)) ≠ .error .running := by
        intro he
        cases he
        exact hr rfl
      rw [dfs_mono hfuel hdfs hne]
  | ok t =>
      rw [hdfs] at h
      rw [dfs_mono hfuel hdfs nofun]
      exact h

theorem bipartiteMatch_mono {fuel fuel' : ℕ} (hfuel : fuel ≤ fuel') {r : Except Stop (List ℤ)}
    (h : bipartiteMatch fuel graph = r) (hr : r ≠ .error .running) : bipartiteMatch fuel' graph = r := by
  have hloops : ∀ {σ : Type} {e : Stop}, (.error e : Except Stop (List ℤ)) ≠ .error .running →
      (.error e : Except Stop σ) ≠ .error .running := by
    intro σ e he h
    cases h
    exact he rfl
  simp only [bipartiteMatch, bind, Except.bind] at h ⊢
  cases hcheck : countedLoop .running 32 1 graph.length (fun _ => true) (checkNode graph) fuel 0 [] with
  | error e =>
      rw [hcheck] at h
      subst h
      rw [countedLoop_mono (fun _ _ _ h _ => h) hfuel hcheck (hloops hr)]
  | ok right =>
      rw [hcheck] at h
      rw [countedLoop_mono (fun _ _ _ h _ => h) hfuel hcheck nofun]
      simp only at h ⊢
      cases hsearch : countedLoop .running 32 1 graph.length (fun _ => true) (searchFrom graph fuel) fuel 0
          ⟨List.replicate graph.length (-1), right, List.replicate graph.length false⟩ with
      | error e =>
          rw [hsearch] at h
          subst h
          rw [countedLoop_mono (fun _ _ _ h hr => searchFrom_mono hfuel h hr) hfuel hsearch (hloops hr)]
      | ok s =>
          rw [hsearch] at h
          rw [countedLoop_mono (fun _ _ _ h hr => searchFrom_mono hfuel h hr) hfuel hsearch nofun]
          exact h

/-! ## The matching is maximum -/

/-- What a result says: each node on the left has `-1` or one of its neighbours, and no node on the
right is used twice. -/
structure Matches (graph : List (List ℤ)) (r : List ℤ) : Prop where
  length_eq : r.length = graph.length
  edge : ∀ i < graph.length, r.getD i (-1) = -1 ∨ r.getD i (-1) ∈ graph.getD i []
  once : ∀ i < graph.length, ∀ j < graph.length, r.getD i (-1) = r.getD j (-1) →
    r.getD i (-1) ≠ -1 → i = j

/-- The number of nodes on the left that are matched. -/
def matched (r : List ℤ) : ℕ := r.countP (· ≠ -1)

def Returns (graph : List (List ℤ)) (r : List ℤ) : Prop := ∃ fuel, bipartiteMatch fuel graph = .ok r

/-- The call returns, and what it returns is a matching with as many pairs as can be. -/
structure FindsMaximum (graph : List (List ℤ)) : Prop where
  returns : ∃ r, Returns graph r
  matching : ∀ r, Returns graph r → Matches graph r
  maximum : ∀ r, Returns graph r → ∀ r', Matches graph r' → matched r' ≤ matched r

/-- A result as a table. -/
def tableOf (r : List ℤ) (l : ℕ) : Option ℕ :=
  if r.getD l (-1) = -1 then none else some (r.getD l (-1)).toNat

theorem tableOf_isSome (r : List ℤ) (l : ℕ) : (tableOf r l).isSome = decide (r.getD l (-1) ≠ -1) := by
  unfold tableOf
  by_cases h : r.getD l (-1) = -1
  · rw [if_pos h, h]
    rfl
  · rw [if_neg h, decide_eq_true h]
    rfl

theorem matched_eq_card (r : List ℤ) :
    matched r = ((Finset.range r.length).filter fun l => (tableOf r l).isSome).card := by
  have hmap : r = (List.range r.length).map fun l => r.getD l (-1) := by
    refine List.ext_getElem (by simp) fun l hl _ => ?_
    rw [List.getElem_map, List.getElem_range, List.getD_eq_getElem r (-1) hl]
  calc matched r
      = ((List.range r.length).map fun l => r.getD l (-1)).countP (· ≠ -1) := by rw [← hmap, matched]
    _ = (List.range r.length).countP fun l => (tableOf r l).isSome := by
        rw [List.countP_map]
        exact List.countP_congr fun l _ => by rw [tableOf_isSome]; rfl
    _ = ((Finset.range r.length).filter fun l => (tableOf r l).isSome).card := by
        rw [List.countP_eq_length_filter,
          ← List.toFinset_card_of_nodup (List.nodup_range.filter _)]
        congr 1
        ext l
        simp

/-- A matching of the input is a matching of the graph. -/
theorem Matches.isMatching (haccepted : Accepted graph) {r : List ℤ} (h : Matches graph r) :
    IsMatching (neighbours graph) (tableOf r) := by
  have hcases : ∀ l k, tableOf r l = some k →
      l < graph.length ∧ r.getD l (-1) = (k : ℤ) ∧ r.getD l (-1) ∈ graph.getD l [] := by
    intro l k hl
    unfold tableOf at hl
    split_ifs at hl with hnone
    have hlt : l < graph.length := by
      by_contra hge
      exact hnone (List.getD_eq_default r (-1) (by rw [h.length_eq]; omega))
    have hmem := (h.edge l hlt).resolve_left hnone
    refine ⟨hlt, ?_, hmem⟩
    rw [← Option.some.inj hl, Int.toNat_of_nonneg (haccepted.getD hmem).1]
  refine ⟨fun l k hl => ?_, fun l l' k hl hl' => ?_⟩
  · obtain ⟨-, hval, hmem⟩ := hcases l k hl
    refine List.mem_map.mpr ⟨_, hmem, ?_⟩
    rw [hval, Int.toNat_natCast]
  · obtain ⟨hlt, hval, -⟩ := hcases l k hl
    obtain ⟨hlt', hval', -⟩ := hcases l' k hl'
    refine h.once l hlt l' hlt' (hval.trans hval'.symm) ?_
    rw [hval]
    omega

theorem Represents.getD_ret (h : Represents graph s q) {l : ℕ} (hl : l < graph.length) :
    s.ret.getD l (-1) = entry (q.mate l) := by
  rw [List.getD_eq_getElem?_getD, h.ret l hl]
  rfl

theorem Represents.tableOf_ret (h : Represents graph s q) {l : ℕ} (hl : l < graph.length) :
    tableOf s.ret l = q.mate l := by
  unfold tableOf
  rw [h.getD_ret hl]
  cases q.mate l with
  | none => rfl
  | some k => rw [if_neg (entry_ne_neg_one k), entry, Int.toNat_natCast]

/-- The vector of a matching of the graph. -/
theorem Represents.matches (haccepted : Accepted graph) (h : Represents graph s q)
    (hq : Paired (neighbours graph) q) : Matches graph s.ret := by
  refine ⟨h.ret_length, fun l hl => ?_, fun l hl l' hl' heq hne => ?_⟩
  · rw [h.getD_ret hl]
    cases hmate : q.mate l with
    | none => exact .inl rfl
    | some k =>
        obtain ⟨j, hj, rfl⟩ := List.mem_map.mp (hq.edge l k hmate)
        refine .inr ?_
        rwa [entry, Int.toNat_of_nonneg (haccepted.getD hj).1]
  · rw [h.getD_ret hl] at heq hne
    rw [h.getD_ret hl'] at heq
    cases hmate : q.mate l with
    | none =>
        rw [hmate] at hne
        exact absurd rfl hne
    | some k =>
        cases hmate' : q.mate l' with
        | none =>
            rw [hmate, hmate'] at heq
            exact absurd heq (entry_ne_neg_one k)
        | some k' =>
            rw [hmate, hmate'] at heq
            obtain rfl : k = k' := Int.natCast_inj.mp heq
            exact hq.isMatching.injective l l' k hmate hmate'

theorem exists_searches (graph : List (List ℤ)) :
    ∃ q, Searches (neighbours graph) (List.range graph.length) start q := by
  refine Searches.exists_of_subset (graph.flatten.map Int.toNat).toFinset (fun l r hr => ?_) _ _
  obtain ⟨j, hj, rfl⟩ := List.mem_map.mp hr
  rcases Nat.lt_or_ge l graph.length with hl | hl
  · rw [List.getD_eq_getElem graph [] hl] at hj
    exact List.mem_toFinset.mpr (List.mem_map_of_mem
      (List.mem_flatten.mpr ⟨_, List.getElem_mem hl, hj⟩))
  · rw [List.getD_eq_default graph [] hl] at hj
    cases hj

theorem certified_start : Certified (neighbours graph) ∅ start :=
  ⟨⟨fun _ _ => ⟨nofun, nofun⟩, nofun⟩, nofun, ∅, nofun, nofun⟩

theorem certified_of_searches (h : Searches (neighbours graph) (List.range graph.length) start q) :
    Certified (neighbours graph) (Finset.range graph.length) q := by
  have hcert := certified_start.searches (fun _ _ => Finset.notMem_empty _) List.nodup_range h
  have hroots : (List.range graph.length).toFinset = Finset.range graph.length := by
    ext l
    simp
  rwa [Finset.empty_union, hroots] at hcert

/-- The only nodes that the searches come to are neighbours. -/
theorem looked_lt (hrange : ∀ edges ∈ graph, ∀ j ∈ edges, 0 ≤ j ∧ j < graph.length)
    (h : Searches (neighbours graph) (List.range graph.length) start q) :
    ∀ r ∈ q.looked, r < graph.length := by
  intro r hr
  rcases h.looked_mem hr with hstart | ⟨l, hl⟩
  · cases hstart
  · obtain ⟨j, hj, rfl⟩ := List.mem_map.mp hl
    rcases Nat.lt_or_ge l graph.length with hlt | hge
    · rw [List.getD_eq_getElem graph [] hlt] at hj
      have := hrange _ (List.getElem_mem hlt) j hj
      omega
    · rw [List.getD_eq_default graph [] hge] at hj
      cases hj

/-- A call returns only if the loops can count the nodes on the left. -/
theorem Returns.length_lt {r : List ℤ} (h : Returns graph r) : graph.length < 2 ^ 32 := by
  obtain ⟨fuel, hrun⟩ := h
  by_contra hge
  simp only [bipartiteMatch, bind, Except.bind] at hrun
  split at hrun
  next => cases hrun
  next right hcheck =>
    exact countedLoop_ne_ok (Nat.not_lt.mp hge) (fun _ => rfl) fuel (Nat.two_pow_pos 32) _ _ hcheck

/-- The matching is found if and only if the counters of the loops can count the nodes on the left. -/
theorem bipartite_match_maximum (hrange : ∀ edges ∈ graph, ∀ j ∈ edges, 0 ≤ j ∧ j < graph.length) :
    FindsMaximum graph ↔ graph.length < 2 ^ 32 := by
  constructor
  · intro h
    obtain ⟨r, hr⟩ := h.returns
    exact hr.length_lt
  · intro hn
    have haccepted : Accepted graph := by
      intro edges hedges j hj
      have := hrange edges hedges j hj
      omega
    obtain ⟨q, hq⟩ := exists_searches graph
    obtain ⟨bound, hbound⟩ := bipartiteMatch_outcome hn haccepted hq
    have hcert := certified_of_searches hq
    have houtcome : ∀ fuel, bound ≤ fuel → ∃ s, bipartiteMatch fuel graph = .ok s.ret ∧
        Represents graph s q := by
      intro fuel hfuel
      rcases hbound fuel hfuel with ⟨-, h⟩ | ⟨⟨r, hr, hle⟩, -⟩
      · exact h
      · exact absurd (looked_lt hrange hq r hr) (Nat.not_lt.mpr hle)
    -- What a call returns is the vector of the pairs of the searches.
    have hreturns : ∀ r, Returns graph r → ∃ s, r = s.ret ∧ Represents graph s q := by
      rintro r ⟨fuel, hrun⟩
      obtain ⟨s, hs, hrep⟩ := houtcome (max bound fuel) (le_max_left _ _)
      rw [bipartiteMatch_mono (le_max_right _ _) hrun nofun] at hs
      exact ⟨s, Except.ok.inj hs, hrep⟩
    refine ⟨?_, fun r hr => ?_, fun r hr r' hr' => ?_⟩
    · obtain ⟨s, hs, -⟩ := houtcome bound (le_refl _)
      exact ⟨s.ret, bound, hs⟩
    · obtain ⟨s, rfl, hrep⟩ := hreturns r hr
      exact hrep.matches haccepted hcert.paired
    · obtain ⟨s, rfl, hrep⟩ := hreturns r hr
      have hcount : ∀ l ∈ Finset.range graph.length,
          ((tableOf s.ret l).isSome = true ↔ (q.mate l).isSome = true) := by
        intro l hl
        rw [hrep.tableOf_ret (Finset.mem_range.mp hl)]
      rw [matched_eq_card, matched_eq_card, hr'.length_eq, hrep.ret_length, Finset.filter_congr hcount]
      exact hcert.maximum (hr'.isMatching haccepted)

theorem bipartite_match_maximum_six :
    FindsMaximum [[1, 2], [], [0, 3], [2], [2, 3], [5]] ∧
      Returns [[1, 2], [], [0, 3], [2], [2, 3], [5]] [1, -1, 0, 2, 3, 5] :=
  ⟨(bipartite_match_maximum (by decide)).mpr (by decide), 20, by decide⟩

/-- The counters do not come to the end of `2 ^ 32` nodes. -/
theorem bipartite_match_not_returned :
    (∀ edges ∈ List.replicate (2 ^ 32) ([] : List ℤ), ∀ j ∈ edges,
      0 ≤ j ∧ j < (List.replicate (2 ^ 32) ([] : List ℤ)).length) ∧
      ¬ FindsMaximum (List.replicate (2 ^ 32) []) := by
  refine ⟨fun edges hedges j hj => ?_, fun h => ?_⟩
  · rw [List.eq_of_mem_replicate hedges] at hj
    cases hj
  · obtain ⟨r, hr⟩ := h.returns
    have hlt := hr.length_lt
    rw [List.length_replicate] at hlt
    exact Nat.lt_irrefl _ hlt

/-! ## Accesses outside the vectors -/

/-- No call makes an access outside a vector. -/
def InBounds (graph : List (List ℤ)) : Prop :=
  ∀ fuel, bipartiteMatch fuel graph ≠ .error .outOfBounds

/-- The check of the input makes none. -/
theorem check_inBounds (fuel : ℕ) :
    countedLoop .running 32 1 graph.length (fun _ => true) (checkNode graph) fuel 0 [] ≠
      .error .outOfBounds := by
  intro hloop
  rcases countedLoop_error_of_keeps (fun _ => True) (fun _ _ _ _ _ _ => trivial) trivial hloop with
    he | ⟨i, right, hi, -, -, herror⟩
  · cases he
  have hedges : ∀ edges right, checkEdges edges right ≠ .error .outOfBounds := by
    intro edges
    induction edges with
    | nil => nofun
    | cons j rest ih =>
        intro right
        rw [checkEdges]
        split_ifs
        · nofun
        · unfold resize
          split_ifs
          · nofun
          · nofun
          · exact ih _
        · exact ih _
  rw [checkNode, readAt_of_lt hi] at herror
  exact hedges _ _ herror

end Deai.BipartiteMatching
