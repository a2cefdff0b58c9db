import Deai.DifferenceConstraints
import Mathlib.Algebra.BigOperators.Group.Finset.Basic
import Mathlib.Algebra.Order.BigOperators.Group.Finset
import Mathlib.Algebra.Order.BigOperators.Group.List
import Mathlib.Algebra.Order.Ring.Nat
import Mathlib.Data.List.Induction

/-!
# Relaxation in the order of a queue

The queue is worked off in rounds: a round ends when the variables that were in the queue at its
start are out of it. After `k` rounds the values are no greater than what walks of `k` edges give,
and a round looks at every edge at most once. So the edges that the solver may look at are enough for
the rounds that a system with a solution needs.
-/
namespace Deai.Relaxation
open DifferenceConstraints DifferenceSystem CountedLoop

variable {E W : List (Edge ℕ ℤ)} {w : Edge ℕ ℤ} {n : ℕ} {s s' : State}

/-- What holds between two edges. An edge in `W` is still to be looked at. -/
structure Basic (n : ℕ) (E W : List (Edge ℕ ℤ)) (s : State) : Prop where
  nodup : s.queue.Nodup
  bound : ∀ i ∈ s.queue, i < n
  flags : ∀ i, s.isInqueue i = true ↔ i ∈ s.queue
  above : ∀ x, Satisfies E x → (∀ v, x v ≤ 0) → ∀ v, x v ≤ s.ret v
  nonpos : ∀ v, s.ret v ≤ 0
  tight : ∀ e ∈ E, e.source ∉ s.queue → e ∈ W ∨ s.ret e.target ≤ s.ret e.source + e.bound

/-- A value is made smaller, and its variable is in the queue then. -/
structure Lowered (w : Edge ℕ ℤ) (s s' : State) : Prop where
  greater : s.ret w.source + w.bound < s.ret w.target
  ret : s'.ret = Function.update s.ret w.target (s.ret w.source + w.bound)
  iter : s'.iter = s.iter
  flags : s'.isInqueue = Function.update s.isInqueue w.target true
  queue : w.target ∈ s.queue ∧ s'.queue = s.queue ∨
    w.target ∉ s.queue ∧ s'.queue = s.queue ++ [w.target]

theorem addInt64_ok {a b r : ℤ} (h : addInt64 a b = .ok r) : r = a + b := by
  unfold addInt64 at h
  split_ifs at h
  cases h
  rfl

theorem relax_cases (hflags : ∀ i, s.isInqueue i = true ↔ i ∈ s.queue)
    (hrelax : relax w.source w.target w.bound s = .ok s') :
    (s.ret w.target ≤ s.ret w.source + w.bound ∧ s' = s) ∨ Lowered w s s' := by
  unfold relax at hrelax
  cases hsum : addInt64 (s.ret w.source) w.bound with
  | error e =>
      rw [hsum] at hrelax
      cases hrelax
  | ok sum =>
      rw [hsum] at hrelax
      obtain rfl := addInt64_ok hsum
      simp only [bind, Except.bind] at hrelax
      by_cases hgreater : s.ret w.target > s.ret w.source + w.bound
      · rw [if_pos hgreater] at hrelax
        by_cases hqueued : s.isInqueue w.target = false
        · rw [if_pos hqueued] at hrelax
          cases hrelax
          refine .inr ⟨hgreater, rfl, rfl, rfl, .inr ⟨?_, rfl⟩⟩
          rw [← hflags, hqueued]
          exact Bool.false_ne_true
        · rw [if_neg hqueued] at hrelax
          cases hrelax
          have htrue : s.isInqueue w.target = true := Bool.eq_true_of_not_eq_false hqueued
          refine .inr ⟨hgreater, rfl, rfl, ?_, .inl ⟨(hflags _).mp htrue, rfl⟩⟩
          rw [← htrue]
          exact (Function.update_eq_self _ _).symm
      · rw [if_neg hgreater] at hrelax
        cases hrelax
        exact .inl ⟨not_lt.mp hgreater, rfl⟩

theorem Lowered.mem_queue (h : Lowered w s s') : w.target ∈ s'.queue := by
  rcases h.queue with ⟨hmem, hqueue⟩ | ⟨-, hqueue⟩
  · rw [hqueue]
    exact hmem
  · rw [hqueue]
    exact List.mem_append_right _ List.mem_cons_self

theorem Lowered.mem_of_mem (h : Lowered w s s') {i : ℕ} (hi : i ∈ s.queue) : i ∈ s'.queue := by
  rcases h.queue with ⟨-, hqueue⟩ | ⟨-, hqueue⟩
  · rw [hqueue]
    exact hi
  · rw [hqueue]
    exact List.mem_append_left _ hi

theorem Lowered.ret_le (h : Lowered w s s') (v : ℕ) : s'.ret v ≤ s.ret v := by
  rw [h.ret]
  by_cases hv : v = w.target
  · subst hv
    rw [Function.update_self]
    exact h.greater.le
  · rw [Function.update_of_ne hv]

theorem Lowered.ret_eq (h : Lowered w s s') {v : ℕ} (hv : v ∉ s'.queue) : s'.ret v = s.ret v := by
  rw [h.ret, Function.update_of_ne]
  rintro rfl
  exact hv h.mem_queue

theorem Basic.relax (h : Basic n E (w :: W) s) (hw : w ∈ E) (hbound : w.target < n)
    (hrelax : DifferenceConstraints.relax w.source w.target w.bound s = .ok s') :
    Basic n E W s' := by
  rcases relax_cases h.flags hrelax with ⟨hle, rfl⟩ | hlow
  · refine {h with tight := ?_}
    intro e he hsource
    rcases h.tight e he hsource with hmem | htight
    · rcases List.mem_cons.mp hmem with rfl | hmem
      · exact .inr hle
      · exact .inl hmem
    · exact .inr htight
  · refine ⟨?_, ?_, ?_, ?_, ?_, ?_⟩
    · rcases hlow.queue with ⟨-, hqueue⟩ | ⟨hnot, hqueue⟩
      · rw [hqueue]
        exact h.nodup
      · rw [hqueue]
        exact List.nodup_append.mpr ⟨h.nodup, List.nodup_singleton _, by
          intro a ha b hb
          rw [List.mem_singleton.mp hb]
          rintro rfl
          exact hnot ha⟩
    · intro i hi
      rcases hlow.queue with ⟨-, hqueue⟩ | ⟨-, hqueue⟩
      · exact h.bound i (hqueue ▸ hi)
      · rw [hqueue, List.mem_append, List.mem_singleton] at hi
        rcases hi with hi | rfl
        · exact h.bound i hi
        · exact hbound
    · intro i
      rw [hlow.flags]
      by_cases hi : i = w.target
      · subst hi
        simp [hlow.mem_queue]
      · rw [Function.update_of_ne hi, h.flags]
        rcases hlow.queue with ⟨-, hqueue⟩ | ⟨-, hqueue⟩
        · rw [hqueue]
        · simp [hqueue, hi]
    · intro x hx hnonpos v
      rw [hlow.ret]
      by_cases hv : v = w.target
      · subst hv
        rw [Function.update_self]
        have hsource := h.above x hx hnonpos w.source
        have hedge := hx w hw
        omega
      · rw [Function.update_of_ne hv]
        exact h.above x hx hnonpos v
    · exact fun v => (hlow.ret_le v).trans (h.nonpos v)
    · intro e he hsource
      have hold : e.source ∉ s.queue := fun hmem => hsource (hlow.mem_of_mem hmem)
      rw [hlow.ret_eq hsource]
      have htarget := hlow.ret_le e.target
      rcases h.tight e he hold with hmem | htight
      · rcases List.mem_cons.mp hmem with rfl | hmem
        · right
          rw [hlow.ret, Function.update_self]
        · exact .inl hmem
      · exact .inr (htarget.trans htight)

/-! ## Rounds -/

/-- The state in the round after `k` rounds. Of the queue, `q₁` is what the round has still to work
off. -/
structure Round (n : ℕ) (E : List (Edge ℕ ℤ)) (deg : ℕ → ℕ) (k : ℕ) (q₁ q₂ : List ℕ)
    (W : List (Edge ℕ ℤ)) (s : State) : Prop where
  queue : s.queue = q₁ ++ q₂
  low : ∀ v, s.ret v ≤ best E k v
  next : ∀ e ∈ E, e.source ∉ q₁ → e ∈ W ∨ s.ret e.target ≤ best E k e.source + e.bound
  budget : (n - 2 - k) * E.length + (q₁.map deg).sum + W.length ≤ s.iter

theorem Round.relax {deg : ℕ → ℕ} {k : ℕ} {q₁ q₂ : List ℕ}
    (h : Round n E deg k q₁ q₂ (w :: W) s) (hflags : ∀ i, s.isInqueue i = true ↔ i ∈ s.queue)
    (hrelax : DifferenceConstraints.relax w.source w.target w.bound {s with iter := s.iter - 1} =
      .ok s') :
    ∃ q₂', Round n E deg k q₁ q₂' W s' := by
  have hiter := h.budget
  rw [List.length_cons] at hiter
  rcases relax_cases (s := {s with iter := s.iter - 1}) hflags hrelax with ⟨hle, rfl⟩ | hlow
  · refine ⟨q₂, h.queue, h.low, ?_, by simp only; omega⟩
    intro e he hsource
    rcases h.next e he hsource with hmem | hnext
    · rcases List.mem_cons.mp hmem with rfl | hmem
      · have hlow := h.low e.source
        simp only at hle
        exact .inr (by simp only; omega)
      · exact .inl hmem
    · exact .inr hnext
  · have hqueue : ∃ q₂', s'.queue = q₁ ++ q₂' := by
      rcases hlow.queue with ⟨-, hqueue⟩ | ⟨-, hqueue⟩
      · exact ⟨q₂, hqueue.trans h.queue⟩
      · exact ⟨q₂ ++ [w.target], by rw [hqueue, h.queue, List.append_assoc]⟩
    obtain ⟨q₂', hqueue⟩ := hqueue
    refine ⟨q₂', hqueue, fun v => (hlow.ret_le v).trans (h.low v), ?_, by rw [hlow.iter]; simp only; omega⟩
    intro e he hsource
    rcases h.next e he hsource with hmem | hnext
    · rcases List.mem_cons.mp hmem with rfl | hmem
      · right
        rw [hlow.ret, Function.update_self]
        have hbest := h.low e.source
        simp only
        omega
      · exact .inl hmem
    · exact .inr ((hlow.ret_le e.target).trans hnext)

/-- The values are at most what walks with `n - 1` edges give, or there is a round on the way. -/
def Phase (n : ℕ) (E : List (Edge ℕ ℤ)) (deg : ℕ → ℕ) (W : List (Edge ℕ ℤ)) (s : State) : Prop :=
  (∃ k q₁ q₂, k + 2 ≤ n ∧ Round n E deg k q₁ q₂ W s) ∨ ∀ v, s.ret v ≤ best E (n - 1) v

variable {deg : ℕ → ℕ}

theorem Phase.relax (h : Phase n E deg (w :: W) s)
    (hflags : ∀ i, s.isInqueue i = true ↔ i ∈ s.queue)
    (hrelax : DifferenceConstraints.relax w.source w.target w.bound {s with iter := s.iter - 1} =
      .ok s') :
    Phase n E deg W s' := by
  rcases h with ⟨k, q₁, q₂, hk, hround⟩ | hlow
  · obtain ⟨q₂', hround⟩ := hround.relax hflags hrelax
    exact .inl ⟨k, q₁, q₂', hk, hround⟩
  · right
    intro v
    rcases relax_cases (s := {s with iter := s.iter - 1}) hflags hrelax with ⟨-, rfl⟩ | hlowered
    · exact hlow v
    · exact (hlowered.ret_le v).trans (hlow v)

/-- All edges out of variables that are out of the queue have been looked at: the round is over. -/
theorem Round.low_succ {k : ℕ} {q₁ q₂ : List ℕ} (h : Round n E deg k q₁ q₂ [] s)
    (hq₁ : ∀ e ∈ E, e.source ∉ q₁) (v : ℕ) : s.ret v ≤ best E (k + 1) v := by
  rcases relaxAll_cases (best E k) v E with heq | ⟨e, he, rfl, heq⟩
  · rw [best, heq]
    exact h.low v
  · rw [best, heq]
    exact (h.next e he (hq₁ e he)).resolve_left (by simp)

/-- What is in the queue at the end of a round is worked off in the next one. -/
theorem Round.advance {k : ℕ} {q : List ℕ} (h : Round n E deg k [] q [] s) (hk : k + 2 ≤ n)
    (htight : ∀ e ∈ E, e.source ∉ s.queue → s.ret e.target ≤ s.ret e.source + e.bound)
    (hdeg : (q.map deg).sum ≤ E.length) :
    (k + 3 ≤ n ∧ Round n E deg (k + 1) q [] [] s) ∨ ∀ v, s.ret v ≤ best E (n - 1) v := by
  have hlow : ∀ v, s.ret v ≤ best E (k + 1) v := h.low_succ (by simp)
  have hqueue : s.queue = q := h.queue
  by_cases hlast : k + 3 ≤ n
  · refine .inl ⟨hlast, by rw [hqueue, List.append_nil], hlow, ?_, ?_⟩
    · intro e he hsource
      rw [← hqueue] at hsource
      exact .inr ((htight e he hsource).trans (by have := hlow e.source; omega))
    · have hbudget := h.budget
      have hsplit : n - 2 - k = n - 2 - (k + 1) + 1 := by omega
      rw [hsplit, Nat.add_mul, Nat.one_mul] at hbudget
      simp only [List.map_nil, List.sum_nil, List.length_nil] at hbudget ⊢
      omega
  · right
    have heq : n - 1 = k + 1 := by omega
    rw [heq]
    exact hlow

/-- What holds where the loop ends: the system is solved, or the values are small. -/
structure Ended (n : ℕ) (E : List (Edge ℕ ℤ)) (s : State) : Prop where
  above : ∀ x, Satisfies E x → (∀ v, x v ≤ 0) → ∀ v, x v ≤ s.ret v
  nonpos : ∀ v, s.ret v ≤ 0
  solved : Satisfies E s.ret ∨ ∀ v, s.ret v ≤ best E (n - 1) v

theorem Basic.ended (h : Basic n E W s) (hlow : ∀ v, s.ret v ≤ best E (n - 1) v) : Ended n E s :=
  ⟨h.above, h.nonpos, .inr hlow⟩

/-- A system that has a solution is solved. -/
theorem Ended.satisfies (h : Ended n E s) (hE : ∀ e ∈ E, e.source < n ∧ e.target < n)
    {x : ℕ → ℤ} (hx : Satisfies E x) : Satisfies E s.ret := by
  rcases h.solved with hsolved | hlow
  · exact hsolved
  · have hU : ∀ e ∈ E, e.source ∈ Finset.range n ∧ e.target ∈ Finset.range n := by
      simpa only [Finset.mem_range] using hE
    have hbest : Satisfies E (best E (n - 1)) :=
      satisfies_best hU hx (by rw [Finset.card_range]; omega)
    have heq : s.ret = best E (n - 1) := by
      funext v
      exact le_antisymm (hlow v) (h.above _ hbest (best_nonpos E _) v)
    rw [heq]
    exact hbest

theorem Phase.ended (h : Phase n E deg [] s) (hbasic : Basic n E [] s) (hiter : s.iter = 0)
    (hdeg : ∀ e ∈ E, 0 < deg e.source) : Ended n E s := by
  rcases h with ⟨k, q₁, q₂, hk, hround⟩ | hlow
  · have hbudget := hround.budget
    rw [hiter] at hbudget
    by_cases hE : E = []
    · subst hE
      exact ⟨hbasic.above, hbasic.nonpos, .inl fun e he => by cases he⟩
    · have hlength : 0 < E.length := List.length_pos_iff.mpr hE
      have hzero : n - 2 - k = 0 := by
        by_contra hne
        have hpos := Nat.mul_pos (Nat.pos_of_ne_zero hne) hlength
        omega
      -- the variables that are left have no edges
      have hq₁ : ∀ e ∈ E, e.source ∉ q₁ := by
        intro e he hmem
        have hle := List.le_sum_of_mem (List.mem_map_of_mem (f := deg) hmem)
        have hpos := hdeg e he
        omega
      have hn : n - 1 = k + 1 := by omega
      exact hbasic.ended (hn ▸ hround.low_succ hq₁)
  · exact hbasic.ended hlow

/-! ## The constraints as edges -/

def pairs : List ℤ → List (ℤ × ℤ)
  | j :: k :: rest => (j, k) :: pairs rest
  | _ => []

@[simp] theorem pairs_nil : pairs [] = [] := rfl
@[simp] theorem pairs_singleton (j : ℤ) : pairs [j] = [] := rfl
@[simp] theorem pairs_cons_cons (j k : ℤ) (rest : List ℤ) :
    pairs (j :: k :: rest) = (j, k) :: pairs rest := rfl

def edgesFrom (i : ℕ) (constraints : List ℤ) : List (Edge ℕ ℤ) :=
  (pairs constraints).map fun p => ⟨i, p.1.toNat, p.2⟩

/-- The edges that the loop has not come to when its counter is `c`. -/
def edgesAfter (i : ℕ) (constraints : List ℤ) (c : ℕ) : List (Edge ℕ ℤ) :=
  ((pairs constraints).drop (c / 2)).map fun p => ⟨i, p.1.toNat, p.2⟩

def edges (l : List (List ℤ)) : List (Edge ℕ ℤ) :=
  (List.range l.length).flatMap fun i => edgesFrom i (l.getD i [])

/-- The lists are made of pairs, and every index is that of a variable. -/
def Valid (l : List (List ℤ)) : Prop :=
  ∀ i < l.length, (l.getD i []).length % 2 = 0 ∧
    ∀ p ∈ pairs (l.getD i []), 0 ≤ p.1 ∧ p.1 < l.length

theorem pairs_drop {constraints : List ℤ} (heven : constraints.length % 2 = 0) {c : ℕ}
    (hc : c % 2 = 0) (hlt : c < constraints.length) :
    (pairs constraints).drop (c / 2) =
      (constraints.getD c 0, constraints.getD (c + 1) 0) :: (pairs constraints).drop ((c + 2) / 2) := by
  induction constraints using List.twoStepInduction generalizing c with
  | nil => simp at hlt
  | singleton j => simp at heven
  | cons_cons j k rest ih _ =>
      rcases Nat.eq_zero_or_pos c with rfl | hpos
      · simp
      · obtain ⟨b, rfl⟩ : ∃ b, c = b + 2 := ⟨c - 2, by omega⟩
        simp only [List.length_cons] at heven hlt
        have hstep := ih (c := b) (by omega) (by omega) (by omega)
        have hhalf : (b + 2) / 2 = b / 2 + 1 := by omega
        have hhalf' : (b + 2 + 2) / 2 = (b + 2) / 2 + 1 := by omega
        rw [pairs_cons_cons, hhalf', hhalf, List.drop_succ_cons, List.drop_succ_cons, hstep, ← hhalf]
        rfl

theorem length_pairs (constraints : List ℤ) : (pairs constraints).length = constraints.length / 2 := by
  induction constraints using List.twoStepInduction with
  | nil => rfl
  | singleton j => simp
  | cons_cons j k rest ih _ =>
      simp only [pairs_cons_cons, List.length_cons, ih]
      omega

theorem mem_edges {l : List (List ℤ)} {e : Edge ℕ ℤ} :
    e ∈ edges l ↔ e.source < l.length ∧ e ∈ edgesFrom e.source (l.getD e.source []) := by
  simp only [edges, List.mem_flatMap, List.mem_range]
  constructor
  · rintro ⟨i, hi, he⟩
    have hsource : e.source = i := by
      simp only [edgesFrom, List.mem_map] at he
      obtain ⟨p, -, rfl⟩ := he
      rfl
    subst hsource
    exact ⟨hi, he⟩
  · rintro ⟨hi, he⟩
    exact ⟨e.source, hi, he⟩

theorem edges_lt {l : List (List ℤ)} (hvalid : Valid l) {e : Edge ℕ ℤ} (he : e ∈ edges l) :
    e.source < l.length ∧ e.target < l.length := by
  obtain ⟨hi, he⟩ := mem_edges.mp he
  simp only [edgesFrom, List.mem_map] at he
  obtain ⟨p, hp, heq⟩ := he
  obtain ⟨hnonneg, hlt⟩ := (hvalid _ hi).2 p hp
  have htarget : e.target = p.1.toNat := by rw [← heq]
  exact ⟨hi, by omega⟩

theorem toUnsigned_eq {x : ℤ} {n : ℕ} (hx : 0 ≤ x) (hlt : x < n) (hn : n ≤ 2 ^ 32) :
    toUnsigned x = x.toNat := by
  unfold toUnsigned
  rw [Int.emod_eq_of_lt hx (by omega)]

/-- The edges of a variable are looked at one after the other, until all of them have been or the
number of edges is used up. -/
theorem relaxPairs_ok {l : List (List ℤ)} (hvalid : Valid l) (hn : l.length < 2 ^ 32) {i : ℕ}
    (hi : i < l.length) (hsize : (l.getD i []).length < 2 ^ 32) (P : List (Edge ℕ ℤ) → State → Prop)
    (hP : ∀ w W s s', w ∈ edges l → P (w :: W) s →
      relax w.source w.target w.bound {s with iter := s.iter - 1} = .ok s' → P W s')
    {fuel : ℕ} {s r : State} (hstart : P (edgesFrom i (l.getD i [])) s)
    (hloop : countedLoop .running 32 2 (l.getD i []).length (fun s => 0 < s.iter)
      (relaxPair i (l.getD i [])) fuel 0 s = .ok r) :
    ∃ W, P W r ∧ (W = [] ∨ r.iter = 0) := by
  obtain ⟨heven, hindex⟩ := hvalid i hi
  have hbody : ∀ c s s', c < (l.getD i []).length → decide (0 < s.iter) = true →
      (c % 2 = 0 ∧ P (edgesAfter i (l.getD i []) c) s) → relaxPair i (l.getD i []) c s = .ok s' →
      ((c + 2) % 2 = 0 ∧ P (edgesAfter i (l.getD i []) (c + 2)) s') := by
    rintro c s s' hc - ⟨hcount, hstate⟩ hrelax
    have hdrop := pairs_drop heven hcount hc
    have hmem : ((l.getD i []).getD c 0, (l.getD i []).getD (c + 1) 0) ∈ pairs (l.getD i []) :=
      List.mem_of_mem_drop (hdrop ▸ List.mem_cons_self)
    obtain ⟨hnonneg, hlt⟩ := hindex _ hmem
    rw [edgesAfter, hdrop, List.map_cons] at hstate
    refine ⟨by omega, hP _ _ s s' ?_ hstate ?_⟩
    · exact mem_edges.mpr ⟨hi, List.mem_map_of_mem (f := fun p => (⟨i, p.1.toNat, p.2⟩ : Edge ℕ ℤ)) hmem⟩
    · unfold relaxPair at hrelax
      rw [toUnsigned_eq hnonneg hlt hn.le] at hrelax
      exact hrelax
  have hI : 0 % 2 = 0 ∧ P (edgesAfter i (l.getD i []) 0) s := ⟨rfl, hstart⟩
  obtain ⟨c, ⟨-, hstate⟩, hend⟩ := countedLoop_ok (by omega)
    (fun c s => c % 2 = 0 ∧ P (edgesAfter i (l.getD i []) c) s) hbody hI hloop
  refine ⟨_, hstate, ?_⟩
  rcases hend with hmore | hlast
  · right
    simpa using hmore
  · left
    rw [edgesAfter, List.drop_of_length_le (by rw [length_pairs]; omega), List.map_nil]

/-! ## The queue -/

/-- How many edges a variable has. -/
def degree (l : List (List ℤ)) (i : ℕ) : ℕ := (edgesFrom i (l.getD i [])).length

theorem length_edges (l : List (List ℤ)) :
    (edges l).length = ∑ i ∈ Finset.range l.length, degree l i := by
  rw [edges, List.length_flatMap, ← List.sum_toFinset _ List.nodup_range]
  refine Finset.sum_congr ?_ fun _ _ => rfl
  ext i
  simp

theorem sum_degree_le {l : List (List ℤ)} {q : List ℕ} (hnodup : q.Nodup)
    (hbound : ∀ i ∈ q, i < l.length) : (q.map (degree l)).sum ≤ (edges l).length := by
  rw [length_edges, ← List.sum_toFinset _ hnodup]
  refine Finset.sum_le_sum_of_subset fun i hi => ?_
  rw [Finset.mem_range]
  exact hbound i (List.mem_toFinset.mp hi)

theorem degree_pos {l : List (List ℤ)} {e : Edge ℕ ℤ} (he : e ∈ edges l) : 0 < degree l e.source :=
  List.length_pos_of_mem (mem_edges.mp he).2

/-- What holds each time the loop comes to the queue. -/
def Turn (l : List (List ℤ)) (W : List (Edge ℕ ℤ)) (s : State) : Prop :=
  Basic l.length (edges l) W s ∧ Phase l.length (edges l) (degree l) W s

variable {l : List (List ℤ)}

theorem Turn.relax (hvalid : Valid l) (h : Turn l (w :: W) s) (hw : w ∈ edges l)
    (hrelax : DifferenceConstraints.relax w.source w.target w.bound {s with iter := s.iter - 1} =
      .ok s') :
    Turn l W s' := by
  obtain ⟨hbasic, hphase⟩ := h
  have hsame : Basic l.length (edges l) (w :: W) {s with iter := s.iter - 1} :=
    ⟨hbasic.nodup, hbasic.bound, hbasic.flags, hbasic.above, hbasic.nonpos, hbasic.tight⟩
  exact ⟨hsame.relax hw (edges_lt hvalid hw).2 hrelax, hphase.relax hbasic.flags hrelax⟩

/-- The first variable leaves the queue; its edges are to be looked at. -/
theorem Turn.pop (h : Turn l [] s) {i : ℕ} {rest : List ℕ} (hqueue : s.queue = i :: rest) :
    Turn l (edgesFrom i (l.getD i []))
      {s with queue := rest, isInqueue := Function.update s.isInqueue i false} := by
  obtain ⟨hbasic, hphase⟩ := h
  have hnodup := hbasic.nodup
  rw [hqueue, List.nodup_cons] at hnodup
  have hsource : ∀ e ∈ edges l, e.source ≠ i → e.source ∉ rest → e.source ∉ s.queue := by
    intro e _ hne hnot
    rw [hqueue, List.mem_cons]
    exact fun hcase => hcase.elim hne hnot
  have hown : ∀ e ∈ edges l, e.source = i → e ∈ edgesFrom i (l.getD i []) := by
    rintro e he rfl
    exact (mem_edges.mp he).2
  constructor
  · refine ⟨hnodup.2, fun j hj => hbasic.bound j (hqueue ▸ List.mem_cons_of_mem i hj), ?_,
      hbasic.above, hbasic.nonpos, ?_⟩
    · intro j
      by_cases hj : j = i
      · subst hj
        simp [hnodup.1]
      · simp only [Function.update_of_ne hj]
        rw [hbasic.flags, hqueue, List.mem_cons, or_iff_right hj]
    · intro e he hnot
      by_cases hi : e.source = i
      · exact .inl (hown e he hi)
      · exact .inr ((hbasic.tight e he (hsource e he hi hnot)).resolve_left (by simp))
  · -- if the round is over, the next one begins
    have hround : (∃ k q₁ q₂, k + 2 ≤ l.length ∧
        Round l.length (edges l) (degree l) k (i :: q₁) q₂ [] s) ∨
        ∀ v, s.ret v ≤ best (edges l) (l.length - 1) v := by
      rcases hphase with ⟨k, q₁, q₂, hk, hround⟩ | hlow
      · cases q₁ with
        | nil =>
            have hq₂ : s.queue = q₂ := hround.queue
            have hdegree : (q₂.map (degree l)).sum ≤ (edges l).length := by
              rw [← hq₂]
              exact sum_degree_le hbasic.nodup hbasic.bound
            rcases hround.advance hk (fun e he hnot => (hbasic.tight e he hnot).resolve_left (by simp))
              hdegree with ⟨hk', hnext⟩ | hlow
            · rw [hqueue] at hq₂
              subst hq₂
              exact .inl ⟨k + 1, rest, [], by omega, hnext⟩
            · exact .inr hlow
        | cons j q₁ =>
            have hq := hround.queue
            rw [hqueue, List.cons_append] at hq
            cases hq
            exact .inl ⟨k, q₁, q₂, hk, hround⟩
      · exact .inr hlow
    rcases hround with ⟨k, q₁, q₂, hk, hround⟩ | hlow
    · have hq := hround.queue
      rw [hqueue, List.cons_append] at hq
      refine .inl ⟨k, q₁, q₂, hk, (List.cons.inj hq).2, hround.low, ?_, ?_⟩
      · intro e he hnot
        by_cases hi : e.source = i
        · exact .inl (hown e he hi)
        · have hnot' : e.source ∉ i :: q₁ := by
            rw [List.mem_cons]
            exact fun hcase => hcase.elim hi hnot
          exact .inr ((hround.next e he hnot').resolve_left (by simp))
      · have hbudget := hround.budget
        simp only [List.map_cons, List.sum_cons, List.length_nil] at hbudget
        have hdegree : (edgesFrom i (l.getD i [])).length = degree l i := rfl
        simp only [hdegree]
        omega
    · exact .inr hlow

theorem relaxQueue_ended (hvalid : Valid l) (hn : l.length < 2 ^ 32)
    (hsize : ∀ i < l.length, (l.getD i []).length < 2 ^ 32) {fuel : ℕ} {r : State}
    (h : Turn l [] s) (hrun : relaxQueue l fuel s = .ok r) : Ended l.length (edges l) r := by
  induction fuel generalizing s with
  | zero => cases hrun
  | succ fuel ih =>
      rw [relaxQueue] at hrun
      cases hqueue : s.queue with
      | nil =>
          rw [hqueue] at hrun
          cases hrun
          refine ⟨h.1.above, h.1.nonpos, .inl fun e he => ?_⟩
          exact (h.1.tight e he (by simp [hqueue])).resolve_left (by simp)
      | cons i rest =>
          rw [hqueue] at hrun
          by_cases hiter : s.iter = 0
          · simp only [hiter, if_true] at hrun
            cases hrun
            exact h.2.ended h.1 hiter fun e he => degree_pos he
          · have hi : i < l.length := h.1.bound i (by simp [hqueue])
            simp only [if_neg hiter, bind, Except.bind] at hrun
            split at hrun
            · cases hrun
            next r₁ hloop =>
              obtain ⟨W, hturn, hend⟩ := relaxPairs_ok hvalid hn hi (hsize i hi) (Turn l)
                (fun w W s s' hw hs => hs.relax hvalid hw) (h.pop hqueue) hloop
              by_cases hW : W = []
              · subst hW
                exact ih hturn hrun
              · -- the edges are used up, and there is no round any more
                have hiter := hend.resolve_left hW
                have hlow : ∀ v, r₁.ret v ≤ best (edges l) (l.length - 1) v := by
                  rcases hturn.2 with ⟨k, q₁, q₂, -, hround⟩ | hlow
                  · have hbudget := hround.budget
                    exact absurd (List.length_eq_zero_iff.mp (by omega)) hW
                  · exact hlow
                have hr : r = r₁ := by
                  cases fuel with
                  | zero => cases hrun
                  | succ fuel =>
                      rw [relaxQueue] at hrun
                      cases hq : r₁.queue with
                      | nil =>
                          rw [hq] at hrun
                          cases hrun
                          rfl
                      | cons j rest' =>
                          rw [hq] at hrun
                          simp only [hiter, if_true] at hrun
                          cases hrun
                          rfl
                rw [hr]
                exact hturn.1.ended hlow

end Deai.Relaxation
