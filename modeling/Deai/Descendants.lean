import Deai.SplicedSubtree
import Mathlib.Data.Finite.Defs
import Mathlib.Order.WellFounded

/-!
# Killing the process tree

`kill_all_descendants` of `main.c`. It reads the process ids and the parents from `/proc`, splices
the list of every process into that of its parent in the order they were read, and goes through
the list from its own process on. It stops at the first process whose parent was not visited.

The sentinel is the parent of the processes whose parent was not read. Its field `pp` is never
written.
-/
namespace Deai.Descendants
open SplicedForest SplicedSubtree Relation

structure Process where
  pid : ℕ
  ppid : ℕ
  deriving DecidableEq

def pids (ps : List Process) : List ℕ := ps.map Process.pid

/-- `HASH_FIND_INT`, with the sentinel for a process that is not there. -/
def findParent (ps : List Process) (ppid : ℕ) : Option ℕ :=
  if ppid ∈ pids ps then some ppid else none

/-- The lists and the fields `pp` of all nodes; `none` for a field that was not written. -/
structure Linked where
  links : Links ℕ
  pp : Option ℕ → Option (Option ℕ)

/-- One round of the loop that links the processes. -/
def linkOne (ps : List Process) (s : Linked) (i : Process) : Linked :=
  let pp := findParent ps i.ppid
  { links := listSplice s.links (some i.pid) pp (s.links.next pp)
    pp := Function.update s.pp (some i.pid) (some pp) }

def link (ps : List Process) : Linked := ps.foldl (linkOne ps) ⟨Links.single, fun _ => none⟩

/-- The loop has more rounds to go, or it read a field that was not written. -/
inductive Fault where
  | running
  | uninitialized
  deriving DecidableEq

/-- The loop that visits the processes, with the processes that are sent `SIGTERM`. -/
def traverse (s : Linked) : ℕ → Option ℕ → (Option ℕ → Bool) → Except Fault (List ℕ)
  | 0, _, _ => .error .running
  | rounds + 1, curr, visited =>
      let curr := s.links.next curr
      match s.pp curr with
      | none => .error .uninitialized
      | some pp =>
          if visited pp then
            match curr with
            | none => .error .uninitialized
            | some pid => do
                let rest ← traverse s rounds (some pid) (Function.update visited (some pid) true)
                .ok (pid :: rest)
          else .ok []

def killAllDescendants (ps : List Process) (self rounds : ℕ) : Except Fault (List ℕ) :=
  traverse (link ps) rounds (some self) (Function.update (fun _ => false) (some self) true)

/-! ## What is to be killed -/

def IsChild (ps : List Process) (a b : ℕ) : Prop := ⟨b, a⟩ ∈ ps

def IsDescendant (ps : List Process) : ℕ → ℕ → Prop := TransGen (IsChild ps)

/-- No process occurs twice, and no process is its own descendant. -/
structure Forest (ps : List Process) : Prop where
  nodup : (pids ps).Nodup
  acyclic : ∀ a, ¬ IsDescendant ps a a

/-- The loop ends, reads only what was written, and kills the proper descendants, each once. -/
def KillsDescendants (ps : List Process) (self : ℕ) : Prop :=
  ∃ rounds killed, killAllDescendants ps self rounds = .ok killed ∧ killed.Nodup ∧
    ∀ p, p ∈ killed ↔ IsDescendant ps self p

/-! ## The parents -/

/-- The node that a process is spliced into. -/
def parentOf (ps : List Process) (pid : ℕ) : Option ℕ :=
  match ps.find? (fun p => p.pid = pid) with
  | some p => findParent ps p.ppid
  | none => none

section
variable {ps : List Process}

theorem parentOf_of_mem (hnodup : (pids ps).Nodup) {p : Process} (hp : p ∈ ps) :
    parentOf ps p.pid = findParent ps p.ppid := by
  unfold parentOf
  cases hfind : ps.find? (fun q => q.pid = p.pid) with
  | none =>
      have hne : ¬ (decide (p.pid = p.pid) = true) := List.find?_eq_none.mp hfind p hp
      simp at hne
  | some q =>
      have hq := List.mem_of_find?_eq_some hfind
      have hpid : q.pid = p.pid := by simpa using List.find?_some hfind
      rw [List.inj_on_of_nodup_map hnodup hq hp hpid]

theorem parentOf_eq_some {x y : ℕ} (h : parentOf ps x = some y) : IsChild ps y x ∧ y ∈ pids ps := by
  unfold parentOf at h
  cases hfind : ps.find? (fun q => q.pid = x) with
  | none =>
      rw [hfind] at h
      cases h
  | some p =>
      rw [hfind] at h
      have hp := List.mem_of_find?_eq_some hfind
      have hpid : p.pid = x := by simpa using List.find?_some hfind
      dsimp only [findParent] at h
      split_ifs at h with hmem
      cases h
      subst hpid
      exact ⟨hp, hmem⟩

theorem parentOf_of_isChild (hnodup : (pids ps).Nodup) {x y : ℕ} (h : IsChild ps y x)
    (hy : y ∈ pids ps) : parentOf ps x = some y := by
  have hpar : parentOf ps x = findParent ps y := parentOf_of_mem hnodup h
  rw [hpar, findParent, if_pos hy]

theorem IsChild.mem {a x : ℕ} (h : IsChild ps a x) : x ∈ pids ps := List.mem_map_of_mem h

theorem IsDescendant.mem {a x : ℕ} (h : IsDescendant ps a x) : x ∈ pids ps := by
  cases h with
  | single hchild => exact hchild.mem
  | tail _ hchild => exact hchild.mem

theorem below_iff_isDescendant (hnodup : (pids ps).Nodup) {a x : ℕ} (ha : a ∈ pids ps) :
    Below (parentOf ps) (some a) x ↔ IsDescendant ps a x := by
  constructor
  · intro h
    induction h with
    | parent hpar => exact .single (parentOf_eq_some hpar).1
    | up hpar _ ih => exact ih.tail (parentOf_eq_some hpar).1
  · intro h
    induction h with
    | single hchild => exact .parent (parentOf_of_isChild hnodup hchild ha)
    | tail hdesc hchild ih =>
        exact .up (parentOf_of_isChild hnodup hchild (IsDescendant.mem hdesc)) ih

/-- The parents of every process lead to the sentinel. -/
theorem below_sentinel (hforest : Forest ps) (x : ℕ) : Below (parentOf ps) none x := by
  have hwf : WellFounded fun a b : {x // x ∈ pids ps} => IsDescendant ps a b := by
    have htrans : IsTrans {x // x ∈ pids ps} fun a b => IsDescendant ps a b :=
      ⟨fun _ _ _ hab hbc => TransGen.trans hab hbc⟩
    have hirrefl : Std.Irrefl fun a b : {x // x ∈ pids ps} => IsDescendant ps a b :=
      ⟨fun a => hforest.acyclic a⟩
    have hfinite : Finite {x // x ∈ pids ps} := List.finite_toSet (pids ps)
    exact Finite.wellFounded_of_trans_of_irrefl _
  have hmem : ∀ y : {x // x ∈ pids ps}, Below (parentOf ps) none y := by
    intro y
    induction y using hwf.induction with
    | _ y ih =>
        cases hpar : parentOf ps y with
        | none => exact .parent hpar
        | some z =>
            obtain ⟨hchild, hz⟩ := parentOf_eq_some hpar
            exact .up hpar (ih ⟨z, hz⟩ (.single hchild))
  cases hpar : parentOf ps x with
  | none => exact .parent hpar
  | some y => exact .up hpar (hmem ⟨y, (parentOf_eq_some hpar).2⟩)

/-! ## Linking -/

theorem link_links (hnodup : (pids ps).Nodup) :
    (link ps).links = attachAll (parentOf ps) (pids ps) := by
  have hrun : ∀ qs ⊆ ps, ∀ s : Linked, (qs.foldl (linkOne ps) s).links =
      (qs.map Process.pid).foldl (attach (parentOf ps)) s.links := by
    intro qs
    induction qs with
    | nil => exact fun _ _ => rfl
    | cons q qs ih =>
        intro hsub s
        rw [List.foldl_cons, List.map_cons, List.foldl_cons,
          ih fun x hx => hsub (List.mem_cons_of_mem q hx)]
        congr 1
        unfold attach
        rw [parentOf_of_mem hnodup (hsub List.mem_cons_self)]
        rfl
  exact hrun ps (List.Subset.refl ps) _

theorem link_pp (hnodup : (pids ps).Nodup) :
    (link ps).pp none = none ∧ ∀ x ∈ pids ps, (link ps).pp (some x) = some (parentOf ps x) := by
  have hrun : ∀ qs ⊆ ps, ∀ s : Linked, (qs.foldl (linkOne ps) s).pp none = s.pp none ∧
      ∀ x, (x ∈ qs.map Process.pid ∨ s.pp (some x) = some (parentOf ps x)) →
        (qs.foldl (linkOne ps) s).pp (some x) = some (parentOf ps x) := by
    intro qs
    induction qs with
    | nil =>
        intro _ s
        refine ⟨rfl, fun x hx => ?_⟩
        rcases hx with hx | hx
        · cases hx
        · exact hx
    | cons q qs ih =>
        intro hsub s
        obtain ⟨hnone, hsome⟩ := ih (fun x hx => hsub (List.mem_cons_of_mem q hx)) (linkOne ps s q)
        refine ⟨hnone, fun x hx => hsome x ?_⟩
        have hstep : (linkOne ps s q).pp (some x) =
            if x = q.pid then some (findParent ps q.ppid) else s.pp (some x) := by
          simp [linkOne, Function.update_apply]
        rw [hstep]
        by_cases hxq : x = q.pid
        · rw [if_pos hxq, hxq, parentOf_of_mem hnodup (hsub List.mem_cons_self)]
          exact .inr rfl
        · rw [if_neg hxq]
          rcases hx with hx | hx
          · exact .inl ((List.mem_cons.mp hx).resolve_left hxq)
          · exact .inr hx
  obtain ⟨hnone, hsome⟩ := hrun ps (List.Subset.refl ps) ⟨Links.single, fun _ => none⟩
  exact ⟨hnone, fun x hx => hsome x (.inl hx)⟩

/-! ## The traversal -/

/-- Only a process that another one points to is killed. -/
theorem traverse_next {s : Linked} {rounds : ℕ} {curr : Option ℕ} {visited : Option ℕ → Bool}
    {killed : List ℕ} (h : traverse s rounds curr visited = .ok killed) :
    ∀ p ∈ killed, ∃ y, s.links.next y = some p := by
  induction rounds generalizing curr visited killed with
  | zero => cases h
  | succ rounds ih =>
      unfold traverse at h
      dsimp only at h
      cases hpp : s.pp (s.links.next curr) with
      | none =>
          rw [hpp] at h
          cases h
      | some pp =>
          rw [hpp] at h
          dsimp only at h
          split_ifs at h
          · cases hnext : s.links.next curr with
            | none =>
                rw [hnext] at h
                cases h
            | some pid =>
                rw [hnext] at h
                dsimp only at h
                cases hrest : traverse s rounds (some pid)
                    (Function.update visited (some pid) true) with
                | error e =>
                    rw [hrest] at h
                    cases h
                | ok rest =>
                    rw [hrest] at h
                    cases h
                    intro p hp
                    rcases List.mem_cons.mp hp with rfl | hp
                    · exact ⟨curr, hnext⟩
                    · exact ih hrest p hp
          · cases h
            exact fun p hp => absurd hp List.not_mem_nil

section
variable {self : ℕ} {ys : List ℕ} {n : Option ℕ}
  (h : Subtree (parentOf ps) (pids ps) (link ps).links self ys n)
include h

/-- The parent of a process in the list comes before it. -/
theorem parent_before (hforest : Forest ps) {seen rest : List ℕ} {x : ℕ}
    (hys : ys = seen ++ x :: rest) (hself : self ∈ seen) : ∃ y ∈ seen, parentOf ps x = some y := by
  have hx : x ∈ ys := by simp [hys]
  have hne : x ≠ self := by
    rintro rfl
    have hnodup := h.nodup
    rw [hys] at hnodup
    exact (List.nodup_append.mp hnodup).2.2 x hself x List.mem_cons_self rfl
  obtain ⟨y, hy, hpar⟩ : ∃ y ∈ ys, parentOf ps x = some y := by
    rcases (h.mem x).mp hx with rfl | ⟨-, hbelow⟩
    · exact absurd rfl hne
    · cases hbelow with
      | parent hpar => exact ⟨self, (h.mem self).mpr (.inl rfl), hpar⟩
      | up hpar hy =>
          exact ⟨_, (h.mem _).mpr (.inr ⟨(parentOf_eq_some hpar).2, hy⟩), hpar⟩
  refine ⟨y, ?_, hpar⟩
  rw [hys] at hy
  rcases List.mem_append.mp hy with hy | hy
  · exact hy
  · rcases List.mem_cons.mp hy with rfl | hy
    · exact absurd (Below.parent hpar) (not_below_self (below_sentinel hforest y))
    · have hordered := h.ordered
      rw [hys] at hordered
      have hlater := (List.pairwise_cons.mp (List.pairwise_append.mp hordered).2.1).1 y hy
      exact absurd hpar hlater

/-- One round: the next process is visited. -/
theorem traverse_cons (hforest : Forest ps) {seen rest : List ℕ} {c x : ℕ}
    (hys : ys = seen ++ [c] ++ x :: rest) (hself : self ∈ seen ++ [c])
    {visited : Option ℕ → Bool} (hvisited : ∀ v, visited v = true ↔ ∃ x ∈ seen ++ [c], v = some x)
    (rounds : ℕ) :
    traverse (link ps) (rounds + 1) (some c) visited = (do
      let killed ← traverse (link ps) rounds (some x) (Function.update visited (some x) true)
      .ok (x :: killed)) := by
  have hfollows := h.follows
  rw [hys, List.append_assoc, follows_append] at hfollows
  have hnext : (link ps).links.next (some c) = some x := hfollows.2.1
  have hx : x ∈ pids ps := by
    rcases (h.mem x).mp (by simp [hys]) with rfl | ⟨hx, -⟩
    · have hnodup := h.nodup
      rw [hys] at hnodup
      exact absurd rfl ((List.nodup_append.mp hnodup).2.2 x hself x List.mem_cons_self)
    · exact hx
  obtain ⟨y, hy, hpar⟩ := parent_before h hforest hys hself
  have hpp := (link_pp hforest.nodup).2 x hx
  rw [hpar] at hpp
  have hparent : visited (some y) = true := (hvisited _).mpr ⟨y, hy, rfl⟩
  rw [traverse]
  simp only [hnext, hpp, hparent, if_true]

end

/-- The visited processes after one more round. -/
theorem visited_concat {seen : List ℕ} {x : ℕ} {visited : Option ℕ → Bool}
    (hvisited : ∀ v, visited v = true ↔ ∃ x ∈ seen, v = some x) :
    ∀ v, Function.update visited (some x) true v = true ↔ ∃ y ∈ seen ++ [x], v = some y := by
  intro v
  rw [Function.update_apply]
  split_ifs with hv
  · exact iff_of_true rfl ⟨x, by simp, hv⟩
  · rw [hvisited]
    constructor
    · rintro ⟨y, hy, rfl⟩
      exact ⟨y, by simp [hy], rfl⟩
    · rintro ⟨y, hy, rfl⟩
      rcases List.mem_append.mp hy with hy | hy
      · exact ⟨y, hy, rfl⟩
      · exact absurd (congrArg some (List.mem_singleton.mp hy)) hv

section
variable {self : ℕ} {ys : List ℕ} {n : Option ℕ}
  (h : Subtree (parentOf ps) (pids ps) (link ps).links self ys n)
include h

/-- If a process follows the list, the loop ends there, and everything before it was killed. -/
theorem traverse_list (hforest : Forest ps) {z : ℕ} (hn : n = some z) (hz : z ∈ pids ps)
    {seen rest : List ℕ} {c : ℕ} (hys : ys = seen ++ [c] ++ rest) (hself : self ∈ seen ++ [c])
    {visited : Option ℕ → Bool}
    (hvisited : ∀ v, visited v = true ↔ ∃ x ∈ seen ++ [c], v = some x) :
    traverse (link ps) (rest.length + 1) (some c) visited = .ok rest := by
  induction rest generalizing seen c visited with
  | nil =>
      have hfollows := h.follows
      rw [hys, List.append_assoc, follows_append] at hfollows
      have hnext : (link ps).links.next (some c) = some z := hfollows.2.1.trans hn
      have hpp := (link_pp hforest.nodup).2 z hz
      have hparent : visited (parentOf ps z) = false := by
        rw [Bool.eq_false_iff]
        intro htrue
        obtain ⟨y, hy, hpar⟩ := (hvisited _).mp htrue
        have hmem : y ∈ ys := by
          rw [hys, List.append_nil]
          exact hy
        refine h.exit z hn ?_
        rcases (h.mem y).mp hmem with rfl | ⟨-, hbelow⟩
        · exact .parent hpar
        · exact .up hpar hbelow
      rw [traverse]
      simp [hnext, hpp, hparent]
  | cons x rest ih =>
      rw [List.length_cons, traverse_cons h hforest hys hself hvisited,
        ih (by simp [hys]) (List.mem_append_left [x] hself) (visited_concat hvisited)]
      rfl

/-- If the sentinel follows the list, the loop does not end well. -/
theorem traverse_sentinel (hforest : Forest ps) (hn : n = none) {seen rest : List ℕ} {c : ℕ}
    (hys : ys = seen ++ [c] ++ rest) (hself : self ∈ seen ++ [c]) {visited : Option ℕ → Bool}
    (hvisited : ∀ v, visited v = true ↔ ∃ x ∈ seen ++ [c], v = some x) (rounds : ℕ)
    (killed : List ℕ) : traverse (link ps) rounds (some c) visited ≠ .ok killed := by
  induction rest generalizing seen c visited rounds killed with
  | nil =>
      cases rounds with
      | zero => exact nofun
      | succ rounds =>
          have hfollows := h.follows
          rw [hys, List.append_assoc, follows_append] at hfollows
          have hnext : (link ps).links.next (some c) = none := hfollows.2.1.trans hn
          rw [traverse]
          simp [hnext, (link_pp hforest.nodup).1]
  | cons x rest ih =>
      cases rounds with
      | zero => exact nofun
      | succ rounds =>
          rw [traverse_cons h hforest hys hself hvisited]
          intro heq
          cases hrest : traverse (link ps) rounds (some x)
              (Function.update visited (some x) true) with
          | error e =>
              rw [hrest] at heq
              cases heq
          | ok rest' =>
              exact ih (by simp [hys]) (List.mem_append_left [x] hself) (visited_concat hvisited)
                rounds rest' hrest

end

theorem below_mem {a x : ℕ} (h : Below (parentOf ps) (some a) x) : a ∈ pids ps := by
  induction h with
  | parent hpar => exact (parentOf_eq_some hpar).2
  | up _ _ ih => exact ih

/-- A process that another one points to was read from `/proc`. -/
theorem next_mem (hforest : Forest ps) {c x : ℕ} (hc : c ∈ pids ps)
    (hnext : (link ps).links.next (some c) = some x) : x ∈ pids ps := by
  by_contra hx
  have hl := attachAll_rings (below_sentinel hforest) hforest.nodup
  rw [link_links hforest.nodup] at hnext
  have hopen := open_of_not_mem hx
  have hprev := hl.prev_of_next _ _ hopen hnext
  rcases firstPath_below (hl.prev_path _ hopen) with hself | ⟨z, -, -, hbelow⟩
  · cases hprev.trans hself
    exact hx hc
  · exact hx (below_mem hbelow)

/-- No proper descendant was read after one of its children. -/
def ParentsFirst (ps : List Process) (self : ℕ) : Prop :=
  ∀ d, IsDescendant ps self d → ¬ Late (parentOf ps) (pids ps) d

/-- The process itself or one above it was read after another one with the same parent. All
processes whose parent was not read have the same parent. -/
def SiblingBefore (ps : List Process) (self : ℕ) : Prop :=
  ∃ a ∈ pids ps, (a = self ∨ IsDescendant ps a self) ∧ ¬ FirstIn (parentOf ps) (pids ps) a

theorem siblingBefore_iff (hforest : Forest ps) {self : ℕ} (hself : self ∈ pids ps) :
    SiblingBefore ps self ↔
      ¬ ∀ a, a = self ∨ Below (parentOf ps) (some a) self → FirstIn (parentOf ps) (pids ps) a := by
  push Not
  constructor
  · rintro ⟨a, hmem, ha, hnot⟩
    exact ⟨a, ha.imp_right (below_iff_isDescendant hforest.nodup hmem).mpr, hnot⟩
  · rintro ⟨a, rfl | ha, hnot⟩
    · exact ⟨a, hself, .inl rfl, hnot⟩
    · have hmem := below_mem ha
      exact ⟨a, hmem, .inr ((below_iff_isDescendant hforest.nodup hmem).mp ha), hnot⟩

/-- Processes that are read in the order of their ids, each with a parent that has a smaller id. -/
structure Ascending (ps : List Process) : Prop where
  sorted : (pids ps).Pairwise (· < ·)
  parent : ∀ p ∈ ps, p.ppid < p.pid

theorem Ascending.lt (h : Ascending ps) {a b : ℕ} (hab : IsDescendant ps a b) : a < b := by
  induction hab with
  | single hchild => exact h.parent _ hchild
  | tail _ hchild ih => exact ih.trans (h.parent _ hchild)

theorem Ascending.forest (h : Ascending ps) : Forest ps where
  nodup := h.sorted.imp fun hlt => hlt.ne
  acyclic := fun _ ha => (h.lt ha).false

/-- No process is read after one of its children then. -/
theorem Ascending.parentsFirst (h : Ascending ps) (self : ℕ) : ParentsFirst ps self := by
  rintro d - ⟨before, after, hpids, c, hc, hpar⟩
  have hsorted := h.sorted
  rw [hpids] at hsorted
  have hlt : c < d := (List.pairwise_append.mp hsorted).2.2 c hc d List.mem_cons_self
  exact hlt.asymm (h.lt (.single (parentOf_eq_some hpar).1))

/-- The loop kills the proper descendants and reads only what was written, if and only if every
one of them was read before its children, and the process itself or one above it was read after
another one with the same parent. -/
theorem kills_descendants_iff (hforest : Forest ps) {self : ℕ} (hself : self ∈ pids ps) :
    KillsDescendants ps self ↔ ParentsFirst ps self ∧ SiblingBefore ps self := by
  have hsentinel := below_sentinel hforest
  have hlinks := link_links hforest.nodup
  have hdesc : ∀ x, Below (parentOf ps) (some self) x ↔ IsDescendant ps self x := fun _ =>
    below_iff_isDescendant hforest.nodup hself
  by_cases hlate : ParentsFirst ps self
  · have hl := attachAll_rings hsentinel hforest.nodup
    obtain ⟨ys, n, h⟩ := exists_subtree hsentinel hforest.nodup
      (fun x y hpar => (parentOf_eq_some hpar).2) (fun d hd => hlate d ((hdesc d).mp hd))
    rw [siblingBefore_iff hforest hself, ← exit_none_iff hsentinel hl h]
    rw [← hlinks] at h
    obtain ⟨rest, rfl⟩ : ∃ rest, ys = self :: rest := by
      cases ys with
      | nil => cases h.head
      | cons x rest =>
          cases h.head
          exact ⟨rest, rfl⟩
    have hnone : ∀ v : Option ℕ, (fun _ : Option ℕ => false) v = true ↔
        ∃ x ∈ ([] : List ℕ), v = some x := by simp
    have hvisited := visited_concat (x := self) hnone
    cases hn : n with
    | none =>
        refine iff_of_false ?_ (by simp)
        rintro ⟨rounds, killed, hrun, -⟩
        exact traverse_sentinel h hforest hn rfl (by simp) hvisited rounds killed hrun
    | some z =>
        refine iff_of_true ⟨rest.length + 1, rest, ?_, (List.nodup_cons.mp h.nodup).2, ?_⟩
          ⟨hlate, nofun⟩
        · obtain ⟨x, hx, hnext⟩ := h.follows.exists_last nofun
          have hmem : x ∈ pids ps := by
            rcases (h.mem x).mp hx with rfl | ⟨hx, -⟩
            · exact hself
            · exact hx
          exact traverse_list h hforest hn (next_mem hforest hmem (hnext.trans hn)) rfl (by simp)
            hvisited
        · intro p
          have hp := h.mem p
          rw [List.mem_cons, hdesc] at hp
          have hne : p = self → p ∉ rest := by
            rintro rfl
            exact (List.nodup_cons.mp h.nodup).1
          constructor
          · intro hmem
            rcases hp.mp (.inr hmem) with heq | ⟨-, hd⟩
            · exact absurd hmem (hne heq)
            · exact hd
          · intro hd
            rcases hp.mpr (.inr ⟨hd.mem, hd⟩) with rfl | hmem
            · exact absurd hd (hforest.acyclic p)
            · exact hmem
  · refine iff_of_false ?_ fun hright => hlate hright.1
    unfold ParentsFirst at hlate
    push Not at hlate
    obtain ⟨d, hd, hdlate⟩ := hlate
    rintro ⟨rounds, killed, hrun, -, hmem⟩
    obtain ⟨y, hy⟩ := traverse_next hrun d ((hmem d).mpr hd)
    rw [hlinks] at hy
    exact attachAll_lost hsentinel hforest.nodup hdlate y hy

end

/-- The process 3 has the child 4, and it is the second child of its parent. -/
theorem kills_descendants_second :
    KillsDescendants [⟨1, 0⟩, ⟨2, 1⟩, ⟨3, 1⟩, ⟨4, 3⟩] 3 := by
  have hascending : Ascending [⟨1, 0⟩, ⟨2, 1⟩, ⟨3, 1⟩, ⟨4, 3⟩] := ⟨by decide, by decide⟩
  refine (kills_descendants_iff hascending.forest (by decide)).mpr
    ⟨hascending.parentsFirst 3, 3, by decide, .inl rfl, ?_⟩
  unfold FirstIn
  decide

/-- A process that is the first child all the way up, and a process with a grandchild that was read
before the child. -/
theorem kills_descendants_fails :
    Forest [⟨1, 0⟩, ⟨2, 1⟩] ∧ ¬ KillsDescendants [⟨1, 0⟩, ⟨2, 1⟩] 1 ∧
    killAllDescendants [⟨1, 0⟩, ⟨2, 1⟩] 1 2 = .error .uninitialized ∧
    ¬ KillsDescendants [⟨1, 0⟩, ⟨2, 1⟩, ⟨10, 1⟩, ⟨4, 20⟩, ⟨20, 10⟩] 10 ∧
    killAllDescendants [⟨1, 0⟩, ⟨2, 1⟩, ⟨10, 1⟩, ⟨4, 20⟩, ⟨20, 10⟩] 10 1 = .ok [] := by
  have hascending : Ascending [⟨1, 0⟩, ⟨2, 1⟩] := ⟨by decide, by decide⟩
  refine ⟨hascending.forest, ?_, rfl, ?_, rfl⟩
  · rintro ⟨rounds, killed, h, -⟩
    match rounds, h with
    | 0, h => cases h
    | 1, h => cases h
    | rounds + 2, h => cases h
  · rintro ⟨rounds, killed, h, -, hmem⟩
    have hchild : IsDescendant [⟨1, 0⟩, ⟨2, 1⟩, ⟨10, 1⟩, ⟨4, 20⟩, ⟨20, 10⟩] 10 20 :=
      .single (by decide : (⟨20, 10⟩ : Process) ∈ _)
    have hkilled := (hmem 20).mpr hchild
    match rounds, h with
    | 0, h => cases h
    | rounds + 1, h =>
        cases h
        cases hkilled

end Deai.Descendants
