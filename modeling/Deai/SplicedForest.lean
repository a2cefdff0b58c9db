import Mathlib.Data.List.Basic
import Mathlib.Logic.Function.Basic
import Mathlib.Tactic

/-!
# Circular lists along a forest

Every node of a forest has a circular list of its own at first. Then the nodes are taken in some
order, and the list of each node is spliced into that of its parent. There is one more node, the
parent of the roots.

`__list_splice` leaves out the node whose list it splices, unless that node is alone in it. So
a node is lost from the list if it has a child that was taken before. The result is a list of
the nodes below a given one if no node there was lost.
-/
namespace Deai.SplicedForest
variable {α : Type*} [DecidableEq α]

/-- The two pointers of every node; `none` is the parent of the roots. -/
structure Links (α : Type*) where
  next : Option α → Option α
  prev : Option α → Option α

/-- `INIT_LIST_HEAD` for all nodes. -/
def Links.single : Links α := ⟨id, id⟩

/-- `__list_splice` -/
def listSplice (l : Links α) (list prev next : Option α) : Links α :=
  let first := l.next list
  let last := l.prev list
  { next := Function.update (Function.update l.next prev first) last next
    prev := Function.update (Function.update l.prev first prev) next last }

variable (par : α → Option α)

/-- The list of a node is put behind its parent. -/
def attach (l : Links α) (i : α) : Links α := listSplice l (some i) (par i) (l.next (par i))

/-! ## The forest -/

/-- The node `a` is above `x`. -/
inductive Below (a : Option α) : α → Prop
  | parent {x : α} (h : par x = a) : Below a x
  | up {x y : α} (h : par x = some y) (hy : Below a y) : Below a x

variable {par}

omit [DecidableEq α] in
theorem Below.trans {a : Option α} {x y : α} (hx : Below par a x) (hy : Below par (some x) y) :
    Below par a y := by
  induction hy with
  | parent h => exact .up h hx
  | up h _ ih => exact .up h ih

omit [DecidableEq α] in
/-- Two nodes above the same node are above one another. -/
theorem Below.linear {a b : Option α} {x : α} (ha : Below par a x) (hb : Below par b x) :
    a = b ∨ (∃ y, a = some y ∧ Below par b y) ∨ ∃ y, b = some y ∧ Below par a y := by
  induction ha with
  | parent h =>
      cases hb with
      | parent h' => exact .inl (h.symm.trans h')
      | up h' hy => exact .inr (.inl ⟨_, h.symm.trans h', hy⟩)
  | up h hy ih =>
      cases hb with
      | parent h' => exact .inr (.inr ⟨_, h'.symm.trans h, hy⟩)
      | up h' hy' =>
          rw [h] at h'
          cases h'
          exact ih hy'

omit [DecidableEq α] in
/-- A node that is below the parent of the roots is not below itself. -/
theorem not_below_self {x : α} (h : Below par none x) : ¬ Below par (some x) x := by
  induction h with
  | parent h =>
      intro hself
      cases hself with
      | parent h' => cases h.symm.trans h'
      | up h' _ => cases h.symm.trans h'
  | up h _ ih =>
      intro hself
      cases hself with
      | parent h' =>
          rw [h] at h'
          cases h'
          exact ih (.parent h)
      | up h' hy =>
          rw [h] at h'
          cases h'
          exact ih (Below.trans (.parent h) hy)

omit [DecidableEq α] in
/-- No node is between a node and its parent. -/
theorem not_between {b x : α} (hb : Below par none b) (hx : Below par (some b) x) :
    ¬ Below par (par x) b := by
  intro hbelow
  cases hx with
  | parent hpar =>
      rw [hpar] at hbelow
      exact not_below_self hb hbelow
  | up hpar hy =>
      rw [hpar] at hbelow
      exact not_below_self hb (hy.trans hbelow)

variable (par)

/-- The node is the first one in the list that has its parent. -/
def FirstIn (xs : List α) (x : α) : Prop := xs.find? (fun c => par c = par x) = some x

/-- The node has a child that comes before it. -/
def Late (xs : List α) (d : α) : Prop :=
  ∃ before after, xs = before ++ d :: after ∧ ∃ c ∈ before, par c = some d

/-- A path downwards, from each node to its first child. -/
inductive FirstPath (xs : List α) (h : Option α) : Option α → Prop
  | refl : FirstPath xs h h
  | step {y : Option α} {x : α} (hy : FirstPath xs h y) (hx : par x = y) (hfirst : FirstIn par xs x) :
      FirstPath xs h (some x)

variable {par}

theorem FirstIn.mem {xs : List α} {x : α} (h : FirstIn par xs x) : x ∈ xs :=
  List.mem_of_find?_eq_some h

theorem FirstIn.append {xs : List α} {x : α} (h : FirstIn par xs x) (ys : List α) :
    FirstIn par (xs ++ ys) x := by
  unfold FirstIn at *
  rw [List.find?_append, h]
  rfl

theorem FirstIn.unique {xs : List α} {x y : α} (hx : FirstIn par xs x) (hy : FirstIn par xs y)
    (h : par x = par y) : x = y := by
  unfold FirstIn at *
  rw [h] at hx
  exact Option.some.inj (hx.symm.trans hy)

theorem firstIn_concat {xs : List α} {x : α} (h : ∀ c ∈ xs, par c ≠ par x) :
    FirstIn par (xs ++ [x]) x := by
  have hnone : xs.find? (fun c => par c = par x) = none := by
    simpa using h
  unfold FirstIn
  rw [List.find?_append, hnone]
  simp

omit [DecidableEq α] in
theorem late_concat {xs : List α} {i d : α} :
    Late par (xs ++ [i]) d ↔ Late par xs d ∨ (d = i ∧ ∃ c ∈ xs, par c = some i) := by
  constructor
  · rintro ⟨before, after, heq, c, hc, hpar⟩
    rcases List.eq_nil_or_concat after with rfl | ⟨after, last, rfl⟩
    · obtain ⟨hxs, hi⟩ := List.append_inj' heq rfl
      cases hi
      exact .inr ⟨rfl, c, hxs ▸ hc, hpar⟩
    · have hlast : xs ++ [i] = (before ++ d :: after) ++ [last] := by simpa using heq
      obtain ⟨hxs, -⟩ := List.append_inj' hlast rfl
      exact .inl ⟨before, after, hxs, c, hc, hpar⟩
  · rintro (⟨before, after, rfl, c, hc, hpar⟩ | ⟨rfl, c, hc, hpar⟩)
    · exact ⟨before, after ++ [i], by simp, c, hc, hpar⟩
    · exact ⟨xs, [], rfl, c, hc, hpar⟩

theorem FirstPath.append {xs : List α} {h y : Option α} (hp : FirstPath par xs h y) (ys : List α) :
    FirstPath par (xs ++ ys) h y := by
  induction hp with
  | refl => exact .refl
  | step _ hx hfirst ih => exact .step ih hx (hfirst.append ys)

theorem FirstPath.trans {xs : List α} {h y z : Option α} (hy : FirstPath par xs h y)
    (hz : FirstPath par xs y z) : FirstPath par xs h z := by
  induction hz with
  | refl => exact hy
  | step _ hx hfirst ih => exact .step ih hx hfirst

/-- The path ends where it starts, or it goes on to a first child. -/
theorem FirstPath.cases_head {xs : List α} {h z : Option α} (hz : FirstPath par xs h z) :
    z = h ∨ ∃ x, par x = h ∧ FirstIn par xs x ∧ FirstPath par xs (some x) z := by
  induction hz with
  | refl => exact .inl rfl
  | step hy hx hfirst ih =>
      rcases ih with rfl | ⟨w, hw, hwfirst, hwpath⟩
      · exact .inr ⟨_, hx, hfirst, .refl⟩
      · exact .inr ⟨w, hw, hwfirst, .step hwpath hx hfirst⟩

/-- The end of the path is below its start. -/
theorem firstPath_below {xs : List α} {h z : Option α} (hz : FirstPath par xs h z) :
    z = h ∨ ∃ x ∈ xs, z = some x ∧ Below par h x := by
  induction hz with
  | refl => exact .inl rfl
  | step hy hx hfirst ih =>
      refine .inr ⟨_, hfirst.mem, rfl, ?_⟩
      rcases ih with rfl | ⟨y, -, rfl, hbelow⟩
      · exact .parent hx
      · exact .up hx hbelow

/-- Every node on the path down from the parent of the roots is a first child. -/
theorem firstIn_of_firstPath {xs : List α} {z : Option α} (hz : FirstPath par xs none z) :
    ∀ y, z = some y → ∀ a, a = y ∨ Below par (some a) y → FirstIn par xs a := by
  induction hz with
  | refl =>
      intro y hy
      cases hy
  | step hy hx hfirst ih =>
      rintro x heq a ha
      cases heq
      rcases ha with rfl | ha
      · exact hfirst
      · cases ha with
        | parent hpar => exact ih a (hx.symm.trans hpar) a (.inl rfl)
        | up hpar hbelow => exact ih _ (hx.symm.trans hpar) a (.inr hbelow)

/-- A path to a leaf goes through `s`, if `s` and the nodes above it are first children. -/
theorem firstPath_through {xs : List α} {s : α} {z : Option α} (hs : Below par none s)
    (hfirst : ∀ a, a = s ∨ Below par (some a) s → FirstIn par xs a)
    (hz : FirstPath par xs none z) (hleaf : ∀ c ∈ xs, par c ≠ z) : FirstPath par xs (some s) z := by
  have hnext : ∀ a x, FirstIn par xs x → par x = a → FirstPath par xs a z →
      FirstPath par xs (some x) z := by
    intro a x hx hpar ha
    rcases ha.cases_head with heq | ⟨w, hw, hwfirst, hwpath⟩
    · exact absurd (hpar.trans heq.symm) (hleaf x hx.mem)
    · rw [hx.unique hwfirst (hpar.trans hw.symm)]
      exact hwpath
  induction hs with
  | parent hpar => exact hnext none _ (hfirst _ (.inl rfl)) hpar hz
  | up hpar _ ih =>
      refine hnext _ _ (hfirst _ (.inl rfl)) hpar (ih fun a ha => hfirst a (.inr ?_))
      rcases ha with rfl | ha
      · exact .parent hpar
      · exact .up hpar ha

/-! ## The rings -/

variable (par) in
/-- The pointers after the nodes in `done` were taken. A node that was not taken yet is at the head
of a ring: the one node that points to it is its predecessor, and the other nodes in the ring are
below it. Its predecessor is where the path of first children ends. -/
structure Rings (done : List α) (l : Links α) : Prop where
  next_prev : ∀ h, (∀ x ∈ done, h ≠ some x) → l.next (l.prev h) = h
  prev_of_next : ∀ h y, (∀ x ∈ done, h ≠ some x) → l.next y = h → y = l.prev h
  next_below : ∀ h, (∀ x ∈ done, h ≠ some x) →
    l.next h = h ∨ ∃ x ∈ done, l.next h = some x ∧ Below par h x
  prev_path : ∀ h, (∀ x ∈ done, h ≠ some x) → FirstPath par done h (l.prev h)
  prev_leaf : ∀ h, (∀ x ∈ done, h ≠ some x) → ∀ c ∈ done, par c ≠ l.prev h

theorem rings_single : Rings par [] (Links.single : Links α) where
  next_prev := fun _ _ => rfl
  prev_of_next := fun _ _ _ h => h
  next_below := fun _ _ => .inl rfl
  prev_path := fun _ _ => .refl
  prev_leaf := fun _ _ _ hc => absurd hc List.not_mem_nil

theorem attach_next (l : Links α) (i : α) (y : Option α) :
    (attach par l i).next y =
      if y = l.prev (some i) then l.next (par i)
      else if y = par i then l.next (some i) else l.next y := by
  simp only [attach, listSplice, Function.update_apply]

theorem attach_prev (l : Links α) (i : α) (y : Option α) :
    (attach par l i).prev y =
      if y = l.next (par i) then l.prev (some i)
      else if y = l.next (some i) then par i else l.prev y := by
  simp only [attach, listSplice, Function.update_apply]

section
variable {done : List α} {l : Links α} {i : α}

omit [DecidableEq α] in
theorem open_of_not_mem (hi : i ∉ done) : ∀ x ∈ done, some i ≠ some x := by
  intro x hx h
  cases h
  exact hi hx

/-- The parent of a node is not in the ring of the node. -/
theorem parent_ne_prev (hforest : ∀ x, Below par none x) (hl : Rings par done l) (hi : i ∉ done) :
    par i ≠ l.prev (some i) := by
  intro h
  rcases firstPath_below (hl.prev_path _ (open_of_not_mem hi)) with hself | ⟨x, -, hx, hbelow⟩
  · exact not_below_self (hforest i) (.parent (h.trans hself))
  · exact not_below_self (hforest i) (.up (h.trans hx) hbelow)

theorem next_parent_ne (hforest : ∀ x, Below par none x) (hl : Rings par done l) (hi : i ∉ done) :
    l.next (par i) ≠ some i := fun h =>
  parent_ne_prev hforest hl hi (hl.prev_of_next _ _ (open_of_not_mem hi) h)

/-- The first node of the list that is spliced was taken. -/
theorem first_taken (hl : Rings par done l) (hi : i ∉ done) :
    ∃ x ∈ done ++ [i], l.next (some i) = some x ∧ (x = i ∨ Below par (some i) x) := by
  rcases hl.next_below _ (open_of_not_mem hi) with hself | ⟨x, hx, hnext, hbelow⟩
  · exact ⟨i, by simp, hself, .inl rfl⟩
  · exact ⟨x, by simp [hx], hnext, .inr hbelow⟩

/-- A node is alone in its ring if and only if none of its children was taken. -/
theorem next_self_iff (hl : Rings par done l) (hi : i ∉ done) :
    l.next (some i) = some i ↔ ∀ c ∈ done, par c ≠ some i := by
  have hopen := open_of_not_mem hi
  constructor
  · intro h
    have hprev : some i = l.prev (some i) := hl.prev_of_next _ _ hopen h
    have hleaf := hl.prev_leaf _ hopen
    rwa [← hprev] at hleaf
  · intro h
    rcases (hl.prev_path _ hopen).cases_head with hself | ⟨x, hx, hfirst, -⟩
    · have hback := hl.next_prev _ hopen
      rwa [hself] at hback
    · exact absurd hx (h x hfirst.mem)

/-- The step that takes one more node. -/
theorem rings_attach (hforest : ∀ x, Below par none x) (hl : Rings par done l) (hi : i ∉ done) :
    Rings par (done ++ [i]) (attach par l i) := by
  have hopen := open_of_not_mem hi
  have hlast : l.next (l.prev (some i)) = some i := hl.next_prev _ hopen
  obtain ⟨f, hf, hfirst, hfbelow⟩ := first_taken hl hi
  have hopens : ∀ h : Option α, (∀ x ∈ done ++ [i], h ≠ some x) →
      (∀ x ∈ done, h ≠ some x) ∧ h ≠ some i ∧ h ≠ l.next (some i) := by
    intro h hh
    refine ⟨fun x hx => hh x (by simp [hx]), hh i (by simp), ?_⟩
    rw [hfirst]
    exact hh f hf
  -- a head that follows the parent gets a new predecessor, and the others keep theirs
  have hprev : ∀ h : Option α, (∀ x ∈ done ++ [i], h ≠ some x) → (attach par l i).prev h =
      if h = l.next (par i) then l.prev (some i) else l.prev h := by
    intro h hh
    rw [attach_prev, if_neg (hopens h hh).2.2]
  have hparent : ∀ h, (∀ x ∈ done, h ≠ some x) → h = l.next (par i) → par i = l.prev h :=
    fun h hh heq => hl.prev_of_next h _ hh heq.symm
  refine ⟨?_, ?_, ?_, ?_, ?_⟩
  · intro h hh
    obtain ⟨hold, hne, -⟩ := hopens h hh
    rw [hprev h hh]
    by_cases heq : h = l.next (par i)
    · rw [if_pos heq, attach_next, if_pos rfl]
      exact heq.symm
    · have hback := hl.next_prev h hold
      have hne_last : l.prev h ≠ l.prev (some i) := by
        intro h'
        rw [h', hlast] at hback
        exact hne hback.symm
      have hne_parent : l.prev h ≠ par i := by
        intro h'
        rw [h'] at hback
        exact heq hback.symm
      rw [if_neg heq, attach_next, if_neg hne_last, if_neg hne_parent]
      exact hback
  · intro h y hh hy
    obtain ⟨hold, hne, hne_first⟩ := hopens h hh
    rw [hprev h hh]
    rw [attach_next] at hy
    split_ifs at hy with hlast' hparent'
    · rw [if_pos hy.symm]
      exact hlast'
    · exact absurd hy.symm hne_first
    · have heq : h ≠ l.next (par i) := by
        intro heq
        exact hparent' ((hl.prev_of_next h y hold hy).trans (hparent h hold heq).symm)
      rw [if_neg heq]
      exact hl.prev_of_next h y hold hy
  · intro h hh
    obtain ⟨hold, hne, -⟩ := hopens h hh
    have hne_last : h ≠ l.prev (some i) := by
      rcases firstPath_below (hl.prev_path _ hopen) with hself | ⟨x, hx, hx', -⟩
      · rw [hself]
        exact hne
      · rw [hx']
        exact hold x hx
    rw [attach_next, if_neg hne_last]
    split_ifs with hpar
    · refine .inr ⟨f, hf, hfirst, ?_⟩
      rcases hfbelow with rfl | hfbelow
      · exact .parent hpar.symm
      · exact Below.trans (.parent hpar.symm) hfbelow
    · rcases hl.next_below h hold with hself | ⟨x, hx, hnext, hbelow⟩
      · exact .inl hself
      · exact .inr ⟨x, by simp [hx], hnext, hbelow⟩
  · intro h hh
    obtain ⟨hold, -, -⟩ := hopens h hh
    rw [hprev h hh]
    split_ifs with heq
    · -- the parent had no child, so the node is its first one, and the path goes on
      have hpar := hparent h hold heq
      have hleaf := hl.prev_leaf h hold
      rw [← hpar] at hleaf
      have hpath := (hl.prev_path h hold).append [i]
      rw [← hpar] at hpath
      exact (FirstPath.step hpath rfl (firstIn_concat hleaf)).trans
        ((hl.prev_path _ hopen).append [i])
    · exact (hl.prev_path h hold).append [i]
  · intro h hh c hc
    obtain ⟨hold, -, -⟩ := hopens h hh
    rw [hprev h hh]
    rcases List.mem_append.mp hc with hc | hc
    · split_ifs with heq
      · exact hl.prev_leaf _ hopen c hc
      · exact hl.prev_leaf h hold c hc
    · rw [List.mem_singleton.mp hc]
      split_ifs with heq
      · exact parent_ne_prev hforest hl hi
      · intro hpar
        rw [hpar, hl.next_prev h hold] at heq
        exact heq rfl

/-- No node points to a lost one. -/
theorem lost_attach (hforest : ∀ x, Below par none x) (hl : Rings par done l) (hi : i ∉ done)
    (hlost : ∀ d, Late par done d → ∀ y, l.next y ≠ some d) :
    ∀ d, Late par (done ++ [i]) d → ∀ y, (attach par l i).next y ≠ some d := by
  intro d hd y
  rw [attach_next]
  rcases late_concat.mp hd with hd | ⟨rfl, c, hc, hpar⟩
  · split_ifs
    · exact hlost d hd _
    · exact hlost d hd _
    · exact hlost d hd y
  · split_ifs with hlast hparent
    · exact next_parent_ne hforest hl hi
    · intro h
      exact (next_self_iff hl hi).mp h c hc hpar
    · intro h
      exact hlast (hl.prev_of_next _ y (open_of_not_mem hi) h)

end

end Deai.SplicedForest
