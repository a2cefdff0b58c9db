import Deai.SplicedForest

/-!
# The list of the nodes below a node

When all nodes of a forest were spliced into the rings of their parents, the pointers lead from
a node through all nodes below it, if none of these was lost. What comes behind them is not below
the node. It is the parent of the roots if the node and all nodes above it are first children.
-/
namespace Deai.SplicedSubtree
open SplicedForest
variable {α : Type*} [DecidableEq α] {par : α → Option α}

/-- Each node points to the next one of the list, and the last one to `n`. -/
def Follows (next : Option α → Option α) : List α → Option α → Prop
  | [], _ => True
  | x :: xs, n => next (some x) = xs.head?.or n ∧ Follows next xs n

omit [DecidableEq α] in
theorem follows_append {next : Option α → Option α} {xs ys : List α} {n : Option α} :
    Follows next (xs ++ ys) n ↔ Follows next xs (ys.head?.or n) ∧ Follows next ys n := by
  induction xs with
  | nil => simp [Follows]
  | cons x xs ih =>
      simp only [List.cons_append, Follows, ih, List.head?_append]
      cases xs.head? <;> simp [and_assoc]

omit [DecidableEq α] in
theorem Follows.congr {next next' : Option α → Option α} {xs : List α} {n : Option α}
    (h : Follows next xs n) (hnext : ∀ x ∈ xs, next' (some x) = next (some x)) :
    Follows next' xs n := by
  induction xs with
  | nil => trivial
  | cons x xs ih =>
      refine ⟨?_, ih h.2 fun y hy => hnext y (List.mem_cons_of_mem x hy)⟩
      rw [hnext x List.mem_cons_self]
      exact h.1

omit [DecidableEq α] in
/-- A node of the list points to a node of the list, or it is the last one and points to `n`. -/
theorem Follows.next {next : Option α → Option α} {xs : List α} {n : Option α}
    (h : Follows next xs n) {x : α} (hx : x ∈ xs) :
    (∃ y ∈ xs, next (some x) = some y) ∨ next (some x) = n := by
  induction xs with
  | nil => cases hx
  | cons z xs ih =>
      rcases List.mem_cons.mp hx with rfl | hx
      · cases xs with
        | nil => exact .inr h.1
        | cons y xs => exact .inl ⟨y, by simp, h.1⟩
      · rcases ih h.2 hx with ⟨y, hy, hnext⟩ | hnext
        · exact .inl ⟨y, List.mem_cons_of_mem z hy, hnext⟩
        · exact .inr hnext

omit [DecidableEq α] in
theorem Follows.exists_last {next : Option α → Option α} {xs : List α} {n : Option α}
    (h : Follows next xs n) (hxs : xs ≠ []) : ∃ x ∈ xs, next (some x) = n := by
  induction xs with
  | nil => exact absurd rfl hxs
  | cons x xs ih =>
      cases xs with
      | nil => exact ⟨x, List.mem_cons_self, h.1⟩
      | cons y xs =>
          obtain ⟨z, hz, hnext⟩ := ih h.2 nofun
          exact ⟨z, List.mem_cons_of_mem x hz, hnext⟩

variable (par)

/-- The node `y` is at or below a node that is above `s`, and all nodes from there down to `s`
were taken. -/
def Enters (done : List α) (s : α) (y : Option α) : Prop :=
  ∃ a, Below par a s ∧ (y = a ∨ ∃ z, y = some z ∧ Below par a z) ∧
    ∀ b, (b = s ∨ Below par (some b) s) → Below par a b → b ∈ done

/-- The list from `s` on is the taken nodes below `s`, no node before its parent, and then `n`
comes, which is not below `s`. Another node that points into the list is not below `s` either. -/
structure Subtree (done : List α) (l : Links α) (s : α) (xs : List α) (n : Option α) : Prop where
  head : xs.head? = some s
  follows : Follows l.next xs n
  mem : ∀ x, x ∈ xs ↔ x = s ∨ (x ∈ done ∧ Below par (some s) x)
  nodup : xs.Nodup
  ordered : xs.Pairwise fun x y => par x ≠ some y
  exit : ∀ x, n = some x → ¬ Below par (some s) x
  exit_open : s ∉ done → n = some s
  entry : ∀ y x, l.next y = some x → x ∈ xs → x ≠ s →
    (∃ z ∈ xs, y = some z) ∨ Enters par done s y

variable {par}

omit [DecidableEq α] in
theorem subtree_single (hforest : ∀ x, Below par none x) (s : α) :
    Subtree par [] Links.single s [s] (some s) where
  head := rfl
  follows := ⟨rfl, trivial⟩
  mem := by simp
  nodup := List.nodup_singleton s
  ordered := List.pairwise_singleton _ s
  exit := by
    intro x hx
    cases hx
    exact not_below_self (hforest s)
  exit_open := fun _ => rfl
  entry := by
    intro y x _ hx hne
    exact absurd (List.mem_singleton.mp hx) hne

section
variable {done : List α} {l : Links α} {s i : α} {xs : List α} {n : Option α}

omit [DecidableEq α] in
theorem Enters.append {y : Option α} (h : Enters par done s y) (i : α) :
    Enters par (done ++ [i]) s y := by
  obtain ⟨a, ha, hy, hdone⟩ := h
  exact ⟨a, ha, hy, fun b hb hab => List.mem_append_left [i] (hdone b hb hab)⟩

omit [DecidableEq α] in
/-- A node that is not taken yet is no parent of a node in the list, if it has no taken child. -/
theorem Subtree.not_parent (hforest : ∀ x, Below par none x) (h : Subtree par done l s xs n)
    (hbelow : Below par (some s) i) (halone : ∀ c ∈ done, par c ≠ some i) {x : α} (hx : x ∈ xs) :
    par x ≠ some i := by
  intro hpar
  rcases (h.mem x).mp hx with rfl | ⟨hdone, -⟩
  · exact not_below_self (hforest i) (Below.trans (.parent hpar) hbelow)
  · exact halone x hdone hpar

omit [DecidableEq α] in
theorem mem_insert {x i p : α} {before after : List α} :
    x ∈ before ++ p :: i :: after ↔ x = i ∨ x ∈ before ++ p :: after := by
  simp only [List.mem_append, List.mem_cons]
  rw [or_left_comm (a := x = p), or_left_comm]

/-- A node below `s` is inserted after its parent. -/
theorem subtree_insert (hforest : ∀ x, Below par none x) (hl : Rings par done l) (hi : i ∉ done)
    (hbelow : Below par (some s) i) (halone : ∀ c ∈ done, par c ≠ some i)
    (hparent : ∀ y, par i = some y → Below par (some s) y → y ∈ done)
    (h : Subtree par done l s xs n) :
    ∃ xs', Subtree par (done ++ [i]) (attach par l i) s xs' n := by
  have hself : l.next (some i) = some i := (next_self_iff hl hi).mpr halone
  have hprev : l.prev (some i) = some i :=
    (hl.prev_of_next _ _ (open_of_not_mem hi) hself).symm
  obtain ⟨p, hp, hpar⟩ : ∃ p ∈ xs, par i = some p := by
    cases hbelow with
    | parent hpar => exact ⟨s, (h.mem s).mpr (.inl rfl), hpar⟩
    | up hpar hy => exact ⟨_, (h.mem _).mpr (.inr ⟨hparent _ hpar hy, hy⟩), hpar⟩
  have hnew : i ∉ xs := by
    intro hmem
    rcases (h.mem i).mp hmem with rfl | ⟨hdone, -⟩
    · exact not_below_self (hforest i) hbelow
    · exact hi hdone
  obtain ⟨before, after, rfl⟩ := List.append_of_mem hp
  have hnext : ∀ y, (attach par l i).next y =
      if y = some i then l.next (some p) else if y = some p then some i else l.next y := by
    intro y
    rw [attach_next, hprev, hpar, hself]
  have hkept : ∀ x ∈ before ++ p :: after, x ≠ p →
      (attach par l i).next (some x) = l.next (some x) := by
    intro x hx hne
    have hxi : some x ≠ some i := by
      intro heq
      cases heq
      exact hnew hx
    rw [hnext, if_neg hxi, if_neg fun heq => hne (Option.some.inj heq)]
  obtain ⟨-, hnodup, hdisjoint⟩ := List.nodup_append.mp h.nodup
  obtain ⟨hfollows, hstep, hrest⟩ := follows_append.mp h.follows
  refine ⟨before ++ p :: i :: after, ?_, ?_, ?_, ?_, ?_, h.exit, ?_, ?_⟩
  · have hhead := h.head
    cases before with
    | nil => exact hhead
    | cons x before => exact hhead
  · refine follows_append.mpr ⟨hfollows.congr ?_, ?_, ?_, hrest.congr ?_⟩
    · intro x hx
      exact hkept x (by simp [hx]) (hdisjoint x hx p List.mem_cons_self)
    · rw [hnext, if_neg, if_pos rfl]
      · rfl
      · intro heq
        cases heq
        exact hnew hp
    · rw [hnext, if_pos rfl]
      exact hstep
    · intro x hx
      refine hkept x (by simp [hx]) ?_
      rintro rfl
      exact (List.nodup_cons.mp hnodup).1 hx
  · intro x
    rw [mem_insert, h.mem x, List.mem_append, List.mem_singleton]
    constructor
    · rintro (rfl | rfl | ⟨hx, hxbelow⟩)
      · exact .inr ⟨.inr rfl, hbelow⟩
      · exact .inl rfl
      · exact .inr ⟨.inl hx, hxbelow⟩
    · rintro (rfl | ⟨hx | rfl, hxbelow⟩)
      · exact .inr (.inl rfl)
      · exact .inr (.inr ⟨hx, hxbelow⟩)
      · exact .inl rfl
  · have hperm : (before ++ p :: i :: after).Perm (i :: (before ++ p :: after)) := by
      have hmiddle : ((before ++ [p]) ++ i :: after).Perm (i :: ((before ++ [p]) ++ after)) :=
        List.perm_middle
      simpa using hmiddle
    exact hperm.nodup_iff.mpr (List.nodup_cons.mpr ⟨hnew, h.nodup⟩)
  · have hnot : ∀ x ∈ before ++ p :: after, par x ≠ some i := fun x hx =>
      h.not_parent hforest hbelow halone hx
    obtain ⟨hbefore, hafter, hcross⟩ := List.pairwise_append.mp h.ordered
    obtain ⟨hpafter, hafter⟩ := List.pairwise_cons.mp hafter
    refine List.pairwise_append.mpr ⟨hbefore, ?_, ?_⟩
    · refine List.pairwise_cons.mpr ⟨?_, List.pairwise_cons.mpr ⟨?_, hafter⟩⟩
      · intro x hx
        rcases List.mem_cons.mp hx with rfl | hx
        · exact hnot p hp
        · exact hpafter x hx
      · intro x hx heq
        rw [hpar] at heq
        cases heq
        exact (List.nodup_cons.mp hnodup).1 hx
    · intro x hx y hy
      rcases List.mem_cons.mp hy with rfl | hy
      · exact hcross x hx y List.mem_cons_self
      rcases List.mem_cons.mp hy with rfl | hy
      · exact hnot x (by simp [hx])
      · exact hcross x hx y (List.mem_cons_of_mem p hy)
  · intro hs
    exact h.exit_open fun hs' => hs (by simp [hs'])
  · intro y x hy hx hne
    rw [hnext] at hy
    split_ifs at hy with hyi hyp
    · exact .inl ⟨i, by simp, hyi⟩
    · exact .inl ⟨p, by simp, hyp⟩
    · have hxi : x ≠ i := by
        rintro rfl
        exact hyi ((hl.prev_of_next _ y (open_of_not_mem hi) hy).trans hprev)
      have hx' : x ∈ before ++ p :: after := (mem_insert.mp hx).resolve_left hxi
      rcases h.entry y x hy hx' hne with ⟨z, hz, rfl⟩ | henters
      · exact .inl ⟨z, mem_insert.mpr (.inr hz), rfl⟩
      · exact .inr (henters.append i)

omit [DecidableEq α] in
/-- A node whose parent is in the list is below `s`. -/
theorem Subtree.parent_not_mem (h : Subtree par done l s xs n) (hi : ¬ Below par (some s) i) {p : α}
    (hpar : par i = some p) : p ∉ xs := by
  intro hp
  rcases (h.mem p).mp hp with rfl | ⟨-, hbelow⟩
  · exact hi (.parent hpar)
  · exact hi (.up hpar hbelow)

/-- What follows the parent of a node that is not below `s` is not below `s`, unless the list can be
entered there. -/
theorem next_parent_not_below (hforest : ∀ x, Below par none x) (hl : Rings par done l)
    (h : Subtree par done l s xs n) (hi : ¬ Below par (some s) i)
    (hnot : ¬ Enters par done s (par i)) {x : α} (hx : l.next (par i) = some x) :
    ¬ Below par (some s) x := by
  intro hbelow
  have hxs : x ≠ s := by
    rintro rfl
    exact not_below_self (hforest x) hbelow
  by_cases hdone : x ∈ done
  · rcases h.entry _ x hx ((h.mem x).mpr (.inr ⟨hdone, hbelow⟩)) hxs with ⟨z, hz, hpar⟩ | henters
    · exact h.parent_not_mem hi hpar hz
    · exact hnot henters
  · -- a node that was not taken follows a node of its own ring
    have hopen := open_of_not_mem hdone
    have hprev := hl.prev_of_next _ _ hopen hx
    rcases firstPath_below (hl.prev_path _ hopen) with hself | ⟨z, -, hz, hzbelow⟩
    · exact hi (.up (hprev.trans hself) hbelow)
    · exact hi (.up (hprev.trans hz) (hbelow.trans hzbelow))

omit [DecidableEq α] in
/-- The last node of the list gets a new successor. -/
theorem follows_last {next next' : Option α → Option α} {xs : List α} {n n' last : Option α}
    (h : Follows next xs n) (hxs : xs.Nodup) (hne : xs ≠ [])
    (hlast : ∀ x ∈ xs, next (some x) = n → some x = last) (hnext : next' last = n')
    (hkept : ∀ x ∈ xs, some x ≠ last → next' (some x) = next (some x)) : Follows next' xs n' := by
  rcases List.eq_nil_or_concat xs with rfl | ⟨ys, z, rfl⟩
  · exact absurd rfl hne
  · rw [List.concat_eq_append] at *
    obtain ⟨hys, hz, -⟩ := follows_append.mp h
    have hzlast : some z = last := hlast z (by simp) hz
    have hdisjoint := (List.nodup_append.mp hxs).2.2
    refine follows_append.mpr ⟨hys.congr ?_, ?_, trivial⟩
    · intro x hx
      refine hkept x (by simp [hx]) ?_
      rw [← hzlast]
      intro heq
      exact hdisjoint x hx z (by simp) (Option.some.inj heq)
    · rw [hzlast]
      exact hnext

/-- The node `s` itself: its list goes behind its parent, with or without `s`. -/
theorem subtree_self (hforest : ∀ x, Below par none x) (hl : Rings par done l) (hs : s ∉ done)
    (h : Subtree par done l s xs n) :
    Subtree par (done ++ [s]) (attach par l s) s xs (l.next (par s)) := by
  have hopen := open_of_not_mem hs
  have hcycle := not_below_self (hforest s)
  have hn : n = some s := h.exit_open hs
  have hmem : s ∈ xs := (h.mem s).mpr (.inl rfl)
  have hlast : ∀ x, l.next (some x) = n → some x = l.prev (some s) := fun x hx =>
    hl.prev_of_next _ _ hopen (hx.trans hn)
  have hnot : ¬ Enters par done s (par s) := by
    rintro ⟨a, ha, -, hdone⟩
    exact hs (hdone s (.inl rfl) ha)
  refine ⟨h.head, ?_, ?_, h.nodup, h.ordered, ?_, ?_, ?_⟩
  · refine follows_last h.follows h.nodup (List.ne_nil_of_mem hmem) (fun x _ hx => hlast x hx) ?_ ?_
    · rw [attach_next, if_pos rfl]
    · intro x hx hne
      rw [attach_next, if_neg hne, if_neg]
      intro heq
      exact h.parent_not_mem hcycle heq.symm hx
  · intro x
    rw [h.mem x]
    constructor
    · rintro (rfl | ⟨hx, hbelow⟩)
      · exact .inl rfl
      · exact .inr ⟨by simp [hx], hbelow⟩
    · rintro (rfl | ⟨hx, hbelow⟩)
      · exact .inl rfl
      · rcases List.mem_append.mp hx with hx | hx
        · exact .inr ⟨hx, hbelow⟩
        · exact .inl (List.mem_singleton.mp hx)
  · exact fun x hx => next_parent_not_below hforest hl h hcycle hnot hx
  · intro hs'
    exact absurd (by simp) hs'
  · intro y x hy hx hne
    rw [attach_next] at hy
    split_ifs at hy with hylast hyparent
    · obtain ⟨z, hz, hznext⟩ := h.follows.exists_last (List.ne_nil_of_mem hmem)
      exact .inl ⟨z, hz, hylast.trans (hlast z hznext).symm⟩
    · refine .inr ⟨par s, .parent rfl, .inl hyparent, ?_⟩
      rintro b (rfl | hb) hab
      · simp
      · exact absurd hab (not_between (hforest b) hb)
    · rcases h.entry y x hy hx hne with hz | henters
      · exact .inl hz
      · exact .inr (henters.append s)

omit [DecidableEq α] in
/-- If the list is entered below `a` at the parent of a node, it is below `a` at the node. -/
theorem below_of_parent {a : Option α} (h : par i = a ∨ ∃ z, par i = some z ∧ Below par a z) :
    Below par a i := by
  rcases h with hpar | ⟨z, hpar, hbelow⟩
  · exact .parent hpar
  · exact .up hpar hbelow

omit [DecidableEq α] in
/-- A node whose ring ends in the list is above `s`. -/
theorem Subtree.above (h : Subtree par done l s xs n) (hi : i ∉ xs)
    (hnot : ¬ Below par (some s) i) {x : α} (hx : x ∈ xs)
    (hbelow : some x = some i ∨ Below par (some i) x) : Below par (some i) s := by
  rcases hbelow with heq | hbelow
  · cases heq
    exact absurd hx hi
  · rcases (h.mem x).mp hx with rfl | ⟨-, hxs⟩
    · exact hbelow
    · rcases hbelow.linear hxs with heq | ⟨y, heq, hy⟩ | ⟨y, heq, hy⟩
      · cases heq
        exact absurd ((h.mem s).mpr (.inl rfl)) hi
      · cases heq
        exact absurd hy hnot
      · cases heq
        exact hy

omit [DecidableEq α] in
/-- The list is entered at the parent of a node if it was entered at the node. -/
theorem enters_parent (hforest : ∀ x, Below par none x) (h : Enters par done s (some i)) :
    Enters par (done ++ [i]) s (par i) := by
  obtain ⟨a, ha, heq | ⟨z, hz, hbelow⟩, hdone⟩ := h
  · subst heq
    refine ⟨par i, Below.trans (.parent rfl) ha, .inl rfl, ?_⟩
    rintro b (rfl | hb) hab
    · exact List.mem_append_left _ (hdone b (.inl rfl) ha)
    · rcases hb.linear ha with heq | ⟨y, heq, hy⟩ | ⟨y, heq, hy⟩
      · cases heq
        simp
      · cases heq
        exact List.mem_append_left _ (hdone b (.inr hb) hy)
      · cases heq
        exact absurd hab (not_between (hforest b) hy)
  · cases hz
    refine ⟨a, ha, ?_, fun b hb hab => List.mem_append_left _ (hdone b hb hab)⟩
    cases hbelow with
    | parent hpar => exact .inl hpar
    | up hpar hy => exact .inr ⟨_, hpar, hy⟩

/-- Any other node. If its ring ends with the list, the list is followed by something else then. -/
theorem subtree_other (hforest : ∀ x, Below par none x) (hl : Rings par done l) (hi : i ∉ done)
    (his : i ≠ s) (hnot : ¬ Below par (some s) i) (h : Subtree par done l s xs n) :
    ∃ n', Subtree par (done ++ [i]) (attach par l i) s xs n' := by
  have hopen := open_of_not_mem hi
  have hixs : i ∉ xs := by
    intro hmem
    rcases (h.mem i).mp hmem with heq | ⟨hdone, -⟩
    · exact his heq
    · exact hi hdone
  have hnext_last : l.next (l.prev (some i)) = some i := hl.next_prev _ hopen
  have hprev : ∃ z, l.prev (some i) = some z ∧ (some z = some i ∨ Below par (some i) z) := by
    rcases firstPath_below (hl.prev_path _ hopen) with hself | ⟨z, -, hz, hbelow⟩
    · exact ⟨i, hself, .inl rfl⟩
    · exact ⟨z, hz, .inr hbelow⟩
  obtain ⟨last, hlast, hlast_below⟩ := hprev
  have hparent : ∀ x ∈ xs, some x ≠ par i := by
    intro x hx heq
    exact h.parent_not_mem hnot heq.symm hx
  have hmem : ∀ x, x ∈ xs ↔ x = s ∨ (x ∈ done ++ [i] ∧ Below par (some s) x) := by
    intro x
    rw [h.mem x]
    constructor
    · rintro (rfl | ⟨hx, hbelow⟩)
      · exact .inl rfl
      · exact .inr ⟨by simp [hx], hbelow⟩
    · rintro (rfl | ⟨hx, hbelow⟩)
      · exact .inl rfl
      · rcases List.mem_append.mp hx with hx | hx
        · exact .inr ⟨hx, hbelow⟩
        · rw [List.mem_singleton.mp hx] at hbelow
          exact absurd hbelow hnot
  have hentry : ∀ y x, (attach par l i).next y = some x → x ∈ xs → x ≠ s →
      (∃ z ∈ xs, y = some z) ∨ Enters par (done ++ [i]) s y := by
    intro y x hy hx hne
    rw [attach_next] at hy
    split_ifs at hy with hylast hyparent
    · rcases h.entry _ x hy hx hne with ⟨z, hz, hpar⟩ | ⟨a, ha, hpar, hdone⟩
      · exact absurd hpar.symm (hparent z hz)
      · have hai : Below par a i := below_of_parent hpar
        refine .inr ⟨a, ha, .inr ⟨last, hylast.trans hlast, ?_⟩,
          fun b hb hab => List.mem_append_left _ (hdone b hb hab)⟩
        rcases hlast_below with heq | hbelow
        · cases heq
          exact hai
        · exact hai.trans hbelow
    · rcases h.entry _ x hy hx hne with ⟨z, hz, heq⟩ | henters
      · cases heq
        exact absurd hz hixs
      · rw [hyparent]
        exact .inr (enters_parent hforest henters)
    · rcases h.entry y x hy hx hne with hz | henters
      · exact .inl hz
      · exact .inr (henters.append i)
  by_cases hends : last ∈ xs
  · -- the list ends the ring of `i`, so `i` is above `s` and follows it
    have habove : Below par (some i) s := h.above hixs hnot hends hlast_below
    have hlast_next : l.next (some last) = some i := by
      rw [← hlast]
      exact hnext_last
    have hn : n = some i := by
      rcases h.follows.next hends with ⟨y, hy, hnext⟩ | hnext
      · rw [hlast_next] at hnext
        cases hnext
        exact absurd hy hixs
      · exact hnext.symm.trans hlast_next
    have hnot_enters : ¬ Enters par done s (par i) := by
      rintro ⟨a, ha, hpar, hdone⟩
      exact hi (hdone i (.inr habove) (below_of_parent hpar))
    refine ⟨l.next (par i), h.head, ?_, hmem, h.nodup, h.ordered, ?_, ?_, hentry⟩
    · refine follows_last h.follows h.nodup (List.ne_nil_of_mem hends) ?_
        (by rw [attach_next, if_pos rfl]) ?_
      · exact fun x _ hx => hl.prev_of_next _ _ hopen (hx.trans hn)
      · intro x hx hne
        rw [attach_next, if_neg hne, if_neg (hparent x hx)]
    · exact fun x hx => next_parent_not_below hforest hl h hnot hnot_enters hx
    · intro hs
      have hn' := h.exit_open fun hs' => hs (by simp [hs'])
      rw [hn] at hn'
      exact absurd (Option.some.inj hn') his
  · refine ⟨n, h.head, ?_, hmem, h.nodup, h.ordered, h.exit, ?_, hentry⟩
    · refine h.follows.congr fun x hx => ?_
      rw [attach_next, hlast, if_neg, if_neg (hparent x hx)]
      intro heq
      cases heq
      exact hends hx
    · exact fun hs => h.exit_open fun hs' => hs (by simp [hs'])

end

/-! ## All nodes -/

variable (par) in
def attachAll (xs : List α) : Links α := xs.foldl (attach par) Links.single

/-- A fact about the pointers that every step keeps holds in the end. -/
theorem attachAll_induction {motive : List α → Links α → Prop} {xs : List α}
    (hstart : motive [] Links.single)
    (hstep : ∀ done i rest l, xs = done ++ i :: rest → motive done l →
      motive (done ++ [i]) (attach par l i)) : motive xs (attachAll par xs) := by
  have hrun : ∀ rest done l, xs = done ++ rest → motive done l →
      motive xs (rest.foldl (attach par) l) := by
    intro rest
    induction rest with
    | nil =>
        intro done l heq h
        rw [List.append_nil] at heq
        exact heq ▸ h
    | cons i rest ih =>
        intro done l heq h
        refine ih (done ++ [i]) _ ?_ (hstep done i rest l heq h)
        rw [heq, List.append_assoc]
        rfl
  exact hrun xs [] Links.single rfl hstart

section
variable {xs : List α} (hforest : ∀ x, Below par none x) (hxs : xs.Nodup)

omit [DecidableEq α] in
include hxs in
theorem not_mem_of_split {done rest : List α} {i : α} (h : xs = done ++ i :: rest) : i ∉ done := by
  intro hi
  subst h
  exact (List.nodup_append.mp hxs).2.2 i hi i List.mem_cons_self rfl

include hforest hxs

theorem attachAll_rings : Rings par xs (attachAll par xs) :=
  attachAll_induction rings_single fun _ _ _ _ heq hl =>
    rings_attach hforest hl (not_mem_of_split hxs heq)

/-- No node points to a node that comes after one of its children. -/
theorem attachAll_lost {d : α} (hd : Late par xs d) (y : Option α) :
    (attachAll par xs).next y ≠ some d := by
  have hboth : Rings par xs (attachAll par xs) ∧
      ∀ d, Late par xs d → ∀ y, (attachAll par xs).next y ≠ some d := by
    refine attachAll_induction (motive := fun done l =>
      Rings par done l ∧ ∀ d, Late par done d → ∀ y, l.next y ≠ some d) ⟨rings_single, ?_⟩ ?_
    · rintro d ⟨before, after, heq, -⟩
      cases before <;> cases heq
    · rintro done i rest l heq ⟨hl, hlost⟩
      have hi := not_mem_of_split hxs heq
      exact ⟨rings_attach hforest hl hi, lost_attach hforest hl hi hlost⟩
  exact hboth.2 d hd y

/-- If no node below `s` comes after one of its children, the list from `s` on is the nodes below
`s`. -/
theorem exists_subtree (hclosed : ∀ x y, par x = some y → y ∈ xs) {s : α}
    (hlate : ∀ d, Below par (some s) d → ¬ Late par xs d) :
    ∃ ys n, Subtree par xs (attachAll par xs) s ys n := by
  have hboth : Rings par xs (attachAll par xs) ∧
      ∃ ys n, Subtree par xs (attachAll par xs) s ys n := by
    refine attachAll_induction (motive := fun done l =>
      Rings par done l ∧ ∃ ys n, Subtree par done l s ys n)
      ⟨rings_single, [s], some s, subtree_single hforest s⟩ ?_
    rintro done i rest l heq ⟨hl, ys, n, h⟩
    have hi := not_mem_of_split hxs heq
    refine ⟨rings_attach hforest hl hi, ?_⟩
    by_cases hbelow : Below par (some s) i
    · have halone : ∀ c ∈ done, par c ≠ some i := fun c hc hpar =>
        hlate i hbelow ⟨done, rest, heq, c, hc, hpar⟩
      have hparent : ∀ y, par i = some y → Below par (some s) y → y ∈ done := by
        intro y hpar hy
        by_contra hdone
        have hmem := hclosed i y hpar
        rw [heq] at hmem
        rcases List.mem_append.mp hmem with hmem | hmem
        · exact hdone hmem
        · rcases List.mem_cons.mp hmem with rfl | hmem
          · exact not_below_self (hforest y) (.parent hpar)
          · obtain ⟨mid, after, rfl⟩ := List.append_of_mem hmem
            refine hlate y hy ⟨done ++ i :: mid, after, ?_, i, by simp, hpar⟩
            rw [heq]
            simp
      obtain ⟨ys', h'⟩ := subtree_insert hforest hl hi hbelow halone hparent h
      exact ⟨ys', n, h'⟩
    · by_cases his : i = s
      · subst his
        exact ⟨ys, _, subtree_self hforest hl hi h⟩
      · obtain ⟨n', h'⟩ := subtree_other hforest hl hi his hbelow h
        exact ⟨ys, n', h'⟩
  exact hboth.2

omit hxs in
/-- The list from `s` on is followed by the parent of the roots, if and only if `s` and every node
above it is the first child of its parent. -/
theorem exit_none_iff {l : Links α} (hl : Rings par xs l) {s : α} {ys : List α} {n : Option α}
    (h : Subtree par xs l s ys n) :
    n = none ↔ ∀ a, a = s ∨ Below par (some a) s → FirstIn par xs a := by
  have hopen : ∀ x ∈ xs, (none : Option α) ≠ some x := fun _ _ => nofun
  have hpath := hl.prev_path none hopen
  have hs : s ∈ ys := (h.mem s).mpr (.inl rfl)
  constructor
  · intro hn a ha
    obtain ⟨x, hx, hnext⟩ := h.follows.exists_last (List.ne_nil_of_mem hs)
    have hprev := hl.prev_of_next none (some x) hopen (hnext.trans hn)
    rw [← hprev] at hpath
    refine firstIn_of_firstPath hpath x rfl a ?_
    rcases (h.mem x).mp hx with rfl | ⟨-, hbelow⟩
    · exact ha
    · rcases ha with rfl | ha
      · exact .inr hbelow
      · exact .inr (ha.trans hbelow)
  · intro hfirst
    have hthrough := firstPath_through (hforest s) hfirst hpath (hl.prev_leaf none hopen)
    obtain ⟨x, hx, hprev⟩ : ∃ x ∈ ys, l.prev none = some x := by
      rcases firstPath_below hthrough with heq | ⟨x, hx, heq, hbelow⟩
      · exact ⟨s, hs, heq⟩
      · exact ⟨x, (h.mem x).mpr (.inr ⟨hx, hbelow⟩), heq⟩
    have hnext := hl.next_prev none hopen
    rw [hprev] at hnext
    rcases h.follows.next hx with ⟨y, -, hy⟩ | hy
    · cases hnext.symm.trans hy
    · exact hy.symm.trans hnext

end

end Deai.SplicedSubtree
