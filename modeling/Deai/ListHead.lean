import Deai.CircularNodes
import Mathlib.Data.Option.Basic
import Mathlib.Data.Set.Insert

/-!
# Lists of `list.h`

The nodes are `list_head`s inside of other structures. Memory that is zero has null pointers, and
a function that follows one does not return. Of all the nodes that have been initialized, each is
the head of a list or in one of them. A node that is in no list is the head of an empty one.
-/
namespace Deai.ListHead
open LinkedNodes

/-- The `list_head`s of all nodes. -/
structure Links (N : Type*) where
  next : N → Option N
  prev : N → Option N

variable {N : Type*} [DecidableEq N]

def Links.setNext (s : Links N) (x y : N) : Links N :=
  {s with next := Function.update s.next x (some y)}

def Links.setPrev (s : Links N) (x y : N) : Links N :=
  {s with prev := Function.update s.prev x (some y)}

/-- `INIT_LIST_HEAD` -/
def initListHead (s : Links N) (list : N) : Links N := (s.setNext list list).setPrev list list

/-- `__list_add` -/
def listAddBetween (s : Links N) (n prev next : N) : Links N :=
  let s := s.setPrev next n
  let s := s.setNext n next
  let s := s.setPrev n prev
  s.setNext prev n

/-- `list_add` -/
def listAdd (s : Links N) (n head : N) : Option (Links N) :=
  (s.next head).map fun next => listAddBetween s n head next

/-- `list_add_tail` -/
def listAddTail (s : Links N) (n head : N) : Option (Links N) :=
  (s.prev head).map fun prev => listAddBetween s n prev head

/-- `__list_del` -/
def listDelBetween (s : Links N) (prev next : N) : Links N := (s.setPrev next prev).setNext prev next

/-- `__list_del_entry` -/
def listDelEntry (s : Links N) (entry : N) : Option (Links N) :=
  (s.prev entry).bind fun prev => (s.next entry).map fun next => listDelBetween s prev next

/-- `list_del_init` -/
def listDelInit (s : Links N) (entry : N) : Option (Links N) :=
  (listDelEntry s entry).map fun s => initListHead s entry

/-- `list_empty` -/
def listEmpty (s : Links N) (head : N) : Bool := s.next head = some head

/-- `list_first_entry` -/
def listFirstEntry (s : Links N) (head : N) : Option N := s.next head

/-- The nodes that `list_for_each_entry` comes to from a node on, when its body changes no links. -/
def nodesFrom (s : Links N) (head : N) : ℕ → Option N → Option (List N)
  | _, none => none
  | 0, some _ => none
  | rounds + 1, some pos =>
      if pos = head then some [] else (nodesFrom s head rounds (s.next pos)).map (pos :: ·)

/-- `list_for_each_entry` -/
def listForEachEntry (s : Links N) (head : N) (rounds : ℕ) : Option (List N) :=
  nodesFrom s head rounds (s.next head)

/-- The rounds of `list_for_each_entry_safe`. The node after this one is known before the body
runs. -/
def forEachRounds {S : Type*} (links : S → Links N) (body : N → S → Option S) (head : N) :
    ℕ → S → Option N → Option N → Option S
  | _, _, none, _ => none
  | 0, _, some _, _ => none
  | rounds + 1, st, some pos, n =>
      if pos = head then some st
      else (body pos st).bind fun st =>
        n.bind fun n => forEachRounds links body head rounds st (some n)
          (if n = head then none else (links st).next n)

/-- `list_for_each_entry_safe` -/
def listForEachEntrySafe {S : Type*} (links : S → Links N) (body : N → S → Option S) (head : N)
    (rounds : ℕ) (st : S) : Option S :=
  ((links st).next head).bind fun pos =>
    forEachRounds links body head rounds st (some pos) ((links st).next pos)

/-! ## All lists -/

/-- The heads with their lists. No node is in two of them. -/
structure Lists (s : Links N) (heads : Set N) (lists : N → List N) : Prop where
  ring : ∀ h ∈ heads, Ring some s.prev s.next h (lists h)
  apart : ∀ h ∈ heads, ∀ k ∈ heads, h ≠ k → ∀ x ∈ h :: lists h, x ∉ k :: lists k

/-- What is in no list, nor the head of one, is not written to. -/
def Outside (heads : Set N) (lists : N → List N) (s s' : Links N) : Prop :=
  ∀ y, (∀ k ∈ heads, y ∉ k :: lists k) → s'.next y = s.next y ∧ s'.prev y = s.prev y

variable {s s' : Links N} {heads : Set N} {lists : N → List N} {h x n : N}

omit [DecidableEq N] in
theorem Lists.congr (hl : Lists s heads lists) {heads' : Set N} {lists' : N → List N}
    (hheads : ∀ h, h ∈ heads' ↔ h ∈ heads) (hlists : ∀ h ∈ heads, lists' h = lists h) :
    Lists s heads' lists' := by
  refine ⟨fun h hh => ?_, fun h hh k hk hne => ?_⟩
  · rw [hlists h ((hheads h).mp hh)]
    exact hl.ring h ((hheads h).mp hh)
  · rw [hlists h ((hheads h).mp hh), hlists k ((hheads k).mp hk)]
    exact hl.apart h ((hheads h).mp hh) k ((hheads k).mp hk) hne

omit [DecidableEq N] in
/-- Some of the lists. -/
theorem Lists.subset (hl : Lists s heads lists) {heads' : Set N} (hsub : heads' ⊆ heads) :
    Lists s heads' lists :=
  ⟨fun h hh => hl.ring h (hsub hh), fun h hh k hk => hl.apart h (hsub hh) k (hsub hk)⟩

/-- `list_empty` says whether the list has no nodes. -/
theorem Lists.listEmpty_iff (hl : Lists s heads lists) (hh : h ∈ heads) :
    listEmpty s h ↔ lists h = [] := by
  rw [listEmpty, decide_eq_true_iff]
  exact (hl.ring h hh).eq_nil_iff (Option.some_injective N)

omit [DecidableEq N] in
theorem Lists.next_ne (hl : Lists s heads lists) (hh : h ∈ heads) (hx : x ∈ lists h) :
    s.next x ≠ some x := (hl.ring h hh).next_ne (Option.some_injective N) hx

omit [DecidableEq N] in
theorem Lists.listFirstEntry_eq (hl : Lists s heads lists) (hh : h ∈ heads) :
    listFirstEntry s h = first some (lists h) (some h) := (hl.ring h hh).next_head

omit [DecidableEq N] in
/-- Rings that share no node with what was written to are as they were. -/
theorem Lists.frame (hl : Lists s heads lists) (written : N → Prop)
    (hsame : ∀ y, ¬ written y → s'.next y = s.next y ∧ s'.prev y = s.prev y) {k : N}
    (hk : k ∈ heads) (happart : ∀ y ∈ k :: lists k, ¬ written y) :
    Ring some s'.prev s'.next k (lists k) :=
  (hl.ring k hk).congr (fun y hy => (hsame y (happart y hy)).2)
    fun y hy => (hsame y (happart y hy)).1

/-! ## The functions -/

theorem listAddBetween_next (s : Links N) (n p q y : N) : (listAddBetween s n p q).next y =
    if y = p then some n else if y = n then some q else s.next y := by
  simp only [listAddBetween, Links.setNext, Links.setPrev, Function.update_apply]

theorem listAddBetween_prev (s : Links N) (n p q y : N) : (listAddBetween s n p q).prev y =
    if y = n then some p else if y = q then some n else s.prev y := by
  simp only [listAddBetween, Links.setNext, Links.setPrev, Function.update_apply]

omit [DecidableEq N] in
/-- The neighbours of a place in a list are the head or nodes of the list. -/
theorem last_mem_of_eq {a b : List N} {p : N} (hp : last some (some h) a = some p) :
    p ∈ h :: (a ++ b) := by
  obtain ⟨y, hy, hlast⟩ := last_mem_ring some h a
  obtain rfl := Option.some.inj (hp.symm.trans hlast)
  exact List.cons_subset_cons h (List.subset_append_left a b) hy

omit [DecidableEq N] in
theorem first_mem_of_eq {a b : List N} {q : N} (hq : first some b (some h) = some q) :
    q ∈ h :: (a ++ b) := by
  obtain ⟨y, hy, hfirst⟩ := first_mem_ring some h b
  obtain rfl := Option.some.inj (hq.symm.trans hfirst)
  exact List.cons_subset_cons h (List.subset_append_right a b) hy

/-- A node between two parts of a list. -/
theorem listAddBetween_ring {a b : List N} {p q : N}
    (hr : Ring some s.prev s.next h (a ++ b)) (hn : n ∉ h :: (a ++ b))
    (hp : last some (some h) a = some p) (hq : first some b (some h) = some q) :
    Ring some (listAddBetween s n p q).prev (listAddBetween s n p q).next h (a ++ n :: b) := by
  have hmem : ∀ y ∈ h :: (a ++ b), y ≠ n := fun y hy heq => hn (heq ▸ hy)
  have hpn : n ≠ p := (hmem p (last_mem_of_eq hp)).symm
  refine hr.insert (Option.some_injective N) hn ⟨?_, ?_⟩ (fun y hy => ?_) fun y hy => ?_
  · rw [listAddBetween_prev, if_pos rfl, hp]
  · rw [listAddBetween_next, if_neg hpn, if_pos rfl, hq]
  · rw [listAddBetween_next, if_neg (hmem y hy), hp]
    simp only [Option.some.injEq]
  · rw [listAddBetween_prev, if_neg (hmem y hy), hq]
    simp only [Option.some.injEq]

/-- A node that was in no list is in one now. -/
theorem Lists.added (hl : Lists s heads lists) {a b : List N} {p q : N} (hh : h ∈ heads)
    (hn : n ∈ heads) (hne : n ≠ h) (hempty : lists n = []) (hab : lists h = a ++ b)
    (hp : last some (some h) a = some p) (hq : first some b (some h) = some q) :
    Lists (listAddBetween s n p q) (heads \ {n}) (Function.update lists h (a ++ n :: b)) := by
  have hout : ∀ k ∈ heads, k ≠ n → n ∉ k :: lists k := fun k hk hkn =>
    hl.apart n hn k hk (Ne.symm hkn) n List.mem_cons_self
  have hp' : p ∈ h :: lists h := hab ▸ last_mem_of_eq hp
  have hq' : q ∈ h :: lists h := hab ▸ first_mem_of_eq hq
  have hring := hl.ring h hh
  rw [hab] at hring
  have hmem : ∀ k y, y ∈ k :: Function.update lists h (a ++ n :: b) k →
      y ∈ k :: lists k ∨ k = h ∧ y = n := by
    intro k y hy
    by_cases hk : k = h
    · subst hk
      rw [Function.update_self] at hy
      rw [hab]
      have hperm : (k :: (a ++ n :: b)).Perm (n :: k :: (a ++ b)) :=
        (List.perm_middle.cons k).trans (List.Perm.swap ..)
      rcases List.mem_cons.mp (hperm.subset hy) with rfl | hy
      · exact .inr ⟨rfl, rfl⟩
      · exact .inl hy
    · rw [Function.update_of_ne hk] at hy
      exact .inl hy
  refine ⟨fun k hk => ?_, fun k hk k' hk' hkk y hy hy' => ?_⟩
  · by_cases hkh : k = h
    · subst hkh
      rw [Function.update_self]
      exact listAddBetween_ring hring (hab ▸ hout k hh (Ne.symm hne)) hp hq
    · rw [Function.update_of_ne hkh]
      refine hl.frame (fun y => y = n ∨ y = p ∨ y = q) (fun y hy => ?_) hk.1
        fun y hy hwritten => ?_
      · obtain ⟨hyn, hyp, hyq⟩ := not_or.mp hy |>.imp id not_or.mp
        rw [listAddBetween_next, listAddBetween_prev, if_neg hyp, if_neg hyn, if_neg hyn,
          if_neg hyq]
        exact ⟨rfl, rfl⟩
      · rcases hwritten with rfl | rfl | rfl
        · exact hout k hk.1 hk.2 hy
        · exact hl.apart k hk.1 h hh hkh y hy hp'
        · exact hl.apart k hk.1 h hh hkh y hy hq'
  · rcases hmem k y hy with hin | ⟨rfl, rfl⟩
    · rcases hmem k' y hy' with hin' | ⟨rfl, rfl⟩
      · exact hl.apart k hk.1 k' hk'.1 hkk y hin hin'
      · exact hout k hk.1 hk.2 hin
    · rcases hmem k' y hy' with hin' | ⟨heq, -⟩
      · exact hout k' hk'.1 hk'.2 hin'
      · exact hkk heq.symm

theorem listAddBetween_outside {p q : N} (hh : h ∈ heads) (hn : n ∈ heads)
    (hp : p ∈ h :: lists h) (hq : q ∈ h :: lists h) :
    Outside heads lists s (listAddBetween s n p q) := by
  intro y hy
  have hyn : y ≠ n := fun heq => hy n hn (heq ▸ List.mem_cons_self)
  have hyp : y ≠ p := fun heq => hy h hh (heq ▸ hp)
  have hyq : y ≠ q := fun heq => hy h hh (heq ▸ hq)
  rw [listAddBetween_next, listAddBetween_prev, if_neg hyp, if_neg hyn, if_neg hyn, if_neg hyq]
  exact ⟨rfl, rfl⟩

/-- `list_add` puts a node in front. -/
theorem listAdd_spec (hl : Lists s heads lists) (hh : h ∈ heads) (hn : n ∈ heads) (hne : n ≠ h)
    (hempty : lists n = []) :
    ∃ s', listAdd s n h = some s' ∧ Outside heads lists s s' ∧
      Lists s' (heads \ {n}) (Function.update lists h (n :: lists h)) := by
  obtain ⟨q, hqmem, hq⟩ := first_mem_ring some h (lists h)
  refine ⟨listAddBetween s n h q, ?_, ?_, hl.added (a := []) hh hn hne hempty rfl rfl hq⟩
  · rw [listAdd, (hl.ring h hh).next_head, hq]
    rfl
  · exact listAddBetween_outside hh hn List.mem_cons_self hqmem

/-- `list_add_tail` puts a node at the end. -/
theorem listAddTail_spec (hl : Lists s heads lists) (hh : h ∈ heads) (hn : n ∈ heads) (hne : n ≠ h)
    (hempty : lists n = []) :
    ∃ s', listAddTail s n h = some s' ∧ Outside heads lists s s' ∧
      Lists s' (heads \ {n}) (Function.update lists h (lists h ++ [n])) := by
  obtain ⟨p, hpmem, hp⟩ := last_mem_ring some h (lists h)
  refine ⟨listAddBetween s n p h, ?_, ?_,
    hl.added (b := []) hh hn hne hempty (List.append_nil _).symm hp rfl⟩
  · rw [listAddTail, (hl.ring h hh).prev_head, hp]
    rfl
  · exact listAddBetween_outside hh hn hpmem List.mem_cons_self

theorem initListHead_next (s : Links N) (x y : N) :
    (initListHead s x).next y = if y = x then some x else s.next y := by
  simp only [initListHead, Links.setNext, Links.setPrev, Function.update_apply]

theorem initListHead_prev (s : Links N) (x y : N) :
    (initListHead s x).prev y = if y = x then some x else s.prev y := by
  simp only [initListHead, Links.setNext, Links.setPrev, Function.update_apply]

/-- `INIT_LIST_HEAD` makes a list of a node that is in none. -/
theorem initListHead_spec (hl : Lists s heads lists)
    (hx : ∀ h ∈ heads, x ∉ h :: lists h) :
    Lists (initListHead s x) (insert x heads) (Function.update lists x []) := by
  have hne : ∀ h ∈ heads, h ≠ x := fun h hh heq => hx h hh (heq ▸ List.mem_cons_self)
  have hself : Ring some (initListHead s x).prev (initListHead s x).next x [] :=
    Ring.single (by rw [initListHead_prev, if_pos rfl]) (by rw [initListHead_next, if_pos rfl])
  refine ⟨fun h hh => ?_, fun h hh k hk hhk y hy hy' => ?_⟩
  · rcases hh with rfl | hh
    · rw [Function.update_self]
      exact hself
    · rw [Function.update_of_ne (hne h hh)]
      refine hl.frame (fun y => y = x) (fun y hy => ?_) hh fun y hy heq => ?_
      · rw [initListHead_next, initListHead_prev, if_neg hy, if_neg hy]
        exact ⟨rfl, rfl⟩
      · exact hx h hh (heq ▸ hy)
  · rcases hh with rfl | hh
    · rw [Function.update_self, List.mem_singleton] at hy
      obtain rfl := hy
      rcases hk with rfl | hk
      · exact hhk rfl
      · rw [Function.update_of_ne (hne k hk)] at hy'
        exact hx k hk hy'
    · rw [Function.update_of_ne (hne h hh)] at hy
      rcases hk with rfl | hk
      · rw [Function.update_self, List.mem_singleton] at hy'
        exact hx h hh (hy' ▸ hy)
      · rw [Function.update_of_ne (hne k hk)] at hy'
        exact hl.apart h hh k hk hhk y hy hy'

theorem listDelBetween_next (s : Links N) (p q y : N) :
    (listDelBetween s p q).next y = if y = p then some q else s.next y := by
  simp only [listDelBetween, Links.setNext, Links.setPrev, Function.update_apply]

theorem listDelBetween_prev (s : Links N) (p q y : N) :
    (listDelBetween s p q).prev y = if y = q then some p else s.prev y := by
  simp only [listDelBetween, Links.setNext, Links.setPrev, Function.update_apply]

/-- `__list_del_entry` takes a node out of its list. The node still points into it. -/
theorem listDelEntry_spec (hl : Lists s heads lists) {a b : List N} (hh : h ∈ heads)
    (hab : lists h = a ++ x :: b) :
    ∃ s', listDelEntry s x = some s' ∧ Outside heads lists s s' ∧
      Lists s' heads (Function.update lists h (a ++ b)) := by
  have hring := hl.ring h hh
  rw [hab] at hring
  obtain ⟨p, -, hp⟩ := last_mem_ring some h a
  obtain ⟨q, -, hq⟩ := first_mem_ring some h b
  obtain ⟨hprev, hnext⟩ := hring.linked.middle
  rw [hp] at hprev
  rw [hq] at hnext
  have hsub : h :: (a ++ b) ⊆ h :: lists h := by
    rw [hab]
    exact List.cons_subset_cons h
      (List.Sublist.append_left (List.sublist_cons_self x b) a).subset
  refine ⟨listDelBetween s p q, by rw [listDelEntry, hprev, Option.bind_some, hnext]; rfl,
    fun y hy => ?_, ?_⟩
  · have hyp : y ≠ p := fun heq => hy h hh (hsub (heq ▸ last_mem_of_eq hp))
    have hyq : y ≠ q := fun heq => hy h hh (hsub (heq ▸ first_mem_of_eq hq))
    rw [listDelBetween_next, listDelBetween_prev, if_neg hyp, if_neg hyq]
    exact ⟨rfl, rfl⟩
  have hmem : ∀ k y, y ∈ k :: Function.update lists h (a ++ b) k → y ∈ k :: lists k := by
    intro k y hy
    by_cases hk : k = h
    · subst hk
      rw [Function.update_self] at hy
      exact hsub hy
    · rwa [Function.update_of_ne hk] at hy
  refine ⟨fun k hk => ?_, fun k hk k' hk' hkk y hy hy' =>
    hl.apart k hk k' hk' hkk y (hmem k y hy) (hmem k' y hy')⟩
  by_cases hkh : k = h
  · subst hkh
    rw [Function.update_self]
    refine hring.unlink (Option.some_injective N) (fun y _ => ?_) fun y _ => ?_
    · rw [listDelBetween_next, hprev, hnext]
      simp only [Option.some.injEq]
    · rw [listDelBetween_prev, hprev, hnext]
      simp only [Option.some.injEq]
  · rw [Function.update_of_ne hkh]
    refine hl.frame (fun y => y = p ∨ y = q) (fun y hy => ?_) hk fun y hy hwritten => ?_
    · obtain ⟨hyp, hyq⟩ := not_or.mp hy
      rw [listDelBetween_next, listDelBetween_prev, if_neg hyp, if_neg hyq]
      exact ⟨rfl, rfl⟩
    · rcases hwritten with rfl | rfl
      · exact hl.apart k hk h hh hkh y hy (hsub (last_mem_of_eq hp))
      · exact hl.apart k hk h hh hkh y hy (hsub (first_mem_of_eq hq))

/-- `list_del_init` takes a node out of its list, and makes it the head of an empty one. -/
theorem listDelInit_spec (hl : Lists s heads lists) (hh : h ∈ heads) (hx : x ∈ lists h) :
    ∃ s', listDelInit s x = some s' ∧ Outside heads lists s s' ∧
      Lists s' (insert x heads)
        (Function.update (Function.update lists h ((lists h).erase x)) x []) := by
  obtain ⟨a, b, hab⟩ := List.append_of_mem hx
  obtain ⟨s₁, hdel, hout, hl₁⟩ := listDelEntry_spec hl hh hab
  have hnodup := (List.nodup_cons.mp (hl.ring h hh).nodup).2
  rw [hab] at hnodup
  obtain ⟨-, hxb, hdisj⟩ := List.nodup_append.mp hnodup
  have hxa : x ∉ a := fun hmem => hdisj x hmem x List.mem_cons_self rfl
  have herase : (lists h).erase x = a ++ b := by
    rw [hab, List.erase_append_right _ hxa, List.erase_cons_head]
  refine ⟨initListHead s₁ x, by rw [listDelInit, hdel]; rfl, fun y hy => ?_, ?_⟩
  · have hyx : y ≠ x := fun heq => hy h hh (heq ▸ List.mem_cons_of_mem _ hx)
    rw [initListHead_next, initListHead_prev, if_neg hyx, if_neg hyx]
    exact hout y hy
  rw [herase]
  refine initListHead_spec hl₁ fun k hk hmem => ?_
  by_cases hkh : k = h
  · subst hkh
    rw [Function.update_self] at hmem
    rcases List.mem_cons.mp hmem with rfl | hmem
    · exact (List.nodup_cons.mp (hl.ring x hk).nodup).1 hx
    · rcases List.mem_append.mp hmem with hmem | hmem
      · exact hxa hmem
      · exact (List.nodup_cons.mp hxb).1 hmem
  · rw [Function.update_of_ne hkh] at hmem
    exact hl.apart k hk h hh hkh x hmem (List.mem_cons_of_mem _ hx)

/-- `list_del_init` on a node that is in no list. -/
theorem listDelInit_single (hl : Lists s heads lists) (hx : x ∈ heads) (hempty : lists x = []) :
    ∃ s', listDelInit s x = some s' ∧ (∀ y, s'.next y = s.next y ∧ s'.prev y = s.prev y) ∧
      Lists s' heads lists := by
  have hring := hl.ring x hx
  rw [hempty] at hring
  have hnext : s.next x = some x := hring.next_head
  have hprev : s.prev x = some x := hring.prev_head
  have hsame : ∀ y, (initListHead (listDelBetween s x x) x).next y = s.next y ∧
      (initListHead (listDelBetween s x x) x).prev y = s.prev y := by
    intro y
    rw [initListHead_next, listDelBetween_next, initListHead_prev, listDelBetween_prev]
    split_ifs with hy
    · rw [hy, hnext, hprev]
      exact ⟨rfl, rfl⟩
    · exact ⟨rfl, rfl⟩
  refine ⟨_, by simp [listDelInit, listDelEntry, hnext, hprev], hsame, fun k hk => ?_, hl.apart⟩
  exact (hl.ring k hk).congr (fun y _ => (hsame y).2) fun y _ => (hsame y).1

/-! ## Walking a list -/

/-- From any node on, the rest of the list. -/
theorem nodesFrom_eq {before : Option N} {l : List N} (hlinked : Linked some s.prev s.next before l
    (some h)) (hout : h ∉ l) {rounds : ℕ} (hrounds : l.length < rounds) :
    nodesFrom s h rounds (first some l (some h)) = some l := by
  induction l generalizing before rounds with
  | nil =>
      obtain ⟨rounds, rfl⟩ := Nat.exists_eq_add_of_lt hrounds
      exact if_pos rfl
  | cons x l ih =>
      cases rounds with
      | zero => exact absurd hrounds (Nat.not_lt_zero _)
      | succ rounds =>
          obtain ⟨-, hnext, hlinked⟩ := hlinked
          have hx : x ≠ h := fun heq => hout (heq ▸ List.mem_cons_self)
          rw [first_cons, nodesFrom, if_neg hx, hnext,
            ih hlinked (fun hmem => hout (List.mem_cons_of_mem _ hmem))
              (Nat.lt_of_succ_lt_succ hrounds)]
          rfl

theorem Lists.listForEachEntry_eq (hl : Lists s heads lists) (hh : h ∈ heads) {rounds : ℕ}
    (hrounds : (lists h).length < rounds) : listForEachEntry s h rounds = some (lists h) := by
  obtain ⟨hlinked, hnext, -, hnodup⟩ := hl.ring h hh
  rw [listForEachEntry, hnext]
  exact nodesFrom_eq hlinked (List.nodup_cons.mp hnodup).1 hrounds

section
variable {S : Type*} {links : S → Links N} {body : N → S → Option S} {l : List N} {st : S}
  {rounds : ℕ} (keep : N → Bool) (I : List N → S → Prop)

/-- What holds of a walk if each of its steps keeps it. The nodes that were visited are still in
the list if they are to be kept, and those to come are all there. -/
theorem forEachRounds_rule
    (hring : ∀ visited rest st, l = visited ++ rest → I visited st →
      Ring some (links st).prev (links st).next h (visited.filter keep ++ rest))
    (hbody : ∀ visited x rest st, l = visited ++ x :: rest → I visited st →
      ∃ st', body x st = some st' ∧ I (visited ++ [x]) st')
    {visited rest : List N} (hl : l = visited ++ rest) (hI : I visited st) {n : Option N}
    (hn : ∀ x rest', rest = x :: rest' → n = first some rest' (some h))
    (hrounds : rest.length < rounds) :
    ∃ st', forEachRounds links body h rounds st (first some rest (some h)) n = some st' ∧
      I l st' := by
  induction rest generalizing visited st rounds n with
  | nil =>
      obtain ⟨rounds, rfl⟩ := Nat.exists_eq_add_of_lt hrounds
      exact ⟨st, if_pos rfl, by rwa [hl, List.append_nil]⟩
  | cons x rest ih =>
      cases rounds with
      | zero => exact absurd hrounds (Nat.not_lt_zero _)
      | succ rounds =>
          obtain ⟨st', hrun, hI'⟩ := hbody visited x rest st hl hI
          have hl' : l = (visited ++ [x]) ++ rest := by rw [hl, List.append_assoc]; rfl
          have hxh : x ≠ h := fun heq => by
            have hmem : x ∈ visited.filter keep ++ x :: rest :=
              List.mem_append_right _ List.mem_cons_self
            exact (List.nodup_cons.mp (hring _ _ st hl hI).nodup).1 (heq ▸ hmem)
          have hring' := hring _ _ st' hl' hI'
          obtain ⟨q, -, hq⟩ := first_mem_ring some h rest
          obtain ⟨st'', hruns, hI''⟩ := ih (n := if q = h then none else (links st').next q) hl' hI'
            (fun y rest' hrest => by
              subst hrest
              obtain rfl := Option.some.inj hq
              have hyh : y ≠ h := fun heq => (List.nodup_cons.mp hring'.nodup).1
                (heq ▸ List.mem_append_right _ List.mem_cons_self)
              rw [if_neg hyh]
              exact hring'.linked.middle.2)
            (Nat.lt_of_succ_lt_succ hrounds)
          refine ⟨st'', ?_, hI''⟩
          rw [first_cons, forEachRounds, if_neg hxh, hrun, hn x rest rfl, hq]
          rw [hq] at hruns
          exact hruns

theorem listForEachEntrySafe_rule
    (hring : ∀ visited rest st, l = visited ++ rest → I visited st →
      Ring some (links st).prev (links st).next h (visited.filter keep ++ rest))
    (hbody : ∀ visited x rest st, l = visited ++ x :: rest → I visited st →
      ∃ st', body x st = some st' ∧ I (visited ++ [x]) st')
    (hI : I [] st) (hrounds : l.length < rounds) :
    ∃ st', listForEachEntrySafe links body h rounds st = some st' ∧ I l st' := by
  have hstart : Ring some (links st).prev (links st).next h l := hring [] l st rfl hI
  obtain ⟨pos, -, hpos⟩ := first_mem_ring some h l
  have hl : l = [] ++ l := rfl
  obtain ⟨st', hrun, hI'⟩ := forEachRounds_rule keep I hring hbody hl hI
    (n := (links st).next pos) (fun x rest hl => by
      subst hl
      obtain rfl := Option.some.inj hpos
      exact (hstart.linked).2.1) hrounds
  refine ⟨st', ?_, hI'⟩
  rw [listForEachEntrySafe, hstart.next_head, hpos]
  rw [hpos] at hrun
  exact hrun

end

end Deai.ListHead
