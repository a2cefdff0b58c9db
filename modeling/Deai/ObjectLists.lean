import Deai.ListHead
import Deai.Collector

/-!
# The lists of objects

An object has a node for the list of the objects that lost a reference, `unreferred_objects`, or
for the local list of the collector, `isolated_roots`. The heap keeps these lists as lists of
objects. Here is what `list.h` makes of them in memory, where the head of the first list is zero
until the first object comes in.
-/
namespace Deai.ObjectLists
open ListHead LinkedNodes ObjectHeap Value

inductive Node where
  | object (o : ObjRef)
  | unreferredObjects
  | isolatedRoots
  deriving DecidableEq

/-- The part of `di_unref_object` that adds an object that still has references. -/
def addUnreferred (s : Links Node) (o : ObjRef) : Option (Links Node) :=
  if listEmpty s (.object o) then
    let s := if s.next .unreferredObjects = none then initListHead s .unreferredObjects else s
    listAdd s (.object o) .unreferredObjects
  else some s

/-- The loop of the collector that takes the revived objects out of its list. -/
def dropRevived (revived : ObjRef → Bool) (rounds : ℕ) (s : Links Node) : Option (Links Node) :=
  listForEachEntrySafe id
    (fun i s => match i with
      | .object o => if revived o then listDelInit s i else some s
      | _ => none)
    .isolatedRoots rounds s

/-- What the heap says about each list. -/
def listsOf (h : Heap) : Node → List Node
  | .object _ => []
  | .unreferredObjects => h.unreferred.map .object
  | .isolatedRoots => h.isolated.map .object

/-- The nodes that are heads of lists. The list of the collector is only there in a round. -/
def headsOf (h : Heap) (round : Bool) : Set Node
  | .object o => o < h.size ∧ h.unlisted o
  | .unreferredObjects => h.headInit
  | .isolatedRoots => round

/-- The memory has the lists that the heap says. -/
structure Represents (s : Links Node) (h : Heap) (round : Bool) : Prop where
  lists : Lists s (headsOf h round) (listsOf h)
  members : ∀ o, o ∈ h.unreferred ∨ o ∈ h.isolated → o < h.size
  zero : h.headInit = false → h.unreferred = [] ∧ s.next .unreferredObjects = none
  outside : round = false → h.isolated = []

variable {s : Links Node} {h : Heap} {round : Bool} {o : ObjRef}

theorem object_injective : Function.Injective Node.object := fun _ _ h => Node.object.inj h

theorem Represents.unreferred_head (hr : Represents s h round) (ho : o ∈ h.unreferred) :
    Node.unreferredObjects ∈ headsOf h round := by
  by_contra hinit
  rw [(hr.zero (Bool.eq_false_iff.mpr hinit)).1] at ho
  exact nomatch ho

theorem Represents.isolated_head (hr : Represents s h round) (ho : o ∈ h.isolated) :
    Node.isolatedRoots ∈ headsOf h round := by
  by_contra hround
  rw [hr.outside (Bool.eq_false_iff.mpr hround)] at ho
  exact nomatch ho

/-- No object is in both lists. -/
theorem Represents.disjoint (hr : Represents s h round) (hu : o ∈ h.unreferred) :
    o ∉ h.isolated := fun hi =>
  hr.lists.apart _ (hr.unreferred_head hu) _ (hr.isolated_head hi) nofun (.object o)
    (List.mem_cons_of_mem _ (List.mem_map_of_mem hu))
    (List.mem_cons_of_mem _ (List.mem_map_of_mem hi))

theorem unlisted_iff : h.unlisted o ↔ o ∉ h.unreferred ∧ o ∉ h.isolated := by
  simp [Heap.unlisted]

/-- An object that is in one of the lists, with the head of that list. What the heap forgets when
it takes the object off is that it was in this list. -/
theorem Represents.listed (hr : Represents s h round) (ho : h.unlisted o = false) :
    ∃ head ∈ headsOf h round, .object o ∈ listsOf h head ∧ (∀ p, head ≠ .object p) ∧
      ∀ k, listsOf (h.listDelInit o) k =
        Function.update (listsOf h) head ((listsOf h head).erase (.object o)) k := by
  have herase : ∀ l : List ObjRef,
      (l.erase o).map Node.object = (l.map Node.object).erase (.object o) := fun l =>
    List.map_erase object_injective l
  by_cases hu : o ∈ h.unreferred
  · refine ⟨.unreferredObjects, hr.unreferred_head hu, List.mem_map_of_mem hu, nofun, fun k => ?_⟩
    cases k with
    | object p => rfl
    | unreferredObjects => exact herase _
    | isolatedRoots =>
        simp only [listsOf, Heap.listDelInit, List.erase_of_not_mem (hr.disjoint hu)]
        rfl
  · have hi : o ∈ h.isolated := by
      by_contra hi
      rw [unlisted_iff.mpr ⟨hu, hi⟩] at ho
      exact nomatch ho
    refine ⟨.isolatedRoots, hr.isolated_head hi, List.mem_map_of_mem hi, nofun, fun k => ?_⟩
    cases k with
    | object p => rfl
    | unreferredObjects =>
        simp only [listsOf, Heap.listDelInit, List.erase_of_not_mem hu]
        rfl
    | isolatedRoots => exact herase _

/-- `list_empty` on an object says whether it is in a list. -/
theorem Represents.listEmpty_object (hr : Represents s h round) (ho : o < h.size) :
    listEmpty s (.object o) = h.unlisted o := by
  cases hun : h.unlisted o with
  | true =>
      have hhead : Node.object o ∈ headsOf h round := ⟨ho, hun⟩
      exact (hr.lists.listEmpty_iff hhead).mpr rfl
  | false =>
      obtain ⟨head, hhead, hmem, -, -⟩ := hr.listed hun
      exact decide_eq_false (hr.lists.next_ne hhead hmem)

/-! ## What the collector and `di_unref_object` do to the lists -/

/-- The lists have no object twice. -/
theorem Represents.nodup (hr : Represents s h round) :
    h.unreferred.Nodup ∧ h.isolated.Nodup := by
  refine ⟨?_, ?_⟩
  · cases hl : h.unreferred with
    | nil => exact List.nodup_nil
    | cons o l =>
        have hring := hr.lists.ring _ (hr.unreferred_head (hl ▸ List.mem_cons_self))
        rw [← hl]
        exact ((List.nodup_cons.mp hring.nodup).2).of_map
  · cases hl : h.isolated with
    | nil => exact List.nodup_nil
    | cons o l =>
        have hring := hr.lists.ring _ (hr.isolated_head (hl ▸ List.mem_cons_self))
        rw [← hl]
        exact ((List.nodup_cons.mp hring.nodup).2).of_map

theorem Represents.unlisted_listDelInit (hr : Represents s h round) (o p : ObjRef) :
    (h.listDelInit o).unlisted p ↔ p = o ∨ h.unlisted p := by
  obtain ⟨hu, hi⟩ := hr.nodup
  simp only [unlisted_iff, Heap.listDelInit, hu.mem_erase_iff, hi.mem_erase_iff]
  tauto

/-- The head of the first list is no part of the other lists while it is zero. -/
theorem zero_outside (hinit : h.headInit = false) :
    ∀ k ∈ headsOf h round, Node.unreferredObjects ∉ k :: listsOf h k := by
  intro k hk hmem
  rcases List.mem_cons.mp hmem with rfl | hmem
  · exact Bool.eq_false_iff.mp hinit hk
  · cases k with
    | object p => exact nomatch hmem
    | unreferredObjects => exact Bool.eq_false_iff.mp hinit hk
    | isolatedRoots =>
        obtain ⟨p, -, hp⟩ := List.mem_map.mp hmem
        exact nomatch hp

/-- `list_del_init` of an object. -/
theorem Represents.listDelInit (hr : Represents s h round) (ho : o < h.size) :
    ∃ s', ListHead.listDelInit s (.object o) = some s' ∧
      Represents s' (h.listDelInit o) round := by
  have hmembers : ∀ p, p ∈ (h.listDelInit o).unreferred ∨ p ∈ (h.listDelInit o).isolated →
      p < h.size := fun p hp =>
    hr.members p (hp.imp List.mem_of_mem_erase List.mem_of_mem_erase)
  have houtside : round = false → (h.listDelInit o).isolated = [] := fun hround => by
    rw [Heap.listDelInit, hr.outside hround]
    rfl
  have hunreferred : h.headInit = false → (h.listDelInit o).unreferred = [] := fun hinit => by
    rw [Heap.listDelInit, (hr.zero hinit).1]
    rfl
  cases hun : h.unlisted o with
  | true =>
      have hhead : Node.object o ∈ headsOf h round := ⟨ho, hun⟩
      obtain ⟨hu, hi⟩ := unlisted_iff.mp hun
      have hsame : h.listDelInit o = h := by
        rw [Heap.listDelInit, List.erase_of_not_mem hu, List.erase_of_not_mem hi]
      obtain ⟨s', hrun, hlinks, hl⟩ := listDelInit_single hr.lists hhead rfl
      refine ⟨s', hrun, ?_⟩
      rw [hsame]
      exact ⟨hl, hr.members, fun hinit => ⟨(hr.zero hinit).1,
        ((hlinks _).1).trans (hr.zero hinit).2⟩, hr.outside⟩
  | false =>
      obtain ⟨head, hhead, hmem, hne, hlists⟩ := hr.listed hun
      obtain ⟨s', hrun, hout, hl⟩ := listDelInit_spec hr.lists hhead hmem
      refine ⟨s', hrun, hl.congr (fun k => ?_) (fun k _ => ?_), hmembers, fun hinit =>
        ⟨hunreferred hinit, ?_⟩, houtside⟩
      · cases k with
        | object p =>
            have hiff := hr.unlisted_listDelInit o p
            have hself : p = o → p < h.size := fun hp => hp ▸ ho
            rw [Set.mem_insert_iff, Node.object.injEq]
            change p < h.size ∧ _ ↔ _ ∨ p < h.size ∧ _
            rw [hiff, and_or_left, and_iff_right_of_imp hself]
        | unreferredObjects => exact (or_iff_right nofun).symm
        | isolatedRoots => exact (or_iff_right nofun).symm
      · rw [hlists]
        by_cases hk : k = .object o
        · rw [hk, Function.update_self, Function.update_of_ne (hne o).symm]
          rfl
        · rw [Function.update_of_ne hk]
      · exact ((hout _ (zero_outside hinit)).1).trans (hr.zero hinit).2

/-- The head of the first list is initialized before an object comes in. -/
theorem Represents.initialized (hr : Represents s h round) :
    Represents (if s.next .unreferredObjects = none then initListHead s .unreferredObjects else s)
      {h with headInit := true} round := by
  cases hinit : h.headInit with
  | true =>
      have hhead : Node.unreferredObjects ∈ headsOf h round := hinit
      obtain ⟨q, -, hq⟩ := first_mem_ring some Node.unreferredObjects
        (listsOf h .unreferredObjects)
      rw [if_neg (by rw [(hr.lists.ring _ hhead).next_head, hq]; exact Option.some_ne_none q)]
      have hsame : {h with headInit := true} = h := by rw [← hinit]
      rwa [hsame]
  | false =>
      obtain ⟨hnil, hzero⟩ := hr.zero hinit
      rw [if_pos hzero]
      refine ⟨(initListHead_spec hr.lists (zero_outside hinit)).congr (fun k => ?_)
        (fun k _ => ?_), hr.members, nofun, hr.outside⟩
      · cases k with
        | object p => exact (or_iff_right nofun).symm
        | unreferredObjects => exact iff_of_true rfl (Set.mem_insert _ _)
        | isolatedRoots => exact (or_iff_right nofun).symm
      · by_cases hk : k = .unreferredObjects
        · subst hk
          rw [Function.update_self]
          exact congrArg (List.map Node.object) hnil
        · rw [Function.update_of_ne hk]
          cases k <;> rfl

/-- An object that is in no list is put in front of one. -/
theorem Represents.listAdd (hr : Represents s h round) (ho : o < h.size) (hun : h.unlisted o)
    {head : Node} (hhead : head ∈ headsOf h round) (hne : ∀ p, head ≠ .object p) {h' : Heap}
    (hlists : ∀ k, listsOf h' k =
      Function.update (listsOf h) head (.object o :: listsOf h head) k)
    (hsize : h'.size = h.size) (hinit : h'.headInit = h.headInit)
    (hunlisted : ∀ p, h'.unlisted p ↔ p ≠ o ∧ h.unlisted p)
    (hmembers : ∀ p, p ∈ h'.unreferred ∨ p ∈ h'.isolated → p < h.size)
    (hzero : h.headInit = false → h'.unreferred = []) (houtside : round = false → h'.isolated = []) :
    ∃ s', ListHead.listAdd s (.object o) head = some s' ∧ Represents s' h' round := by
  have ho' : Node.object o ∈ headsOf h round := ⟨ho, hun⟩
  obtain ⟨s', hrun, hout, hl⟩ := listAdd_spec hr.lists hhead ho' (hne o).symm rfl
  refine ⟨s', hrun, hl.congr (fun k => ?_) (fun k _ => hlists k), fun p hp => hsize ▸ hmembers p hp,
    fun hi => ⟨hzero (hinit ▸ hi), ?_⟩, houtside⟩
  · cases k with
    | object p =>
        rw [Set.mem_sdiff, Set.mem_singleton_iff, Node.object.injEq]
        change p < h'.size ∧ _ ↔ (p < h.size ∧ _) ∧ _
        rw [hsize, hunlisted]
        tauto
    | unreferredObjects =>
        change h'.headInit = true ↔ _
        rw [hinit]
        exact (and_iff_left nofun).symm
    | isolatedRoots => exact (and_iff_left nofun).symm
  · have hi' : h.headInit = false := hinit ▸ hi
    exact ((hout _ (zero_outside hi')).1).trans (hr.zero hi').2

/-- What `di_unref_object` does with an object that still has references. -/
theorem Represents.addUnreferred (hr : Represents s h round) (ho : o < h.size) :
    ∃ s', ObjectLists.addUnreferred s o = some s' ∧
      Represents s' (if h.unlisted o then h.addUnreferred o else h) round := by
  rw [ObjectLists.addUnreferred, hr.listEmpty_object ho]
  cases hun : h.unlisted o with
  | false => exact ⟨s, rfl, hr⟩
  | true =>
      have hhead : Node.unreferredObjects ∈ headsOf {h with headInit := true} round := rfl
      simp only [↓reduceIte]
      refine hr.initialized.listAdd ho hun hhead nofun (fun k => ?_) rfl rfl (fun p => ?_)
        (fun p hp => ?_) nofun hr.outside
      · cases k <;> rfl
      · simp only [unlisted_iff, Heap.addUnreferred, List.mem_cons, not_or, and_assoc]
      · rcases hp with hp | hp
        · rcases List.mem_cons.mp hp with rfl | hp
          · exact ho
          · exact hr.members p (.inl hp)
        · exact hr.members p (.inr hp)

/-- The collector puts an object that it took out of the first list in its own. -/
theorem Represents.isolate (hr : Represents s h true) (ho : o < h.size) (hun : h.unlisted o) :
    ∃ s', ListHead.listAdd s (.object o) .isolatedRoots = some s' ∧
      Represents s' {h with isolated := o :: h.isolated} true := by
  have hhead : Node.isolatedRoots ∈ headsOf h true := rfl
  refine hr.listAdd ho hun hhead nofun (fun k => ?_) rfl rfl (fun p => ?_) (fun p hp => ?_)
    (fun hinit => (hr.zero hinit).1) nofun
  · cases k <;> rfl
  · simp only [unlisted_iff, List.mem_cons, not_or]
    tauto
  · rcases hp with hp | hp
    · exact hr.members p (.inl hp)
    · rcases List.mem_cons.mp hp with rfl | hp
      · exact ho
      · exact hr.members p (.inr hp)

/-- A new object is in no list. -/
theorem Represents.create (hr : Represents s h round) :
    Represents (initListHead s (.object h.size)) (diNewObject h).2 round := by
  have hnew : ∀ k ∈ headsOf h round, Node.object h.size ∉ k :: listsOf h k := by
    intro k hk hmem
    rcases List.mem_cons.mp hmem with rfl | hmem
    · exact Nat.lt_irrefl _ hk.1
    · cases k with
      | object p => exact nomatch hmem
      | unreferredObjects =>
          obtain ⟨p, hp, heq⟩ := List.mem_map.mp hmem
          exact (hr.members p (.inl hp)).ne (object_injective heq)
      | isolatedRoots =>
          obtain ⟨p, hp, heq⟩ := List.mem_map.mp hmem
          exact (hr.members p (.inr hp)).ne (object_injective heq)
  have hfresh : h.unlisted h.size := unlisted_iff.mpr
    ⟨fun hu => Nat.lt_irrefl _ (hr.members _ (.inl hu)),
      fun hi => Nat.lt_irrefl _ (hr.members _ (.inr hi))⟩
  refine ⟨(initListHead_spec hr.lists hnew).congr (fun k => ?_) (fun k _ => ?_), fun p hp =>
    Nat.lt_succ_of_lt (hr.members p hp), fun hinit => ⟨(hr.zero hinit).1, ?_⟩, hr.outside⟩
  · cases k with
    | object p =>
        rw [Set.mem_insert_iff, Node.object.injEq]
        change p < h.size + 1 ∧ h.unlisted p ↔ _ ∨ p < h.size ∧ h.unlisted p
        rw [Nat.lt_succ_iff_lt_or_eq]
        constructor
        · rintro ⟨hlt | rfl, hun⟩
          · exact .inr ⟨hlt, hun⟩
          · exact .inl rfl
        · rintro (rfl | ⟨hlt, hun⟩)
          · exact ⟨.inr rfl, hfresh⟩
          · exact ⟨.inl hlt, hun⟩
    | unreferredObjects => exact (or_iff_right nofun).symm
    | isolatedRoots => exact (or_iff_right nofun).symm
  · by_cases hk : k = .object h.size
    · rw [hk, Function.update_self]
      rfl
    · rw [Function.update_of_ne hk]
      cases k <;> rfl
  · rw [initListHead_next, if_neg nofun]
    exact (hr.zero hinit).2

/-- The collector makes an empty list of its own. -/
theorem Represents.beginRound (hr : Represents s h false) :
    Represents (initListHead s .isolatedRoots) {h with isolated := []} true := by
  have hnil := hr.outside rfl
  have hnew : ∀ k ∈ headsOf h false, Node.isolatedRoots ∉ k :: listsOf h k := by
    intro k hk hmem
    rcases List.mem_cons.mp hmem with rfl | hmem
    · exact nomatch hk
    · cases k with
      | object p => exact nomatch hmem
      | unreferredObjects =>
          obtain ⟨p, -, heq⟩ := List.mem_map.mp hmem
          exact nomatch heq
      | isolatedRoots => exact nomatch hk
  have hsame : {h with isolated := []} = h := by rw [← hnil]
  rw [hsame]
  refine ⟨(initListHead_spec hr.lists hnew).congr (fun k => ?_) (fun k _ => ?_), hr.members,
    fun hinit => ⟨(hr.zero hinit).1, ?_⟩, nofun⟩
  · cases k with
    | object p => exact (or_iff_right nofun).symm
    | unreferredObjects => exact (or_iff_right nofun).symm
    | isolatedRoots => exact iff_of_true rfl (Set.mem_insert _ _)
  · by_cases hk : k = .isolatedRoots
    · rw [hk, Function.update_self]
      exact congrArg (List.map Node.object) hnil
    · rw [Function.update_of_ne hk]
  · rw [initListHead_next, if_neg nofun]
    exact (hr.zero hinit).2

/-- The list of the collector goes when it is empty. -/
theorem Represents.endRound (hr : Represents s h true) (hnil : h.isolated = []) :
    Represents s h false := by
  refine ⟨hr.lists.subset fun k hk => ?_, hr.members, hr.zero, fun _ => hnil⟩
  cases k with
  | object p => exact hk
  | unreferredObjects => exact hk
  | isolatedRoots => exact nomatch hk

/-- The heap without the revived roots. -/
def withoutRevived (revived : ObjRef → Bool) (l : List ObjRef) (h : Heap) : Heap :=
  l.foldl (fun h i => if revived i then h.listDelInit i else h) h

theorem withoutRevived_append (revived : ObjRef → Bool) (l : List ObjRef) (i : ObjRef) (h : Heap) :
    withoutRevived revived (l ++ [i]) h =
      if revived i then (withoutRevived revived l h).listDelInit i
      else withoutRevived revived l h := by
  rw [withoutRevived, List.foldl_append]
  rfl

@[simp] theorem withoutRevived_size (revived : ObjRef → Bool) (l : List ObjRef) (h : Heap) :
    (withoutRevived revived l h).size = h.size := by
  induction l using List.reverseRecOn with
  | nil => rfl
  | append_singleton l i ih =>
      rw [withoutRevived_append]
      split_ifs
      · exact ih
      · exact ih

/-- The roots that were passed are there unless they were revived. -/
theorem withoutRevived_isolated (revived : ObjRef → Bool) {l rest : List ObjRef}
    (hl : h.isolated = l ++ rest) (hnodup : h.isolated.Nodup) :
    (withoutRevived revived l h).isolated = l.filter (fun i => !revived i) ++ rest := by
  induction l using List.reverseRecOn generalizing rest with
  | nil => exact hl
  | append_singleton l i ih =>
      rw [List.append_assoc] at hl
      have hprev := ih hl
      rw [withoutRevived_append, List.filter_append]
      have hi : i ∉ l.filter fun i => !revived i := fun hmem => by
        rw [hl] at hnodup
        exact (List.nodup_append.mp hnodup).2.2 i (List.mem_of_mem_filter hmem) i
          List.mem_cons_self rfl
      cases hrev : revived i with
      | true =>
          rw [if_pos rfl, Heap.listDelInit, hprev, List.erase_append_right _ hi]
          simp [hrev]
      | false =>
          rw [if_neg Bool.false_ne_true, hprev]
          simp [hrev]

/-- The loop over the collector's list takes out the revived roots, and no others. -/
theorem Represents.dropRevived (hr : Represents s h true) (revived : ObjRef → Bool) {rounds : ℕ}
    (hrounds : h.isolated.length < rounds) :
    ∃ s', ObjectLists.dropRevived revived rounds s = some s' ∧
      Represents s' (withoutRevived revived h.isolated h) true := by
  let keep : Node → Bool
    | .object o => !revived o
    | _ => true
  let I : List Node → Links Node → Prop := fun visited st => ∃ l rest,
    visited = l.map .object ∧ h.isolated = l ++ rest ∧
      Represents st (withoutRevived revived l h) true
  have hnodup := hr.nodup.2
  have hrest : ∀ {l rest : List ObjRef} {visited rest' : List Node},
      visited = l.map .object → h.isolated = l ++ rest →
      h.isolated.map .object = visited ++ rest' → rest' = rest.map .object := by
    intro l rest visited rest' hvisited hl hall
    rw [hl, List.map_append, ← hvisited] at hall
    exact (List.append_cancel_left hall).symm
  have hwalk : ∃ s', ObjectLists.dropRevived revived rounds s = some s' ∧
      I (h.isolated.map .object) s' := listForEachEntrySafe_rule keep I
    (by
      rintro visited rest' st hall ⟨l, rest, hvisited, hl, hr'⟩
      have hhead : Node.isolatedRoots ∈ headsOf (withoutRevived revived l h) true := rfl
      have hring := hr'.lists.ring _ hhead
      rw [listsOf, withoutRevived_isolated revived hl hnodup, List.map_append] at hring
      rw [hrest hvisited hl hall, hvisited, List.filter_map]
      exact hring)
    (by
      rintro visited x rest' st hall ⟨l, rest, hvisited, hl, hr'⟩
      have hcons := hrest hvisited hl hall
      cases rest with
      | nil => exact nomatch hcons
      | cons i rest =>
          obtain ⟨rfl, -⟩ := List.cons_eq_cons.mp hcons
          have hi : i < (withoutRevived revived l h).size := by
            rw [withoutRevived_size]
            exact hr.members i (.inr (by simp [hl]))
          have hassoc : h.isolated = (l ++ [i]) ++ rest := by simp [hl]
          have hvisited' : visited ++ [Node.object i] = (l ++ [i]).map .object := by simp [hvisited]
          cases hrev : revived i with
          | true =>
              obtain ⟨st', hdel, hr''⟩ := hr'.listDelInit hi
              refine ⟨st', by rw [← hdel]; exact if_pos hrev, l ++ [i], rest, hvisited', hassoc, ?_⟩
              rw [withoutRevived_append, if_pos hrev]
              exact hr''
          | false =>
              refine ⟨st, if_neg (by rw [hrev]; exact Bool.false_ne_true), l ++ [i], rest, hvisited',
                hassoc, ?_⟩
              rw [withoutRevived_append, hrev]
              exact hr')
    ⟨[], h.isolated, rfl, rfl, hr⟩ (by rwa [List.length_map])
  obtain ⟨s', hrun, l, rest, hvisited, hl, hr'⟩ := hwalk
  have hall : h.isolated = l := List.map_injective_iff.mpr object_injective hvisited
  exact ⟨s', hrun, hall ▸ hr'⟩

end Deai.ObjectLists
