import Deai.ObjectHeap
import Deai.PendingWork
import Deai.TrialDeletion

/-!
# Where every counted reference is

The accounting invariant `Counted` says where every counted reference is: in a
member, or in `R`, which counts the references held by nobody in the heap
(external holders, and the references a running function still owes a release).
Releasing the references `rs` leads from `pend R rs` to `R`.

The cascade of `di_unref_object` touches nothing but counts and lists of the
objects that stay; an object that it destroys ends with no members. A set of
objects that hold each other, or are held from outside, survives it.
-/
namespace Deai.Accounting
open Value ObjectHeap TrialDeletion

/-- All references held by the members of `o`. -/
def memberRefs (h : Heap) (o : ObjRef) : List Ref := (h.obj o).members.flatMap (·.2.refs)

/-- Number of references equal to `r` in the members of all objects. -/
def held (h : Heap) (r : Ref) : ℕ := ∑ y ∈ Finset.range h.size, (memberRefs h y).count r

/-- Number of strong references from members of `y` to `x`. -/
def links (h : Heap) (y x : ObjRef) : ℕ := (memberRefs h y).count (.strong x)

/-- The references of `R` together with those listed in `rs`. -/
def pend (R : Ref → ℕ) (rs : List Ref) (r : Ref) : ℕ := R r + rs.count r

/-- Every count is accounted for, the memory of an object is there as long as
somebody may look at it, and only live objects are listed. -/
structure Counted (h : Heap) (R : Ref → ℕ) : Prop where
  unallocated : ∀ o, h.size ≤ o → h.obj o = .unallocated
  strong : ∀ o, (h.obj o).refCount = held h (.strong o) + R (.strong o)
  dead : ∀ o, (h.obj o).destroyed = true → (h.obj o).refCount = 0
  alive : ∀ o, (h.obj o).destroyed = false → 0 < (h.obj o).refCount
  weak : ∀ o, (h.obj o).weakRefCount =
    (if (h.obj o).destroyed then 0 else 1) + held h (.weak o) + R (.weak o)
  freed : ∀ o, (h.obj o).freed = true ↔ (h.obj o).weakRefCount = 0
  nodup : (h.unreferred ++ h.isolated).Nodup
  listed : ∀ o ∈ h.unreferred ++ h.isolated, (h.obj o).destroyed = false
  calm : ∀ o, calmMark (h.obj o).mark = true

/-- How one object may change while references are released. -/
structure ObjStep (a b : DiObject) : Prop where
  dead : a.destroyed = true → b.destroyed = true ∧ b.members = a.members ∧ b.dtor = a.dtor
  same : b.destroyed = false → b.members = a.members ∧ b.dtor = a.dtor
  done : a.destroyed = false → b.destroyed = true → b.members = [] ∧ b.dtor = false

/-- How the heap may change while references are released; `X` are the objects
that somebody else is working on. -/
structure Released (X : Set ObjRef) (h h' : Heap) : Prop where
  size : h'.size = h.size
  obj : ∀ x, x ∉ X → ObjStep (h.obj x) (h'.obj x)
  marks : ∀ x, (h'.obj x).mark = (h.obj x).mark ∧
    (h'.obj x).refCountScan = (h.obj x).refCountScan
  dtors : ∀ x, h'.log.count (.dtor x) + (h'.obj x).dtor.toNat =
    h.log.count (.dtor x) + (h.obj x).dtor.toNat
  destroys : ∀ x, h'.log.count (.destroy x) + (h.obj x).destroyed.toNat =
    h.log.count (.destroy x) + (h'.obj x).destroyed.toNat
  again : ∀ x, h'.log.count (.destroyAgain x) = h.log.count (.destroyAgain x)
  sublist : h'.isolated.Sublist h.isolated
  isolated : ∀ x ∈ h.isolated, (h'.obj x).destroyed = false → x ∈ h'.isolated
  unreferred : ∀ x ∈ h.unreferred, (h'.obj x).destroyed = false → x ∈ h'.unreferred
  added : ∀ x ∈ h'.unreferred, x ∈ h.unreferred ∨ (h.obj x).mark = 0
  headInit : h.headInit = true → h'.headInit = true

/-- The objects of `S` are alive and each is held from outside or by another
object of `S`. -/
def Sustained (h : Heap) (R : Ref → ℕ) (S : Set ObjRef) : Prop :=
  ∀ x ∈ S, (h.obj x).destroyed = false ∧
    (0 < R (.strong x) ∨ ∃ y ∈ S, Edge (links h) y x)

/-- No collection is running. -/
def Quiet (h : Heap) : Prop :=
  h.isolated = [] ∧ ∀ x, (h.obj x).destroyed = false → (h.obj x).mark = 0

/-- Objects from which every live object must be reachable. -/
def roots (h : Heap) (R : Ref → ℕ) (A : Set ObjRef) : Set ObjRef :=
  {y | 0 < R (.strong y) ∨ y ∈ h.unreferred ∨ y ∈ A}

/-- Every live object is reachable from outside, from a candidate of the next
collection, or from `A`. -/
def Covered (h : Heap) (R : Ref → ℕ) (A : Set ObjRef) : Prop :=
  ∀ x, (h.obj x).destroyed = false → ReachableFrom (links h) (roots h R A) x

/-- What the release of `rs` from `h` gives. -/
structure Outcome (R : Ref → ℕ) (S : Set ObjRef) (rs : List Ref) (h h' : Heap) : Prop where
  counted : Counted h' R
  released : Released ∅ h h'
  kept : ∀ x ∈ S, (h'.obj x).destroyed = false
  covered : Quiet h → ∀ A, Covered h (pend R rs) A → Covered h' R A

/-- Number of objects that are not destroyed. -/
def liveCount (h : Heap) : ℕ :=
  ((Finset.range h.size).filter fun x => (h.obj x).destroyed = false).card

/-- `run` releases exactly `rs` in every heap with at most `n` live objects. -/
def Releases (n : ℕ) (run : Heap → Except Fault Heap) (rs : List Ref) : Prop :=
  ∀ h R S, Counted h (pend R rs) → Sustained h R S → liveCount h ≤ n →
    ∃ h', run h = .ok h' ∧ Outcome R S rs h h'

/-! ## Bookkeeping -/

@[simp] theorem pend_weak_strong (R : Ref → ℕ) (o x : ObjRef) :
    pend R [.weak o] (.strong x) = R (.strong x) := by simp [pend]

@[simp] theorem pend_strong_weak (R : Ref → ℕ) (o x : ObjRef) :
    pend R [.strong o] (.weak x) = R (.weak x) := by simp [pend]

theorem pend_strong (R : Ref → ℕ) (o x : ObjRef) :
    pend R [.strong o] (.strong x) = R (.strong x) + if x = o then 1 else 0 := by
  by_cases hx : x = o
  · simp [pend, hx]
  · have hne : (Ref.strong o == Ref.strong x) = false := by
      simpa using fun he => hx (Ref.strong.inj he).symm
    simp [pend, List.count_cons, hne, hx]

theorem pend_weak (R : Ref → ℕ) (o x : ObjRef) :
    pend R [.weak o] (.weak x) = R (.weak x) + if x = o then 1 else 0 := by
  by_cases hx : x = o
  · simp [pend, hx]
  · have hne : (Ref.weak o == Ref.weak x) = false := by
      simpa using fun he => hx (Ref.weak.inj he).symm
    simp [pend, List.count_cons, hne, hx]

@[simp] theorem pend_nil (R : Ref → ℕ) : pend R [] = R := by
  funext r
  simp [pend]

theorem pend_append (R : Ref → ℕ) (rs qs : List Ref) :
    pend R (rs ++ qs) = pend (pend R qs) rs := by
  funext r
  simp only [pend, List.count_append]
  omega

theorem pend_cons (R : Ref → ℕ) (r : Ref) (rs : List Ref) :
    pend (pend R [r]) rs = pend R (r :: rs) := by
  funext q
  simp only [pend, List.count_cons, List.count_nil]
  omega

theorem le_pend (R : Ref → ℕ) (rs : List Ref) (r : Ref) : R r ≤ pend R rs r :=
  Nat.le_add_right _ _

theorem held_congr {h h' : Heap} (hs : h'.size = h.size)
    (hm : ∀ y, (h'.obj y).members = (h.obj y).members) (r : Ref) :
    held h' r = held h r := by
  unfold held memberRefs
  rw [hs]
  exact Finset.sum_congr rfl fun y _ => by rw [hm y]

theorem links_congr {h h' : Heap} {y : ObjRef}
    (hm : (h'.obj y).members = (h.obj y).members) : links h' y = links h y := by
  funext x
  unfold links memberRefs
  rw [hm]

theorem edge_congr {h h' : Heap} {y : ObjRef}
    (hm : (h'.obj y).members = (h.obj y).members) (x : ObjRef) :
    Edge (links h') y x ↔ Edge (links h) y x := by
  unfold Edge
  rw [links_congr hm]

/-- Changing the members of one object moves references between it and the rest. -/
theorem held_update {h h' : Heap} {o : ℕ} (ho : o < h.size) (hs : h'.size = h.size)
    (hm : ∀ y, y ≠ o → (h'.obj y).members = (h.obj y).members) (r : Ref) :
    held h' r + (memberRefs h o).count r = held h r + (memberRefs h' o).count r := by
  have hmem : o ∈ Finset.range h.size := Finset.mem_range.mpr ho
  have hrest : ∑ y ∈ (Finset.range h.size).erase o, (memberRefs h' y).count r =
      ∑ y ∈ (Finset.range h.size).erase o, (memberRefs h y).count r :=
    Finset.sum_congr rfl fun y hy => by
      unfold memberRefs
      rw [hm y (Finset.ne_of_mem_erase hy)]
  have h₁ := Finset.add_sum_erase _ (fun y : ℕ => (memberRefs h y).count r) hmem
  have h₂ := Finset.add_sum_erase _ (fun y : ℕ => (memberRefs h' y).count r) hmem
  unfold held
  rw [hs]
  omega

theorem held_pos_of_edge {h : Heap} {y x : ObjRef} (hy : y < h.size)
    (he : Edge (links h) y x) : 0 < held h (.strong x) :=
  inner_pos_iff.mpr ⟨y, Finset.mem_range.mpr hy, he⟩

theorem exists_holder {h : Heap} {x : ObjRef} (hx : 0 < held h (.strong x)) :
    ∃ y, Edge (links h) y x := by
  obtain ⟨y, -, he⟩ := (inner_pos_iff (w := links h)).mp hx
  exact ⟨y, he⟩

theorem Counted.lt_size {h : Heap} {R : Ref → ℕ} (hc : Counted h R) {o : ObjRef}
    (ho : (h.obj o).destroyed = false) : o < h.size := by
  by_contra hn
  have hu := hc.unallocated o (Nat.le_of_not_lt hn)
  rw [hu] at ho
  cases ho

theorem Counted.not_freed {h : Heap} {R : Ref → ℕ} (hc : Counted h R) {o : ObjRef}
    (ho : (h.obj o).destroyed = false) : (h.obj o).freed = false := by
  have hw := hc.weak o
  have hf := hc.freed o
  cases hb : (h.obj o).freed with
  | false => rfl
  | true =>
      have hz := hf.mp hb
      rw [hz, ho] at hw
      simp only [Bool.false_eq_true, if_false] at hw
      omega

/-- An edge from an allocated object leads to a live one. -/
theorem Counted.alive_of_edge {h : Heap} {R : Ref → ℕ} (hc : Counted h R) {y x : ObjRef}
    (he : Edge (links h) y x) : (h.obj x).destroyed = false := by
  have hy : y < h.size := by
    by_contra hn
    have hu := hc.unallocated y (Nat.le_of_not_lt hn)
    unfold Edge links memberRefs at he
    rw [hu] at he
    simp [DiObject.unallocated] at he
  have hpos := held_pos_of_edge hy he
  cases hb : (h.obj x).destroyed with
  | false => rfl
  | true =>
      have h₁ := hc.dead x hb
      have h₂ := hc.strong x
      omega

/-- A reference that somebody outside holds is to a live object. -/
theorem Counted.alive_of_held {h : Heap} {R : Ref → ℕ} (hc : Counted h R) {x : ObjRef}
    (hx : 0 < R (.strong x)) : (h.obj x).destroyed = false := by
  cases hb : (h.obj x).destroyed with
  | false => rfl
  | true =>
      have h₁ := hc.dead x hb
      have h₂ := hc.strong x
      omega

theorem ObjStep.refl (a : DiObject) : ObjStep a a :=
  ⟨fun h => ⟨h, rfl, rfl⟩, fun _ => ⟨rfl, rfl⟩, fun h h' => by rw [h] at h'; cases h'⟩

theorem ObjStep.alive {a b : DiObject} (h : ObjStep a b) (hb : b.destroyed = false) :
    a.destroyed = false := by
  cases ha : a.destroyed with
  | false => rfl
  | true =>
      have := (h.dead ha).1
      rw [hb] at this
      cases this

theorem ObjStep.trans {a b c : DiObject} (h₁ : ObjStep a b) (h₂ : ObjStep b c) :
    ObjStep a c where
  dead ha := by
    obtain ⟨hb, hm, hd⟩ := h₁.dead ha
    obtain ⟨hc, hm', hd'⟩ := h₂.dead hb
    exact ⟨hc, hm'.trans hm, hd'.trans hd⟩
  same hc := by
    obtain ⟨hm', hd'⟩ := h₂.same hc
    obtain ⟨hm, hd⟩ := h₁.same (h₂.alive hc)
    exact ⟨hm'.trans hm, hd'.trans hd⟩
  done ha hc := by
    cases hb : b.destroyed with
    | false => exact h₂.done hb hc
    | true =>
        obtain ⟨-, hm, hd⟩ := h₂.dead hb
        obtain ⟨hm', hd'⟩ := h₁.done ha hb
        exact ⟨hm.trans hm', hd.trans hd'⟩

theorem Released.refl (X : Set ObjRef) (h : Heap) : Released X h h where
  size := rfl
  obj _ _ := .refl _
  marks _ := ⟨rfl, rfl⟩
  dtors _ := rfl
  destroys _ := rfl
  again _ := rfl
  sublist := .refl _
  isolated _ hx _ := hx
  unreferred _ hx _ := hx
  added _ hx := Or.inl hx
  headInit hx := hx

/-- Only counts change, an object is listed, or memory is released. -/
theorem Released.of_counts {h h' : Heap} (hs : h'.size = h.size)
    (hm : ∀ x, (h'.obj x).members = (h.obj x).members)
    (ht : ∀ x, (h'.obj x).dtor = (h.obj x).dtor)
    (hd : ∀ x, (h'.obj x).destroyed = (h.obj x).destroyed)
    (hk : ∀ x, (h'.obj x).mark = (h.obj x).mark ∧
      (h'.obj x).refCountScan = (h.obj x).refCountScan)
    (hl : ∀ e, (∀ x, e ≠ .free x) → h'.log.count e = h.log.count e)
    (hi : h'.isolated = h.isolated) (hu : ∀ x ∈ h.unreferred, x ∈ h'.unreferred)
    (ha : ∀ x ∈ h'.unreferred, x ∈ h.unreferred ∨ (h.obj x).mark = 0)
    (hh : h.headInit = true → h'.headInit = true) (X : Set ObjRef) : Released X h h' where
  size := hs
  obj x _ := ⟨fun h => ⟨(hd x).trans h, hm x, ht x⟩, fun _ => ⟨hm x, ht x⟩,
    fun h h' => by rw [hd x, h] at h'; cases h'⟩
  marks := hk
  dtors x := by rw [hl _ (by simp), ht x]
  destroys x := by rw [hl _ (by simp), hd x]
  again x := hl _ (by simp)
  sublist := by rw [hi]
  isolated x hx _ := by rwa [hi]
  unreferred x hx _ := hu x hx
  added := ha
  headInit := hh

theorem Released.mono {X Y : Set ObjRef} (hXY : X ⊆ Y) {h h' : Heap}
    (hr : Released X h h') : Released Y h h' :=
  {hr with obj := fun x hx => hr.obj x fun hX => hx (hXY hX)}

/-- Objects in `X` must not come back to life between the two parts. -/
theorem Released.trans {X : Set ObjRef} {h₁ h₂ h₃ : Heap} (h : Released X h₁ h₂)
    (h' : Released X h₂ h₃)
    (hX : ∀ x ∈ X, (h₃.obj x).destroyed = false → (h₂.obj x).destroyed = false) :
    Released X h₁ h₃ where
  size := h'.size.trans h.size
  obj x hx := (h.obj x hx).trans (h'.obj x hx)
  marks x := ⟨(h'.marks x).1.trans (h.marks x).1, (h'.marks x).2.trans (h.marks x).2⟩
  dtors x := (h'.dtors x).trans (h.dtors x)
  destroys x := by
    have := h.destroys x
    have := h'.destroys x
    omega
  again x := (h'.again x).trans (h.again x)
  sublist := h'.sublist.trans h.sublist
  isolated x hx hd := by
    by_cases hxX : x ∈ X
    · exact h'.isolated x (h.isolated x hx (hX x hxX hd)) hd
    · exact h'.isolated x (h.isolated x hx ((h'.obj x hxX).alive hd)) hd
  unreferred x hx hd := by
    by_cases hxX : x ∈ X
    · exact h'.unreferred x (h.unreferred x hx (hX x hxX hd)) hd
    · exact h'.unreferred x (h.unreferred x hx ((h'.obj x hxX).alive hd)) hd
  added x hx := by
    rcases h'.added x hx with hx | hx
    · exact h.added x hx
    · exact Or.inr ((h.marks x).1 ▸ hx)
  headInit hx := h'.headInit (h.headInit hx)

theorem Released.trans' {h₁ h₂ h₃ : Heap} (h : Released ∅ h₁ h₂) (h' : Released ∅ h₂ h₃) :
    Released ∅ h₁ h₃ := h.trans h' fun _ hx => hx.elim

theorem Released.alive {h h' : Heap} (hr : Released ∅ h h') {x : ObjRef}
    (hx : (h'.obj x).destroyed = false) : (h.obj x).destroyed = false :=
  (hr.obj x id).alive hx

theorem Released.liveCount_le {h h' : Heap} (hr : Released ∅ h h') :
    liveCount h' ≤ liveCount h := by
  unfold liveCount
  rw [hr.size]
  apply Finset.card_le_card
  intro x hx
  rw [Finset.mem_filter] at hx ⊢
  exact ⟨hx.1, hr.alive hx.2⟩

theorem Released.quiet {X : Set ObjRef} {h h' : Heap} (hr : Released X h h')
    (hX : ∀ x ∈ X, (h'.obj x).destroyed = false → (h.obj x).destroyed = false)
    (hq : Quiet h) : Quiet h' := by
  refine ⟨?_, fun x hx => ?_⟩
  · have := hr.sublist
    rw [hq.1] at this
    exact List.eq_nil_of_sublist_nil this
  · rw [(hr.marks x).1]
    by_cases hxX : x ∈ X
    · exact hq.2 x (hX x hxX hx)
    · exact hq.2 x ((hr.obj x hxX).alive hx)

theorem Sustained.mono {h : Heap} {R R' : Ref → ℕ} {S : Set ObjRef}
    (hR : ∀ r, R r ≤ R' r) (hS : Sustained h R S) : Sustained h R' S := by
  intro x hx
  obtain ⟨hd, hr⟩ := hS x hx
  exact ⟨hd, hr.imp_left fun h => h.trans_le (hR _)⟩

/-- A sustained set stays sustained while its objects keep their members. -/
theorem Sustained.transfer {h h' : Heap} {R : Ref → ℕ} {S : Set ObjRef}
    (hS : Sustained h R S) (hk : ∀ x ∈ S, (h'.obj x).destroyed = false)
    (hm : ∀ x ∈ S, (h'.obj x).members = (h.obj x).members) : Sustained h' R S := by
  intro x hx
  refine ⟨hk x hx, (hS x hx).2.imp_right ?_⟩
  rintro ⟨y, hy, he⟩
  refine ⟨y, hy, ?_⟩
  unfold Edge at he ⊢
  rwa [links_congr (hm y hy)]

/-- An object without any reference is in no sustained set. -/
theorem Sustained.not_mem {h : Heap} {R : Ref → ℕ} {S : Set ObjRef} (hS : Sustained h R S)
    {o : ObjRef} (hsize : ∀ x, (h.obj x).destroyed = false → x < h.size)
    (hR : R (.strong o) = 0) (hh : held h (.strong o) = 0) : o ∉ S := by
  intro ho
  rcases (hS o ho).2 with hpos | ⟨y, hy, he⟩
  · omega
  · have := held_pos_of_edge (hsize y (hS y hy).1) he
    omega

/-! ## Taking references -/

/-- A live object gets another strong count, which fits the references to it. -/
theorem Counted.recount {h : Heap} {R R' : Ref → ℕ} {o : ObjRef} (hc : Counted h R)
    (ho : (h.obj o).destroyed = false) (f : ℕ → ℕ) (hpos : 0 < f (h.obj o).refCount)
    (hstrong : ∀ x, (if x = o then f (h.obj o).refCount else (h.obj x).refCount) =
      held h (.strong x) + R' (.strong x))
    (hweak : ∀ x, R' (.weak x) = R (.weak x)) :
    Counted (h.modify o fun x => {x with refCount := f x.refCount}) R' := by
  set h' := h.modify o fun x => {x with refCount := f x.refCount} with hh'
  have hfield : ∀ {β : Type} (g : DiObject → β),
      (∀ x k, g {x with refCount := k} = g x) → ∀ x, g (h'.obj x) = g (h.obj x) :=
    fun g hg => h.modify_same g o (hg _ _)
  have hd := hfield (·.destroyed) fun _ _ => rfl
  have hheld : ∀ r, held h' r = held h r := held_congr rfl (hfield (·.members) fun _ _ => rfl)
  have hne : ∀ y, y ≠ o → h'.obj y = h.obj y := fun y hy => h.modify_obj_ne _ hy
  have hcount : ∀ x, (h'.obj x).refCount =
      if x = o then f (h.obj o).refCount else (h.obj x).refCount := by
    intro x
    rw [hh', Heap.modify_obj]
    split_ifs with hx
    · rw [hx]
    · rfl
  refine ⟨?_, ?_, ?_, ?_, ?_, ?_, hc.nodup, ?_, ?_⟩
  · intro x hx
    rw [hne x, hc.unallocated x hx]
    rintro rfl
    exact absurd (hc.lt_size ho) (Nat.not_lt.mpr hx)
  · intro x
    rw [hcount, hheld, hstrong]
  · intro x hx
    rw [hd] at hx
    rw [hne x, hc.dead x hx]
    rintro rfl
    rw [hx] at ho
    cases ho
  · intro x hx
    rw [hd] at hx
    rw [hcount]
    split_ifs
    · exact hpos
    · exact hc.alive x hx
  · intro x
    rw [hheld, hd, hfield (·.weakRefCount) fun _ _ => rfl, hc.weak x, hweak]
  · intro x
    rw [hfield (·.freed) fun _ _ => rfl, hfield (·.weakRefCount) fun _ _ => rfl]
    exact hc.freed x
  · intro x hx
    rw [hd]
    exact hc.listed x hx
  · intro x
    rw [hfield (·.mark) fun _ _ => rfl]
    exact hc.calm x

/-- One more strong reference to a live object, owed to somebody. -/
theorem Counted.incRef {h : Heap} {R : Ref → ℕ} {o : ObjRef} (hc : Counted h R)
    (ho : (h.obj o).destroyed = false) :
    Counted (h.modify o fun x => {x with refCount := x.refCount + 1})
      (pend R [.strong o]) := by
  refine hc.recount ho (· + 1) (Nat.succ_pos _) (fun x => ?_) (pend_strong_weak R o)
  have hx := hc.strong x
  rw [pend_strong]
  split_ifs with hxo
  · subst hxo
    omega
  · omega

/-- One more weak reference to an object whose memory is still there. -/
theorem Counted.incWeak {h : Heap} {R : Ref → ℕ} {o : ObjRef} (hc : Counted h R)
    (ho : (h.obj o).freed = false) :
    Counted (h.modify o fun x => {x with weakRefCount := x.weakRefCount + 1})
      (pend R [.weak o]) := by
  set h' := h.modify o fun x => {x with weakRefCount := x.weakRefCount + 1} with hh'
  have hfield : ∀ {β : Type} (g : DiObject → β),
      (∀ x k, g {x with weakRefCount := k} = g x) → ∀ x, g (h'.obj x) = g (h.obj x) :=
    fun g hg => h.modify_same g o (hg _ _)
  have hd := hfield (·.destroyed) fun _ _ => rfl
  have hrc := hfield (·.refCount) fun _ _ => rfl
  have hheld : ∀ r, held h' r = held h r := held_congr rfl (hfield (·.members) fun _ _ => rfl)
  have hcount : ∀ x, (h'.obj x).weakRefCount =
      (h.obj x).weakRefCount + if x = o then 1 else 0 := by
    intro x
    rw [hh', Heap.modify_obj]
    split_ifs <;> rfl
  refine ⟨?_, ?_, ?_, ?_, ?_, ?_, hc.nodup, ?_, ?_⟩
  · intro x hx
    have hu := hc.unallocated x hx
    rw [← hu]
    refine Heap.modify_obj_ne _ _ fun hxo => ?_
    rw [← hxo, hu] at ho
    cases ho
  · intro x
    rw [hrc, hheld, hc.strong x, pend_weak_strong]
  · intro x hx
    rw [hrc]
    exact hc.dead x (hd x ▸ hx)
  · intro x hx
    rw [hrc]
    exact hc.alive x (hd x ▸ hx)
  · intro x
    rw [hcount, hheld, hd, hc.weak x, pend_weak]
    omega
  · intro x
    have hx := hc.freed x
    rw [hfield (·.freed) fun _ _ => rfl, hcount]
    by_cases hxo : x = o
    · rw [if_pos hxo, hxo, ho]
      simp
    · rw [if_neg hxo, Nat.add_zero]
      exact hx
  · intro x hx
    rw [hd]
    exact hc.listed x hx
  · intro x
    rw [hfield (·.mark) fun _ _ => rfl]
    exact hc.calm x

/-- The counts of the objects are the same, and references only move between the members and the
account. -/
theorem Counted.transfer {h h' : Heap} {R R' : Ref → ℕ} (hc : Counted h R) (hs : h'.size = h.size)
    (hdead : ∀ x, h.size ≤ x → h'.obj x = h.obj x)
    (hd : ∀ x, (h'.obj x).destroyed = (h.obj x).destroyed)
    (hrc : ∀ x, (h'.obj x).refCount = (h.obj x).refCount)
    (hwc : ∀ x, (h'.obj x).weakRefCount = (h.obj x).weakRefCount)
    (hfr : ∀ x, (h'.obj x).freed = (h.obj x).freed)
    (hheld : ∀ r, held h' r + R' r = held h r + R r)
    (hnd : (h'.unreferred ++ h'.isolated).Nodup)
    (hlist : ∀ x ∈ h'.unreferred ++ h'.isolated, (h.obj x).destroyed = false)
    (hcalm : ∀ x, calmMark (h'.obj x).mark = true) : Counted h' R' := by
  refine ⟨?_, ?_, ?_, ?_, ?_, ?_, hnd, ?_, hcalm⟩
  · intro x hx
    rw [hs] at hx
    rw [hdead x hx, hc.unallocated x hx]
  · intro x
    rw [hrc, hheld, hc.strong x]
  · intro x hx
    rw [hrc]
    exact hc.dead x (hd x ▸ hx)
  · intro x hx
    rw [hrc]
    exact hc.alive x (hd x ▸ hx)
  · intro x
    rw [hwc, hd, hc.weak x, Nat.add_assoc, Nat.add_assoc, hheld]
  · intro x
    rw [hfr, hwc]
    exact hc.freed x
  · intro x hx
    rw [hd]
    exact hlist x hx

/-- Marks and trial counts are not references. -/
theorem Counted.setMarks {h h' : Heap} {R : Ref → ℕ} (hc : Counted h R)
    (hs : h'.size = h.size)
    (hobj : ∀ x, h'.obj x =
      {h.obj x with mark := (h'.obj x).mark, refCountScan := (h'.obj x).refCountScan})
    (hdead : ∀ x, h.size ≤ x → h'.obj x = h.obj x)
    (hnd : (h'.unreferred ++ h'.isolated).Nodup)
    (hlist : ∀ x ∈ h'.unreferred ++ h'.isolated, (h.obj x).destroyed = false)
    (hcalm : ∀ x, calmMark (h'.obj x).mark = true) : Counted h' R := by
  have hm : ∀ x, (h'.obj x).members = (h.obj x).members := fun x => by rw [hobj x]
  have hd : ∀ x, (h'.obj x).destroyed = (h.obj x).destroyed := fun x => by rw [hobj x]
  have hrc : ∀ x, (h'.obj x).refCount = (h.obj x).refCount := fun x => by rw [hobj x]
  have hwc : ∀ x, (h'.obj x).weakRefCount = (h.obj x).weakRefCount := fun x => by rw [hobj x]
  have hfr : ∀ x, (h'.obj x).freed = (h.obj x).freed := fun x => by rw [hobj x]
  exact hc.transfer hs hdead hd hrc hwc hfr (fun r => by rw [held_congr hs hm]) hnd hlist hcalm

/-! ## New objects and new members -/

theorem memberRefs_insertMember (h : Heap) (o : ObjRef) (name : String) (v : DiValue) :
    memberRefs (h.insertMember o name v) o = memberRefs h o ++ v.refs := by
  unfold memberRefs
  rw [Heap.insertMember, Heap.modify_obj_self, List.flatMap_append]
  simp

/-- An object gets another table, and the account changes by the difference. -/
theorem Counted.setMembers {h : Heap} {R R' : Ref → ℕ} {o : ObjRef} (hc : Counted h R)
    (ho : o < h.size) (ms : List (String × DiValue))
    (hms : ∀ r, (ms.flatMap (·.2.refs)).count r + R' r = (memberRefs h o).count r + R r) :
    Counted (h.modify o fun x => {x with members := ms}) R' := by
  set h' := h.modify o fun x => {x with members := ms} with hh'
  have hne : ∀ y, y ≠ o → h'.obj y = h.obj y := fun y hy => h.modify_obj_ne _ hy
  have hfield : ∀ {β : Type} (g : DiObject → β),
      (∀ x l, g {x with members := l} = g x) → ∀ x, g (h'.obj x) = g (h.obj x) :=
    fun g hg => h.modify_same g o (hg _ _)
  have hheld : ∀ r, held h' r + R' r = held h r + R r := by
    intro r
    have hself : memberRefs h' o = ms.flatMap (·.2.refs) := by
      unfold memberRefs
      rw [hh', Heap.modify_obj_self]
    have hu := held_update ho (show h'.size = h.size from rfl) (fun y hy => by rw [hne y hy]) r
    rw [hself] at hu
    have := hms r
    omega
  have hlarge : ∀ x, h.size ≤ x → h'.obj x = h.obj x := fun x hx =>
    hne x fun hxo => absurd ho (Nat.not_lt.mpr (hxo ▸ hx))
  refine hc.transfer rfl hlarge (hfield (·.destroyed) fun _ _ => rfl)
    (hfield (·.refCount) fun _ _ => rfl) (hfield (·.weakRefCount) fun _ _ => rfl)
    (hfield (·.freed) fun _ _ => rfl) hheld hc.nodup hc.listed fun x => ?_
  rw [hfield (·.mark) fun _ _ => rfl]
  exact hc.calm x

/-- Putting a value into the table of an object pays the references it holds. -/
theorem Counted.insertMember {h : Heap} {R : Ref → ℕ} {o : ObjRef} {name : String}
    {v : DiValue} (hc : Counted h (pend R v.refs)) (ho : o < h.size) :
    Counted (h.insertMember o name v) R := by
  refine hc.setMembers ho ((h.obj o).members ++ [(name, v)]) fun r => ?_
  have hrefs := memberRefs_insertMember h o name v
  unfold memberRefs at hrefs
  rw [Heap.insertMember, Heap.modify_obj_self] at hrefs
  rw [hrefs, List.count_append]
  unfold pend memberRefs
  omega

theorem diNewObject_self (h : Heap) :
    (diNewObject h).2.obj h.size = { refCount := 1, weakRefCount := 1 } := by
  simp [diNewObject]

theorem diNewObject_ne (h : Heap) {y : ObjRef} (hy : y ≠ h.size) :
    (diNewObject h).2.obj y = h.obj y := by
  simp [diNewObject, hy]

theorem Counted.newObject_members {h : Heap} {R : Ref → ℕ} (hc : Counted h R) (y : ObjRef) :
    ((diNewObject h).2.obj y).members = (h.obj y).members := by
  by_cases hy : y = h.size
  · rw [hy, diNewObject_self, hc.unallocated h.size le_rfl]
    rfl
  · rw [diNewObject_ne h hy]

/-- The reference to a new object is held by whoever made it. -/
theorem Counted.newObject {h : Heap} {R : Ref → ℕ} (hc : Counted h R) :
    Counted (diNewObject h).2 (pend R [.strong h.size]) := by
  have hself := diNewObject_self h
  have hne : ∀ y, y ≠ h.size → (diNewObject h).2.obj y = h.obj y := fun y => diNewObject_ne h
  have hmem := hc.newObject_members
  set h' := (diNewObject h).2 with hh'
  have hold : h.obj h.size = .unallocated := hc.unallocated h.size le_rfl
  have hheld : ∀ r, held h' r = held h r := by
    intro r
    have hsum : held h' r = ∑ y ∈ Finset.range (h.size + 1), (memberRefs h' y).count r := rfl
    have hnil : memberRefs h' h.size = [] := by
      unfold memberRefs
      rw [hself]
      rfl
    rw [hsum, Finset.sum_range_succ, hnil, List.count_nil, Nat.add_zero]
    refine Finset.sum_congr rfl fun y _ => ?_
    unfold memberRefs
    rw [hmem]
  have hzero : held h (.strong h.size) + R (.strong h.size) = 0 := by
    rw [← hc.strong h.size, hold]
    rfl
  have hzero' : held h (.weak h.size) + R (.weak h.size) = 0 := by
    have := hc.weak h.size
    rw [hold] at this
    change 0 = 0 + held h (.weak h.size) + R (.weak h.size) at this
    omega
  refine ⟨?_, ?_, ?_, ?_, ?_, ?_, hc.nodup, ?_, ?_⟩
  · intro x hx
    change h.size + 1 ≤ x at hx
    have hx' : x ≠ h.size := by
      intro hxs
      rw [hxs] at hx
      omega
    rw [hne x hx']
    exact hc.unallocated x (Nat.le_of_succ_le hx)
  · intro x
    rw [hheld, pend_strong]
    by_cases hx : x = h.size
    · rw [if_pos hx, hx, hself]
      change 1 = _
      omega
    · rw [if_neg hx, hne x hx, hc.strong x, Nat.add_zero]
  · intro x hx
    by_cases hxs : x = h.size
    · rw [hxs, hself] at hx
      cases hx
    · rw [hne x hxs] at hx ⊢
      exact hc.dead x hx
  · intro x hx
    by_cases hxs : x = h.size
    · rw [hxs, hself]
      exact Nat.one_pos
    · rw [hne x hxs] at hx ⊢
      exact hc.alive x hx
  · intro x
    rw [hheld, pend_strong_weak]
    by_cases hxs : x = h.size
    · rw [hxs, hself]
      change 1 = 1 + held h (.weak h.size) + R (.weak h.size)
      omega
    · rw [hne x hxs]
      exact hc.weak x
  · intro x
    by_cases hxs : x = h.size
    · rw [hxs, hself]
      simp
    · rw [hne x hxs]
      exact hc.freed x
  · intro x hx
    have hlive := hc.listed x hx
    rw [hne x]
    · exact hlive
    · intro hxs
      rw [hxs, hold] at hlive
      cases hlive
  · intro x
    by_cases hxs : x = h.size
    · rw [hxs, hself]
      rfl
    · rw [hne x hxs]
      exact hc.calm x

/-! ## Destructors and the log -/

theorem Counted.record {h : Heap} {R : Ref → ℕ} (hc : Counted h R) (e : Event) :
    Counted (h.record e) R :=
  ⟨hc.unallocated, hc.strong, hc.dead, hc.alive, hc.weak, hc.freed, hc.nodup, hc.listed, hc.calm⟩

/-- Whether an object has a destructor does not matter for the counts. -/
theorem Counted.setDtor {h : Heap} {R : Ref → ℕ} {o : ObjRef} (hc : Counted h R) (ho : o < h.size)
    (b : Bool) : Counted (h.modify o fun x => {x with dtor := b}) R := by
  set h' := h.modify o fun x => {x with dtor := b} with hh'
  have hfield : ∀ {β : Type} (g : DiObject → β),
      (∀ x b, g {x with dtor := b} = g x) → ∀ x, g (h'.obj x) = g (h.obj x) :=
    fun g hg => h.modify_same g o (hg _ _)
  have hheld : ∀ r, held h' r = held h r := held_congr rfl (hfield (·.members) fun _ _ => rfl)
  have hlarge : ∀ x, h.size ≤ x → h'.obj x = h.obj x := fun x hx =>
    h.modify_obj_ne _ fun hxo => absurd ho (Nat.not_lt.mpr (hxo ▸ hx))
  refine hc.transfer rfl hlarge (hfield (·.destroyed) fun _ _ => rfl)
    (hfield (·.refCount) fun _ _ => rfl) (hfield (·.weakRefCount) fun _ _ => rfl)
    (hfield (·.freed) fun _ _ => rfl) (fun r => by rw [hheld]) hc.nodup hc.listed fun x => ?_
  rw [hfield (·.mark) fun _ _ => rfl]
  exact hc.calm x

theorem Counted.callDtor {h : Heap} {R : Ref → ℕ} {o : ObjRef} (hc : Counted h R)
    (ho : o < h.size) : Counted (ObjectHeap.callDtor o h) R := by
  unfold ObjectHeap.callDtor
  split_ifs
  · exact (hc.setDtor ho false).record _
  · exact hc

end Deai.Accounting
