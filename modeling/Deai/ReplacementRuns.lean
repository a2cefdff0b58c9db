import Deai.MemberReplacement

/-!
# Setting members safely

The account of references has the callers of `di_setx` among the holders, each with the reference
that keeps its object. While a value is being released no destruction of its object begins, so the
entry stays in the table.
-/
namespace Deai.ReplacementRuns
open Value Accounting Release MemberTables DestructionAccounts MemberReplacement Fallible Relation
open ObjectHeap hiding diDeleteMemberRaw diAddMemberMove
open Mutator hiding Step
open Destruction hiding Move

/-- The object that a finalization works on. -/
def worksOn : Frame → Option ObjRef
  | .dtor o _ => some o
  | .members o _ => some o
  | _ => none

/-- No call above the ones in `below` finalizes the object. -/
def Waits (o : ObjRef) (below K : List Frame) : Prop :=
  ∃ above, K = above ++ below ∧ ∀ f ∈ above, worksOn f ≠ some o

/-- The calls of `di_setx` that wait, in the order of the stack. -/
structure Pending (ps : List Setting) (K : List Frame) : Prop where
  waits : ∀ p ∈ ps, Waits p.object p.below K
  nested : ps.Pairwise fun p q => q.below.length ≤ p.below.length
  kept : ∀ p ∈ ps, .strong p.object ∈ p.keeps ∨ inDestructor p.object p.below = true
  filled : ∀ p ∈ ps, p.new ≠ .nil
  distinct : (ps.map Setting.key).Nodup

/-- The references of user code and of the callers of `di_setx`. -/
def holders (m : Machine) : Ref → ℕ := pend m.base.external (m.settings.flatMap Setting.keeps)

def account (m : Machine) : Ref → ℕ := pend (holders m) (m.base.stack.flatMap frameRefs)

/-- With the references `rs` in the hands of the running function. -/
structure Invariant (m : Machine) (rs : List Ref) : Prop where
  counted : Counted m.heap (pend (account m) rs)
  tables : Tables m.heap m.stale
  pending : Pending m.settings m.base.stack
  dying : ∀ o, .dtor o .destroy ∈ m.base.stack → (m.heap.obj o).destroyed = true

section
variable {m m' : Machine} {h : Heap} {R : Ref → ℕ} {K below : List Frame} {f : Frame}
  {ps : List Setting} {p : Setting} {rs qs : List Ref} {o : ObjRef} {name prop : String}
  {v old new : DiValue} {k : Key}

/-! ## The stack -/

theorem Waits.push (hw : Waits o below K) (hf : worksOn f ≠ some o) : Waits o below (f :: K) := by
  obtain ⟨above, rfl, habove⟩ := hw
  refine ⟨f :: above, rfl, fun g hg => ?_⟩
  rcases List.mem_cons.mp hg with rfl | hg
  · exact hf
  · exact habove g hg

theorem Waits.tail (hw : Waits o below (f :: K)) (hne : f :: K ≠ below) :
    worksOn f ≠ some o ∧ Waits o below K := by
  obtain ⟨above, heq, habove⟩ := hw
  cases above with
  | nil => exact absurd heq hne
  | cons g above =>
      injection heq with hfg hK
      refine ⟨hfg ▸ habove g List.mem_cons_self, above, hK, fun x hx => ?_⟩
      exact habove x (List.mem_cons_of_mem g hx)

theorem Pending.push (hp : Pending ps K) (hf : ∀ p ∈ ps, worksOn f ≠ some p.object) :
    Pending ps (f :: K) :=
  {hp with waits := fun p hmem => (hp.waits p hmem).push (hf p hmem)}

/-- While the last call waits, so do all. -/
theorem Pending.not_below (hp : Pending ps K) (hnot : ∀ p ∈ ps.head?, K ≠ p.below) :
    ∀ p ∈ ps, K ≠ p.below := by
  cases ps with
  | nil => nofun
  | cons q ps =>
      have hq := hnot q rfl
      intro p hmem
      rcases List.mem_cons.mp hmem with rfl | hlater
      · exact hq
      · obtain ⟨above, rfl, -⟩ := hp.waits q List.mem_cons_self
        have hle := List.rel_of_pairwise_cons hp.nested hlater
        have habove : above.length ≠ 0 := fun hzero => hq (by
          rw [List.length_eq_zero_iff.mp hzero]
          rfl)
        intro heq
        have := congrArg List.length heq
        rw [List.length_append] at this
        omega

theorem Pending.tail (hp : Pending ps (f :: K)) (hnot : ∀ p ∈ ps.head?, f :: K ≠ p.below) :
    (∀ p ∈ ps, worksOn f ≠ some p.object) ∧ Pending ps K := by
  have hbelow := hp.not_below hnot
  have htail := fun p hmem => (hp.waits p hmem).tail (hbelow p hmem)
  exact ⟨fun p hmem => (htail p hmem).1, {hp with waits := fun p hmem => (htail p hmem).2}⟩

theorem ready_iff : ready m = false ↔ ∀ p ∈ m.settings.head?, m.base.stack ≠ p.below := by
  unfold ready
  cases m.settings with
  | nil => simp
  | cons p ps => simp

theorem inDestructor_iff : inDestructor o K = true ↔ ∃ c, .dtor o c ∈ K := by
  unfold inDestructor
  rw [List.any_eq_true]
  constructor
  · rintro ⟨f, hf, ho⟩
    cases f with
    | dtor q c => exact ⟨c, beq_iff_eq.mp ho ▸ hf⟩
    | free _ | members _ _ | scan _ _ | collect => cases ho
  · rintro ⟨c, hc⟩
    exact ⟨_, hc, beq_iff_eq.mpr rfl⟩

/-! ## Accounts -/

theorem account_pos_of_keeps {r : Ref} (hp : p ∈ m.settings) (hr : r ∈ p.keeps) :
    0 < account m r := by
  have := List.count_pos_iff.mpr (List.mem_flatMap.mpr ⟨p, hp, hr⟩)
  simp only [account, holders, pend]
  omega

theorem account_pos_of_frame {r : Ref} (hf : f ∈ m.base.stack) (hr : r ∈ frameRefs f) :
    0 < account m r := by
  have := List.count_pos_iff.mpr (List.mem_flatMap.mpr ⟨f, hf, hr⟩)
  simp only [account, pend]
  omega

/-- The object of a call that waits is in memory. -/
theorem Invariant.kept (hi : Invariant m rs) (hp : p ∈ m.settings) :
    0 < account m (.strong p.object) ∨
      (m.heap.obj p.object).destroyed = true ∧ 0 < account m (.weak p.object) := by
  rcases hi.pending.kept p hp with hkeeps | hdtor
  · exact .inl (account_pos_of_keeps hp hkeeps)
  · obtain ⟨c, hc⟩ := inDestructor_iff.mp hdtor
    obtain ⟨above, hstack, -⟩ := hi.pending.waits p hp
    have hmem : .dtor p.object c ∈ m.base.stack := hstack ▸ List.mem_append_right above hc
    cases c with
    | destroy =>
        exact .inr ⟨hi.dying _ hmem, account_pos_of_frame hmem List.mem_cons_self⟩
    | collect => exact .inl (account_pos_of_frame hmem List.mem_cons_self)

/-- The last reference to the object of a call that waits is not in other hands. -/
theorem Invariant.object_ne (hi : Invariant m [.strong o]) (hone : (m.heap.obj o).refCount = 1)
    (hp : p ∈ m.settings) : p.object ≠ o := by
  intro ho
  have hst := hi.counted.strong o
  have halive := hi.counted.alive_of_held (x := o) (by rw [pend_strong, if_pos rfl]; omega)
  rw [pend_strong, if_pos rfl] at hst
  rcases hi.kept hp with hpos | ⟨hdead, -⟩
  · rw [ho] at hpos
    omega
  · rw [ho, halive] at hdead
    cases hdead

/-- References change hands, and calls come and go. -/
theorem Invariant.hand (hi : Invariant m rs)
    (hrefs : ∀ r, pend (account {m with base := {m.base with external := R, stack := K}}) qs r =
      pend (account m) rs r)
    (hp : Pending m.settings K)
    (hdying : ∀ o, .dtor o .destroy ∈ K → .dtor o .destroy ∈ m.base.stack) :
    Invariant {m with base := {m.base with external := R, stack := K}} qs where
  counted := by
    rw [funext hrefs]
    exact hi.counted
  tables := hi.tables
  pending := hp
  dying o ho := hi.dying o (hdying o ho)

theorem Invariant.setHeap (hi : Invariant m rs) (hc : Counted h (pend (account m) qs))
    (ht : Tables h m.stale)
    (hdead : ∀ x < m.heap.size, (m.heap.obj x).destroyed = true → (h.obj x).destroyed = true) :
    Invariant (m.setHeap h) qs := by
  refine ⟨hc, ht, hi.pending, fun o ho => hdead o ?_ (hi.dying o ho)⟩
  have hpos := account_pos_of_frame ho List.mem_cons_self
  exact (Counted.lt_of_weak hi.counted (hpos.trans_le (le_pend ..))).1

theorem Invariant.give (hi : Invariant (m.setHeap h) rs) : Invariant (m.give h rs) [] := by
  refine hi.hand (fun r => ?_) hi.pending fun _ => id
  simp only [account, holders, pend, Machine.setHeap, List.count_nil]
  omega

theorem Invariant.take (hi : Invariant m []) (hown : Owns m rs) : Invariant (m.take rs) rs := by
  refine hi.hand (fun r => ?_) hi.pending fun _ => id
  have hle : rs.count r ≤ m.base.external r := by
    by_cases hr : r ∈ rs
    · exact hown r hr
    · rw [List.count_eq_zero.mpr hr]
      exact Nat.zero_le _
  simp only [account, holders, pend, List.count_nil]
  omega

theorem Invariant.free (hi : Invariant m v.refs) : Invariant (m.free v) [] := by
  refine hi.hand (fun r => ?_) (hi.pending.push (fun p hp hne => by cases hne)) fun o ho => ?_
  · simp only [account, holders, pend, List.flatMap_cons, frameRefs, List.count_append,
      List.count_nil]
    omega
  · exact (List.mem_cons.mp ho).resolve_left (by rintro ⟨⟩)

theorem Pending.map {g : Setting → Setting} (hp : Pending ps K)
    (hg : ∀ p, (g p).key = p.key ∧ (g p).below = p.below ∧ (g p).keeps = p.keeps ∧
      (g p).new = p.new) : Pending (ps.map g) K := by
  have hobject : ∀ p, (g p).object = p.object := fun p => congrArg Prod.fst (hg p).1
  refine ⟨?_, ?_, ?_, ?_, ?_⟩
  · intro q hq
    obtain ⟨p, hmem, rfl⟩ := List.mem_map.mp hq
    rw [hobject, (hg p).2.1]
    exact hp.waits p hmem
  · rw [List.pairwise_map]
    refine hp.nested.imp fun {p q} hle => ?_
    rwa [(hg p).2.1, (hg q).2.1]
  · intro q hq
    obtain ⟨p, hmem, rfl⟩ := List.mem_map.mp hq
    rw [hobject, (hg p).2.1, (hg p).2.2.1]
    exact hp.kept p hmem
  · intro q hq
    obtain ⟨p, hmem, rfl⟩ := List.mem_map.mp hq
    rw [(hg p).2.2.2]
    exact hp.filled p hmem
  · have hkeys : Setting.key ∘ g = Setting.key := funext fun p => (hg p).1
    rw [List.map_map, hkeys]
    exact hp.distinct

@[simp] theorem stale_lose (m : Machine) (k : Key) : (m.lose k).stale = m.stale := by
  unfold Machine.stale Machine.lose
  rw [List.map_map]
  rfl

@[simp] theorem account_lose (m : Machine) (k : Key) : account (m.lose k) = account m := by
  have hkeeps : (m.lose k).settings.flatMap Setting.keeps = m.settings.flatMap Setting.keeps := by
    unfold Machine.lose
    rw [List.flatMap_map]
  unfold account holders
  rw [hkeeps]
  rfl

theorem Invariant.lose (hi : Invariant m rs) (k : Key) : Invariant (m.lose k) rs where
  counted := by
    rw [account_lose]
    exact hi.counted
  tables := by
    rw [stale_lose]
    exact hi.tables
  pending := hi.pending.map fun _ => ⟨rfl, rfl, rfl, rfl⟩
  dying := hi.dying

/-! ## Releasing -/

theorem worksOn_finalize {c : Cause} (hf : f = .dtor o c ∨ f = .members o c) :
    worksOn f = some o := by
  rcases hf with rfl | rfl <;> rfl

theorem Invariant.unref (hi : Invariant m [.strong o]) :
    ∃ s, Destruction.unref o m.base = .ok s ∧ Invariant {m with base := s} [] := by
  obtain ⟨s, hrun, hc, hs⟩ := unref_counted (R := holders m) hi.counted
  have hholders : holders {m with base := s} = holders m := by
    unfold holders
    rw [hs.external]
  refine ⟨s, hrun, ?_, hi.tables.same hs.members, ?_, ?_⟩
  · rw [pend_nil]
    unfold account
    rw [hholders]
    exact hc
  · rcases hs.stack with heq | ⟨hone, -, f, hf, heq⟩
    · rw [heq]
      exact hi.pending
    · rw [heq]
      refine hi.pending.push fun p hp => ?_
      rw [worksOn_finalize hf]
      exact fun hobj => hi.object_ne hone hp (Option.some.inj hobj).symm
  · intro x hx
    rcases hs.stack with heq | ⟨-, hdead, f, hf, heq⟩
    · rw [heq] at hx
      exact hs.dead x (hi.dying x hx)
    · rw [heq] at hx
      rcases List.mem_cons.mp hx with hxf | hx
      · have hxo := worksOn_finalize hf
        rw [← hxf] at hxo
        cases hxo
        exact hdead
      · exact hs.dead x (hi.dying x hx)

theorem Invariant.dropWeak (hi : Invariant m [.weak o]) :
    ∃ h, diDropWeakRef o m.heap = .ok h ∧ Invariant (m.setHeap h) [] := by
  obtain ⟨h, hrun, hc, hdrop⟩ := dropWeak_counted hi.counted
  refine ⟨h, hrun, hi.setHeap ?_ (hi.tables.same hdrop.members) fun x _ hx =>
    (hdrop.destroyed x).trans hx⟩
  rwa [pend_nil]

/-- A member leaves the table, and its references are in the hands of the running function. -/
theorem Invariant.removeMember (hi : Invariant m []) (hv : diLookup o name m.heap = some v)
    (hk : (o, name) ∉ m.stale) : Invariant (m.setHeap (m.heap.removeMember o name)) v.refs := by
  have hc := hi.counted
  rw [pend_nil] at hc
  refine hi.setHeap (Counted.removeMember hc (lt_of_lookup hc hv) hv)
    (hi.tables.removeMember hk) fun x _ hx => ?_
  rw [removeMember_field (·.destroyed) fun _ _ => rfl]
  exact hx

end

section
variable {h : Heap} {E : Ref → ℕ} {K : List Frame} {f : Frame} {ps : List Setting}
  {rs : List Ref} {r : Ref} {o : ObjRef} {c : Cause}

/-- The call on the top gives up what it holds. -/
theorem Invariant.pop (hi : Invariant ⟨⟨h, E, f :: K⟩, ps⟩ [])
    (hready : ready ⟨⟨h, E, f :: K⟩, ps⟩ = false) :
    Invariant ⟨⟨h, E, K⟩, ps⟩ (frameRefs f) := by
  refine hi.hand (fun q => ?_) (hi.pending.tail (ready_iff.mp hready)).2 fun o ho => ?_
  · simp only [account, holders, pend, List.flatMap_cons, List.count_append, List.count_nil]
    omega
  · exact List.mem_cons_of_mem f ho

/-- A call that releases references takes the next one in hand. -/
theorem Invariant.nextRef (hi : Invariant ⟨⟨h, E, .free (r :: rs) :: K⟩, ps⟩ [])
    (hready : ready ⟨⟨h, E, .free (r :: rs) :: K⟩, ps⟩ = false) :
    Invariant ⟨⟨h, E, .free rs :: K⟩, ps⟩ [r] := by
  have hpending := (hi.pending.tail (ready_iff.mp hready)).2
  refine hi.hand (fun q => ?_) (hpending.push (fun p hp hne => by cases hne)) fun o ho => ?_
  · simp only [account, holders, pend, List.flatMap_cons, List.count_append, frameRefs,
      List.count_cons, List.count_nil]
    omega
  · exact List.mem_cons_of_mem _ ((List.mem_cons.mp ho).resolve_left (by rintro ⟨⟩))

/-- The loop over the members comes to no entry whose value is being released. -/
theorem Invariant.not_stale (hi : Invariant ⟨⟨h, E, .members o c :: K⟩, ps⟩ [])
    (hready : ready ⟨⟨h, E, .members o c :: K⟩, ps⟩ = false) (name : String) :
    (o, name) ∉ (⟨⟨h, E, .members o c :: K⟩, ps⟩ : Machine).stale := by
  intro hmem
  obtain ⟨p, hp, hkey⟩ := List.mem_map.mp hmem
  have hworks := (hi.pending.tail (ready_iff.mp hready)).1 p hp
  exact hworks (congrArg some (congrArg Prod.fst hkey).symm)

theorem Invariant.not_freed (hi : Invariant ⟨⟨h, E, .members o c :: K⟩, ps⟩ []) :
    (h.obj o).freed = false := by
  have hc := hi.counted
  rw [pend_nil] at hc
  have hmem : Frame.members o c ∈ (⟨⟨h, E, .members o c :: K⟩, ps⟩ : Machine).base.stack :=
    List.mem_cons_self
  cases c with
  | destroy => exact (Counted.lt_of_weak hc (account_pos_of_frame hmem List.mem_cons_self)).2
  | collect =>
      exact hc.not_freed (hc.alive_of_held (account_pos_of_frame hmem List.mem_cons_self))

theorem Invariant.removeMembers (hi : Invariant ⟨⟨h, E, .members o c :: K⟩, ps⟩ [])
    (hready : ready ⟨⟨h, E, .members o c :: K⟩, ps⟩ = false) :
    ∃ m', goOn ⟨⟨h, E, .members o c :: K⟩, ps⟩ = .ok m' ∧ Invariant m' [] := by
  have hderef := Heap.deref_ok hi.not_freed
  cases hms : (h.obj o).members with
  | cons x xs =>
      have hv : diLookup o x.1 h = some x.2 := diLookup_head hms
      have hk := hi.not_stale hready x.1
      refine ⟨_, ?_, (hi.removeMember hv hk).free.lose (o, x.1)⟩
      simp only [goOn, Destruction.resume, nextRemoved, Destruction.removeMembers, hderef, hms,
        List.head?_cons, Option.map_some, if_neg hk, ok_bind]
      rfl
  | nil =>
      have hpop := hi.pop hready
      cases c with
      | destroy =>
          obtain ⟨h', hrun, hinv⟩ := hpop.dropWeak
          refine ⟨_, ?_, hinv⟩
          unfold diDropWeakRef at hrun
          simp only [goOn, Destruction.resume, nextRemoved, Destruction.removeMembers, hderef, hms,
            List.head?_nil, Option.map_none, ok_bind]
          rw [show diDecrementWeakRefCount o h = .ok h' from hrun]
          rfl
      | collect =>
          obtain ⟨s, hrun, hinv⟩ := hpop.unref
          refine ⟨_, ?_, hinv⟩
          simp only [goOn, Destruction.resume, nextRemoved, Destruction.removeMembers, hderef, hms,
            List.head?_nil, Option.map_none, ok_bind]
          rw [show Destruction.unref o ⟨h, E, K⟩ = .ok s from hrun]
          rfl

/-- A call that goes on by itself does so, and leaves the account right. -/
theorem Invariant.goOn {m : Machine} (hi : Invariant m []) (hready : ready m = false)
    (hstack : resumable m.base.stack = true) : ∃ m', MemberReplacement.goOn m = .ok m' ∧ Invariant m' [] := by
  obtain ⟨⟨h, E, K⟩, ps⟩ := m
  match K, hstack with
  | .members o c :: K, _ => exact hi.removeMembers hready
  | .free [] :: K, _ => exact ⟨_, rfl, hi.pop hready⟩
  | .free (.strong o :: rs) :: K, _ =>
      obtain ⟨s, hrun, hinv⟩ := (hi.nextRef hready).unref
      refine ⟨_, ?_, hinv⟩
      simp only [MemberReplacement.goOn, Destruction.resume, nextRemoved]
      rw [show Destruction.unref o ⟨h, E, .free rs :: K⟩ = .ok s from hrun]
      rfl
  | .free (.weak o :: rs) :: K, _ =>
      obtain ⟨h', hrun, hinv⟩ := (hi.nextRef hready).dropWeak
      refine ⟨_, ?_, hinv⟩
      simp only [MemberReplacement.goOn, Destruction.resume, nextRemoved]
      rw [show diDropWeakRef o h = .ok h' from hrun]
      rfl

end

/-! ## User code -/

section
variable {m : Machine} {h h' : Heap} {rs : List Ref} {o : ObjRef} {name prop : String}
  {v old new : DiValue} {k : Key} {lender : Option Key} {p : Setting} {ps : List Setting}

theorem sizeofIsZero_iff : sizeofIsZero v = true ↔ v = .nil := by
  cases v <;> simp [sizeofIsZero]

theorem Invariant.account (hi : Invariant m []) : Counted m.heap (ReplacementRuns.account m) := by
  have hc := hi.counted
  rwa [pend_nil] at hc

theorem Owns.pos (hown : Owns m [.strong o]) : 0 < m.base.external (.strong o) := by
  have := hown _ List.mem_cons_self
  rw [List.count_cons_self] at this
  omega

theorem Invariant.usable (hi : Invariant m []) (ho : Usable m o) :
    (m.heap.obj o).freed = false ∧ o < m.heap.size := by
  have hc := hi.account
  rcases ho with halive | hdtor
  · exact ⟨hc.not_freed halive, hc.lt_size halive⟩
  · obtain ⟨c, hmem⟩ := inDestructor_iff.mp hdtor
    cases c with
    | destroy => exact (Counted.lt_of_weak hc (account_pos_of_frame hmem List.mem_cons_self)).symm
    | collect =>
        have halive := hc.alive_of_held (account_pos_of_frame hmem List.mem_cons_self)
        exact ⟨hc.not_freed halive, hc.lt_size halive⟩

theorem lookup_eq (hf : (m.heap.obj o).freed = false) (name : Name) :
    lookup o name m = .ok (name.bind fun n => diLookup o n m.heap) := by
  unfold lookup lift
  rw [Heap.deref_ok hf]
  rfl

theorem Invariant.diRefrawgetx (hi : Invariant m []) (hf : (m.heap.obj o).freed = false)
    (hk : (o, prop) ∉ m.stale) :
    MemberReplacement.diRefrawgetx o prop m = .ok (diLookup o prop m.heap) := by
  unfold MemberReplacement.diRefrawgetx
  rw [lookup_eq hf, ok_bind, Option.bind_some]
  cases hv : diLookup o prop m.heap with
  | none => rfl
  | some v =>
      dsimp only
      have hnil : ¬ sizeofIsZero v = true := fun hz =>
        hk ((hi.tables.nil_iff (o, prop)).mp (hv.trans (congrArg some (sizeofIsZero_iff.mp hz))))
      rw [if_neg hk, if_neg hnil]

/-- A value in a table can be copied. -/
theorem Invariant.holdable (hi : Invariant m []) (hv : diLookup o name m.heap = some v) :
    Holdable m.heap v.refs := by
  have hlt := lt_of_lookup hi.account hv
  have hheld : ∀ r ∈ v.refs, 0 < held m.heap r := by
    intro r hr
    have hmem : 0 < (memberRefs m.heap o).count r := by
      rw [count_removeMember hv]
      exact Nat.add_pos_left (List.count_pos_iff.mpr hr) _
    refine hmem.trans_le ?_
    exact Finset.single_le_sum (f := fun y => (memberRefs m.heap y).count r)
      (fun _ _ => Nat.zero_le _) (Finset.mem_range.mpr hlt)
  intro r hr
  have hpos := hheld r hr
  have hc := hi.account
  cases r with
  | strong t =>
      have hst := hc.strong t
      dsimp only
      by_contra hdead
      have := hc.dead t (by simpa using hdead)
      omega
  | weak t =>
      have hw := hc.weak t
      have hfreed := hc.freed t
      dsimp only
      rw [← Bool.not_eq_true, hfreed]
      omega

theorem Invariant.copy (hi : Invariant m []) (hv : Holdable m.heap v.refs) :
    ∃ h, diCopyValue v m.heap = .ok h ∧ Invariant (m.setHeap h) v.refs ∧
      SameObjects m.heap h := by
  obtain ⟨h, hrun, hc, hsame⟩ := diCopyValue_spec counted_extends hi.account hv
  exact ⟨h, hrun, hi.setHeap hc (hi.tables.same hsame.members)
    fun x _ hx => (hsame.destroyed x).trans hx, hsame⟩

theorem Invariant.rawget (hi : Invariant m []) (hf : (m.heap.obj o).freed = false)
    (hk : (o, prop) ∉ m.stale) : ∃ m', perform (.rawget o prop) m = .ok m' ∧ Invariant m' [] := by
  simp only [perform, diRawgetx]
  rw [hi.diRefrawgetx hf hk]
  cases hv : diLookup o prop m.heap with
  | none => exact ⟨m, rfl, hi⟩
  | some v =>
      obtain ⟨h, hrun, hinv, -⟩ := hi.copy (hi.holdable hv)
      refine ⟨_, ?_, hinv.give⟩
      rw [ok_bind]
      dsimp only
      rw [hrun]
      rfl

theorem Invariant.newObject (hi : Invariant m []) :
    Invariant (m.give (diNewObject m.heap).2 [.strong m.heap.size]) [] := by
  have hc := hi.account
  have hne := fun y => diNewObject_ne m.heap (y := y)
  refine Invariant.give (hi.setHeap hc.newObject (hi.tables.same hc.newObject_members) ?_)
  intro x hlt hx
  rwa [hne x (Nat.ne_of_lt hlt)]

theorem Invariant.setDtor (hi : Invariant m []) (hlt : o < m.heap.size) :
    Invariant (m.setHeap (m.heap.modify o fun x => {x with dtor := true})) [] := by
  refine hi.setHeap (hi.counted.setDtor hlt true)
    (hi.tables.same (m.heap.modify_same (·.members) o rfl)) fun x _ hx => ?_
  rwa [m.heap.modify_same (·.destroyed) o rfl]

theorem Invariant.incRef (hi : Invariant m []) (ho : (m.heap.obj o).destroyed = false) :
    Invariant (m.give (m.heap.modify o fun x => {x with refCount := x.refCount + 1})
      [.strong o]) [] := by
  refine Invariant.give (hi.setHeap (hi.account.incRef ho)
    (hi.tables.same (m.heap.modify_same (·.members) o rfl)) fun x _ hx => ?_)
  rwa [m.heap.modify_same (·.destroyed) o rfl]

theorem Invariant.incWeak (hi : Invariant m []) (ho : (m.heap.obj o).freed = false) :
    Invariant (m.give (m.heap.modify o fun x => {x with weakRefCount := x.weakRefCount + 1})
      [.weak o]) [] := by
  refine Invariant.give (hi.setHeap (hi.account.incWeak ho)
    (hi.tables.same (m.heap.modify_same (·.members) o rfl)) fun x _ hx => ?_)
  rwa [m.heap.modify_same (·.destroyed) o rfl]

theorem Invariant.upgradeWeakRef (hi : Invariant m []) (hown : Owns m [.weak o]) :
    ∃ m', perform (.upgradeWeakRef o) m = .ok m' ∧ Invariant m' [] := by
  have hc := hi.account
  have hpos : 0 < m.base.external (.weak o) := by
    have := hown _ List.mem_cons_self
    rw [List.count_cons_self] at this
    omega
  have hacc : 0 < ReplacementRuns.account m (.weak o) := by
    simp only [ReplacementRuns.account, holders, pend]
    omega
  have hf := (Counted.lt_of_weak hc hacc).2
  simp only [perform]
  rw [diUpgradeWeakRef_eq hf (hc.calm o)]
  split_ifs with ha
  · exact ⟨_, rfl, hi.incRef ha.2.1⟩
  · refine ⟨_, rfl, Invariant.give (hi.setHeap hi.counted hi.tables fun _ _ => id)⟩

theorem Invariant.deleteMember (hi : Invariant m []) (hf : (m.heap.obj o).freed = false)
    (name : Name) (hk : ∀ n ∈ name, (o, n) ∉ m.stale) :
    ∃ m', perform (.deleteMember o name) m = .ok m' ∧ Invariant m' [] := by
  simp only [perform, diDeleteMemberRaw]
  rw [lookup_eq hf]
  cases name with
  | none => exact ⟨m, rfl, hi⟩
  | some n =>
      rw [ok_bind, Option.bind_some]
      cases hv : diLookup o n m.heap with
      | none => exact ⟨m, rfl, hi⟩
      | some v =>
          have hnot := hk n rfl
          dsimp only [Option.getD_some]
          rw [if_neg hnot]
          exact ⟨_, rfl, (hi.removeMember hv hnot).free.lose (o, n)⟩

theorem Invariant.insertMember (hi : Invariant m v.refs) (hlt : o < m.heap.size)
    (hnew : diLookup o name m.heap = none) (hv : v ≠ .nil) :
    Invariant (m.setHeap (m.heap.insertMember o name v)) [] := by
  refine hi.setHeap ?_ (hi.tables.insertMember hnew hv) fun x _ hx => ?_
  · rw [pend_nil]
    exact hi.counted.insertMember hlt
  · have hd : ((m.heap.insertMember o name v).obj x).destroyed = (m.heap.obj x).destroyed :=
      m.heap.modify_same (·.destroyed) o rfl x
    rwa [hd]

theorem Invariant.addMember (hi : Invariant m []) (ho : Usable m o) (hown : Owns m v.refs)
    (name : Name) : ∃ m', perform (.addMember o name v) m = .ok m' ∧ Invariant m' [] := by
  obtain ⟨hf, hlt⟩ := hi.usable ho
  simp only [perform, diAddMemberMove]
  split_ifs with hz
  · exact ⟨m, rfl, hi⟩
  · cases name with
    | none => exact ⟨m, rfl, hi⟩
    | some n =>
        dsimp only
        rw [lookup_eq hf, ok_bind, Option.bind_some]
        have htake := hi.take hown
        cases hv : diLookup o n m.heap with
        | some _ => exact ⟨_, rfl, htake.free⟩
        | none =>
            exact ⟨_, rfl, htake.insertMember hlt hv fun hnil => hz (sizeofIsZero_iff.mpr hnil)⟩

theorem Invariant.dtorEnd (hi : Invariant m []) (hturn : UserTurn m) :
    ∃ m', perform .dtorEnd m = .ok m' ∧ Invariant m' [] := by
  obtain ⟨⟨h, E, K⟩, ps⟩ := m
  cases K with
  | nil => exact ⟨_, rfl, hi⟩
  | cons f K =>
      cases f with
      | dtor o c =>
          obtain ⟨hworks, hpending⟩ := hi.pending.tail (ready_iff.mp hturn.2)
          refine ⟨_, rfl, hi.hand (fun r => ?_) (hpending.push hworks) fun x hx => ?_⟩
          · simp only [ReplacementRuns.account, holders, pend, List.flatMap_cons,
              frameRefs_finalize (.inl rfl : Frame.dtor o c = .dtor o c ∨ _)]
          · exact List.mem_cons_of_mem _ ((List.mem_cons.mp hx).resolve_left (by rintro ⟨⟩))
      | _ => exact ⟨_, rfl, hi⟩

end

/-! ## Setting a member -/

/-- What is there when a value is stored: it is what a read gives, its references are counted once
more than before, and the callers have what they had. -/
structure Stored (m m' : Machine) (o : ObjRef) (name : String) (new : DiValue) : Prop where
  value : MemberReplacement.diRefrawgetx o name m' = .ok (some new)
  refCount : ∀ x, (m'.heap.obj x).refCount =
    (m.heap.obj x).refCount + new.refs.count (.strong x)
  weakRefCount : ∀ x, (m'.heap.obj x).weakRefCount =
    (m.heap.obj x).weakRefCount + new.refs.count (.weak x)
  stack : m'.base.stack = m.base.stack

/-- What is there when the release of an old value begins: its references are those of the call on
the top, once, and nothing is counted differently. -/
structure Started (m m' : Machine) (o : ObjRef) (name : String) (old new : DiValue) : Prop where
  stack : m'.base.stack = .free old.refs :: m.base.stack
  waits : ∃ p ps, m'.settings = p :: ps ∧ p.object = o ∧ p.name = name ∧ p.new = new ∧
    p.below = m.base.stack
  refCount : ∀ x, (m'.heap.obj x).refCount = (m.heap.obj x).refCount
  weakRefCount : ∀ x, (m'.heap.obj x).weakRefCount = (m.heap.obj x).weakRefCount

section
variable {m : Machine} {h h' : Heap} {R : Ref → ℕ} {rs : List Ref} {o : ObjRef}
  {name prop : String} {v old new : DiValue} {lender : Option Key} {p : Setting}
  {ps : List Setting}

theorem copy_counts (hc : Counted h R) (hc' : Counted h' (pend R rs)) (hsame : SameObjects h h')
    (x : ObjRef) : (h'.obj x).refCount = (h.obj x).refCount + rs.count (.strong x) ∧
      (h'.obj x).weakRefCount = (h.obj x).weakRefCount + rs.count (.weak x) := by
  have hheld := held_congr hsame.size hsame.members
  constructor
  · rw [hc.strong, hc'.strong, hheld, pend]
    omega
  · rw [hc.weak, hc'.weak, hheld, pend, hsame.destroyed]
    omega

theorem Invariant.keeps_usable (hi : Invariant m []) (hown : Owns m (keeps o m)) :
    Usable m o := by
  unfold keeps at hown
  split_ifs at hown with hdtor
  · exact .inr hdtor
  · refine .inl (hi.account.alive_of_held ?_)
    have := Owns.pos (m := m) hown
    simp only [ReplacementRuns.account, holders, pend]
    omega

theorem rawgetBorrowed_none (hget : MemberReplacement.diRefrawgetx o name m =
    .ok (diLookup o name m.heap)) (hno : isHandler (diLookup o name m.heap) = false) :
    rawgetBorrowed o name m = .ok none := by
  unfold rawgetBorrowed
  rw [hget, ok_bind]
  split
  · rename_i handler heq
    rw [heq] at hno
    cases hno
  · rfl

theorem Invariant.noHandler (hi : Invariant m []) (hf : (m.heap.obj o).freed = false)
    (kind : String)
    (hno : ∀ n ∈ handlerNames kind prop, isHandler (diLookup o n m.heap) = false)
    (hk : ∀ n ∈ handlerNames kind prop, (o, n) ∉ m.stale) :
    callHandlerWithFallback o kind prop m = .ok ⟨⟩ := by
  have hnone : ∀ n ∈ handlerNames kind prop, rawgetBorrowed o n m = .ok none := fun n hn =>
    rawgetBorrowed_none (hi.diRefrawgetx hf (hk n hn)) (hno n hn)
  have hspecific := hnone (kind ++ "_" ++ prop) List.mem_cons_self
  have hfallback := hnone kind (List.mem_cons_of_mem _ List.mem_cons_self)
  unfold callHandlerWithFallback handlerNames
  simp only [List.forM_eq_forM, List.forM_cons, List.forM_nil, hspecific, hfallback, ok_bind]
  rfl

/-- The search for handlers ends without one. -/
theorem Invariant.diSetx_eq (hi : Invariant m []) {prop : Name}
    (ha : Allowed m (.setx o prop new lender)) (hc : Careful m (.setx o prop new lender)) :
    diSetx o prop new lender m =
      match prop.bind fun n => diLookup o n m.heap with
      | some old => .ok (startSetting o (prop.getD "") old new lender m)
      | none => storeNew o prop new m := by
  obtain ⟨-, hown, hno, -, -⟩ := ha
  obtain ⟨hnames, hmember, -⟩ := hc
  have hf := (hi.usable (hi.keeps_usable hown)).1
  have hset := hi.noHandler hf "__set" (fun n hn => hno n (List.mem_append_left _ hn))
    fun n hn => hnames n (List.mem_append_left _ hn)
  have hdelete := hi.noHandler hf "__delete" (fun n hn => hno n (List.mem_append_right _ hn))
    fun n hn => hnames n (List.mem_append_right _ hn)
  unfold diSetx
  rw [hset, ok_bind, hdelete, ok_bind, lookup_eq hf, ok_bind]
  cases prop with
  | none => rfl
  | some n =>
      dsimp only [Option.bind_some, Option.getD_some]
      cases hv : diLookup o n m.heap with
      | none => rfl
      | some old =>
          dsimp only
          rw [if_neg (hmember n rfl).1]

theorem count_keeps_le (hown : Owns m (keeps o m)) (r : Ref) :
    (keeps o m).count r ≤ m.base.external r := by
  by_cases hr : r ∈ keeps o m
  · exact hown r hr
  · rw [List.count_eq_zero.mpr hr]
    exact Nat.zero_le _

theorem Invariant.start (hi : Invariant m []) (hown : Owns m (keeps o m))
    (hv : diLookup o name m.heap = some old) (hk : (o, name) ∉ m.stale) (hnew : new ≠ .nil)
    (lender : Option Key) : Invariant (startSetting o name old new lender m) [] ∧
      Started m (startSetting o name old new lender m) o name old new := by
  have hc : Counted m.heap (pend (ReplacementRuns.account m) DiValue.nil.refs) := hi.counted
  have hset := Counted.setMember hc (lt_of_lookup hi.account hv) hv
  refine ⟨Invariant.lose ⟨?_, ?_, ⟨?_, ?_, ?_, ?_, ?_⟩, ?_⟩ (o, name), rfl,
    ⟨_, _, rfl, rfl, rfl, rfl, rfl⟩,
    fun _ => setMember_field (·.refCount) (fun _ _ => rfl) ..,
    fun _ => setMember_field (·.weakRefCount) (fun _ _ => rfl) ..⟩
  · rw [pend_nil]
    refine (congrArg (Counted _) (funext fun r => ?_)).mpr hset
    have hle := count_keeps_le hown r
    simp only [ReplacementRuns.account, holders, pend, Machine.take, Machine.setHeap, Machine.free,
      List.flatMap_cons, List.count_append, frameRefs]
    omega
  · refine hi.tables.setMember hv ⟨fun _ => List.mem_cons_self, fun _ => rfl⟩ fun k hne => ?_
    exact ⟨fun hmem => (List.mem_cons.mp hmem).resolve_left hne, List.mem_cons_of_mem _⟩
  · intro q hq
    rcases List.mem_cons.mp hq with rfl | hq
    · refine ⟨[.free old.refs], rfl, fun f hf => ?_⟩
      rw [List.mem_singleton.mp hf]
      rintro ⟨⟩
    · exact (hi.pending.waits q hq).push (by rintro ⟨⟩)
  · refine List.pairwise_cons.mpr ⟨fun q hq => ?_, hi.pending.nested⟩
    obtain ⟨above, hstack, -⟩ := hi.pending.waits q hq
    change q.below.length ≤ m.base.stack.length
    rw [hstack, List.length_append]
    exact Nat.le_add_left _ _
  · intro q hq
    rcases List.mem_cons.mp hq with rfl | hq
    · change .strong o ∈ keeps o m ∨ _
      unfold keeps
      split_ifs with hdtor
      · exact .inr hdtor
      · exact .inl List.mem_cons_self
    · exact hi.pending.kept q hq
  · intro q hq
    rcases List.mem_cons.mp hq with rfl | hq
    · exact hnew
    · exact hi.pending.filled q hq
  · exact List.nodup_cons.mpr ⟨hk, hi.pending.distinct⟩
  · intro x hx
    have hd := setMember_field (·.destroyed) (fun _ _ => rfl) o name .nil m.heap x
    change ((setMember o name .nil m.heap).obj x).destroyed = true
    exact hd.trans (hi.dying x ((List.mem_cons.mp hx).resolve_left (by rintro ⟨⟩)))

theorem Invariant.object_in_memory (hi : Invariant m []) (hp : p ∈ m.settings) :
    (m.heap.obj p.object).freed = false := by
  have hc := hi.account
  rcases hi.kept hp with hpos | ⟨-, hpos⟩
  · exact hc.not_freed (hc.alive_of_held hpos)
  · exact (Counted.lt_of_weak hc hpos).2

theorem Invariant.finish (hi : Invariant m []) (hs : m.settings = p :: ps)
    (hhold : Holdable m.heap p.new.refs) (hintact : p.intact = true) :
    ∃ m', finishSetting p ps m = .ok m' ∧ Invariant m' [] ∧ m'.settings = ps ∧
      Stored m m' p.object p.name p.new := by
  have hstale : m.stale = p.key :: ps.map Setting.key := congrArg (List.map Setting.key) hs
  have hdistinct : (p.key :: ps.map Setting.key).Nodup := hstale ▸ hi.pending.distinct
  have hnot : p.key ∉ ps.map Setting.key := (List.nodup_cons.mp hdistinct).1
  have hp : p ∈ m.settings := hs ▸ List.mem_cons_self
  have hfilled := hi.pending.filled p hp
  have hv : diLookup p.object p.name m.heap = some .nil :=
    (hi.tables.nil_iff p.key).mpr (hstale ▸ List.mem_cons_self)
  obtain ⟨h, hrun, hcopy, hsame⟩ := hi.copy hhold
  have hvh : diLookup p.object p.name h = some .nil := by
    rw [diLookup, hsame.members]
    exact hv
  have hset := Counted.setMember hcopy.counted (lt_of_lookup hcopy.counted hvh) hvh
  set h' := setMember p.object p.name p.new h with hh'
  have hd : ∀ x, (h'.obj x).destroyed = (m.heap.obj x).destroyed := fun x =>
    (setMember_field (·.destroyed) (fun _ _ => rfl) ..).trans (hsame.destroyed x)
  have hfreed : (h'.obj p.object).freed = false :=
    ((setMember_field (·.freed) (fun _ _ => rfl) ..).trans (hsame.freed _)).trans
      (hi.object_in_memory hp)
  have hcounts := copy_counts hi.account hcopy.counted hsame
  set m' : Machine := {(m.give h' p.keeps) with settings := ps} with hm'
  have hinv : Invariant m' [] := by
    have hpending := hi.pending
    rw [hs] at hpending
    refine ⟨?_, ?_, ⟨fun q hq => ?_, ?_, fun q hq => ?_, fun q hq => ?_, ?_⟩, fun x hx => ?_⟩
    · have haccount : ReplacementRuns.account m' =
          pend (ReplacementRuns.account (m.setHeap h)) DiValue.nil.refs := by
        funext r
        simp only [hm', ReplacementRuns.account, holders, pend, Machine.give, Machine.setHeap, hs,
          DiValue.refs, List.flatMap_cons, List.count_append, List.count_nil]
        omega
      rw [pend_nil, haccount]
      exact hset
    · refine hcopy.tables.setMember hvh ⟨fun hnil => absurd hnil hfilled,
        fun hmem => absurd hmem hnot⟩ fun k hne => ?_
      change k ∈ ps.map Setting.key ↔ k ∈ m.stale
      rw [hstale, List.mem_cons]
      exact ⟨.inr, fun hmem => hmem.resolve_left hne⟩
    · exact hpending.waits q (List.mem_cons_of_mem p hq)
    · exact (List.pairwise_cons.mp hpending.nested).2
    · exact hpending.kept q (List.mem_cons_of_mem p hq)
    · exact hpending.filled q (List.mem_cons_of_mem p hq)
    · exact (List.nodup_cons.mp hdistinct).2
    · exact (hd x).trans (hi.dying x hx)
  refine ⟨m', ?_, hinv, rfl, ?_, fun x => ?_, fun x => ?_, rfl⟩
  · unfold finishSetting
    rw [hv]
    dsimp only
    rw [if_neg (by rw [hintact]; rintro ⟨⟩), hrun]
    rfl
  · rw [hinv.diRefrawgetx hfreed hnot]
    exact congrArg Except.ok (diLookup_setMember hvh)
  · exact (setMember_field (·.refCount) (fun _ _ => rfl) ..).trans (hcounts x).1
  · exact (setMember_field (·.weakRefCount) (fun _ _ => rfl) ..).trans (hcounts x).2

/-- A value that is copied into the table. -/
theorem Invariant.insertCopy (hi : Invariant m []) (hf : (m.heap.obj o).freed = false)
    (hlt : o < m.heap.size) (hv : diLookup o name m.heap = none) (hhold : Holdable m.heap new.refs)
    (hnew : new ≠ .nil) :
    ∃ h, diCopyValue new m.heap = .ok h ∧ diLookup o name h = none ∧
      Invariant (m.setHeap (h.insertMember o name new)) [] ∧
      Stored m (m.setHeap (h.insertMember o name new)) o name new := by
  obtain ⟨h, hrun, hcopy, hsame⟩ := hi.copy hhold
  have hvh : diLookup o name h = none := by
    rw [diLookup, hsame.members]
    exact hv
  have hcounts := copy_counts hi.account hcopy.counted hsame
  have hinv := hcopy.insertMember (hsame.size.symm ▸ hlt) hvh hnew
  have hstale : (o, name) ∉ m.stale := by
    rw [← hi.tables.nil_iff, hv]
    rintro ⟨⟩
  have hfreed : ((h.insertMember o name new).obj o).freed = false :=
    (h.modify_same (·.freed) o rfl o).trans ((hsame.freed o).trans hf)
  have hself : diLookup o name (h.insertMember o name new) = some new := by
    rw [diLookup, Heap.insertMember, Heap.modify_obj_self]
    exact (valueOf_append hvh).trans (if_pos rfl)
  have hrc : ∀ x, ((h.insertMember o name new).obj x).refCount = (h.obj x).refCount :=
    h.modify_same (·.refCount) o rfl
  have hwc : ∀ x, ((h.insertMember o name new).obj x).weakRefCount = (h.obj x).weakRefCount :=
    h.modify_same (·.weakRefCount) o rfl
  refine ⟨h, hrun, hvh, hinv, ?_, fun x => (hrc x).trans (hcounts x).1,
    fun x => (hwc x).trans (hcounts x).2, rfl⟩
  exact (hinv.diRefrawgetx hfreed hstale).trans (congrArg Except.ok hself)

theorem give_same (m : Machine) : m.give m.heap [] = m := by
  unfold Machine.give
  rw [pend_nil]

theorem storeNew_nil (o : ObjRef) (prop : Name) (m : Machine) :
    storeNew o prop .nil m = .ok m := by
  have hgive : m.give m.heap (if prop.isSome then [] else DiValue.nil.refs) = m := by
    rw [show DiValue.nil.refs = [] from rfl, ite_self]
    exact give_same m
  exact congrArg Except.ok hgive

theorem Invariant.storeNew (hi : Invariant m []) (hf : (m.heap.obj o).freed = false)
    (hlt : o < m.heap.size) (hv : diLookup o name m.heap = none)
    (hhold : Holdable m.heap new.refs) (hnew : new ≠ .nil) :
    ∃ m', MemberReplacement.storeNew o (some name) new m = .ok m' ∧ Invariant m' [] ∧
      m'.settings = m.settings ∧ Stored m m' o name new := by
  obtain ⟨h, hrun, hvh, hinv, hstored⟩ := hi.insertCopy hf hlt hv hhold hnew
  have hzero : ¬ sizeofIsZero new = true := fun hz => hnew (sizeofIsZero_iff.mp hz)
  have hclone : diAddMemberClone 0 o (some name) new m.heap =
      .ok (none, h.insertMember o name new) := by
    unfold diAddMemberClone
    rw [if_neg hzero, hrun, ok_bind]
    simp only [diAddMember, hvh]
  have hgive : m.give (h.insertMember o name new) [] = m.setHeap (h.insertMember o name new) := by
    unfold Machine.give
    rw [pend_nil]
    rfl
  refine ⟨m.setHeap (h.insertMember o name new), ?_, hinv, rfl, hstored⟩
  unfold MemberReplacement.storeNew
  rw [hclone]
  exact congrArg Except.ok hgive

/-- Without a name the references of the copy are never given back. -/
theorem Invariant.storeNameless (hi : Invariant m []) (o : ObjRef)
    (hhold : Holdable m.heap new.refs) (hnew : new ≠ .nil) :
    ∃ m', MemberReplacement.storeNew o none new m = .ok m' ∧ Invariant m' [] := by
  obtain ⟨h, hrun, hcopy, -⟩ := hi.copy hhold
  have hzero : ¬ sizeofIsZero new = true := fun hz => hnew (sizeofIsZero_iff.mp hz)
  refine ⟨_, ?_, hcopy.give⟩
  unfold MemberReplacement.storeNew diAddMemberClone
  rw [if_neg hzero, hrun]
  rfl

theorem Invariant.setx (hi : Invariant m []) {prop : Name}
    (ha : Allowed m (.setx o prop new lender)) (hc : Careful m (.setx o prop new lender)) :
    ∃ m', perform (.setx o prop new lender) m = .ok m' ∧ Invariant m' [] := by
  have heq := hi.diSetx_eq ha hc
  obtain ⟨-, hown, -, hhold, -⟩ := ha
  obtain ⟨-, hmember, -⟩ := hc
  obtain ⟨hf, hlt⟩ := hi.usable (hi.keeps_usable hown)
  change ∃ m', diSetx o prop new lender m = .ok m' ∧ Invariant m' []
  rw [heq]
  by_cases hnil : new = .nil
  · cases prop with
    | none => exact ⟨m, hnil ▸ storeNew_nil o none m, hi⟩
    | some n =>
        rw [Option.bind_some]
        cases hv : diLookup o n m.heap with
        | none => exact ⟨m, hnil ▸ storeNew_nil o (some n) m, hi⟩
        | some old =>
            have hzero := (hmember n rfl).2 (Option.isSome_of_eq_some hv)
            rw [hnil] at hzero
            cases hzero
  · cases prop with
    | none => exact hi.storeNameless o hhold hnil
    | some n =>
        rw [Option.bind_some]
        cases hv : diLookup o n m.heap with
        | none =>
            obtain ⟨m', hrun, hinv, -⟩ := hi.storeNew hf hlt hv hhold hnil
            exact ⟨m', hrun, hinv⟩
        | some old => exact ⟨_, rfl, (hi.start hown hv (hmember n rfl).1 hnil lender).1⟩

theorem Invariant.resume (hi : Invariant m []) (ha : Allowed m .resume)
    (hc : Careful m .resume) : ∃ m', perform .resume m = .ok m' ∧ Invariant m' [] := by
  cases hready : ready m with
  | false =>
      have hbelow := ready_iff.mp hready
      have hstack : resumable m.base.stack = true := by
        rcases ha with ha | ha
        · cases hready.symm.trans ha
        · exact ha
      obtain ⟨m', hrun, hinv⟩ := hi.goOn hready hstack
      refine ⟨m', ?_, hinv⟩
      simp only [perform]
      cases hs : m.settings with
      | nil => exact hrun
      | cons p ps =>
          dsimp only
          rw [if_neg (hbelow p (hs ▸ rfl)), hrun]
  | true =>
      unfold ready at hready
      cases hs : m.settings with
      | nil =>
          rw [hs] at hready
          cases hready
      | cons p ps =>
          rw [hs] at hready
          have hbelow := of_decide_eq_true hready
          obtain ⟨hhold, hintact⟩ := hc p (hs ▸ rfl) hbelow
          obtain ⟨m', hrun, hinv, -⟩ := hi.finish hs hhold hintact
          refine ⟨m', ?_, hinv⟩
          simp only [perform, hs]
          rw [if_pos hbelow, hrun]

/-- What a step preserves, whatever user code does. -/
theorem Invariant.perform (hi : Invariant m []) (a : Action) (ha : Allowed m a)
    (hc : Careful m a) : ∃ m', MemberReplacement.perform a m = .ok m' ∧ Invariant m' [] := by
  cases a with
  | newObject => exact ⟨_, rfl, hi.newObject⟩
  | setDtor o =>
      obtain ⟨hf, hlt⟩ := hi.usable ha.2
      refine ⟨_, ?_, hi.setDtor hlt⟩
      simp only [MemberReplacement.perform, Heap.deref_ok hf]
      rfl
  | refObject o =>
      have hf := hi.account.not_freed ha.2
      refine ⟨_, ?_, hi.incRef ha.2⟩
      simp only [MemberReplacement.perform, diRefObject_eq hf]
      rfl
  | unrefObject o =>
      obtain ⟨s, hrun, hinv⟩ := (hi.take ha.2).unref
      refine ⟨_, ?_, hinv⟩
      simp only [MemberReplacement.perform, hrun]
      rfl
  | weaklyRefObject o =>
      refine ⟨_, ?_, hi.incWeak ha.2⟩
      simp only [MemberReplacement.perform, diWeaklyRefObject_eq ha.2]
      rfl
  | dropWeakRef o =>
      obtain ⟨h, hrun, hinv⟩ := (hi.take ha.2).dropWeak
      refine ⟨_, ?_, hinv⟩
      simp only [MemberReplacement.perform]
      rw [show diDropWeakRef o m.heap = .ok h from hrun]
      rfl
  | upgradeWeakRef o => exact hi.upgradeWeakRef ha.2
  | addMember o name v => exact hi.addMember ha.2.1 ha.2.2 name
  | deleteMember o name => exact hi.deleteMember (hi.usable ha.2).1 name hc
  | rawget o prop => exact hi.rawget (hi.usable ha.2).1 hc
  | setx o prop new lender => exact hi.setx ha hc
  | dtorEnd => exact hi.dtorEnd ha.1
  | resume => exact hi.resume ha hc

theorem Invariant.step {m' : Machine} (hi : Invariant m []) (hstep : Step Prudent m m') :
    Invariant m' [] := by
  obtain ⟨a, ⟨ha, hc⟩, hrun⟩ := hstep
  obtain ⟨m'', hrun', hinv⟩ := hi.perform a ha hc
  cases hrun.symm.trans hrun'
  exact hinv

theorem Invariant.run {m' : Machine} (hi : Invariant m []) (hrun : ReflTransGen (Step Prudent) m m') :
    Invariant m' [] := by
  induction hrun with
  | refl => exact hi
  | tail _ hstep ih => exact ih.step hstep

theorem invariant_init : Invariant {} [] := by
  refine ⟨?_, ⟨fun o => List.nodup_nil, fun k => ⟨nofun, nofun⟩⟩, ⟨nofun, .nil, nofun, nofun,
    List.nodup_nil⟩, nofun⟩
  exact Settled.empty.counted

end

/-! ## The condition is exact -/

section
variable {m : Machine} {p : Setting} {ps : List Setting}

/-- A new value that did not survive the release cannot be stored. -/
theorem Invariant.finish_iff (hi : Invariant m []) (hs : m.settings = p :: ps)
    (hbelow : m.base.stack = p.below) :
    (∃ m', MemberReplacement.perform .resume m = .ok m' ∧ Invariant m' []) ↔
      Holdable m.heap p.new.refs ∧ p.intact = true := by
  have hv : diLookup p.object p.name m.heap = some .nil :=
    (hi.tables.nil_iff p.key).mpr (List.mem_map.mpr ⟨p, hs ▸ List.mem_cons_self, rfl⟩)
  have hperform : MemberReplacement.perform .resume m = finishSetting p ps m := by
    simp only [MemberReplacement.perform, hs]
    exact if_pos hbelow
  rw [hperform]
  constructor
  · rintro ⟨m', hrun, hinv⟩
    unfold finishSetting at hrun
    rw [hv] at hrun
    dsimp only at hrun
    split_ifs at hrun with hintact
    obtain ⟨h, hcopy, heq⟩ := bind_eq_ok hrun
    refine ⟨?_, by simpa using hintact⟩
    have hrun' : diCopyValue p.new m.heap = .ok h := by
      cases hres : diCopyValue p.new m.heap with
      | error e =>
          rw [hres] at hcopy
          cases hcopy
      | ok u =>
          rw [hres] at hcopy
          injection hcopy with hu
          rw [hu]
    have hsame := diCopyValue_same hrun'
    injection heq with heq
    have hheap : m'.heap = setMember p.object p.name p.new h := by
      rw [← heq]
      rfl
    have hvh : diLookup p.object p.name h = some .nil := by
      rw [diLookup, hsame.members]
      exact hv
    have hhold := hinv.holdable (hheap ▸ diLookup_setMember hvh)
    intro r hr
    have hr' := hhold r hr
    rw [hheap] at hr'
    cases r with
    | strong t =>
        exact (hsame.destroyed t).symm.trans
          ((setMember_field (·.destroyed) (fun _ _ => rfl) ..).symm.trans hr')
    | weak t =>
        exact (hsame.freed t).symm.trans
          ((setMember_field (·.freed) (fun _ _ => rfl) ..).symm.trans hr')
  · rintro ⟨hhold, hintact⟩
    obtain ⟨m', hrun, hinv, -⟩ := hi.finish hs hhold hintact
    exact ⟨m', hrun, hinv⟩

end

/-! ## Safety -/

/-- What holds between two steps of a run. -/
structure Safe (m : Machine) : Prop where
  /-- no freed memory is touched, and no assertion fails -/
  goesOn : ∀ a, Allowed m a → Careful m a → ∃ m', perform a m = .ok m'
  counted : Counted m.heap (account m)
  /-- the only members that are NIL are the entries that wait for their value -/
  nil_iff : ∀ k : Key, diLookup k.1 k.2 m.heap = some .nil ↔ k ∈ m.stale
  /-- on a member that exists -/
  starts : ∀ o name old new lender, Allowed m (.setx o (some name) new lender) →
    Careful m (.setx o (some name) new lender) → diLookup o name m.heap = some old →
    ∃ m', perform (.setx o (some name) new lender) m = .ok m' ∧ Started m m' o name old new
  /-- on one that does not, where NIL is refused -/
  stores : ∀ o name new lender, Allowed m (.setx o (some name) new lender) →
    Careful m (.setx o (some name) new lender) → diLookup o name m.heap = none →
    ∃ m', perform (.setx o (some name) new lender) m = .ok m' ∧ m'.settings = m.settings ∧
      (new = .nil ∧ m' = m ∨ Stored m m' o name new)
  finishes : ∀ p ps, m.settings = p :: ps → m.base.stack = p.below → Careful m .resume →
    ∃ m', perform .resume m = .ok m' ∧ m'.settings = ps ∧ Stored m m' p.object p.name p.new
  /-- and no new value is stored that did not outlive the release -/
  outlives : ∀ p ps, m.settings = p :: ps → m.base.stack = p.below →
    ((∃ m', perform .resume m = .ok m' ∧ Invariant m' []) ↔
      Holdable m.heap p.new.refs ∧ p.intact = true)

section
variable {m m' : Machine}

theorem Invariant.safe (hi : Invariant m []) : Safe m where
  goesOn a ha hc := by
    obtain ⟨m', hrun, -⟩ := hi.perform a ha hc
    exact ⟨m', hrun⟩
  counted := hi.account
  nil_iff := hi.tables.nil_iff
  starts o name old new lender ha hc hv := by
    have heq := hi.diSetx_eq ha hc
    rw [Option.bind_some, hv] at heq
    obtain ⟨hstale, hzero⟩ := hc.2.1 name rfl
    have hnew : new ≠ .nil := fun hnil => by
      have := hzero (Option.isSome_of_eq_some hv)
      rw [hnil] at this
      cases this
    exact ⟨_, heq, (hi.start ha.2.1 hv hstale hnew lender).2⟩
  stores o name new lender ha hc hv := by
    have heq := hi.diSetx_eq ha hc
    rw [Option.bind_some, hv] at heq
    obtain ⟨hf, hlt⟩ := hi.usable (hi.keeps_usable ha.2.1)
    by_cases hnil : new = .nil
    · exact ⟨m, heq.trans (hnil ▸ storeNew_nil o (some name) m), rfl, .inl ⟨hnil, rfl⟩⟩
    · obtain ⟨m', hrun, -, hsettings, hstored⟩ := hi.storeNew hf hlt hv ha.2.2.2.1 hnil
      exact ⟨m', heq.trans hrun, hsettings, .inr hstored⟩
  finishes p ps hs hbelow hc := by
    obtain ⟨hhold, hintact⟩ := hc p (hs ▸ rfl) hbelow
    obtain ⟨m', hrun, -, hsettings, hstored⟩ := hi.finish hs hhold hintact
    refine ⟨m', ?_, hsettings, hstored⟩
    simp only [MemberReplacement.perform, hs]
    rw [if_pos hbelow, hrun]
  outlives _ _ hs hbelow := hi.finish_iff hs hbelow

/-- Setting members is safe in every run in which nobody uses an entry that waits for its value, no
member that exists is set to NIL, and every new value outlives the release of the old one. -/
theorem setx_safe (hi : Invariant m []) (hrun : ReflTransGen (Step Prudent) m m') : Safe m' :=
  (hi.run hrun).safe

end

/-- The destructor of the old value puts the new one into another member, too. -/
theorem setx_safe_reentrant : ∃ m, runActions Prudent
    [.newObject, .newObject, .setDtor 1, .addMember 0 (some "m") (.object 1), .newObject,
      .setx 0 (some "m") (.object 2) none, .resume, .addMember 0 (some "n") (.object 2), .dtorEnd,
      .resume, .resume, .resume] {} = some m ∧ Safe m := by
  obtain ⟨m, hm⟩ := Option.isSome_iff_exists.mp (show (runActions Prudent
    [.newObject, .newObject, .setDtor 1, .addMember 0 (some "m") (.object 1), .newObject,
      .setx 0 (some "m") (.object 2) none, .resume, .addMember 0 (some "n") (.object 2), .dtorEnd,
      .resume, .resume, .resume] {}).isSome by decide)
  exact ⟨m, hm, setx_safe invariant_init (run_of_actions hm)⟩

def faultOf : Except MemberReplacement.Fault Machine → Option MemberReplacement.Fault
  | .ok _ => none
  | .error e => some e

/-- A fault that can be reached. -/
theorem fault_of_actions (as : List Action) {a : Action} {e : MemberReplacement.Fault}
    (hrun : (runActions Allowed as {}).map (fun m => (decide (Allowed m a), faultOf (perform a m))) =
      some (true, some e)) :
    ∃ m, ReflTransGen (Step Allowed) {} m ∧ Allowed m a ∧ perform a m = .error e := by
  obtain ⟨m, hm, heq⟩ := Option.map_eq_some_iff.mp hrun
  refine ⟨m, run_of_actions hm, of_decide_eq_true (congrArg Prod.fst heq), ?_⟩
  have hfault : faultOf (perform a m) = some e := congrArg Prod.snd heq
  cases hp : perform a m with
  | ok m' =>
      rw [hp] at hfault
      cases hfault
  | error e' =>
      rw [hp] at hfault
      exact congrArg Except.error (Option.some.inj hfault)

/-- The new value is the old one, and nobody else holds its object; a member is set to NIL and read;
the destructor of the old value deletes the member. -/
theorem setx_unsafe :
    (∃ m, ReflTransGen (Step Allowed) {} m ∧ Allowed m .resume ∧
      perform .resume m = .error (.heap (.useAfterFree 1))) ∧
    (∃ m, ReflTransGen (Step Allowed) {} m ∧ Allowed m (.rawget 0 "m") ∧
      perform (.rawget 0 "m") m = .error (.nilMember (0, "m"))) ∧
    ∃ m, ReflTransGen (Step Allowed) {} m ∧ Allowed m (.deleteMember 0 (some "m")) ∧
      perform (.deleteMember 0 (some "m")) m = .error (.staleMember (0, "m")) := by
  refine ⟨fault_of_actions [.newObject, .newObject, .addMember 0 (some "m") (.object 1),
      .setx 0 (some "m") (.object 1) none, .resume, .resume, .resume] (by decide),
    fault_of_actions [.newObject, .addMember 0 (some "m") (.int 1),
      .setx 0 (some "m") .nil none, .resume, .resume] (by decide),
    fault_of_actions [.newObject, .newObject, .setDtor 1,
      .addMember 0 (some "m") (.object 1), .setx 0 (some "m") (.int 3) none, .resume] (by decide)⟩

end Deai.ReplacementRuns
