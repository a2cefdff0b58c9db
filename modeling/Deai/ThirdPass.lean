import Deai.DestructionAccounts

/-!
# The objects the collector has scheduled

The third pass of the collector while destructors run user code. A scheduled object is held by
other scheduled objects and by the collector only, so user code cannot get hold of it, and it is
gone before the collector marks again.
-/
namespace Deai.ThirdPass
open Value ObjectHeap TrialDeletion Accounting Collector CollectorMark CollectorScan
open Destruction DestructionAccounts Relation

/-- The collector will finalize the object, or has begun to. -/
def Scheduled (h : Heap) (x : ObjRef) : Prop :=
  (h.obj x).destroyed = false ∧ ((h.obj x).mark = 2 ∨ (h.obj x).mark = 3)

/-- The scan of `y` has not yet come to `z`. -/
def Todo (K : List Frame) (y z : ObjRef) : Prop := ∃ zs, Frame.scan y zs ∈ K ∧ z ∈ zs

/-- A call is going to release a strong reference to `x`. -/
def Freeing (K : List Frame) (x : ObjRef) : Prop := ∃ rs, Frame.free rs ∈ K ∧ Ref.strong x ∈ rs

def DoomedEdge (h : Heap) (a b : ObjRef) : Prop := Doomed h a ∧ Edge (links h) a b

/-- The scans that are running, or will start at an isolated root, come to `x`. -/
def Reached (h : Heap) (K : List Frame) (x : ObjRef) : Prop :=
  ∃ r, Doomed h r ∧ (r ∈ h.isolated ∨ ∃ y, Todo K y r) ∧ ReflTransGen (DoomedEdge h) r x

/-- Scheduled objects are held by each other and by the collector. The scans come to each of
them, and finalize it after everything it refers to. -/
structure Collecting (h : Heap) (R : Ref → ℕ) (K : List Frame) : Prop where
  quiet : .collect ∉ K → h.isolated = [] ∧ ∀ x, ¬ Scheduled h x
  clean : ∀ x, (h.obj x).destroyed = false → (h.obj x).mark = 0 → (h.obj x).refCountScan = 0
  gray : ∀ x ∈ K.filterMap collects, (h.obj x).mark = 3
  once : (K.filterMap collects).Nodup
  external : ∀ x, Scheduled h x → R (.strong x) = 0
  holders : ∀ x y, Scheduled h x → Edge (links h) y x → Scheduled h y
  freeing : ∀ x, Scheduled h x → Freeing K x → (h.obj x).mark = 3
  scanned : ∀ y z, (h.obj y).mark = 3 → Edge (links h) y z → Doomed h z → Todo K y z
  todo : ∀ y z, Todo K y z → Edge (links h) y z
  black : ∀ y, (h.obj y).destroyed = false → (h.obj y).mark = 3 →
    (h.obj y).members = [] ∨ y ∈ K.filterMap collects
  white : ∀ x, Doomed h x → Reached h K x

theorem scheduled_of_doomed {h : Heap} {x : ObjRef} (hx : Doomed h x) : Scheduled h x :=
  ⟨hx.1, .inl hx.2⟩

section
variable {h h' : Heap} {R R' : Ref → ℕ} {K K' : List Frame}

/-- Objects that stay unvisited are still reached when every path to them is kept, or cut where
a scan is going to take it up. -/
theorem Reached.mono
    (hsource : ∀ r, Doomed h' r → (r ∈ h.isolated ∨ ∃ y, Todo K y r) →
      r ∈ h'.isolated ∨ ∃ y, Todo K' y r)
    (hedge : ∀ a b, Doomed h a → Doomed h' b → Edge (links h) a b →
      (Doomed h' a ∧ Edge (links h') a b) ∨ ∃ y, Todo K' y b)
    {x : ObjRef} (hx : Doomed h' x) (hr : Reached h K x) : Reached h' K' x := by
  obtain ⟨r, hdr, hsrc, hpath⟩ := hr
  induction hpath with
  | refl => exact ⟨r, hx, hsource r hx hsrc, .refl⟩
  | @tail a b _ hab ih =>
      rcases hedge a b hab.1 hx hab.2 with ⟨ha, he⟩ | htodo
      · obtain ⟨r', hdr', hsrc', hpath'⟩ := ih ha
        exact ⟨r', hdr', hsrc', hpath'.tail ⟨ha, he⟩⟩
      · exact ⟨b, hx, .inr htodo, .refl⟩

theorem Collecting.setExternal (hc : Collecting h R K)
    (hR : ∀ x, Scheduled h x → R' (.strong x) = 0) : Collecting h R' K :=
  {hc with external := hR}

/-- Calls change, but not what the collector holds. -/
theorem Collecting.setStack (hc : Collecting h R K)
    (hgray : K'.filterMap collects = K.filterMap collects)
    (hfree : ∀ x, Freeing K' x → Freeing K x ∨ (Scheduled h x → (h.obj x).mark = 3))
    (htodo : ∀ y z, Doomed h z → Todo K y z → Todo K' y z)
    (htodo' : ∀ y z, Todo K' y z → Todo K y z)
    (hcollect : .collect ∈ K → .collect ∈ K') : Collecting h R K' where
  quiet hK := hc.quiet fun h => hK (hcollect h)
  clean := hc.clean
  gray := by
    rw [hgray]
    exact hc.gray
  once := by
    rw [hgray]
    exact hc.once
  external := hc.external
  holders := hc.holders
  freeing x hx hf := (hfree x hf).elim (hc.freeing x hx) fun hthree => hthree hx
  scanned y z hy he hz := htodo y z hz (hc.scanned y z hy he hz)
  todo y z hyz := hc.todo y z (htodo' y z hyz)
  black := by
    rw [hgray]
    exact hc.black
  white x hx := by
    apply Reached.mono (h := h) (K := K) _ _ hx (hc.white x hx)
    · exact fun r hr hsrc => hsrc.imp_right fun ⟨y, hy⟩ => ⟨y, htodo y r hr hy⟩
    · exact fun a b ha _ he => .inl ⟨ha, he⟩

theorem not_todo_cons {f : Frame} {y z : ObjRef} (hf : ∀ o zs, f ≠ .scan o zs) :
    Todo (f :: K) y z ↔ Todo K y z := by
  constructor
  · rintro ⟨zs, hmem, hz⟩
    rcases List.mem_cons.mp hmem with heq | hmem
    · exact absurd heq.symm (hf y zs)
    · exact ⟨zs, hmem, hz⟩
  · exact fun ⟨zs, hmem, hz⟩ => ⟨zs, List.mem_cons_of_mem _ hmem, hz⟩

theorem freeing_cons {f : Frame} {x : ObjRef} :
    Freeing (f :: K) x ↔ (∃ rs, f = .free rs ∧ .strong x ∈ rs) ∨ Freeing K x := by
  constructor
  · rintro ⟨rs, hmem, hx⟩
    rcases List.mem_cons.mp hmem with heq | hmem
    · exact .inl ⟨rs, heq.symm, hx⟩
    · exact .inr ⟨rs, hmem, hx⟩
  · rintro (⟨rs, rfl, hx⟩ | ⟨rs, hmem, hx⟩)
    · exact ⟨rs, List.mem_cons_self, hx⟩
    · exact ⟨rs, List.mem_cons_of_mem _ hmem, hx⟩

theorem Collecting.pushFree (hc : Collecting h R K) {rs : List Ref}
    (hrs : ∀ x, .strong x ∈ rs → Scheduled h x → (h.obj x).mark = 3) :
    Collecting h R (.free rs :: K) := by
  refine hc.setStack (show (Frame.free rs :: K).filterMap collects = _ from rfl) ?_ ?_ ?_ ?_
  · intro x hx
    rcases freeing_cons.mp hx with ⟨rs', heq, hmem⟩ | hx
    · cases heq
      exact .inr (hrs x hmem)
    · exact .inl hx
  · exact fun y z _ => (not_todo_cons (f := .free rs) fun _ _ => nofun).mpr
  · exact fun y z => (not_todo_cons (f := .free rs) fun _ _ => nofun).mp
  · exact List.mem_cons_of_mem _

theorem Collecting.popFree {rs : List Ref} (hc : Collecting h R (.free rs :: K)) :
    Collecting h R K := by
  refine hc.setStack (show K.filterMap collects = _ from rfl) ?_ ?_ ?_ ?_
  · exact fun x hx => .inl (freeing_cons.mpr (.inr hx))
  · exact fun y z _ => (not_todo_cons (f := .free rs) fun _ _ => nofun).mp
  · exact fun y z => (not_todo_cons (f := .free rs) fun _ _ => nofun).mpr
  · intro hmem
    exact (List.mem_cons.mp hmem).resolve_left nofun

/-- Frames of finalization, which neither scan nor free. -/
theorem Collecting.finalizeFrame (hc : Collecting h R K) {f : Frame} {o : ObjRef} {c : Cause}
    (hf : f = .dtor o c ∨ f = .members o c) (hgray : (f :: K').filterMap collects = K.filterMap collects)
    (hfree : ∀ x, Freeing K' x → Freeing K x) (htodo : ∀ y z, Todo K y z ↔ Todo K' y z)
    (hcollect : .collect ∈ K → .collect ∈ K') : Collecting h R (f :: K') := by
  have hscan : ∀ p zs, f ≠ .scan p zs := by
    rcases hf with rfl | rfl <;> exact nofun
  refine hc.setStack hgray ?_ ?_ ?_ ?_
  · intro x hx
    rcases freeing_cons.mp hx with ⟨rs, heq, -⟩ | hx
    · rcases hf with rfl | rfl <;> cases heq
    · exact .inl (hfree x hx)
  · exact fun y z _ hyz => (not_todo_cons hscan).mpr ((htodo y z).mp hyz)
  · exact fun y z hyz => (htodo y z).mpr ((not_todo_cons hscan).mp hyz)
  · exact fun hmem => List.mem_cons_of_mem _ (hcollect hmem)

/-- Nothing changes that the collector looks at. -/
theorem Collecting.same (hc : Collecting h R K) (hm : ∀ x, (h'.obj x).members = (h.obj x).members)
    (hd : ∀ x, (h'.obj x).destroyed = (h.obj x).destroyed) (hmarks : SameMarks h h') :
    Collecting h' R K := by
  have hS : ∀ x, Scheduled h' x ↔ Scheduled h x := by
    intro x
    unfold Scheduled
    rw [hd, hmarks.mark]
  have hD : ∀ x, Doomed h' x ↔ Doomed h x := by
    intro x
    unfold Doomed
    rw [hd, hmarks.mark]
  have hE : ∀ y x, Edge (links h') y x ↔ Edge (links h) y x := fun y => edge_congr (hm y)
  refine ⟨?_, ?_, ?_, hc.once, ?_, ?_, ?_, ?_, ?_, ?_, ?_⟩
  · intro hK
    obtain ⟨hiso, hnone⟩ := hc.quiet hK
    exact ⟨hmarks.isolated.trans hiso, fun x hx => hnone x ((hS x).mp hx)⟩
  · intro x hx hz
    rw [hmarks.scan]
    exact hc.clean x (hd x ▸ hx) (hmarks.mark x ▸ hz)
  · intro x hx
    rw [hmarks.mark]
    exact hc.gray x hx
  · exact fun x hx => hc.external x ((hS x).mp hx)
  · exact fun x y hx he => (hS y).mpr (hc.holders x y ((hS x).mp hx) ((hE y x).mp he))
  · intro x hx hf
    rw [hmarks.mark]
    exact hc.freeing x ((hS x).mp hx) hf
  · intro y z hy he hz
    exact hc.scanned y z (hmarks.mark y ▸ hy) ((hE y z).mp he) ((hD z).mp hz)
  · exact fun y z hyz => (hE y z).mpr (hc.todo y z hyz)
  · intro y hy hthree
    rw [hm]
    exact hc.black y (hd y ▸ hy) (hmarks.mark y ▸ hthree)
  · intro x hx
    apply Reached.mono (h := h) (K := K) _ _ hx (hc.white x ((hD x).mp hx))
    · intro r _ hsrc
      rwa [hmarks.isolated]
    · exact fun a b ha _ he => .inl ⟨(hD a).mpr ha, (hE a b).mpr he⟩

/-- An object that has lost its last reference is destroyed. -/
theorem Collecting.destroy (hc : Collecting h R K) {o : ObjRef} (hnot : ¬ Doomed h o)
    (hnil : Scheduled h o → (h.obj o).members = [])
    (hm : ∀ x, (h'.obj x).members = (h.obj x).members)
    (hd : ∀ x, (h'.obj x).destroyed = if x = o then true else (h.obj x).destroyed)
    (hmark : ∀ x, (h'.obj x).mark = (h.obj x).mark)
    (hscan : ∀ x, (h'.obj x).refCountScan = (h.obj x).refCountScan)
    (hiso : h'.isolated = h.isolated.erase o) : Collecting h' R K := by
  have hlive : ∀ x, (h'.obj x).destroyed = false ↔ x ≠ o ∧ (h.obj x).destroyed = false := by
    intro x
    rw [hd]
    split_ifs with hx <;> simp [hx]
  have hS : ∀ x, Scheduled h' x ↔ x ≠ o ∧ Scheduled h x := by
    intro x
    unfold Scheduled
    rw [hlive, hmark, and_assoc]
  have hD : ∀ x, Doomed h' x ↔ Doomed h x := by
    intro x
    have hne : Doomed h x → x ≠ o := fun hx heq => hnot (heq ▸ hx)
    unfold Doomed at hne ⊢
    rw [hlive, hmark, and_assoc]
    exact ⟨And.right, fun hx => ⟨hne hx, hx⟩⟩
  have hE : ∀ y x, Edge (links h') y x ↔ Edge (links h) y x := fun y => edge_congr (hm y)
  refine ⟨?_, ?_, ?_, hc.once, ?_, ?_, ?_, ?_, ?_, ?_, ?_⟩
  · intro hK
    obtain ⟨hnone, hsched⟩ := hc.quiet hK
    refine ⟨?_, fun x hx => hsched x ((hS x).mp hx).2⟩
    rw [hiso, hnone]
    rfl
  · intro x hx hz
    rw [hscan]
    exact hc.clean x ((hlive x).mp hx).2 (hmark x ▸ hz)
  · intro x hx
    rw [hmark]
    exact hc.gray x hx
  · exact fun x hx => hc.external x ((hS x).mp hx).2
  · intro x y hx he
    have he' := (hE y x).mp he
    have hy := hc.holders x y ((hS x).mp hx).2 he'
    refine (hS y).mpr ⟨fun heq => ?_, hy⟩
    rw [heq] at he' hy
    simp [Edge, links, memberRefs, hnil hy] at he'
  · intro x hx hf
    rw [hmark]
    exact hc.freeing x ((hS x).mp hx).2 hf
  · intro y z hy he hz
    exact hc.scanned y z (hmark y ▸ hy) ((hE y z).mp he) ((hD z).mp hz)
  · exact fun y z hyz => (hE y z).mpr (hc.todo y z hyz)
  · intro y hy hthree
    rw [hm]
    exact hc.black y ((hlive y).mp hy).2 (hmark y ▸ hthree)
  · intro x hx
    apply Reached.mono (h := h) (K := K) _ _ hx (hc.white x ((hD x).mp hx))
    · intro r hr hsrc
      rw [hiso]
      refine hsrc.imp_left fun hmem => (List.mem_erase_of_ne ?_).mpr hmem
      exact fun heq => hnot (heq ▸ (hD r).mp hr)
    · exact fun a b ha _ he => .inl ⟨(hD a).mpr ha, (hE a b).mpr he⟩

theorem edge_iff {y x : ObjRef} :
    Edge (links h) y x ↔ ∃ m ∈ (h.obj y).members, .strong x ∈ m.2.refs := by
  unfold Edge links memberRefs
  rw [List.count_pos_iff, List.mem_flatMap]

/-- The members of one object change, which no scan is still to come to. -/
theorem Collecting.setMembers (hc : Collecting h R K) {o : ObjRef} (hnot : ¬ Doomed h o)
    (hidle : ∀ z, ¬ Todo K o z) {l : List (String × DiValue)}
    (hl : ∀ m ∈ l, m ∈ (h.obj o).members ∨ ∀ z, .strong z ∈ m.2.refs → ¬ Scheduled h z)
    (hblack : Scheduled h o → l = [] ∨ o ∈ K.filterMap collects) :
    Collecting (h.modify o fun x => {x with members := l}) R K := by
  set h' := h.modify o fun x => {x with members := l} with hh'
  have hd : ∀ x, (h'.obj x).destroyed = (h.obj x).destroyed := h.modify_same (·.destroyed) o rfl
  have hk : ∀ x, (h'.obj x).mark = (h.obj x).mark := h.modify_same (·.mark) o rfl
  have hs : ∀ x, (h'.obj x).refCountScan = (h.obj x).refCountScan :=
    h.modify_same (·.refCountScan) o rfl
  have hne : ∀ y, y ≠ o → h'.obj y = h.obj y := fun y hy => h.modify_obj_ne _ hy
  have hself : (h'.obj o).members = l := by simp [hh']
  have hS : ∀ x, Scheduled h' x ↔ Scheduled h x := by
    intro x
    unfold Scheduled
    rw [hd, hk]
  have hD : ∀ x, Doomed h' x ↔ Doomed h x := by
    intro x
    unfold Doomed
    rw [hd, hk]
  have hE : ∀ y x, Edge (links h') y x → Scheduled h x → Edge (links h) y x := by
    intro y x he hx
    rw [edge_iff] at he ⊢
    obtain ⟨m, hm, hmx⟩ := he
    by_cases hy : y = o
    · rw [hy] at hm ⊢
      rw [hself] at hm
      rcases hl m hm with hm | hnone
      · exact ⟨m, hm, hmx⟩
      · exact absurd hx (hnone x hmx)
    · rw [hne y hy] at hm
      exact ⟨m, hm, hmx⟩
  refine ⟨?_, ?_, ?_, hc.once, ?_, ?_, ?_, ?_, ?_, ?_, ?_⟩
  · intro hK
    obtain ⟨hiso, hnone⟩ := hc.quiet hK
    exact ⟨hiso, fun x hx => hnone x ((hS x).mp hx)⟩
  · intro x hx hz
    rw [hs]
    exact hc.clean x (hd x ▸ hx) (hk x ▸ hz)
  · intro x hx
    rw [hk]
    exact hc.gray x hx
  · exact fun x hx => hc.external x ((hS x).mp hx)
  · intro x y hx he
    have hx' := (hS x).mp hx
    exact (hS y).mpr (hc.holders x y hx' (hE y x he hx'))
  · intro x hx hf
    rw [hk]
    exact hc.freeing x ((hS x).mp hx) hf
  · intro y z hy he hz
    have hz' := (hD z).mp hz
    exact hc.scanned y z (hk y ▸ hy) (hE y z he (scheduled_of_doomed hz')) hz'
  · intro y z hyz
    have hyo : y ≠ o := fun heq => hidle z (heq ▸ hyz)
    have he := hc.todo y z hyz
    rw [edge_iff] at he ⊢
    rwa [hne y hyo]
  · intro y hy hthree
    rw [hd] at hy
    rw [hk] at hthree
    by_cases hyo : y = o
    · rw [hyo] at hy hthree ⊢
      rw [hself]
      exact hblack ⟨hy, .inr hthree⟩
    · rw [hne y hyo]
      exact hc.black y hy hthree
  · intro x hx
    apply Reached.mono (h := h) (K := K) _ _ hx (hc.white x ((hD x).mp hx))
    · exact fun r _ hsrc => hsrc
    · intro a b ha _ he
      refine .inl ⟨(hD a).mpr ha, ?_⟩
      rw [edge_iff] at he ⊢
      rwa [hne a fun heq => hnot (heq ▸ ha)]

theorem Collecting.removeMember (hc : Collecting h R K) {o : ObjRef} (hnot : ¬ Doomed h o)
    (hidle : ∀ z, ¬ Todo K o z) (name : String) : Collecting (h.removeMember o name) R K := by
  have hset : h.removeMember o name =
      h.modify o fun x => {x with members := (h.obj o).members.eraseP (·.1 == name)} := rfl
  rw [hset]
  apply hc.setMembers hnot hidle
  · exact fun m hm => .inl (List.mem_of_mem_eraseP hm)
  · intro ho
    have hthree : (h.obj o).mark = 3 := ho.2.resolve_left fun htwo => hnot ⟨ho.1, htwo⟩
    refine (hc.black o ho.1 hthree).imp_left fun hnil => ?_
    rw [hnil]
    rfl

theorem Collecting.insertMember (hc : Collecting h R K) {o : ObjRef} (hnot : ¬ Doomed h o)
    (hidle : ∀ z, ¬ Todo K o z) (name : String) {v : DiValue} (hv : ∀ z, .strong z ∈ v.refs → ¬ Scheduled h z)
    (hgray : Scheduled h o → o ∈ K.filterMap collects) :
    Collecting (h.insertMember o name v) R K := by
  have hset : h.insertMember o name v =
      h.modify o fun x => {x with members := (h.obj o).members ++ [(name, v)]} := rfl
  rw [hset]
  apply hc.setMembers hnot hidle
  · intro m hm
    rcases List.mem_append.mp hm with hm | hm
    · exact .inl hm
    · rw [List.mem_singleton.mp hm]
      exact .inr hv
  · exact fun ho => .inr (hgray ho)

theorem Collecting.newObject (hc : Collecting h R K) (hold : h.obj h.size = .unallocated) :
    Collecting (diNewObject h).2 R K := by
  have hself := diNewObject_self h
  have hne : ∀ y, y ≠ h.size → (diNewObject h).2.obj y = h.obj y := fun y => diNewObject_ne h
  set h' := (diNewObject h).2 with hh'
  have hm : ∀ x, (h'.obj x).members = (h.obj x).members := by
    intro x
    by_cases hx : x = h.size
    · rw [hx, hself, hold]
      rfl
    · rw [hne x hx]
  have hS : ∀ x, Scheduled h' x ↔ Scheduled h x := by
    intro x
    by_cases hx : x = h.size
    · rw [hx]
      unfold Scheduled
      rw [hself, hold]
      simp [DiObject.unallocated]
    · unfold Scheduled
      rw [hne x hx]
  have hD : ∀ x, Doomed h' x ↔ Doomed h x := by
    intro x
    by_cases hx : x = h.size
    · rw [hx]
      unfold Doomed
      rw [hself, hold]
      simp [DiObject.unallocated]
    · unfold Doomed
      rw [hne x hx]
  have hthree : ∀ x, (h'.obj x).mark = (h.obj x).mark := by
    intro x
    by_cases hx : x = h.size
    · rw [hx, hself, hold]
      rfl
    · rw [hne x hx]
  have hE : ∀ y x, Edge (links h') y x ↔ Edge (links h) y x := fun y => edge_congr (hm y)
  refine ⟨?_, ?_, ?_, hc.once, ?_, ?_, ?_, ?_, ?_, ?_, ?_⟩
  · intro hK
    obtain ⟨hiso, hnone⟩ := hc.quiet hK
    exact ⟨hiso, fun x hx => hnone x ((hS x).mp hx)⟩
  · intro x hx hz
    by_cases hxs : x = h.size
    · rw [hxs, hself]
    · rw [hne x hxs] at hx hz ⊢
      exact hc.clean x hx hz
  · intro x hx
    rw [hthree]
    exact hc.gray x hx
  · exact fun x hx => hc.external x ((hS x).mp hx)
  · exact fun x y hx he => (hS y).mpr (hc.holders x y ((hS x).mp hx) ((hE y x).mp he))
  · intro x hx hf
    rw [hthree]
    exact hc.freeing x ((hS x).mp hx) hf
  · intro y z hy he hz
    exact hc.scanned y z (hthree y ▸ hy) ((hE y z).mp he) ((hD z).mp hz)
  · exact fun y z hyz => (hE y z).mpr (hc.todo y z hyz)
  · intro y hy hmark
    rw [hm]
    have hlive := ((hS y).mp ⟨hy, .inr hmark⟩).1
    exact hc.black y hlive (hthree y ▸ hmark)
  · intro x hx
    apply Reached.mono (h := h) (K := K) _ _ hx (hc.white x ((hD x).mp hx))
    · exact fun r _ hsrc => hsrc
    · exact fun a b ha _ he => .inl ⟨(hD a).mpr ha, (hE a b).mpr he⟩

/-- The pre hook on an object that no scan has come to. `K'` are the calls without this visit. -/
theorem Collecting.enter (hc : Collecting h R K) {o : ObjRef} (ho : Doomed h o)
    (hvisible : ∀ m ∈ (h.obj o).members, m.2.Visible)
    (hgray : K'.filterMap collects = K.filterMap collects)
    (hfree : ∀ x, Freeing K' x → Freeing K x)
    (htodo : ∀ y z, z ≠ o → Todo K y z → Todo K' y z)
    (htodo' : ∀ y z, Todo K' y z → Todo K y z)
    (hcollect : .collect ∈ K → .collect ∈ K') (hsame : SameTables h h')
    (hmark : ∀ x, (h'.obj x).mark = if x = o then 3 else (h.obj x).mark)
    (hscan : ∀ x, (h'.obj x).refCountScan = (h.obj x).refCountScan)
    (hiso : h'.isolated = h.isolated) :
    Collecting h' R (.scan o (scannedRefs h o) :: K') := by
  have hS : ∀ x, Scheduled h' x ↔ Scheduled h x := by
    intro x
    unfold Scheduled
    rw [hsame.destroyed, hmark]
    split_ifs with hx
    · rw [hx]
      simp [ho.1, ho.2]
    · rfl
  have hD : ∀ x, Doomed h' x ↔ x ≠ o ∧ Doomed h x := by
    intro x
    unfold Doomed
    rw [hsame.destroyed, hmark]
    split_ifs with hx <;> simp [hx]
  have hE : ∀ y x, Edge (links h') y x ↔ Edge (links h) y x := by
    intro y x
    unfold Edge
    rw [links_congr (hsame.members y)]
  have hgray' : (Frame.scan o (scannedRefs h o) :: K').filterMap collects =
      o :: K.filterMap collects := by
    rw [← hgray]
    rfl
  have hlater : ∀ y z, Todo K' y z → Todo (.scan o (scannedRefs h o) :: K') y z :=
    fun y z ⟨zs, hmem, hz⟩ => ⟨zs, List.mem_cons_of_mem _ hmem, hz⟩
  have hnew : ∀ z, Edge (links h) o z → Todo (.scan o (scannedRefs h o) :: K') o z := by
    intro z he
    refine ⟨_, List.mem_cons_self, ?_⟩
    obtain ⟨m, hm, hmz⟩ := edge_iff.mp he
    refine List.mem_flatMap.mpr ⟨m, hm, ?_⟩
    rw [← List.count_pos_iff, hvisible m hm z]
    exact List.count_pos_iff.mpr hmz
  refine ⟨?_, ?_, ?_, ?_, ?_, ?_, ?_, ?_, ?_, ?_, ?_⟩
  · intro hK
    have hnone := (hc.quiet fun hmem => hK (List.mem_cons_of_mem _ (hcollect hmem))).2
    exact absurd (scheduled_of_doomed ho) (hnone o)
  · intro x hx hz
    rw [hmark] at hz
    split_ifs at hz with hxo
    rw [hscan]
    exact hc.clean x (hsame.destroyed x ▸ hx) hz
  · intro x hx
    rw [hgray'] at hx
    rw [hmark]
    split_ifs with hxo
    · rfl
    · exact hc.gray x ((List.mem_cons.mp hx).resolve_left hxo)
  · rw [hgray', List.nodup_cons]
    refine ⟨fun hmem => ?_, hc.once⟩
    cases ho.2.symm.trans (hc.gray o hmem)
  · exact fun x hx => hc.external x ((hS x).mp hx)
  · exact fun x y hx he => (hS y).mpr (hc.holders x y ((hS x).mp hx) ((hE y x).mp he))
  · intro x hx hf
    rw [hmark]
    split_ifs with hxo
    · rfl
    · rcases freeing_cons.mp hf with ⟨rs, heq, -⟩ | hf
      · cases heq
      · exact hc.freeing x ((hS x).mp hx) (hfree x hf)
  · intro y z hy he hz
    rw [hmark] at hy
    have he' := (hE y z).mp he
    split_ifs at hy with hyo
    · rw [hyo] at he' ⊢
      exact hnew z he'
    · obtain ⟨hzo, hz'⟩ := (hD z).mp hz
      exact hlater y z (htodo y z hzo (hc.scanned y z hy he' hz'))
  · rintro y z ⟨zs, hmem, hz⟩
    rw [hE]
    rcases List.mem_cons.mp hmem with heq | hmem
    · cases heq
      obtain ⟨m, hm, hmz⟩ := List.mem_flatMap.mp hz
      refine edge_iff.mpr ⟨m, hm, ?_⟩
      rw [← List.count_pos_iff, ← hvisible m hm z]
      exact List.count_pos_iff.mpr hmz
    · exact hc.todo y z (htodo' y z ⟨zs, hmem, hz⟩)
  · intro y hy hthree
    rw [hgray', hsame.members]
    rw [hmark] at hthree
    split_ifs at hthree with hyo
    · exact .inr (hyo ▸ List.mem_cons_self)
    · exact (hc.black y (hsame.destroyed y ▸ hy) hthree).imp_right (List.mem_cons_of_mem o)
  · intro x hx
    apply Reached.mono (h := h) (K := K) _ _ hx (hc.white x ((hD x).mp hx).2)
    · intro r hr hsrc
      rw [hiso]
      exact hsrc.imp_right fun ⟨y, hy⟩ => ⟨y, hlater y r (htodo y r ((hD r).mp hr).1 hy)⟩
    · intro a b ha _ he
      by_cases hao : a = o
      · rw [hao] at he
        exact .inr ⟨o, hnew b he⟩
      · exact .inl ⟨(hD a).mpr ⟨hao, ha⟩, (hE a b).mpr he⟩

/-- The collector is done with an object that has no members left. -/
theorem Collecting.finish {o : ObjRef} (hc : Collecting h R (.members o .collect :: K))
    (hnil : (h.obj o).members = []) : Collecting h R K := by
  have hgray : (Frame.members o .collect :: K).filterMap collects = o :: K.filterMap collects := rfl
  have htodo : ∀ y z, Todo (.members o .collect :: K) y z → Todo K y z :=
    fun y z => (not_todo_cons (f := .members o .collect) fun _ _ => nofun).mp
  refine ⟨?_, hc.clean, ?_, ?_, hc.external, hc.holders, ?_, ?_, ?_, ?_, ?_⟩
  · exact fun hK => hc.quiet fun hmem => hK ((List.mem_cons.mp hmem).resolve_left nofun)
  · exact fun x hx => hc.gray x (hgray ▸ List.mem_cons_of_mem _ hx)
  · exact (List.nodup_cons.mp (hgray ▸ hc.once)).2
  · exact fun x hx hf => hc.freeing x hx (freeing_cons.mpr (.inr hf))
  · exact fun y z hy he hz => htodo y z (hc.scanned y z hy he hz)
  · exact fun y z ⟨zs, hmem, hz⟩ => hc.todo y z ⟨zs, List.mem_cons_of_mem _ hmem, hz⟩
  · intro y hy hthree
    have hblack := hc.black y hy hthree
    rw [hgray] at hblack
    rcases hblack with hmem | hmem
    · exact .inl hmem
    · rcases List.mem_cons.mp hmem with heq | hmem
      · exact .inl (heq ▸ hnil)
      · exact .inr hmem
  · intro x hx
    apply Reached.mono (h := h) (K := .members o .collect :: K) _ _ hx (hc.white x hx)
    · exact fun r _ hsrc => hsrc.imp_right fun ⟨y, hy⟩ => ⟨y, htodo y r hy⟩
    · exact fun a b ha _ he => .inl ⟨ha, he⟩

theorem todo_collect {y z : ObjRef} : ¬ Todo [.collect] y z := by
  rintro ⟨zs, hmem, -⟩
  cases List.mem_singleton.mp hmem

/-- When the roots are finalized, nothing that was scheduled is left. -/
theorem Collecting.none_scheduled (hc : Collecting h R [.collect]) (hiso : h.isolated = [])
    (hcount : Counted h R) (x : ObjRef) : ¬ Scheduled h x := by
  have hwhite : ∀ y, ¬ Doomed h y := by
    intro y hy
    obtain ⟨r, -, hsrc, -⟩ := hc.white y hy
    rcases hsrc with hmem | ⟨p, htodo⟩
    · rw [hiso] at hmem
      exact List.not_mem_nil hmem
    · exact todo_collect htodo
  have hnil : ∀ y, Scheduled h y → (h.obj y).members = [] := by
    intro y hy
    have hthree := hy.2.resolve_left fun htwo => hwhite y ⟨hy.1, htwo⟩
    exact (hc.black y hy.1 hthree).resolve_right List.not_mem_nil
  intro hx
  have hpos := hcount.alive x hx.1
  rw [hcount.strong x, hc.external x hx] at hpos
  obtain ⟨y, he⟩ := exists_holder hpos
  have hy := hnil y (hc.holders x y hx he)
  obtain ⟨m, hm, -⟩ := edge_iff.mp he
  rw [hy] at hm
  exact List.not_mem_nil hm

/-- After the first two passes the objects without outside holders are scheduled. -/
theorem Condemned.collecting {h₀ : Heap} (hD : Condemned h₀ R h) : Collecting h R [.collect] := by
  have hd : ∀ x, (h.obj x).destroyed = (h₀.obj x).destroyed := hD.shape.destroyed
  have hlinks : links h = links h₀ := CollectorFinalize.Condemned.links_eq hD
  have hmarks : ∀ x, (h.obj x).destroyed = false →
      (h.obj x).mark = 2 ∨ (h.obj x).mark = 0 ∧ (h.obj x).refCountScan = 0 :=
    fun x hx => hD.marks x (hd x ▸ hx)
  have hS : ∀ x, Scheduled h x → Doomed h x := by
    intro x hx
    rcases hmarks x hx.1 with htwo | ⟨hzero, -⟩
    · exact ⟨hx.1, htwo⟩
    · rcases hx.2 with hm | hm <;> cases hzero.symm.trans hm
  refine ⟨?_, ?_, ?_, List.nodup_nil, ?_, ?_, ?_, ?_, ?_, ?_, ?_⟩
  · exact fun hK => absurd List.mem_cons_self hK
  · intro x hx hz
    rcases hmarks x hx with htwo | ⟨-, hscan⟩
    · cases hz.symm.trans htwo
    · exact hscan
  · exact fun x hx => absurd hx List.not_mem_nil
  · exact fun x hx => (hD.garbage x (hS x hx)).1
  · intro x y hx he
    rw [hlinks] at he
    exact scheduled_of_doomed ((hD.garbage x (hS x hx)).2 y he)
  · rintro x - ⟨rs, hmem, -⟩
    cases List.mem_singleton.mp hmem
  · intro y z hy he hz
    rw [hlinks] at he
    have hdoomed := (hD.garbage z hz).2 y he
    cases hdoomed.2.symm.trans hy
  · exact fun y z hyz => absurd hyz todo_collect
  · intro y hy hthree
    cases (hS y ⟨hy, .inr hthree⟩).2.symm.trans hthree
  · intro x hx
    obtain ⟨r, hr, hpath⟩ := hD.rooted x hx
    refine ⟨r, hD.isolated r hr, .inl hr, ?_⟩
    clear hr
    induction hpath with
    | refl => exact .refl
    | @tail a b _ hab ih =>
        have ha := (hD.garbage b hx).2 a hab
        rw [← hlinks] at hab
        exact (ih ha).tail ⟨ha, hab⟩

end

end Deai.ThirdPass
