import Deai.LuaProxies
import Mathlib.Tactic

/-!
# The tracking of proxies

The members of the Lua state agree with the proxies and with the weak tables in every run,
however many proxies of one object are waiting for their `__gc`.
-/
namespace Deai.ProxyTracking
open LuaProxies Relation

variable {s s' : State} {o u : Address}

/-! ## References to an object -/

def isPush (o : Address) : Frame → Bool
  | .pushing a => a == o
  | .collecting .. => false

/-- The calls that hold a reference to the object. -/
def pushes (s : State) (o : Address) : ℕ := s.stack.countP (isPush o)

/-- The members that refer to the object. -/
def holds (s : State) (o : Address) : ℕ := s.userdataToObject.countP (·.2 == o)

def refCountAt (s : State) (o : Address) : ℕ := (s.objects o).elim 0 (·.refCount)

def outsideAt (s : State) (o : Address) : ℕ := (s.objects o).elim 0 (·.outside)

/-- The object whose destructor runs in the call. -/
def dying : Frame → Option Address
  | .pushing _ => none
  | .collecting _ o => some o

/-- The references to the objects are counted, and a userdata refers to its object. -/
structure Held (s : State) : Prop where
  keys : (s.userdataToObject.map Prod.fst).Nodup
  member : ∀ u o, (u, o) ∈ s.userdataToObject ↔
    ∃ y, s.userdata u = some y ∧ y.finalizing = false ∧ y.object = o
  count : ∀ o, refCountAt s o = outsideAt s o + pushes s o + holds s o
  object : ∀ u y, s.userdata u = some y → ∃ x, s.objects y.object = some x ∧ x.id = y.id
  frame : ∀ u o, .collecting u o ∈ s.stack ↔
    ∃ y, s.userdata u = some y ∧ y.finalizing = true ∧ y.object = o
  nodup : (s.stack.filterMap dying).Nodup
  dying : ∀ o ∈ s.stack.filterMap dying, refCountAt s o = 0

/-- The weak tables and the members that hold their indices. -/
structure Refs (s : State) : Prop where
  value : ∀ u y, s.userdata u = some y →
    s.registry y.ref = .weak none ∨ s.registry y.ref = .weak (some u) ∧ y.finalizing = false
  inj : ∀ u y v z, s.userdata u = some y → s.userdata v = some z → y.ref = z.ref → u = v
  entry : ∀ o r, s.objectToRef o = some r →
    ∃ u y, s.userdata u = some y ∧ y.object = o ∧ y.ref = r
  latest : ∀ i u y, s.latest i = some u → s.userdata u = some y → y.id = i →
    s.registry y.ref = .weak (some u) → s.objectToRef y.object = some y.ref

/-- No two objects have the same identity. -/
structure Named (s : State) : Prop where
  bound : ∀ o x, s.objects o = some x → x.id < s.created
  inj : ∀ o x p z, s.objects o = some x → s.objects p = some z → x.id = z.id → o = p

structure Tracked (s : State) : Prop where
  held : Held s
  refs : Refs s
  named : Named s

theorem tracked_init : Tracked {} where
  held := {
    keys := List.nodup_nil
    member := by simp
    count := fun _ => rfl
    object := by simp
    frame := by simp
    nodup := List.nodup_nil
    dying := nofun}
  refs := ⟨nofun, nofun, nofun, nofun⟩
  named := ⟨nofun, nofun⟩

/-- What is not mentioned does not matter. -/
theorem Held.congr (h : Held s) {t : State} (hobjects : t.objects = s.objects)
    (huserdata : t.userdata = s.userdata) (hmembers : t.userdataToObject = s.userdataToObject)
    (hstack : t.stack = s.stack) : Held t := by
  obtain ⟨hkeys, hmember, hcount, hobject, hframe, hnodup, hdying⟩ := h
  refine ⟨?_, ?_, ?_, ?_, ?_, ?_, ?_⟩
  · rwa [hmembers]
  · rwa [hmembers, huserdata]
  · unfold refCountAt outsideAt pushes holds
    rwa [hobjects, hmembers, hstack]
  · rwa [huserdata, hobjects]
  · rwa [huserdata, hstack]
  · rwa [hstack]
  · unfold refCountAt
    rwa [hstack, hobjects]

theorem Refs.congr (h : Refs s) {t : State} (huserdata : t.userdata = s.userdata)
    (hregistry : t.registry = s.registry) (href : t.objectToRef = s.objectToRef)
    (hlatest : t.latest = s.latest) : Refs t := by
  obtain ⟨hvalue, hinj, hentry, hlast⟩ := h
  refine ⟨?_, ?_, ?_, ?_⟩
  · rwa [huserdata, hregistry]
  · rwa [huserdata]
  · rwa [huserdata, href]
  · rwa [huserdata, hregistry, href, hlatest]

/-- Objects come only by `create`. -/
theorem Named.keep (h : Named s) {t : State} (hcreated : t.created = s.created)
    (hold : ∀ o z, t.objects o = some z → ∃ x, s.objects o = some x ∧ x.id = z.id) : Named t := by
  constructor
  · intro o z hz
    obtain ⟨x, hx, hid⟩ := hold o z hz
    rw [hcreated, ← hid]
    exact h.bound o x hx
  · intro o z p w hz hw heq
    obtain ⟨x, hx, hid⟩ := hold o z hz
    obtain ⟨v, hv, hvid⟩ := hold p w hw
    exact h.inj o x p v hx hv (by rw [hid, hvid, heq])

theorem Named.same (h : Named s) {t : State} (hcreated : t.created = s.created)
    (hobjects : t.objects = s.objects) : Named t :=
  h.keep hcreated fun _ z hz => ⟨z, hobjects ▸ hz, rfl⟩

/-- One object changes its counts, or goes. -/
theorem Named.update (h : Named s) {t : State} (hcreated : t.created = s.created) {x : Object}
    (hx : s.objects o = some x) {z : Option Object} (hz : ∀ w ∈ z, w.id = x.id)
    (hobjects : t.objects = Function.update s.objects o z) : Named t := by
  refine h.keep hcreated fun p w hw => ?_
  rw [hobjects] at hw
  by_cases hp : p = o
  · subst hp
    rw [Function.update_self] at hw
    exact ⟨x, hx, (hz w hw).symm⟩
  · rw [Function.update_of_ne hp] at hw
    exact ⟨w, hw, rfl⟩

theorem Named.create (h : Named s) {t : State} (hcreated : t.created = s.created + 1)
    (hobjects : t.objects = Function.update s.objects o (some ⟨1, s.created, 1⟩)) : Named t := by
  have hcases : ∀ p z, t.objects p = some z →
      p = o ∧ z.id = s.created ∨ p ≠ o ∧ s.objects p = some z := by
    intro p z hz
    rw [hobjects] at hz
    by_cases hp : p = o
    · subst hp
      rw [Function.update_self, Option.some.injEq] at hz
      subst hz
      exact .inl ⟨rfl, rfl⟩
    · rw [Function.update_of_ne hp] at hz
      exact .inr ⟨hp, hz⟩
  constructor
  · intro p z hz
    rcases hcases p z hz with ⟨-, hid⟩ | ⟨-, hz⟩
    · omega
    · have hlt := h.bound p z hz
      omega
  · intro p z q w hz hw heq
    rcases hcases p z hz with ⟨rfl, hid⟩ | ⟨-, hz⟩
    · rcases hcases q w hw with ⟨rfl, -⟩ | ⟨-, hw⟩
      · rfl
      · have hlt := h.bound q w hw
        omega
    · rcases hcases q w hw with ⟨rfl, hid⟩ | ⟨-, hw⟩
      · have hlt := h.bound p z hz
        omega
      · exact h.inj p z q w hz hw heq

theorem holds_pos (h : Held s) {y : Userdata} (hy : s.userdata u = some y)
    (hlive : y.finalizing = false) : 0 < holds s y.object :=
  List.countP_pos_iff.mpr ⟨(u, y.object), (h.member u y.object).mpr ⟨y, hy, hlive, rfl⟩, by simp⟩

theorem mem_dying (h : Held s) {y : Userdata} (hy : s.userdata u = some y)
    (hfin : y.finalizing = true) : y.object ∈ s.stack.filterMap dying :=
  List.mem_filterMap.mpr ⟨.collecting u y.object, (h.frame u y.object).mpr ⟨y, hy, hfin, rfl⟩, rfl⟩

/-- A userdata of an object that is in use keeps a reference to it. -/
theorem holds_pos_of_refCount (h : Held s) {y : Userdata} (hy : s.userdata u = some y)
    (hcount : 0 < refCountAt s y.object) : 0 < holds s y.object := by
  cases hfin : y.finalizing with
  | false => exact holds_pos h hy hfin
  | true =>
      have hzero := h.dying _ (mem_dying h hy hfin)
      omega

theorem refCountAt_of_some {x : Object} (hx : s.objects o = some x) :
    refCountAt s o = x.refCount := by
  simp [refCountAt, hx]

theorem outsideAt_of_some {x : Object} (hx : s.objects o = some x) :
    outsideAt s o = x.outside := by
  simp [outsideAt, hx]

/-! ## Steps that change one object -/

theorem Held.setObject (h : Held s) (o : Address) (x : Option Object)
    (hcount : x.elim 0 (·.refCount) = x.elim 0 (·.outside) + pushes s o + holds s o)
    (hid : ∀ u y, s.userdata u = some y → y.object = o → ∃ z, x = some z ∧ z.id = y.id)
    (hdying : o ∈ s.stack.filterMap ProxyTracking.dying → x.elim 0 (·.refCount) = 0) :
    Held (s.setObject o x) := by
  have hother : ∀ p, p ≠ o → (s.setObject o x).objects p = s.objects p := fun p hp =>
    Function.update_of_ne hp ..
  have hself : (s.setObject o x).objects o = x := Function.update_self ..
  refine ⟨h.keys, h.member, ?_, ?_, h.frame, h.nodup, ?_⟩
  · intro p
    by_cases hp : p = o
    · subst hp
      rw [refCountAt, outsideAt, hself]
      exact hcount
    · rw [refCountAt, outsideAt, hother p hp]
      exact h.count p
  · intro u y hy
    by_cases hp : y.object = o
    · rw [hp, hself]
      exact hid u y hy hp
    · rw [hother _ hp]
      exact h.object u y hy
  · intro p hp
    by_cases hpo : p = o
    · subst hpo
      rw [refCountAt, hself]
      exact hdying hp
    · rw [refCountAt, hother p hpo]
      exact h.dying p hp

/-- The counts of an object change. -/
theorem Held.setCounts (h : Held s) {x z : Object} (hx : s.objects o = some x)
    (hid : z.id = x.id) (hcount : z.refCount = z.outside + pushes s o + holds s o)
    (hdying : x.refCount = 0 → z.refCount = 0) : Held (s.setObject o (some z)) := by
  refine h.setObject o (some z) hcount ?_ ?_
  · intro u y hy hyo
    obtain ⟨x', hx', hxy⟩ := h.object u y hy
    rw [hyo, hx] at hx'
    cases hx'
    exact ⟨z, rfl, hid.trans hxy⟩
  · intro hmem
    apply hdying
    rw [← refCountAt_of_some hx]
    exact h.dying o hmem

theorem Held.unref (h : Held s) {x : Object} (hx : s.objects o = some x) (hout : x.outside ≠ 0)
    (hunref : diUnrefObject o s = .ok s') : Held s' := by
  have hcount := h.count o
  rw [refCountAt_of_some hx, outsideAt_of_some hx] at hcount
  simp only [diUnrefObject, hx] at hunref
  split_ifs at hunref with hone
  · cases hunref
    refine h.setObject o none (by simp only [Option.elim]; omega) ?_ (fun _ => rfl)
    intro u y hy hyo
    have hpos := holds_pos_of_refCount h hy (by rw [hyo, refCountAt_of_some hx]; omega)
    rw [hyo] at hpos
    omega
  · cases hunref
    exact h.setCounts hx rfl (by simp only; omega) fun hzero => by simp [hzero]

theorem Held.create (h : Held s) (hnone : s.objects o = none) (i : ℕ) :
    Held (s.setObject o (some ⟨1, i, 1⟩)) := by
  have hcount := h.count o
  simp only [refCountAt, outsideAt, hnone, Option.elim] at hcount
  have hunused : ∀ u y, s.userdata u = some y → y.object ≠ o := by
    intro u y hy hyo
    obtain ⟨x, hx, -⟩ := h.object u y hy
    rw [hyo, hnone] at hx
    cases hx
  refine h.setObject o _ (by simp only [Option.elim]; omega)
    (fun u y hy hyo => absurd hyo (hunused u y hy)) ?_
  intro hmem
  obtain ⟨f, hf, hfo⟩ := List.mem_filterMap.mp hmem
  cases f with
  | pushing a => cases hfo
  | collecting v p =>
      cases hfo
      obtain ⟨y, hy, -, hyo⟩ := (h.frame v o).mp hf
      exact absurd hyo (hunused v y hy)

/-! ## A new proxy -/

/-- `di_lua_pushobject` keeps the reference while the proxy is created. -/
theorem Held.pushing (h : Held s) {x : Object} (hx : s.objects o = some x)
    (hout : x.outside ≠ 0) :
    Held {s.setObject o (some {x with outside := x.outside - 1}) with
      stack := .pushing o :: s.stack} := by
  have hcount := h.count o
  rw [refCountAt_of_some hx, outsideAt_of_some hx] at hcount
  have hframes : (Frame.pushing o :: s.stack).filterMap ProxyTracking.dying =
      s.stack.filterMap ProxyTracking.dying := rfl
  refine ⟨h.keys, h.member, ?_, ?_, ?_, h.nodup, ?_⟩
  · intro p
    by_cases hp : p = o
    · subst hp
      have hpush : (Frame.pushing p :: s.stack).countP (isPush p) = pushes s p + 1 :=
        List.countP_cons_of_pos (by simp [isPush])
      simp only [refCountAt, outsideAt, pushes, holds, State.setObject, Function.update_self,
        Option.elim, hpush]
      change x.refCount = x.outside - 1 + (pushes s p + 1) + holds s p
      omega
    · have hpush : (Frame.pushing o :: s.stack).countP (isPush p) = pushes s p :=
        List.countP_cons_of_neg (by simpa [isPush] using Ne.symm hp)
      simp only [refCountAt, outsideAt, pushes, holds, State.setObject, Function.update_of_ne hp,
        hpush]
      exact h.count p
  · intro u y hy
    obtain ⟨z, hz, hid⟩ := h.object u y hy
    by_cases hp : y.object = o
    · rw [hp, hx] at hz
      cases hz
      simp only [State.setObject, hp, Function.update_self]
      exact ⟨_, rfl, hid⟩
    · simp only [State.setObject, Function.update_of_ne hp]
      exact ⟨z, hz, hid⟩
  · intro u p
    rw [List.mem_cons]
    exact ⟨fun hmem => (h.frame u p).mp (hmem.resolve_left nofun), fun hy =>
      .inr ((h.frame u p).mpr hy)⟩
  · intro p hp
    have hzero := h.dying p (hframes ▸ hp)
    by_cases hpo : p = o
    · subst hpo
      rw [refCountAt_of_some hx] at hzero
      simpa [refCountAt, State.setObject] using hzero
    · simpa [refCountAt, State.setObject, Function.update_of_ne hpo] using hzero

/-- The state after a proxy has been created. -/
def withProxy (o u : Address) (r i : ℕ) (stack : List Frame) (s : State) : State :=
  {s with
    userdata := Function.update s.userdata u (some {object := o, id := i, ref := r})
    registry := Function.update s.registry r (.weak (some u))
    objectToRef := Function.update s.objectToRef o (some r)
    userdataToObject := s.userdataToObject ++ [(u, o)]
    stack := stack
    top := some u
    latest := Function.update s.latest i (some u)}

theorem Held.key_unused (h : Held s) (hnone : s.userdata u = none) :
    u ∉ s.userdataToObject.map Prod.fst := by
  intro hmem
  obtain ⟨⟨v, p⟩, hp, rfl⟩ := List.mem_map.mp hmem
  obtain ⟨y, hy, -⟩ := (h.member v p).mp hp
  cases hnone.symm.trans hy

theorem Held.pushobjectRest_eq (h : Held s) (hnone : s.userdata u = none) (r i : ℕ)
    (stack : List Frame) :
    diLuaPushobjectRest o u r i {s with stack := stack} = .ok (withProxy o u r i stack s) :=
  if_neg (h.key_unused hnone)

theorem Held.withProxy (h : Held s) {x : Object} {stack : List Frame} {r : ℕ}
    (hstack : s.stack = .pushing o :: stack) (hx : s.objects o = some x)
    (hnone : s.userdata u = none) : Held (withProxy o u r x.id stack s) := by
  have hkey := h.key_unused hnone
  have hpush : ∀ p, pushes s p = stack.countP (isPush p) + if p = o then 1 else 0 := by
    intro p
    rw [pushes, hstack, List.countP_cons]
    by_cases hp : p = o
    · simp [isPush, hp]
    · simp [isPush, hp, Ne.symm hp]
  have hframes : s.stack.filterMap ProxyTracking.dying = stack.filterMap ProxyTracking.dying := by
    rw [hstack]
    rfl
  refine ⟨?_, ?_, ?_, ?_, ?_, hframes ▸ h.nodup, fun p hp => h.dying p (hframes ▸ hp)⟩
  · rw [ProxyTracking.withProxy, List.map_append]
    simpa using h.keys.concat hkey
  · intro v p
    simp only [ProxyTracking.withProxy, List.mem_append, List.mem_singleton, Prod.mk.injEq]
    by_cases hv : v = u
    · subst hv
      have hold : (v, p) ∉ s.userdataToObject := fun hmem =>
        hkey (List.mem_map.mpr ⟨_, hmem, rfl⟩)
      simp only [hold, false_or, true_and, Function.update_self, Option.some.injEq,
        exists_eq_left', eq_comm (a := p)]
    · simp [hv, h.member]
  · intro p
    have hcount := h.count p
    rw [hpush p] at hcount
    have hmember : (s.userdataToObject ++ [(u, o)]).countP (·.2 == p) =
        holds s p + if p = o then 1 else 0 := by
      rw [List.countP_append]
      by_cases hp : p = o
      · simp [holds, hp]
      · simp [holds, hp, Ne.symm hp]
    simp only [refCountAt, outsideAt, pushes, holds, ProxyTracking.withProxy, hmember] at hcount ⊢
    omega
  · intro v y hy
    by_cases hv : v = u
    · subst hv
      simp only [ProxyTracking.withProxy, Function.update_self, Option.some.injEq] at hy
      subst hy
      exact ⟨x, hx, rfl⟩
    · simp only [ProxyTracking.withProxy, Function.update_of_ne hv] at hy
      exact h.object v y hy
  · intro v p
    have hmem : .collecting v p ∈ stack ↔ .collecting v p ∈ s.stack := by
      rw [hstack, List.mem_cons]
      exact ⟨.inr, fun hmem => hmem.resolve_left nofun⟩
    rw [ProxyTracking.withProxy, hmem, h.frame]
    by_cases hv : v = u
    · subst hv
      simp [hnone]
    · simp [Function.update_of_ne hv]

theorem Refs.withProxy (h : Refs s) (hh : Held s) {x : Object} {stack : List Frame} {r : ℕ}
    (hx : s.objects o = some x) (hnone : s.userdata u = none) (hfree : s.registry r = .free) :
    Refs (withProxy o u r x.id stack s) := by
  -- the index is new, so that no userdata has it
  have hnew : ∀ v y, s.userdata v = some y → y.ref ≠ r := by
    intro v y hy hr
    rcases h.value v y hy with hw | ⟨hw, -⟩ <;>
    · rw [hr, hfree] at hw
      cases hw
  have hold : ∀ v y, v ≠ u → (ProxyTracking.withProxy o u r x.id stack s).userdata v = some y →
      s.userdata v = some y := by
    intro v y hv hy
    simpa only [ProxyTracking.withProxy, Function.update_of_ne hv] using hy
  refine ⟨?_, ?_, ?_, ?_⟩
  · intro v y hy
    by_cases hv : v = u
    · subst hv
      simp only [ProxyTracking.withProxy, Function.update_self, Option.some.injEq] at hy
      subst hy
      exact .inr ⟨Function.update_self .., rfl⟩
    · have hy := hold v y hv hy
      simp only [ProxyTracking.withProxy, Function.update_of_ne (hnew v y hy)]
      exact h.value v y hy
  · intro v y w z hy hz hr
    by_cases hv : v = u
    · subst hv
      simp only [ProxyTracking.withProxy, Function.update_self, Option.some.injEq] at hy
      subst hy
      by_contra hw
      exact hnew w z (hold w z (Ne.symm hw) hz) hr.symm
    · have hyold := hold v y hv hy
      by_cases hw : w = u
      · subst hw
        simp only [ProxyTracking.withProxy, Function.update_self, Option.some.injEq] at hz
        subst hz
        exact absurd hr (hnew v y hyold)
      · exact h.inj v y w z hyold (hold w z hw hz) hr
  · intro p q hp
    by_cases hpo : p = o
    · subst hpo
      simp only [ProxyTracking.withProxy, Function.update_self, Option.some.injEq] at hp
      subst hp
      exact ⟨u, _, Function.update_self .., rfl, rfl⟩
    · simp only [ProxyTracking.withProxy, Function.update_of_ne hpo] at hp
      obtain ⟨v, y, hy, hyp, hyq⟩ := h.entry p q hp
      have hv : v ≠ u := by
        rintro rfl
        cases hnone.symm.trans hy
      exact ⟨v, y, by simpa [ProxyTracking.withProxy, Function.update_of_ne hv] using hy, hyp, hyq⟩
  · intro i v y hlatest hy hid halive
    by_cases hv : v = u
    · subst hv
      simp only [ProxyTracking.withProxy, Function.update_self, Option.some.injEq] at hy
      subst hy
      exact Function.update_self ..
    · have hy := hold v y hv hy
      have hi : i ≠ x.id := by
        rintro rfl
        simp only [ProxyTracking.withProxy, Function.update_self, Option.some.injEq] at hlatest
        exact hv hlatest.symm
      -- an object of another identity has another address
      have hyo : y.object ≠ o := by
        intro hyo
        obtain ⟨z, hz, hzid⟩ := hh.object v y hy
        rw [hyo, hx] at hz
        cases hz
        exact hi (hid.symm.trans hzid.symm)
      simp only [ProxyTracking.withProxy, Function.update_of_ne hi] at hlatest
      simp only [ProxyTracking.withProxy, Function.update_of_ne (hnew v y hy)] at halive
      simp only [ProxyTracking.withProxy, Function.update_of_ne hyo]
      exact h.latest i v y hlatest hy hid halive

/-! ## The end of a proxy -/

section Delete
variable {y : Userdata} (h : Held s) (hy : s.userdata u = some y) (hlive : y.finalizing = false)
include h hy hlive

theorem delete_eq : deleteUserdataMember u s =
    .ok (y.object, {s with userdataToObject := s.userdataToObject.erase (u, y.object)}) := by
  have hmem : (u, y.object) ∈ s.userdataToObject := (h.member u y.object).mpr ⟨y, hy, hlive, rfl⟩
  obtain ⟨p, hp⟩ : ∃ p, s.userdataToObject.find? (·.1 == u) = some p :=
    Option.isSome_iff_exists.mp (List.find?_isSome.mpr ⟨(u, y.object), hmem, by simp⟩)
  have hpu : p.1 = u := by simpa using List.find?_some hp
  obtain ⟨z, hz, -, hzp⟩ := (h.member p.1 p.2).mp (List.mem_of_find?_eq_some hp)
  rw [hpu, hy, Option.some.injEq] at hz
  subst hz
  have hpeq : p = (u, y.object) := Prod.ext hpu hzp.symm
  rw [deleteUserdataMember, hp, hpeq]

omit hlive in
theorem mem_delete (v p : Address) :
    (v, p) ∈ s.userdataToObject.erase (u, y.object) ↔ v ≠ u ∧ (v, p) ∈ s.userdataToObject := by
  rw [(List.Nodup.of_map _ h.keys).mem_erase_iff]
  refine and_congr_left fun hmem => not_congr ?_
  constructor
  · intro heq
    cases heq
    rfl
  · rintro rfl
    obtain ⟨z, hz, -, hzp⟩ := (h.member v p).mp hmem
    rw [hy, Option.some.injEq] at hz
    rw [hz, hzp]

theorem holds_delete (p : Address) :
    (s.userdataToObject.erase (u, y.object)).countP (·.2 == p) +
      (if p = y.object then 1 else 0) = holds s p := by
  have hmem : (u, y.object) ∈ s.userdataToObject := (h.member u y.object).mpr ⟨y, hy, hlive, rfl⟩
  have hperm := List.perm_cons_erase hmem
  rw [holds, hperm.countP_eq, List.countP_cons]
  by_cases hp : p = y.object
  · simp [hp]
  · simp [hp, Ne.symm hp]

/-- The reference of the member goes with it. -/
theorem count_delete {x : Object} (hx : s.objects y.object = some x) :
    x.refCount - 1 = x.outside + pushes s y.object +
        (s.userdataToObject.erase (u, y.object)).countP (·.2 == y.object) ∧ 0 < x.refCount := by
  have hcount := h.count y.object
  rw [refCountAt_of_some hx, outsideAt_of_some hx] at hcount
  have hdelete := holds_delete h hy hlive y.object
  rw [if_pos rfl] at hdelete
  omega

theorem not_dying : y.object ∉ s.stack.filterMap ProxyTracking.dying := by
  intro hmem
  have hzero := h.dying _ hmem
  have hcount := h.count y.object
  have hpos := holds_pos h hy hlive
  omega

end Delete

/-- The object has other references. -/
theorem Held.collected (h : Held s) {y : Userdata} (hy : s.userdata u = some y)
    (hlive : y.finalizing = false) {x : Object} (hx : s.objects y.object = some x)
    (f : Address → Option ℕ) :
    Held {s with
      userdataToObject := s.userdataToObject.erase (u, y.object)
      objects := Function.update s.objects y.object (some {x with refCount := x.refCount - 1})
      userdata := Function.update s.userdata u none
      objectToRef := f} := by
  refine ⟨?_, ?_, ?_, ?_, ?_, h.nodup, ?_⟩
  · exact h.keys.sublist ((List.erase_sublist).map _)
  · intro v p
    rw [mem_delete h hy, h.member]
    by_cases hv : v = u
    · subst hv
      simp
    · simp [hv]
  · intro p
    by_cases hp : p = y.object
    · subst hp
      simp only [refCountAt, outsideAt, Function.update_self, Option.elim]
      exact (count_delete h hy hlive hx).1
    · have hdelete := holds_delete h hy hlive p
      rw [if_neg hp, Nat.add_zero] at hdelete
      simp only [refCountAt, outsideAt, Function.update_of_ne hp, holds, hdelete]
      exact h.count p
  · intro v z hz
    by_cases hv : v = u
    · subst hv
      simp at hz
    · simp only [Function.update_of_ne hv] at hz
      obtain ⟨w, hw, hid⟩ := h.object v z hz
      by_cases hp : z.object = y.object
      · rw [hp, hx] at hw
        cases hw
        simp only [hp, Function.update_self]
        exact ⟨_, rfl, hid⟩
      · simp only [Function.update_of_ne hp]
        exact ⟨w, hw, hid⟩
  · intro v p
    rw [h.frame]
    by_cases hv : v = u
    · subst hv
      simp [hy, hlive]
    · simp [Function.update_of_ne hv]
  · intro p hp
    have hpo : p ≠ y.object := fun hpo => not_dying h hy hlive (hpo ▸ hp)
    simp only [refCountAt, Function.update_of_ne hpo]
    exact h.dying p hp

/-- The last reference to the object has gone, and its destructor runs. -/
theorem Held.collecting (h : Held s) {y : Userdata} (hy : s.userdata u = some y)
    (hlive : y.finalizing = false) {x : Object} (hx : s.objects y.object = some x)
    (hone : x.refCount = 1) :
    Held {s with
      userdataToObject := s.userdataToObject.erase (u, y.object)
      objects := Function.update s.objects y.object (some {x with refCount := x.refCount - 1})
      userdata := Function.update s.userdata u (some {y with finalizing := true})
      stack := .collecting u y.object :: s.stack} := by
  have hcount := count_delete h hy hlive hx
  refine ⟨?_, ?_, ?_, ?_, ?_, ?_, ?_⟩
  · exact h.keys.sublist ((List.erase_sublist).map _)
  · intro v p
    rw [mem_delete h hy, h.member]
    by_cases hv : v = u
    · subst hv
      simp
    · simp [hv]
  · intro p
    have hpush : (Frame.collecting u y.object :: s.stack).countP (isPush p) = pushes s p :=
      List.countP_cons_of_neg (by simp [isPush])
    by_cases hp : p = y.object
    · subst hp
      simp only [refCountAt, outsideAt, Function.update_self, Option.elim, pushes, hpush]
      exact hcount.1
    · have hdelete := holds_delete h hy hlive p
      rw [if_neg hp, Nat.add_zero] at hdelete
      simp only [refCountAt, outsideAt, Function.update_of_ne hp, holds, hdelete, pushes, hpush]
      exact h.count p
  · intro v z hz
    have hold : ∃ w, s.userdata v = some w ∧ w.object = z.object ∧ w.id = z.id := by
      by_cases hv : v = u
      · subst hv
        simp only [Function.update_self, Option.some.injEq] at hz
        subst hz
        exact ⟨y, hy, rfl, rfl⟩
      · simp only [Function.update_of_ne hv] at hz
        exact ⟨z, hz, rfl, rfl⟩
    obtain ⟨w, hw, hwo, hwid⟩ := hold
    obtain ⟨x', hx', hid⟩ := h.object v w hw
    rw [hwo] at hx'
    rw [← hwid, ← hid]
    by_cases hp : z.object = y.object
    · rw [hp, hx] at hx'
      cases hx'
      simp only [hp, Function.update_self]
      exact ⟨_, rfl, rfl⟩
    · simp only [Function.update_of_ne hp]
      exact ⟨x', hx', rfl⟩
  · intro v p
    rw [List.mem_cons, h.frame]
    by_cases hv : v = u
    · subst hv
      simp only [hy, Function.update_self, Option.some.injEq, exists_eq_left', hlive,
        Frame.collecting.injEq, true_and, false_and, or_false, reduceCtorEq]
      exact eq_comm
    · simp [hv]
  · exact List.nodup_cons.mpr ⟨not_dying h hy hlive, h.nodup⟩
  · intro p hp
    by_cases hpo : p = y.object
    · subst hpo
      simp [refCountAt, hone]
    · rcases List.mem_cons.mp hp with rfl | hp
      · exact absurd rfl hpo
      · simp only [refCountAt, Function.update_of_ne hpo]
        exact h.dying p hp

/-- The destructor has ended, and the memory of the object is free. -/
theorem Held.destroyed (h : Held s) {stack : List Frame}
    (hstack : s.stack = .collecting u o :: stack) (f : Address → Option ℕ) :
    Held {s with
      stack := stack
      objects := Function.update s.objects o none
      userdata := Function.update s.userdata u none
      objectToRef := f} := by
  obtain ⟨y, hy, hfin, hyo⟩ := (h.frame u o).mp (by simp [hstack])
  have hnodup := h.nodup
  have hzero := h.dying o (by simp [hstack, ProxyTracking.dying])
  have hcount := h.count o
  simp only [hstack, List.filterMap_cons, ProxyTracking.dying, List.nodup_cons] at hnodup
  -- no other userdata has the object
  have halone : ∀ v z, s.userdata v = some z → z.object = o → v = u := by
    intro v z hz hzo
    cases hzfin : z.finalizing with
    | false =>
        have hpos := holds_pos h hz hzfin
        rw [hzo] at hpos
        omega
    | true =>
        have hmem := (h.frame v o).mpr ⟨z, hz, hzfin, hzo⟩
        rw [hstack] at hmem
        rcases List.mem_cons.mp hmem with heq | hmem
        · cases heq
          rfl
        · exact (hnodup.1 (List.mem_filterMap.mpr ⟨_, hmem, rfl⟩)).elim
  refine ⟨h.keys, ?_, ?_, ?_, ?_, hnodup.2, ?_⟩
  · intro v p
    rw [h.member]
    by_cases hv : v = u
    · subst hv
      simp [hy, hfin]
    · simp [hv]
  · intro p
    have hpush : pushes s p = stack.countP (isPush p) := by
      rw [pushes, hstack, List.countP_cons_of_neg (by simp [isPush])]
    by_cases hp : p = o
    · subst hp
      simp only [refCountAt, outsideAt, Function.update_self, Option.elim, pushes, ← hpush]
      simp only [pushes, holds] at hcount ⊢
      omega
    · simp only [refCountAt, outsideAt, Function.update_of_ne hp, pushes, ← hpush]
      exact h.count p
  · intro v z hz
    by_cases hv : v = u
    · subst hv
      simp at hz
    · simp only [Function.update_of_ne hv] at hz
      have hp : z.object ≠ o := fun hzo => hv (halone v z hz hzo)
      simp only [Function.update_of_ne hp]
      exact h.object v z hz
  · intro v p
    have hframe := h.frame v p
    rw [hstack, List.mem_cons, Frame.collecting.injEq] at hframe
    by_cases hv : v = u
    · subst hv
      simp only [Function.update_self, reduceCtorEq, false_and, exists_false, iff_false]
      intro hmem
      obtain ⟨z, hz, -, hzp⟩ := hframe.mp (.inr hmem)
      rw [hy, Option.some.injEq] at hz
      rw [← hzp, ← hz, hyo] at hmem
      exact hnodup.1 (List.mem_filterMap.mpr ⟨_, hmem, rfl⟩)
    · simp only [Function.update_of_ne hv]
      rw [← hframe]
      simp [hv]
  · intro p hp
    have hpo : p ≠ o := fun hpo => hnodup.1 (hpo ▸ hp)
    simp only [refCountAt, Function.update_of_ne hpo]
    exact h.dying p (by rw [hstack]; exact List.mem_cons_of_mem _ hp)

/-! ## The weak tables -/

theorem Refs.weak (h : Refs s) {r : ℕ} (hr : s.objectToRef o = some r) :
    ∃ value, s.registry r = .weak value := by
  obtain ⟨u, y, hy, -, rfl⟩ := h.entry o r hr
  rcases h.value u y hy with hw | ⟨hw, -⟩ <;> exact ⟨_, hw⟩

/-- Another value of the registry changes. -/
theorem Refs.setSlot (h : Refs s) {r : ℕ} (hr : ∀ value, s.registry r ≠ .weak value) (x : Slot) :
    Refs (s.setSlot r x) := by
  have hsame : ∀ u y, s.userdata u = some y → (s.setSlot r x).registry y.ref = s.registry y.ref := by
    intro u y hy
    apply Function.update_of_ne
    rintro rfl
    rcases h.value u y hy with hw | ⟨hw, -⟩ <;> exact hr _ hw
  refine ⟨?_, h.inj, h.entry, ?_⟩
  · intro u y hy
    rw [hsame u y hy]
    exact h.value u y hy
  · intro i u y hi hy hid halive
    rw [hsame u y hy] at halive
    exact h.latest i u y hi hy hid halive

theorem Refs.clear (h : Refs s) (r : ℕ) : Refs (s.setSlot r (.weak none)) := by
  refine ⟨?_, h.inj, h.entry, ?_⟩
  · intro v z hz
    by_cases hr : z.ref = r
    · left
      rw [hr]
      exact Function.update_self ..
    · simp only [State.setSlot, Function.update_of_ne hr]
      exact h.value v z hz
  · intro i v z hi hz hid halive
    have hr : z.ref ≠ r := by
      intro hr
      rw [hr] at halive
      simp [State.setSlot] at halive
    simp only [State.setSlot, Function.update_of_ne hr] at halive
    exact h.latest i v z hi hz hid halive

theorem Refs.finalizing (h : Refs s) {y : Userdata} (hy : s.userdata u = some y)
    (hdead : s.registry y.ref = .weak none) :
    Refs {s with userdata := Function.update s.userdata u (some {y with finalizing := true})} := by
  have hold : ∀ v z, Function.update s.userdata u (some {y with finalizing := true}) v = some z →
      ∃ w, s.userdata v = some w ∧ w.object = z.object ∧ w.id = z.id ∧ w.ref = z.ref := by
    intro v z hz
    by_cases hv : v = u
    · subst hv
      rw [Function.update_self, Option.some.injEq] at hz
      subst hz
      exact ⟨y, hy, rfl, rfl, rfl⟩
    · rw [Function.update_of_ne hv] at hz
      exact ⟨z, hz, rfl, rfl, rfl⟩
  refine ⟨?_, ?_, ?_, ?_⟩
  · intro v z hz
    by_cases hv : v = u
    · subst hv
      simp only [Function.update_self, Option.some.injEq] at hz
      subst hz
      exact .inl hdead
    · simp only [Function.update_of_ne hv] at hz
      exact h.value v z hz
  · intro v z w z' hz hz' hr
    obtain ⟨x, hx, -, -, hxr⟩ := hold v z hz
    obtain ⟨x', hx', -, -, hxr'⟩ := hold w z' hz'
    exact h.inj v x w x' hx hx' (by rw [hxr, hxr', hr])
  · intro p r hp
    obtain ⟨v, z, hz, hzp, hzr⟩ := h.entry p r hp
    by_cases hv : v = u
    · subst hv
      rw [hy, Option.some.injEq] at hz
      subst hz
      exact ⟨v, _, Function.update_self .., hzp, hzr⟩
    · exact ⟨v, z, by simpa [Function.update_of_ne hv] using hz, hzp, hzr⟩
  · intro i v z hi hz hid halive
    obtain ⟨w, hw, hwo, hwid, hwr⟩ := hold v z hz
    have hentry := h.latest i v w hi hw (hwid.trans hid) (by rw [hwr]; exact halive)
    rwa [hwo, hwr] at hentry

theorem forgetRef_cases {t : State}
    (hweak : ∀ r, t.objectToRef o = some r → ∃ value, t.registry r = .weak value) :
    ∃ f, forgetRef u o t = .ok {t with objectToRef := f} ∧
      (f = t.objectToRef ∧ (∀ r, t.objectToRef o = some r →
          ∃ v, v ≠ u ∧ t.registry r = .weak (some v)) ∨
        f = Function.update t.objectToRef o none ∧ ∃ r, t.objectToRef o = some r ∧
          (t.registry r = .weak none ∨ t.registry r = .weak (some u))) := by
  unfold forgetRef
  cases hr : t.objectToRef o with
  | none => exact ⟨t.objectToRef, rfl, .inl ⟨rfl, nofun⟩⟩
  | some r =>
      obtain ⟨value, hvalue⟩ := hweak r hr
      simp only [luaLWeakrefGet, hvalue, deleteRefMember, hr]
      cases value with
      | none =>
          exact ⟨_, if_pos rfl, .inr ⟨rfl, r, rfl, .inl hvalue⟩⟩
      | some v =>
          by_cases hv : v = u
          · subst hv
            exact ⟨_, if_pos rfl, .inr ⟨rfl, r, rfl, .inr hvalue⟩⟩
          · refine ⟨t.objectToRef, if_neg hv, .inl ⟨rfl, ?_⟩⟩
            intro q hq
            cases hq
            exact ⟨v, hv, hvalue⟩

/-- `__gc` of a userdata ends. An index that it leaves behind is one of another userdata. -/
theorem Refs.forget (h : Refs s) {y : Userdata} (hy : s.userdata u = some y)
    (hdead : s.registry y.ref = .weak none) {t : State}
    (huserdata : t.userdata = Function.update s.userdata u none)
    (hregistry : t.registry = s.registry) (href : t.objectToRef = s.objectToRef)
    (hlatest : t.latest = s.latest) :
    ∃ f, forgetRef u y.object t = .ok {t with objectToRef := f} ∧
      Refs {t with objectToRef := f} := by
  obtain ⟨f, hf, hcases⟩ := forgetRef_cases (u := u) (o := y.object) (t := t) (by
    rw [href, hregistry]
    exact fun r hr => h.weak hr)
  rw [href, hregistry] at hcases
  have hkept : ∀ v z, t.userdata v = some z ↔ v ≠ u ∧ s.userdata v = some z := by
    intro v z
    rw [huserdata]
    by_cases hv : v = u
    · subst hv
      simp
    · simp [hv]
  refine ⟨f, hf, ?_, ?_, ?_, ?_⟩
  · intro v z hz
    rw [hregistry]
    exact h.value v z ((hkept v z).mp hz).2
  · intro v z w z' hz hz' hr
    exact h.inj v z w z' ((hkept v z).mp hz).2 ((hkept w z').mp hz').2 hr
  · intro p r hp
    have hold : s.objectToRef p = some r ∧ (p = y.object → ∃ v, v ≠ u ∧
        s.registry r = .weak (some v)) := by
      rcases hcases with ⟨rfl, halive⟩ | ⟨rfl, -⟩
      · exact ⟨hp, fun hpo => halive r (hpo ▸ hp)⟩
      · by_cases hpo : p = y.object
        · subst hpo
          simp at hp
        · simp only [Function.update_of_ne hpo] at hp
          exact ⟨hp, fun heq => absurd heq hpo⟩
    obtain ⟨v, z, hz, hzp, hzr⟩ := h.entry p r hold.1
    refine ⟨v, z, (hkept v z).mpr ⟨?_, hz⟩, hzp, hzr⟩
    rintro rfl
    rw [hy, Option.some.injEq] at hz
    subst hz
    obtain ⟨w, -, hw⟩ := hold.2 hzp.symm
    rw [← hzr, hdead] at hw
    cases hw
  · intro i v z hi hz hid halive
    obtain ⟨hv, hz⟩ := (hkept v z).mp hz
    simp only [hregistry] at halive
    have hentry := h.latest i v z (hlatest ▸ hi) hz hid halive
    rcases hcases with ⟨rfl, -⟩ | ⟨rfl, r, hr, hvalue⟩
    · exact hentry
    · have hpo : z.object ≠ y.object := by
        intro hpo
        rw [hpo, hr, Option.some.injEq] at hentry
        rw [hentry, halive] at hvalue
        rcases hvalue with hvalue | hvalue
        · cases hvalue
        · cases hvalue
          exact hv rfl
      simp only [Function.update_of_ne hpo]
      exact hentry

/-! ## Steps and runs -/

theorem Tracked.unref (h : Tracked s) {x : Object} (hx : s.objects o = some x)
    (hout : x.outside ≠ 0) : ∃ s', diUnrefObject o s = .ok s' ∧ Tracked s' := by
  have hheld : ∀ s', diUnrefObject o s = .ok s' → Held s' := fun _ => h.held.unref hx hout
  simp only [diUnrefObject, hx] at hheld ⊢
  split_ifs at hheld ⊢ with hone <;>
    exact ⟨_, rfl, hheld _ rfl, h.refs.congr rfl rfl rfl rfl,
      h.named.update rfl hx (by simp) rfl⟩

theorem Tracked.push (h : Tracked s) {x : Object} (hx : s.objects o = some x)
    (hout : x.outside ≠ 0) : ∃ s', diLuaPushobject o s = .ok s' ∧ Tracked s' := by
  have hnew : Tracked {s.setObject o (some {x with outside := x.outside - 1}) with
      stack := .pushing o :: s.stack} :=
    ⟨h.held.pushing hx hout, h.refs.congr rfl rfl rfl rfl, h.named.update rfl hx (by simp) rfl⟩
  simp only [diLuaPushobject, hx]
  cases hr : s.objectToRef o with
  | none => exact ⟨_, rfl, hnew⟩
  | some r =>
      obtain ⟨value, hvalue⟩ := h.refs.weak hr
      simp only [luaLWeakrefGet, hvalue]
      cases value with
      | none => exact ⟨_, rfl, hnew⟩
      | some v =>
          have htop : Tracked {s with top := some v} :=
            ⟨h.held.congr rfl rfl rfl rfl, h.refs.congr rfl rfl rfl rfl, h.named.same rfl rfl⟩
          exact htop.unref hx hout

theorem Tracked.gc (h : Tracked s) {y : Userdata} (hy : s.userdata u = some y)
    (hlive : y.finalizing = false) (hdead : s.registry y.ref = .weak none) :
    ∃ s', diLuaGc u y s = .ok s' ∧ Tracked s' := by
  obtain ⟨x, hx, -⟩ := h.held.object u y hy
  unfold diLuaGc
  rw [delete_eq h.held hy hlive]
  simp only [bind, Except.bind, hx, State.setObject, State.setUserdata]
  by_cases hone : x.refCount = 1
  · rw [if_pos hone]
    have hrefs := h.refs.finalizing hy hdead
    exact ⟨_, rfl, h.held.collecting hy hlive hx hone, hrefs.congr rfl rfl rfl rfl,
      h.named.update rfl hx (by simp) rfl⟩
  · rw [if_neg hone]
    obtain ⟨f, hf, hrefs⟩ := h.refs.forget hy hdead (t := {s with
      userdataToObject := s.userdataToObject.erase (u, y.object)
      objects := Function.update s.objects y.object (some {x with refCount := x.refCount - 1})
      userdata := Function.update s.userdata u none}) rfl rfl rfl rfl
    exact ⟨_, hf, h.held.collected hy hlive hx f, hrefs, h.named.update rfl hx (by simp) rfl⟩

theorem Tracked.destroyed (h : Tracked s) {stack : List Frame}
    (hstack : s.stack = .collecting u o :: stack) :
    ∃ s', diLuaGcRest u o {s with stack := stack} = .ok s' ∧ Tracked s' := by
  obtain ⟨y, hy, hfin, rfl⟩ := (h.held.frame u o).mp (by simp [hstack])
  have hdead : s.registry y.ref = .weak none := by
    refine (h.refs.value u y hy).resolve_right ?_
    rintro ⟨-, hlive⟩
    rw [hfin] at hlive
    cases hlive
  obtain ⟨f, hf, hrefs⟩ := h.refs.forget hy hdead (t := {s with
    stack := stack
    objects := Function.update s.objects y.object none
    userdata := Function.update s.userdata u none}) rfl rfl rfl rfl
  obtain ⟨x, hx, -⟩ := h.held.object u y hy
  exact ⟨_, hf, h.held.destroyed hstack f, hrefs, h.named.update rfl hx (z := none) nofun rfl⟩

/-- A step keeps the members and the proxies together, and no check fails. -/
theorem Tracked.exec (h : Tracked s) {a : Action} {r : Except Failure State}
    (hr : exec a s = some r) : ∃ s', r = .ok s' ∧ Tracked s' := by
  cases a with
  | create p =>
      simp only [LuaProxies.exec] at hr
      split at hr
      · cases hr
      · rename_i hnone
        cases hr
        exact ⟨_, rfl, (h.held.create hnone s.created).congr rfl rfl rfl rfl,
          h.refs.congr rfl rfl rfl rfl, h.named.create rfl rfl⟩
  | retain p =>
      simp only [LuaProxies.exec] at hr
      split at hr
      · cases hr
      · rename_i x hx
        split_ifs at hr with hzero
        cases hr
        have hcount := h.held.count p
        rw [refCountAt_of_some hx, outsideAt_of_some hx] at hcount
        exact ⟨_, rfl, h.held.setCounts hx rfl (by simp only; omega) fun hx0 => absurd hx0 hzero,
          h.refs.congr rfl rfl rfl rfl, h.named.update rfl hx (by simp) rfl⟩
  | release p =>
      simp only [LuaProxies.exec] at hr
      split at hr
      · cases hr
      · rename_i x hx
        split_ifs at hr with hout
        cases hr
        exact h.unref hx hout
  | ref q =>
      simp only [LuaProxies.exec] at hr
      split at hr
      · rename_i hfree
        cases hr
        exact ⟨_, rfl, h.held.congr rfl rfl rfl rfl, h.refs.setSlot (by simp [hfree]) .other,
          h.named.same rfl rfl⟩
      · cases hr
  | unref q =>
      simp only [LuaProxies.exec] at hr
      split at hr
      · rename_i hother
        cases hr
        exact ⟨_, rfl, h.held.congr rfl rfl rfl rfl, h.refs.setSlot (by simp [hother]) .free,
          h.named.same rfl rfl⟩
      · cases hr
  | push p =>
      simp only [LuaProxies.exec] at hr
      split at hr
      · cases hr
      · rename_i x hx
        split_ifs at hr with hout
        cases hr
        exact h.push hx hout
  | pushed v q =>
      cases hstack : s.stack with
      | nil => simp [LuaProxies.exec, hstack] at hr
      | cons f stack =>
          cases f with
          | collecting w p => simp [LuaProxies.exec, hstack] at hr
          | pushing p =>
              simp only [LuaProxies.exec, hstack] at hr
              split at hr
              · rename_i x hx hnone hfree
                cases hr
                exact ⟨_, h.held.pushobjectRest_eq hnone q x.id stack,
                  h.held.withProxy hstack hx hnone, h.refs.withProxy h.held hx hnone hfree,
                  h.named.same rfl rfl⟩
              · cases hr
  | clear v =>
      simp only [LuaProxies.exec] at hr
      split at hr
      · cases hr
      · split at hr
        · cases hr
          exact ⟨_, rfl, h.held.congr rfl rfl rfl rfl, h.refs.clear _,
            h.named.same rfl rfl⟩
        · cases hr
  | gc v =>
      simp only [LuaProxies.exec] at hr
      split at hr
      · cases hr
      · rename_i y hy
        split at hr
        · rename_i hlive hdead
          cases hr
          exact h.gc hy hlive hdead
        · cases hr
  | destroyed =>
      cases hstack : s.stack with
      | nil => simp [LuaProxies.exec, hstack] at hr
      | cons f stack =>
          cases f with
          | pushing p => simp [LuaProxies.exec, hstack] at hr
          | collecting v p =>
              simp only [LuaProxies.exec, hstack, Option.some.injEq] at hr
              subst hr
              exact h.destroyed hstack

theorem run_tracked (hrun : ReflTransGen Move {} s) : Tracked s := by
  induction hrun with
  | refl => exact tracked_init
  | tail _ hmove ih =>
      obtain ⟨a, ha⟩ := hmove
      obtain ⟨s', hs', htracked⟩ := ih.exec ha
      cases hs'
      exact htracked

theorem Held.filter_key (h : Held s) {y : Userdata} (hy : s.userdata u = some y)
    (hlive : y.finalizing = false) :
    s.userdataToObject.filter (·.1 == u) = [(u, y.object)] := by
  have hnodup : (s.userdataToObject.filter (·.1 == u)).Nodup :=
    (List.Nodup.of_map _ h.keys).filter _
  have hall : ∀ p ∈ s.userdataToObject.filter (·.1 == u), p = (u, y.object) := by
    rintro ⟨v, p⟩ hp
    rw [List.mem_filter, beq_iff_eq] at hp
    obtain ⟨hp, rfl⟩ := hp
    obtain ⟨z, hz, -, rfl⟩ := (h.member v p).mp hp
    rw [hy, Option.some.injEq] at hz
    rw [hz]
  have hmem : (u, y.object) ∈ s.userdataToObject.filter (·.1 == u) :=
    List.mem_filter.mpr ⟨(h.member u y.object).mpr ⟨y, hy, hlive, rfl⟩, beq_self_eq_true u⟩
  rw [List.eq_replicate_of_mem hall] at hnodup hmem ⊢
  have hlen := List.nodup_replicate.mp hnodup
  have hpos := List.length_pos_of_mem hmem
  rw [List.length_replicate] at hpos
  rw [show (s.userdataToObject.filter (·.1 == u)).length = 1 by omega]
  rfl

/-- The proxy that an object has is pushed again. -/
theorem Tracked.push_again (h : Tracked s) {x : Object} {y : Userdata}
    (hx : s.objects o = some x) (hout : x.outside ≠ 0) (hlatest : s.latest x.id = some u)
    (hy : s.userdata u = some y) (hid : y.id = x.id) (halive : s.registry y.ref = .weak (some u)) :
    LuaProxies.exec (.push o) s = some (.ok {s with
      objects := Function.update s.objects o
        (some {x with refCount := x.refCount - 1, outside := x.outside - 1})
      top := some u}) := by
  obtain ⟨z, hz, hzid⟩ := h.held.object u y hy
  have hyo : y.object = o := h.named.inj _ z o x hz hx (by rw [hzid, hid])
  have hentry := h.refs.latest x.id u y hlatest hy hid halive
  rw [hyo] at hentry
  have hlive : y.finalizing = false := by
    rcases h.refs.value u y hy with hdead | ⟨-, hlive⟩
    · rw [halive] at hdead
      cases hdead
    · exact hlive
  have hcount := h.held.count o
  have hpos := holds_pos h.held hy hlive
  rw [hyo] at hpos
  rw [refCountAt_of_some hx, outsideAt_of_some hx] at hcount
  have hmore : x.refCount ≠ 1 := by omega
  simp [LuaProxies.exec, hx, hout, diLuaPushobject, hentry, luaLWeakrefGet, halive, diUnrefObject, hmore,
    State.setObject, bind, Except.bind]

/-- In every run, a userdata whose `__gc` has not been called has one member, which holds one
reference to its object; an object whose last proxy is reachable gets the same proxy again, and
the reference that was passed is released; an index is held only for an object that is in
memory, while `__gc` of a proxy of this object has not ended; and no check fails. -/
theorem proxies_tracked (hrun : ReflTransGen Move {} s) :
    (∀ u y, s.userdata u = some y → y.finalizing = false →
      s.userdataToObject.filter (·.1 == u) = [(u, y.object)] ∧
        ∃ x, s.objects y.object = some x ∧ x.id = y.id) ∧
    (∀ o x, s.objects o = some x → x.refCount = x.outside + pushes s o + holds s o) ∧
    (∀ o x u y, s.objects o = some x → x.outside ≠ 0 → s.latest x.id = some u →
      s.userdata u = some y → y.id = x.id → s.registry y.ref = .weak (some u) →
      exec (.push o) s = some (.ok {s with
        objects := Function.update s.objects o
          (some {x with refCount := x.refCount - 1, outside := x.outside - 1})
        top := some u})) ∧
    (∀ o r, s.objectToRef o = some r → ∃ u y x, s.userdata u = some y ∧ y.ref = r ∧
      y.object = o ∧ s.objects o = some x ∧ x.id = y.id ∧
      (y.finalizing = false ∨ .collecting u o ∈ s.stack)) ∧
    ∀ a f, exec a s ≠ some (.error f) := by
  have h := run_tracked hrun
  refine ⟨?_, ?_, ?_, ?_, ?_⟩
  · intro u y hy hlive
    exact ⟨h.held.filter_key hy hlive, h.held.object u y hy⟩
  · intro o x hx
    have hcount := h.held.count o
    rwa [refCountAt_of_some hx, outsideAt_of_some hx] at hcount
  · exact fun o x u y => h.push_again
  · intro o r hr
    obtain ⟨u, y, hy, hyo, hyr⟩ := h.refs.entry o r hr
    obtain ⟨x, hx, hid⟩ := h.held.object u y hy
    refine ⟨u, y, x, hy, hyr, hyo, hyo ▸ hx, hid, ?_⟩
    cases hfin : y.finalizing with
    | false => exact .inl rfl
    | true => exact .inr ((h.held.frame u o).mpr ⟨y, hy, hfin, hyo⟩)
  · intro a f hfail
    obtain ⟨s', hs', -⟩ := h.exec hfail
    cases hs'

/-- The state after an action; an action that cannot be taken does nothing. -/
def next (s : State) (a : Action) : State :=
  match exec a s with
  | some (.ok s') => s'
  | _ => s

theorem reaches_next (l : List Action) : ReflTransGen Move s (l.foldl next s) := by
  induction l generalizing s with
  | nil => exact .refl
  | cons a l ih =>
      refine .trans ?_ ih
      unfold next
      split
      · rename_i s' hs'
        exact .single ⟨a, hs'⟩
      · exact .refl

/-- The weak reference to a proxy dies, the object is pushed again, and `__gc` of the first
proxy runs after that. -/
def secondProxy : List Action :=
  [.create 7, .retain 7, .retain 7, .push 7, .pushed 20 1, .clear 20, .push 7, .pushed 21 2, .gc 20]

theorem proxies_tracked_secondProxy :
    (secondProxy.foldl next {}).userdataToObject.filter (·.1 == 21) = [(21, 7)] ∧
      ∀ a f, exec a (secondProxy.foldl next {}) ≠ some (.error f) := by
  obtain ⟨hmember, -, -, -, hsafe⟩ := proxies_tracked (reaches_next secondProxy)
  exact ⟨(hmember 21 _ rfl rfl).1, hsafe⟩

end Deai.ProxyTracking
