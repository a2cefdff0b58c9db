import Deai.Fallible
import Deai.ProxyTracking
import Mathlib.Data.Set.Card

/-!
# The slots of the Lua registry

A proxy takes a slot of the registry for its weak table, and the entry of its object holds the index
of the slot. Nothing gives the slot back, so a slot is lost whenever an entry is replaced or
deleted, and the slots are as many as the entries only as long as no entry is.
-/
namespace Deai.RegistrySlots
open Fallible LuaProxies ProxyTracking

/-- A run, with its steps and the states before them, the last one first. -/
inductive Run : List (Action × State) → State → Prop
  | init : Run [] {}
  | step {l : List (Action × State)} {a : Action} {s s' : State} :
      Run l s → exec a s = some (.ok s') → Run ((a, s) :: l) s'

variable {s s' t : State} {n : ℕ} {a : Action}

/-- The slots that `luaL_weakref` has taken. -/
def slots (s : State) : Set ℕ := {r | ∃ value, s.registry r = .weak value}

/-- The objects with a member `___di_object_to_ref_<object>`. -/
def entries (s : State) : Set Address := {o | s.objectToRef o ≠ none}

/-- As many slots as entries. -/
def Recycled (s : State) : Prop :=
  (slots s).Finite ∧ (entries s).Finite ∧ (slots s).ncard = (entries s).ncard

/-- The entry of the object leads to this userdata, or its weak reference is dead. -/
def Leads (optr o : Address) (s : State) : Prop :=
  ∃ r, s.objectToRef o = some r ∧ (s.registry r = .weak none ∨ s.registry r = .weak (some optr))

/-- The step creates a proxy for an object that has an entry, or it is the end of a `__gc` after
which the object has no entry any more. -/
def Abandons : Action → State → Prop
  | .pushed _ _, s => ∃ o stack, s.stack = .pushing o :: stack ∧ s.objectToRef o ≠ none
  | .gc optr, s => ∃ y x, s.userdata optr = some y ∧ s.objects y.object = some x ∧
      x.refCount ≠ 1 ∧ Leads optr y.object s
  | .destroyed, s => ∃ optr o stack, s.stack = .collecting optr o :: stack ∧ Leads optr o s
  | _, _ => False

theorem Run.tracked {l : List (Action × State)} (h : Run l s) : Tracked s := by
  induction h with
  | init => exact tracked_init
  | step _ hs ih =>
      obtain ⟨s', hs', htracked⟩ := ih.exec hs
      cases hs'
      exact htracked

/-! ## Counting -/

/-- There are `n` slots more than entries. -/
structure Lost (n : ℕ) (s : State) : Prop where
  finite : (slots s).Finite
  entriesFinite : (entries s).Finite
  count : (slots s).ncard = (entries s).ncard + n

theorem lost_init : Lost 0 {} := by
  have hslots : slots {} = ∅ := Set.eq_empty_of_forall_notMem fun r hr => by
    obtain ⟨value, hvalue⟩ := hr
    cases hvalue
  have hentries : entries {} = ∅ := Set.eq_empty_of_forall_notMem fun o ho => ho rfl
  refine ⟨?_, ?_, ?_⟩
  · rw [hslots]
    exact Set.finite_empty
  · rw [hentries]
    exact Set.finite_empty
  · rw [hslots, hentries, Set.ncard_empty]

theorem Lost.congr (h : Lost n s) (hslots : slots t = slots s)
    (href : t.objectToRef = s.objectToRef) : Lost n t := by
  have hentries : entries t = entries s := by
    simp only [entries, href]
  exact ⟨hslots ▸ h.finite, hentries ▸ h.entriesFinite, hslots ▸ hentries ▸ h.count⟩

/-- A slot changes that is none of `luaL_weakref`, before and after. -/
theorem slots_setSlot {r : ℕ} {x : Slot} (hr : r ∈ slots s ↔ ∃ value, x = .weak value) :
    slots (s.setSlot r x) = slots s := by
  ext q
  by_cases hq : q = r
  · subst hq
    rw [hr]
    simp [slots, State.setSlot]
  · simp [slots, State.setSlot, Function.update_of_ne hq]

/-- A proxy takes a slot. -/
theorem Lost.take (h : Lost n s) {r : ℕ} {o : Address} (hfree : s.registry r = .free)
    {value : Option Address} (hregistry : t.registry = Function.update s.registry r (.weak value))
    (href : t.objectToRef = Function.update s.objectToRef o (some r)) :
    (s.objectToRef o = none → Lost n t) ∧ (s.objectToRef o ≠ none → Lost (n + 1) t) := by
  have hnew : r ∉ slots s := by
    rintro ⟨value, hvalue⟩
    rw [hfree] at hvalue
    cases hvalue
  have hslots : slots t = insert r (slots s) := by
    ext q
    by_cases hq : q = r
    · subst hq
      simp [slots, hregistry]
    · simp [slots, hregistry, hq]
  have hentries : entries t = insert o (entries s) := by
    ext p
    by_cases hp : p = o
    · subst hp
      simp [entries, href]
    · simp [entries, href, hp]
  have hfinite : (slots t).Finite := hslots ▸ h.finite.insert r
  have hfinite' : (entries t).Finite := hentries ▸ h.entriesFinite.insert o
  constructor
  · intro hnone
    have hout : o ∉ entries s := fun ho => ho hnone
    refine ⟨hfinite, hfinite', ?_⟩
    rw [hslots, hentries, Set.ncard_insert_of_notMem hnew h.finite,
      Set.ncard_insert_of_notMem hout h.entriesFinite, h.count, Nat.add_right_comm]
  · intro hsome
    refine ⟨hfinite, hfinite', ?_⟩
    rw [hslots, hentries, Set.ncard_insert_of_notMem hnew h.finite, Set.insert_eq_of_mem hsome,
      h.count, Nat.add_assoc]

/-- An entry is deleted, but its slot stays. -/
theorem Lost.delete (h : Lost n s) {o : Address} (ho : s.objectToRef o ≠ none)
    (hslots : slots t = slots s)
    (href : t.objectToRef = Function.update s.objectToRef o none) : Lost (n + 1) t := by
  have hentries : entries t = entries s \ {o} := by
    ext p
    by_cases hp : p = o
    · subst hp
      simp [entries, href]
    · simp [entries, href, hp]
  refine ⟨hslots ▸ h.finite, hentries ▸ h.entriesFinite.sdiff, ?_⟩
  have hcount := Set.ncard_sdiff_singleton_add_one ho h.entriesFinite
  rw [hslots, hentries, h.count]
  omega

/-- The end of a `__gc`. -/
theorem Lost.forget (h : Lost n s) (hrefs : Refs s) {u o : Address}
    (ht : forgetRef u o t = .ok s') (hregistry : t.registry = s.registry)
    (href : t.objectToRef = s.objectToRef) :
    (¬ Leads u o s → Lost n s') ∧ (Leads u o s → Lost (n + 1) s') := by
  have hslots : slots t = slots s := by simp only [slots, hregistry]
  obtain ⟨f, hf, hcases⟩ := forgetRef_cases (u := u) (o := o) (t := t) fun r hr => by
    rw [href] at hr
    rw [hregistry]
    exact hrefs.weak hr
  cases hf.symm.trans ht
  rw [hregistry, href] at hcases
  rcases hcases with ⟨rfl, hother⟩ | ⟨rfl, r, hr, hleads⟩
  · constructor
    · exact fun _ => h.congr hslots rfl
    · rintro ⟨r, hr, hleads⟩
      obtain ⟨v, hv, hvalue⟩ := hother r hr
      rw [hvalue] at hleads
      rcases hleads with hleads | hleads
      · cases hleads
      · cases hleads
        exact absurd rfl hv
  · constructor
    · exact fun hnot => absurd ⟨r, hr, hleads⟩ hnot
    · refine fun _ => h.delete (o := o) ?_ hslots rfl
      rw [hr]
      exact Option.some_ne_none r

theorem Lost.gc (h : Lost n s) (ht : Tracked s) {u : Address} {y : Userdata}
    (hy : s.userdata u = some y) (hlive : y.finalizing = false) (hs : diLuaGc u y s = .ok s') :
    (¬ Abandons (.gc u) s → Lost n s') ∧ (Abandons (.gc u) s → Lost (n + 1) s') := by
  obtain ⟨x, hx, -⟩ := ht.held.object u y hy
  have hleads : Abandons (.gc u) s ↔ x.refCount ≠ 1 ∧ Leads u y.object s := by
    constructor
    · rintro ⟨y', x', hy', hx', habandons⟩
      cases hy.symm.trans hy'
      cases hx.symm.trans hx'
      exact habandons
    · exact fun habandons => ⟨y, x, hy, hx, habandons⟩
  rw [hleads]
  unfold diLuaGc at hs
  rw [delete_eq ht.held hy hlive] at hs
  simp only [bind, Except.bind, hx] at hs
  split_ifs at hs with hone
  · cases hs
    exact ⟨fun _ => h.congr rfl rfl, fun habandons => absurd hone habandons.1⟩
  · obtain ⟨hkeep, hdelete⟩ := h.forget ht.refs hs rfl rfl
    exact ⟨fun hnot => hkeep fun hl => hnot ⟨hone, hl⟩, fun habandons => hdelete habandons.2⟩

theorem unref_frame {p : Address} {x : Object} (hx : s.objects p = some x)
    (hs : diUnrefObject p s = .ok s') :
    s'.registry = s.registry ∧ s'.objectToRef = s.objectToRef := by
  simp only [diUnrefObject, hx] at hs
  split_ifs at hs
  · cases hs
    exact ⟨rfl, rfl⟩
  · cases hs
    exact ⟨rfl, rfl⟩

theorem pushobject_frame {p : Address} {x : Object} (hx : s.objects p = some x)
    (hs : diLuaPushobject p s = .ok s') :
    s'.registry = s.registry ∧ s'.objectToRef = s.objectToRef := by
  unfold diLuaPushobject at hs
  cases hr : s.objectToRef p with
  | none =>
      simp only [hr, hx] at hs
      cases hs
      exact ⟨rfl, rfl⟩
  | some r =>
      simp only [hr, hx] at hs
      obtain ⟨value, -, hs⟩ := bind_eq_ok hs
      cases value with
      | none =>
          cases hs
          exact ⟨rfl, rfl⟩
      | some optr => exact unref_frame (s := {s with top := some optr}) hx hs

/-- A step loses at most one slot, and it does if it abandons one. -/
theorem Lost.exec (h : Lost n s) (ht : Tracked s) (hs : exec a s = some (.ok s')) :
    (¬ Abandons a s → Lost n s') ∧ (Abandons a s → Lost (n + 1) s') := by
  cases a with
  | create p =>
      simp only [LuaProxies.exec] at hs
      split at hs
      · cases hs
      · cases hs
        exact ⟨fun _ => h.congr rfl rfl, False.elim⟩
  | retain p =>
      simp only [LuaProxies.exec] at hs
      split at hs
      · cases hs
      · split_ifs at hs
        cases hs
        exact ⟨fun _ => h.congr rfl rfl, False.elim⟩
  | release p =>
      simp only [LuaProxies.exec] at hs
      split at hs
      · cases hs
      · rename_i x hx
        split_ifs at hs
        obtain ⟨hregistry, href⟩ := unref_frame hx (Option.some.inj hs)
        refine ⟨fun _ => h.congr ?_ href, False.elim⟩
        simp only [slots, hregistry]
  | ref q =>
      simp only [LuaProxies.exec] at hs
      split at hs
      · rename_i hfree
        cases hs
        exact ⟨fun _ => h.congr (slots_setSlot (by simp [slots, hfree])) rfl, False.elim⟩
      · cases hs
  | unref q =>
      simp only [LuaProxies.exec] at hs
      split at hs
      · rename_i hother
        cases hs
        exact ⟨fun _ => h.congr (slots_setSlot (by simp [slots, hother])) rfl, False.elim⟩
      · cases hs
  | push p =>
      refine ⟨fun _ => ?_, False.elim⟩
      simp only [LuaProxies.exec] at hs
      split at hs
      · cases hs
      · rename_i x hx
        split_ifs at hs
        obtain ⟨hregistry, href⟩ := pushobject_frame hx (Option.some.inj hs)
        refine h.congr ?_ href
        simp only [slots, hregistry]
  | pushed v q =>
      cases hstack : s.stack with
      | nil => simp [LuaProxies.exec, hstack] at hs
      | cons f stack =>
          cases f with
          | collecting w p => simp [LuaProxies.exec, hstack] at hs
          | pushing p =>
              have habandons : Abandons (.pushed v q) s ↔ s.objectToRef p ≠ none := by
                constructor
                · rintro ⟨p', stack', hstack', hsome⟩
                  cases hstack.symm.trans hstack'
                  exact hsome
                · exact fun hsome => ⟨p, stack, hstack, hsome⟩
              rw [habandons, not_not]
              simp only [LuaProxies.exec, hstack] at hs
              split at hs
              · rename_i x hx hnone hfree
                rw [Option.some.injEq, ht.held.pushobjectRest_eq hnone q x.id stack] at hs
                cases hs
                exact h.take hfree rfl rfl
              · cases hs
  | clear v =>
      refine ⟨fun _ => ?_, False.elim⟩
      simp only [LuaProxies.exec] at hs
      split at hs
      · cases hs
      · split at hs
        · rename_i y hy _ w hw
          cases hs
          exact h.congr (slots_setSlot (by simp [slots, hw])) rfl
        · cases hs
  | gc v =>
      simp only [LuaProxies.exec] at hs
      split at hs
      · cases hs
      · rename_i y hy
        split at hs
        · rename_i hlive hdead
          exact h.gc ht hy hlive (Option.some.inj hs)
        · cases hs
  | destroyed =>
      cases hstack : s.stack with
      | nil => simp [LuaProxies.exec, hstack] at hs
      | cons f stack =>
          cases f with
          | pushing p => simp [LuaProxies.exec, hstack] at hs
          | collecting v p =>
              have habandons : Abandons .destroyed s ↔ Leads v p s := by
                constructor
                · rintro ⟨v', p', stack', hstack', hleads⟩
                  cases hstack.symm.trans hstack'
                  exact hleads
                · exact fun hleads => ⟨v, p, stack, hstack, hleads⟩
              rw [habandons]
              simp only [LuaProxies.exec, hstack, Option.some.injEq] at hs
              exact h.forget ht.refs hs rfl rfl

theorem Run.lost {l : List (Action × State)} (h : Run l s) :
    ∃ n, Lost n s ∧ (n = 0 ↔ ∀ p ∈ l, ¬ Abandons p.1 p.2) := by
  induction h with
  | init => exact ⟨0, lost_init, iff_of_true rfl nofun⟩
  | @step l a s s' hrun hs ih =>
      obtain ⟨n, hlost, hn⟩ := ih
      obtain ⟨hkeep, hlose⟩ := hlost.exec hrun.tracked hs
      rw [List.forall_mem_cons]
      by_cases ha : Abandons a s
      · exact ⟨n + 1, hlose ha, iff_of_false (Nat.succ_ne_zero n) fun hall => hall.1 ha⟩
      · exact ⟨n, hkeep ha, hn.trans (and_iff_right ha).symm⟩

/-- In every run, there are as many slots as entries if and only if no step has abandoned a slot. -/
theorem slots_recycled_iff {l : List (Action × State)} (h : Run l s) :
    Recycled s ↔ ∀ p ∈ l, ¬ Abandons p.1 p.2 := by
  obtain ⟨n, hlost, hn⟩ := h.lost
  rw [← hn]
  constructor
  · rintro ⟨-, -, hcount⟩
    have htotal := hlost.count
    omega
  · rintro rfl
    exact ⟨hlost.finite, hlost.entriesFinite, hlost.count⟩

/-- An object is pushed for the first time. -/
theorem slots_recycled_pushed : ∃ l s, Run l s ∧ s.objectToRef 7 = some 1 ∧ Recycled s := by
  have hrun := ((Run.init.step (a := .create 7) rfl).step (a := .push 7) rfl).step
    (a := .pushed 20 1) rfl
  refine ⟨_, _, hrun, rfl, (slots_recycled_iff hrun).mpr ?_⟩
  simp only [List.forall_mem_cons, List.not_mem_nil, false_imp_iff, implies_true, and_true]
  refine ⟨?_, id, id⟩
  rintro ⟨o, stack, hstack, hsome⟩
  cases hstack
  exact hsome rfl

/-- Its proxy is collected: the entry is deleted, and the slot stays. -/
theorem slots_lost : ∃ l s, Run l s ∧ 1 ∈ slots s ∧ entries s = ∅ ∧ ¬ Recycled s := by
  have hcollected : ∃ l s, Run l s ∧ s.registry 1 = .weak none ∧
      s.objectToRef = Function.update (Function.update (fun _ => none) 7 (some 1)) 7 none :=
    ⟨_, _, (((((Run.init.step (a := .create 7) rfl).step (a := .push 7) rfl).step
      (a := .pushed 20 1) rfl).step (a := .clear 20) rfl).step (a := .gc 20) rfl).step
      (a := .destroyed) rfl, rfl, rfl⟩
  obtain ⟨l, s, hrun, hslot, href⟩ := hcollected
  have hempty : entries s = ∅ := by simp [entries, href]
  refine ⟨l, s, hrun, ⟨none, hslot⟩, hempty, ?_⟩
  rintro ⟨hfinite, -, hcount⟩
  rw [hempty, Set.ncard_empty, Set.ncard_eq_zero hfinite] at hcount
  exact Set.eq_empty_iff_forall_notMem.mp hcount 1 ⟨none, hslot⟩

end Deai.RegistrySlots
