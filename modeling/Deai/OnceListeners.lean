import Deai.ListenHandles

/-!
# Listeners that are called once

`once` of the Lua bindings registers a wrapper of the function. When the wrapper is called
it stops its own handle, and then calls the function. A function given to `on` is a handler
itself, and the same one for every registration of the function.
-/
namespace Deai.OnceListeners
open Value Signal SignalRuns SignalCounts SignalEmission ListenHandles Relation

section
variable {Name World Error : Type}

/-- The signals of an object, and the member `listen_handle` of the wrappers. -/
structure Listeners (Name World : Type) where
  base : State Name World
  listenHandle : ObjRef → Option HandleId := fun _ => none
  -- history: the calls of the wrapped function
  calls : ObjRef → ℕ := fun _ => 0

inductive Request (Name : Type) where
  | once (n : Name) (h : ObjRef)
  | act (a : Action Name)

/-- `call_lua_signal_handler_once` up to the first step of the function. The emission refers to
the wrapper, so that no user code runs while its member is deleted. -/
def callLuaSignalHandlerOnce (S : Source Name World Error) (h : ObjRef) (k : HandleId)
    (s : Listeners Name World) : Except (Failure Error) (Listeners Name World) :=
  let t := diListenHandleStop S k s.base
  let calls := Function.update s.calls h (s.calls h + 1)
  match t.stack with
  | .removal x :: stack =>
      (Signal.endRemoval S x {t with stack := stack}).map fun t =>
        {s with base := t, calls := calls}
  | _ => .ok {s with base := t, calls := calls}

/-- The handler that `callNext` calls. -/
def nextHandler (s : State Name World) : Action Name → Option ObjRef
  | .callNext =>
      match s.stack with
      | .emission e :: _ => e.rest.head?
      | _ => none
  | _ => none

/-- The wrapper that an action calls, with its handle. -/
def nextWrapper (s : Listeners Name World) (a : Action Name) : Option (ObjRef × HandleId) :=
  (nextHandler s.base a).bind fun h => (s.listenHandle h).map (h, ·)

variable [DecidableEq Name]

/-- One step; `once` is `di_lua_add_listener`, and `on` is the action `listen`. -/
def exec (S : Source Name World Error) (r : Request Name) (s : Listeners Name World) :
    Option (Except (Failure Error) (Listeners Name World)) :=
  match r with
  | .once n h =>
      (Signal.exec S (.listen n h) s.base).map fun r => r.map fun t =>
        {s with
          base := t
          listenHandle := Function.update s.listenHandle h (some s.base.handleCount)}
  | .act a =>
      (Signal.exec S a s.base).map fun r => r.bind fun t =>
        match nextWrapper s a with
        | some (h, k) => callLuaSignalHandlerOnce S h k {s with base := t}
        | none => .ok {s with base := t}

/-- The wrapper is a new object, and handlers are added and removed by `on`, `once` and `stop`
only. A handle that the script drops stays with its wrapper; that it may be destroyed here all
the same only allows more. -/
def Permitted (s : Listeners Name World) : Request Name → Prop
  | .once _ h => s.listenHandle h = none ∧
      ∀ k, k < s.base.handleCount → (s.base.handles k).weakHandler ≠ h
  | .act a => ByHandle a ∧ ∀ h ∈ registers a, s.listenHandle h = none

/-- A step of a callback that `P` allows, or of the source by itself. -/
inductive Move (S : Source Name World Error)
    (P : Listeners Name World → Request Name → Prop) (Env : State Name World → World → Prop)
    (s : Listeners Name World) : Listeners Name World → Prop where
  | act {s' : Listeners Name World} (r : Request Name) (hr : P s r)
      (hstep : exec S r s = some (.ok s')) : Move S P Env s s'
  | env (w : World) (hw : Env s.base w) :
      Move S P Env s {s with base := {s.base with world := w}}

end

/-! ## What a step does to the handlers -/

section
variable {Name World Error : Type} {S : Source Name World Error} {s s' : State Name World}

/-- The handlers of the signal object `x` after a step. -/
inductive Table (s s' : State Name World) (x : SignalId) : Action Name → Prop where
  | kept {a : Action Name} (hx : x < s.signalCount)
      (h : (s'.signals x).handlers.Sublist (s.signals x).handlers) : Table s s' x a
  | grown (n : Name) (f : ObjRef) (hx : x < s.signalCount) (hf : f ∉ (s.signals x).handlers)
      (h : (s'.signals x).handlers = (s.signals x).handlers ++ [f])
      (hfor : For s' x f s.handleCount) : Table s s' x (.listen n f)
  | new (n : Name) (f : ObjRef) (hx : x = s.signalCount) (h : (s'.signals x).handlers = [f])
      (hfor : For s' x f s.handleCount) : Table s s' x (.listen n f)

theorem for_newListenHandle (x : SignalId) (f : ObjRef) (s : State Name World) :
    For (newListenHandle x f s) x f s.handleCount :=
  ⟨Nat.lt_succ_self _, by simp [newListenHandle, State.setHandle],
    by simp [newListenHandle, State.setHandle]⟩

variable [DecidableEq Name]

theorem effect_table {a : Action Name} (heff : Effect S s a s') (ha : ByHandle a) {x : SignalId}
    (hx : x < s'.signalCount) : Table s s' x a := by
  cases heff with
  | quiet hq hheld =>
      refine .kept (hq.signalCount ▸ hx) ?_
      rw [hq.signals]
  | listenOld n f y hy halive =>
      by_cases hxy : x = y
      · subst hxy
        by_cases hf : f ∈ (s.signals x).handlers
        · refine .kept hx ?_
          simp [newListenHandle, State.setHandle, diSignalAddHandler, State.setSignal,
            SignalObject.add, hf]
        · refine .grown n f hx hf ?_ (for_newListenHandle x f _)
          simp [newListenHandle, State.setHandle, diSignalAddHandler, State.setSignal,
            SignalObject.add, hf]
      · refine .kept hx ?_
        simp [newListenHandle, State.setHandle, diSignalAddHandler, State.setSignal, hxy]
  | listenNew n f w hn hw halive =>
      by_cases hxc : x = s.signalCount
      · subst hxc
        refine .new n f rfl ?_ (for_newListenHandle _ f _)
        simp [newListenHandle, State.setHandle, diSignalAddHandler, State.setSignal, newSignal,
          SignalObject.add]
      · refine .kept (Nat.lt_of_le_of_ne (Nat.le_of_lt_succ hx) hxc) ?_
        simp [newListenHandle, State.setHandle, diSignalAddHandler, State.setSignal, newSignal,
          hxc]
  | added y f hy => exact ha.elim
  | deleted y f hmem halive hrem hfor ht hheld =>
      rename_i t
      obtain ⟨hsignals, -, hcount⟩ := endHandle_same (endsHandle s a) (SignalRuns.deleteHandler y f t)
      rw [hcount] at hx
      refine .kept (ht.signalCount ▸ hx) ?_
      rw [hsignals, ← ht.signals]
      by_cases hxy : x = y
      · subst hxy
        simpa [SignalRuns.deleteHandler, State.setSignal] using List.erase_sublist
      · simp [SignalRuns.deleteHandler, State.setSignal, hxy]
  | missed k hk hend hmem ht hheld =>
      refine .kept (ht.signalCount ▸ hx) ?_
      rw [(endHandle_same (some k) _).1, ht.signals]
  | finished y stack hstack hend =>
      rcases endRemoval_cases hend with ⟨rfl, -⟩ | ⟨w, -, -, -, rfl⟩ <;>
      · refine .kept hx ?_
        by_cases hxy : x = y
        · subst hxy
          simp [State.setSignal]
        · simp [State.setSignal, hxy]
  | emitted n y hy hcount halive => exact .kept hx (List.Sublist.refl _)
  | called e f rest stack hstack hrest hrun => exact .kept hx (List.Sublist.refl _)
  | returned e stack hstack hrun => exact .kept hx (List.Sublist.refl _)
  | closed e stack hstack hrest hrun => exact .kept hx (List.Sublist.refl _)

/-- A member of the source was there before, or is the signal object of a registration. -/
theorem effect_member (hS : Lawful S) {a : Action Name} (heff : Effect S s a s') {n : Name}
    {x : SignalId} (hx : S.member s'.world n = some x) :
    S.member s.world n = some x ∨
      x = s.signalCount ∧ x < s'.signalCount ∧ (s'.signals x).signalName = n := by
  cases effect_tally heff with
  | same hworld hsize hcount hname => exact .inl (hworld ▸ hx)
  | raised y hy hworld hsize hcount hname => exact .inl (hworld ▸ hx)
  | new m halive hm hw hsize hself hselfName hothers =>
      obtain ⟨hset, hkept⟩ := hS.set hm hw
      by_cases hnm : n = m
      · subst hnm
        rcases hset with hset | hset
        · have hxc : x = s.signalCount := Option.some.inj (hx.symm.trans hset)
          subst hxc
          exact .inr ⟨rfl, hsize ▸ Nat.lt_succ_self _, hselfName⟩
        · cases hset.symm.trans hx
      · exact .inl ((hkept n hnm).symm.trans hx)
  | lowered y stack hstack hsize hcount hname hworld =>
      rcases hworld with ⟨hsame, -⟩ | ⟨hw, -, -⟩
      · exact .inl (hsame ▸ hx)
      · obtain ⟨hself, hothers⟩ := hS.delete hw
        by_cases hny : n = (s.signals y).signalName
        · subst hny
          cases hself.symm.trans hx
        · exact .inl ((hothers n hny).symm.trans hx)

theorem effect_signalCount {a : Action Name} (heff : Effect S s a s') :
    s.signalCount ≤ s'.signalCount := by
  cases effect_tally heff with
  | same hworld hsize hcount hname => omega
  | raised y hy hworld hsize hcount hname => omega
  | new m halive hm hw hsize hself hselfName hothers => omega
  | lowered y stack hstack hsize hcount hname hworld => omega

theorem effect_signalName {a : Action Name} (heff : Effect S s a s') {x : SignalId}
    (hx : x < s.signalCount) : (s'.signals x).signalName = (s.signals x).signalName := by
  cases effect_tally heff with
  | same hworld hsize hcount hname => exact hname x
  | raised y hy hworld hsize hcount hname => exact hname x
  | new m halive hm hw hsize hself hselfName hothers => exact (hothers x (Nat.ne_of_lt hx)).2
  | lowered y stack hstack hsize hcount hname hworld => exact hname x

/-- A registration makes a handle. -/
theorem listen_makes {n : Name} {f : ObjRef} (hstep : Step S s (.listen n f) s') :
    ∃ x, For s' x f s.handleCount := by
  simp only [Step, Signal.exec, Option.ite_none_right_eq_some, Option.some.injEq] at hstep
  obtain ⟨-, hlisten⟩ := hstep
  unfold diListenTo at hlisten
  split at hlisten
  · cases hlisten
    exact ⟨_, for_newListenHandle ..⟩
  · split at hlisten
    · cases hlisten
    · cases hlisten
      exact ⟨_, for_newListenHandle ..⟩

/-! ## What is known about the handlers -/

/-- Every handler that is a member of a signal object, or that an emission has still to call,
was registered there by a handle. -/
structure Traced (S : Source Name World Error) (s : State Name World) : Prop where
  member : ∀ n x, S.member s.world n = some x →
    x < s.signalCount ∧ (s.signals x).signalName = n
  nodup : ∀ x, x < s.signalCount → (s.signals x).handlers.Nodup
  handler : ∀ x, x < s.signalCount → ∀ f ∈ (s.signals x).handlers, ∃ k, For s x f k
  restNodup : ∀ e, .emission e ∈ s.stack → e.rest.Nodup
  rest : ∀ e, .emission e ∈ s.stack → ∀ f ∈ e.rest, ∃ k, For s e.signal f k

omit [DecidableEq Name] in
theorem traced_init {w : World} {signals : SignalId → SignalObject Name}
    (hw : ∀ n, S.member w n = none) : Traced S {world := w, signals := signals} where
  member n x hx := by
    cases (hw n).symm.trans hx
  nodup x hx := absurd hx (Nat.not_lt_zero x)
  handler x hx := absurd hx (Nat.not_lt_zero x)
  restNodup := nofun
  rest := nofun

theorem Traced.effect (hS : Lawful S) (h : Traced S s) {a : Action Name}
    (heff : Effect S s a s') (ha : ByHandle a) : Traced S s' := by
  have hfor : ∀ {x f}, (∃ k, For s x f k) → ∃ k, For s' x f k := fun ⟨k, hk⟩ =>
    ⟨k, effect_for heff hk⟩
  refine ⟨?_, ?_, ?_, ?_, ?_⟩
  · intro n x hx
    rcases effect_member hS heff hx with hold | ⟨-, hlt, hname⟩
    · obtain ⟨hlt, hname⟩ := h.member n x hold
      exact ⟨Nat.lt_of_lt_of_le hlt (effect_signalCount heff),
        (effect_signalName heff hlt).trans hname⟩
    · exact ⟨hlt, hname⟩
  · intro x hx
    cases effect_table heff ha hx with
    | kept hlt hsub => exact hsub.nodup (h.nodup x hlt)
    | grown n f hlt hf heq _ =>
        rw [heq]
        simpa using (h.nodup x hlt).concat hf
    | new n f _ heq _ =>
        rw [heq]
        exact List.nodup_singleton f
  · intro x hx f hf
    cases effect_table heff ha hx with
    | kept hlt hsub => exact hfor (h.handler x hlt f (hsub.mem hf))
    | grown n g hlt hg heq hnew =>
        rw [heq, List.mem_append, List.mem_singleton] at hf
        rcases hf with hf | rfl
        · exact hfor (h.handler x hlt f hf)
        · exact ⟨_, hnew⟩
    | new n g _ heq hnew =>
        rw [heq, List.mem_singleton] at hf
        subst hf
        exact ⟨_, hnew⟩
  · intro e he
    cases effect_continues heff he with
    | same _ he₀ => exact h.restNodup e he₀
    | stopped e₀ f he₀ _ _ => exact h.restNodup e₀ he₀
    | new n x _ hx _ => exact h.nodup x (h.member n x hx).1
    | called e₀ f rest he₀ hrest =>
        have hnodup := h.restNodup e₀ he₀
        rw [hrest] at hnodup
        exact (List.nodup_cons.mp hnodup).2
    | returned e₀ he₀ => exact h.restNodup e₀ he₀
  · intro e he f hf
    apply hfor
    cases effect_continues heff he with
    | same _ he₀ => exact h.rest e he₀ f hf
    | stopped e₀ g he₀ _ _ => exact h.rest e₀ he₀ f hf
    | new n x _ hx _ => exact h.handler x (h.member n x hx).1 f hf
    | called e₀ g rest he₀ hrest => exact h.rest e₀ he₀ f (by rw [hrest]; exact .tail g hf)
    | returned e₀ he₀ => exact h.rest e₀ he₀ f hf

/-- A wrapper has one handle, its member `listen_handle`. -/
structure Wrapped (s : State Name World) (l : ObjRef → Option HandleId) : Prop where
  handle : ∀ h k, l h = some k → k < s.handleCount ∧ (s.handles k).weakHandler = h
  only : ∀ h k, l h = some k → ∀ m, m < s.handleCount → (s.handles m).weakHandler = h → m = k

theorem Wrapped.effect {l : ObjRef → Option HandleId} (h : Wrapped s l) {a : Action Name}
    (heff : Effect S s a s') (ha : ∀ f ∈ registers a, l f = none) : Wrapped s' l := by
  constructor
  · intro f k hk
    obtain ⟨hlt, hhan⟩ := h.handle f k hk
    have hnext := effect_weakHandler heff hlt
    exact ⟨hnext.1, hnext.2.trans hhan⟩
  · intro f k hk m hm hf
    rcases effect_handleCount heff hm with hlt | ⟨-, hreg⟩
    · rw [(effect_weakHandler heff hlt).2] at hf
      exact h.only f k hk m hlt hf
    · rw [hf] at hreg
      cases (ha f hreg).symm.trans hk

/-- The handle of a new wrapper. -/
theorem Wrapped.once {l : ObjRef → Option HandleId} (h : Wrapped s l) {n : Name} {f : ObjRef}
    (heff : Effect S s (.listen n f) s') (hmade : ∃ x, For s' x f s.handleCount)
    (hf : l f = none) (hnew : ∀ k, k < s.handleCount → (s.handles k).weakHandler ≠ f) :
    Wrapped s' (Function.update l f (some s.handleCount)) := by
  have hold : Wrapped s' l := h.effect heff fun g hg => by
    cases hg
    exact hf
  obtain ⟨x, hlt, -, hhan⟩ := hmade
  constructor
  · intro g k hk
    by_cases hgf : g = f
    · subst hgf
      rw [Function.update_self, Option.some.injEq] at hk
      subst hk
      exact ⟨hlt, hhan⟩
    · rw [Function.update_of_ne hgf] at hk
      exact hold.handle g k hk
  · intro g k hk m hm hg
    by_cases hgf : g = f
    · subst hgf
      rw [Function.update_self, Option.some.injEq] at hk
      subst hk
      rcases effect_handleCount heff hm with hlt | ⟨rfl, -⟩
      · rw [(effect_weakHandler heff hlt).2] at hg
        exact absurd hg (hnew m hlt)
      · rfl
    · rw [Function.update_of_ne hgf] at hk
      exact hold.only g k hk m hm hg

omit [DecidableEq Name] in
/-- The signal object that a wrapper is a handler of. -/
theorem Wrapped.weakSignal_eq {l : ObjRef → Option HandleId} (h : Wrapped s l) {f : ObjRef}
    {k : HandleId} (hk : l f = some k) {x : SignalId} (hf : ∃ m, For s x f m) :
    (s.handles k).weakSignal = x := by
  obtain ⟨m, hlt, hsig, hhan⟩ := hf
  rw [← h.only f k hk m hlt hhan]
  exact hsig

/-! ## Emissions that have still to call a handler -/

/-- The emission has still to call the handler `h`. -/
def awaits (h : ObjRef) : Frame → Bool
  | .emission e => e.rest.contains h
  | .removal _ => false

def pending (h : ObjRef) (s : State Name World) : ℕ := s.stack.countP (awaits h)

omit [DecidableEq Name] in
theorem awaits_noteStop (x : SignalId) (f h : ObjRef) (g : Frame) :
    awaits h (g.noteStop x f) = awaits h g := by
  cases g with
  | removal y => rfl
  | emission e =>
      simp only [Frame.noteStop]
      split_ifs <;> rfl

/-- Only an emission that copies the handler has to call it. -/
theorem effect_pending {a : Action Name} (heff : Effect S s a s') (h : ObjRef) :
    pending h s' ≤ pending h s ∨
      ∃ n x, a = .emit n ∧ S.member s.world n = some x ∧ h ∈ (s.signals x).handlers ∧
        pending h s' = pending h s + 1 := by
  cases heff with
  | quiet hq hheld => exact .inl (by rw [pending, hq.stack, pending])
  | listenOld n f x hx halive => exact .inl le_rfl
  | listenNew n f w hx hw halive => exact .inl le_rfl
  | added x f hx => exact .inl le_rfl
  | deleted x f hmem halive ha hk ht hheld =>
      rename_i t
      have hstack : (endHandle (endsHandle s a) (SignalRuns.deleteHandler x f t)).stack =
          .removal x :: s.stack.map (Frame.noteStop x f) := by
        rw [← ht.stack]
        cases endsHandle s a <;> rfl
      left
      rw [pending, hstack, List.countP_cons_of_neg (by simp [awaits]), List.countP_map]
      exact le_of_eq (List.countP_congr fun g _ => by simp [awaits_noteStop])
  | missed k hk ha hmem ht hheld => exact .inl (by rw [pending, pending, ← ht.stack]; rfl)
  | finished x stack hstack hend =>
      left
      have hs' : s'.stack = stack := by
        rcases endRemoval_cases hend with ⟨rfl, -⟩ | ⟨w, -, -, -, rfl⟩ <;> rfl
      rw [pending, pending, hs', hstack, List.countP_cons_of_neg (by simp [awaits])]
  | emitted n x hx hcount halive =>
      by_cases hh : h ∈ (s.signals x).handlers
      · exact .inr ⟨n, x, rfl, hx, hh, List.countP_cons_of_pos (by simpa [awaits] using hh)⟩
      · exact .inl (le_of_eq (List.countP_cons_of_neg (by simpa [awaits] using hh)))
  | called e f rest stack hstack hrest hrun =>
      left
      rw [pending, pending, hstack, List.countP_cons, List.countP_cons]
      have hsub : awaits h (.emission (e.call f rest)) → awaits h (.emission e) := by
        simp only [awaits, Emission.call, hrest, List.contains_iff_mem]
        exact .tail f
      split_ifs <;> first | omega | simp_all
  | returned e stack hstack hrun =>
      left
      rw [pending, pending, hstack, List.countP_cons, List.countP_cons]
      exact le_rfl
  | closed e stack hstack hrest hrun =>
      left
      rw [pending, pending, hstack, List.countP_cons]
      exact Nat.le_add_right ..

omit [DecidableEq Name] in
/-- The emission on top of the stack calls its next handler. -/
theorem pending_call {e : Emission} {f : ObjRef} {rest : List ObjRef} {stack : List Frame}
    (hstack : s.stack = .emission e :: stack) (hrest : e.rest = f :: rest)
    (hnodup : e.rest.Nodup) :
    pending f {s with stack := .emission (e.call f rest) :: stack} + 1 = pending f s := by
  rw [hrest, List.nodup_cons] at hnodup
  have hcalled : ¬ awaits f (.emission (e.call f rest)) := by
    simpa [awaits, Emission.call] using hnodup.1
  rw [pending, pending, hstack, List.countP_cons_of_neg hcalled,
    List.countP_cons_of_pos (by simp [awaits, hrest])]

omit [DecidableEq Name] in
/-- No emission has copied an object that is no handler. -/
theorem Traced.pending_eq_zero (h : Traced S s) {f : ObjRef}
    (hnew : ∀ k, k < s.handleCount → (s.handles k).weakHandler ≠ f) : pending f s = 0 := by
  refine List.countP_eq_zero.mpr fun g hg hawaits => ?_
  cases g with
  | removal y => cases hawaits
  | emission e =>
      rw [awaits, List.contains_iff_mem] at hawaits
      obtain ⟨k, hlt, -, hhan⟩ := h.rest e hg f hawaits
      exact hnew k hlt hhan

/-- No emission will copy the handler. -/
def Detached (S : Source Name World Error) (s : State Name World) (h : ObjRef) : Prop :=
  ∀ n x, S.member s.world n = some x → h ∉ (s.signals x).handlers

theorem Detached.effect (hS : Lawful S) {h : ObjRef} (hd : Detached S s h) (ht : Traced S s)
    {a : Action Name} (heff : Effect S s a s') (ha : ByHandle a) (hreg : h ∉ registers a) :
    Detached S s' h := by
  intro n x hx hmem
  have hlt : x < s'.signalCount := ((ht.effect hS heff ha).member n x hx).1
  cases effect_table heff ha hlt with
  | kept hold hsub =>
      rcases effect_member hS heff hx with hx | ⟨rfl, -⟩
      · exact hd n x hx (hsub.mem hmem)
      · exact lt_irrefl _ hold
  | grown m f hold hf heq hfor =>
      rcases effect_member hS heff hx with hx | ⟨rfl, -⟩
      · rw [heq, List.mem_append, List.mem_singleton] at hmem
        rcases hmem with hmem | rfl
        · exact hd n x hx hmem
        · exact hreg rfl
      · exact lt_irrefl _ hold
  | new m f hxc heq hfor =>
      rw [heq, List.mem_singleton] at hmem
      subst hmem
      exact hreg rfl

omit [DecidableEq Name] in
/-- A wrapper whose handle has been stopped. -/
theorem detached_stop {l : ObjRef → Option HandleId} (ht : Traced S s) (hw : Wrapped s l)
    {h : ObjRef} {k : HandleId} (hk : l h = some k) : Detached S (diListenHandleStop S k s) h := by
  obtain ⟨hlt, hhan⟩ := hw.handle h k hk
  have hsignal : ∀ x, x < s.signalCount → h ∈ (s.signals x).handlers →
      x = (s.handles k).weakSignal := fun x hx hmem =>
    (hw.weakSignal_eq hk (ht.handler x hx h hmem)).symm
  have herased : ∀ n x, S.member s.world n = some x →
      h ∉ ((s.signals x).handlers).erase h := fun n x hx =>
    (ht.nodup x (ht.member n x hx).1).not_mem_erase
  intro n x hx hmem
  unfold diListenHandleStop diSignalRemoveHandler at hx hmem
  simp only [hhan] at hx hmem
  split_ifs at hx hmem with halive hin
  · simp only [State.setSignal, State.setHandle] at hx hmem
    by_cases hxk : x = (s.handles k).weakSignal
    · subst hxk
      rw [Function.update_self] at hmem
      exact herased n _ hx hmem
    · rw [Function.update_of_ne hxk] at hmem
      exact hxk (hsignal x (ht.member n x hx).1 hmem)
  · exact hin (hsignal x (ht.member n x hx).1 hmem ▸ hmem)
  · -- a member of the source is alive
    obtain ⟨hbound, hname⟩ := ht.member n x hx
    apply halive
    rw [← hsignal x hbound hmem, signalAlive, hname]
    simp [show S.member s.world n = some x from hx]

end

/-! ## Steps -/

section
variable {Name World Error : Type} [DecidableEq Name] {S : Source Name World Error}
  {s s' : Listeners Name World}

/-- All that a step can do. -/
inductive Outcome (S : Source Name World Error) (s : Listeners Name World) :
    Request Name → Listeners Name World → Prop where
  | once (n : Name) (h : ObjRef) (t : State Name World)
      (heff : Effect S s.base (.listen n h) t) (hmade : ∃ x, For t x h s.base.handleCount) :
      Outcome S s (.once n h) {s with
        base := t
        listenHandle := Function.update s.listenHandle h (some s.base.handleCount)}
  | plain (a : Action Name) (t : State Name World) (heff : Effect S s.base a t) :
      Outcome S s (.act a) {s with base := t}
  | wrapper (e : Emission) (h : ObjRef) (rest : List ObjRef) (stack : List Frame) (k : HandleId)
      (t u : State Name World) (hstack : s.base.stack = .emission e :: stack)
      (hrest : e.rest = h :: rest) (hk : s.listenHandle h = some k)
      (ht : t = {s.base with stack := .emission (e.call h rest) :: stack})
      (heff : Effect S s.base .callNext t)
      (hu : u = diListenHandleStop S k t ∨ Effect S (diListenHandleStop S k t) .endRemoval u) :
      Outcome S s (.act .callNext)
        {s with base := u, calls := Function.update s.calls h (s.calls h + 1)}

theorem callOnce_base {h : ObjRef} {k : HandleId}
    (hcall : callLuaSignalHandlerOnce S h k s = .ok s') :
    ∃ u, (u = diListenHandleStop S k s.base ∨
        Effect S (diListenHandleStop S k s.base) .endRemoval u) ∧
      s' = {s with base := u, calls := Function.update s.calls h (s.calls h + 1)} := by
  unfold callLuaSignalHandlerOnce at hcall
  dsimp only at hcall
  split at hcall
  · rename_i x stack hstack
    cases hend : Signal.endRemoval S x {diListenHandleStop S k s.base with stack := stack} with
    | error e =>
        rw [hend] at hcall
        cases hcall
    | ok u =>
        rw [hend] at hcall
        cases hcall
        exact ⟨u, .inr (.finished x stack hstack hend), rfl⟩
  · cases hcall
    exact ⟨_, .inl rfl, rfl⟩

theorem exec_outcome {r : Request Name} (hstep : exec S r s = some (.ok s')) :
    Outcome S s r s' := by
  cases r with
  | once n h =>
      simp only [exec, Option.map_eq_some_iff] at hstep
      obtain ⟨r, hr, hmap⟩ := hstep
      cases r with
      | error e => cases hmap
      | ok t =>
          cases hmap
          exact .once n h t (step_effect hr) (listen_makes hr)
  | act a =>
      simp only [exec, Option.map_eq_some_iff] at hstep
      obtain ⟨r, hr, hbind⟩ := hstep
      cases r with
      | error e => cases hbind
      | ok t =>
          have heff : Effect S s.base a t := step_effect hr
          simp only [Except.bind] at hbind
          split at hbind
          · rename_i h k hnext
            simp only [nextWrapper, Option.bind_eq_some_iff, Option.map_eq_some_iff,
              Prod.mk.injEq] at hnext
            obtain ⟨f, hf, m, hm, rfl, rfl⟩ := hnext
            cases a with
            | callNext =>
                obtain ⟨e, g, rest, stack, hstack, hrest, hrun, rfl⟩ := callNext_cases hr
                have hfg : g = f := by simpa [nextHandler, hstack, hrest] using hf
                subst hfg
                obtain ⟨u, hu, rfl⟩ := callOnce_base hbind
                exact .wrapper e g rest stack m _ u hstack hrest hm rfl heff hu
            | _ => cases hf
          · cases hbind
            exact .plain a t heff

/-- What holds in every run. -/
structure Sound (S : Source Name World Error) (s : Listeners Name World) : Prop where
  traced : Traced S s.base
  wrapped : Wrapped s.base s.listenHandle
  unused : ∀ h, s.listenHandle h = none → s.calls h = 0

/-- What a wrapper that is called leaves behind. -/
structure Spent (S : Source Name World Error) (s : Listeners Name World) (h : ObjRef)
    (u : State Name World) : Prop where
  traced : Traced S u
  wrapped : Wrapped u s.listenHandle
  detached : Detached S u h
  called : pending h u + 1 ≤ pending h s.base
  others : ∀ f, pending f u ≤ pending f s.base
  kept : ∀ f, Detached S s.base f → Detached S u f

theorem spent_of_wrapper (hS : Lawful S) (hs : Sound S s) {e : Emission} {h : ObjRef}
    {rest : List ObjRef} {stack : List Frame} {k : HandleId} {t u : State Name World}
    (hstack : s.base.stack = .emission e :: stack) (hrest : e.rest = h :: rest)
    (hk : s.listenHandle h = some k)
    (ht : t = {s.base with stack := .emission (e.call h rest) :: stack})
    (heff : Effect S s.base .callNext t)
    (hu : u = diListenHandleStop S k t ∨ Effect S (diListenHandleStop S k t) .endRemoval u) :
    Spent S s h u := by
  have hcall : pending h t + 1 = pending h s.base := by
    rw [ht]
    exact pending_call hstack hrest (hs.traced.restNodup e (by simp [hstack]))
  have hless : ∀ {s₁ s₂ : State Name World} {a : Action Name}, Effect S s₁ a s₂ →
      (∀ n, a ≠ .emit n) → ∀ f, pending f s₂ ≤ pending f s₁ := by
    intro s₁ s₂ a hstep ha f
    exact (effect_pending hstep f).resolve_right fun ⟨n, _, hn, _⟩ => ha n hn
  have htraced := hs.traced.effect hS heff trivial
  have hwrapped := hs.wrapped.effect heff nofun
  -- the three parts of the call: the emission moves on, the handle is stopped, the removal ends
  have hstop : Effect S t (.stop k) (diListenHandleStop S k t) :=
    stop_effect (hwrapped.handle h k hk).1 rfl rfl (.refl t) rfl
  have hstopped : Spent S s h (diListenHandleStop S k t) := by
    refine ⟨htraced.effect hS hstop trivial, hwrapped.effect hstop nofun,
      detached_stop htraced hwrapped hk, ?_, ?_, ?_⟩
    · rw [← hcall]
      exact Nat.succ_le_succ (hless hstop nofun h)
    · exact fun f => (hless hstop nofun f).trans (hless heff nofun f)
    · exact fun f hf => (hf.effect hS hs.traced heff trivial nofun).effect hS htraced hstop
        trivial nofun
  rcases hu with rfl | hend
  · exact hstopped
  · exact ⟨hstopped.traced.effect hS hend trivial, hstopped.wrapped.effect hend nofun,
      hstopped.detached.effect hS hstopped.traced hend trivial nofun,
      (Nat.succ_le_succ (hless hend nofun h)).trans hstopped.called,
      fun f => (hless hend nofun f).trans (hstopped.others f),
      fun f hf => (hstopped.kept f hf).effect hS hstopped.traced hend trivial nofun⟩

theorem Sound.act (hS : Lawful S) (h : Sound S s) {r : Request Name} (hr : Permitted s r)
    (hout : Outcome S s r s') : Sound S s' := by
  cases hout with
  | once n f t heff hmade =>
      refine ⟨h.traced.effect hS heff trivial, h.wrapped.once heff hmade hr.1 hr.2, ?_⟩
      intro g hg
      by_cases hgf : g = f
      · subst hgf
        simp at hg
      · simp only [Function.update_of_ne hgf] at hg
        exact h.unused g hg
  | plain a t heff =>
      exact ⟨h.traced.effect hS heff hr.1, h.wrapped.effect heff hr.2, h.unused⟩
  | wrapper e f rest stack k t u hstack hrest hk ht heff hu =>
      have hspent := spent_of_wrapper hS h hstack hrest hk ht heff hu
      refine ⟨hspent.traced, hspent.wrapped, ?_⟩
      intro g hg
      have hgf : g ≠ f := by
        rintro rfl
        cases hg.symm.trans hk
      simp only [Function.update_of_ne hgf]
      exact h.unused g hg

variable {Env : State Name World → World → Prop}

omit [DecidableEq Name] in
theorem Sound.env (hEnv : Fading S Env) (h : Sound S s) {w : World} (hw : Env s.base w) :
    Sound S {s with base := {s.base with world := w}} := by
  refine ⟨{h.traced with member := ?_}, ⟨h.wrapped.handle, h.wrapped.only⟩, h.unused⟩
  intro n x hx
  rcases hEnv.member hw n with hsame | hnone
  · exact h.traced.member n x (hsame ▸ hx)
  · cases hnone.symm.trans hx

omit [DecidableEq Name] in
theorem Detached.env (hEnv : Fading S Env) {h : ObjRef} (hd : Detached S s.base h) {w : World}
    (hw : Env s.base w) : Detached S {s.base with world := w} h := by
  intro n x hx
  rcases hEnv.member hw n with hsame | hnone
  · exact hd n x (hsame ▸ hx)
  · cases hnone.symm.trans hx

theorem run_sound {P : Listeners Name World → Request Name → Prop} (hS : Lawful S)
    (hEnv : Fading S Env) (hP : ∀ s r, P s r → Permitted s r) (h : Sound S s)
    (hrun : ReflTransGen (Move S P Env) s s') : Sound S s' := by
  induction hrun with
  | refl => exact h
  | tail _ hmove ih =>
      cases hmove with
      | act r hr hstep => exact ih.act hS (hP _ r hr) (exec_outcome hstep)
      | env w hw => exact ih.env hEnv hw

/-! ## A handle that is stopped in time -/

/-- The function of the wrapper has not been called and will not be. -/
structure Silent (S : Source Name World Error) (s : Listeners Name World) (h : ObjRef) :
    Prop where
  wrapper : s.listenHandle h ≠ none
  calls : s.calls h = 0
  pending : pending h s.base = 0
  detached : Detached S s.base h

theorem Silent.pending_effect {h : ObjRef} (hs : Silent S s h) {a : Action Name}
    {t : State Name World} (heff : Effect S s.base a t) : OnceListeners.pending h t = 0 := by
  rcases effect_pending heff h with hle | ⟨n, x, -, hx, hmem, -⟩
  · exact Nat.le_zero.mp (hs.pending ▸ hle)
  · exact absurd hmem (hs.detached n x hx)

theorem Silent.act (hS : Lawful S) (hsound : Sound S s) {h : ObjRef} (hs : Silent S s h)
    {r : Request Name} (hr : Permitted s r) (hout : Outcome S s r s') : Silent S s' h := by
  cases hout with
  | once n f t heff hmade =>
      have hne : h ≠ f := by
        rintro rfl
        exact hs.wrapper hr.1
      refine ⟨?_, hs.calls, hs.pending_effect heff, hs.detached.effect hS hsound.traced heff trivial ?_⟩
      · simp only [Function.update_of_ne hne]
        exact hs.wrapper
      · intro hf
        cases hf
        exact hne rfl
  | plain a t heff =>
      refine ⟨hs.wrapper, hs.calls, hs.pending_effect heff, ?_⟩
      exact hs.detached.effect hS hsound.traced heff hr.1 fun hf => hs.wrapper (hr.2 h hf)
  | wrapper e f rest stack k t u hstack hrest hk ht heff hu =>
      have hspent := spent_of_wrapper hS hsound hstack hrest hk ht heff hu
      have hne : h ≠ f := by
        rintro rfl
        have hcalled := hspent.called
        rw [hs.pending] at hcalled
        omega
      refine ⟨hs.wrapper, ?_, Nat.le_zero.mp (hs.pending ▸ hspent.others h),
        hspent.kept h hs.detached⟩
      simp only [Function.update_of_ne hne]
      exact hs.calls

/-- The handle is stopped before an emission has copied the wrapper. -/
theorem silent_stop (hsound : Sound S s) {h : ObjRef} {k : HandleId}
    (hk : s.listenHandle h = some k) (hcalls : s.calls h = 0) (hpending : pending h s.base = 0)
    (hstop : exec S (.act (.stop k)) s = some (.ok s')) : Silent S s' h := by
  have hlt := (hsound.wrapped.handle h k hk).1
  simp only [exec, Signal.exec, Option.map_eq_some_iff, Option.ite_none_right_eq_some] at hstop
  obtain ⟨r, ⟨-, hr⟩, hbind⟩ := hstop
  cases hr
  cases hbind
  refine ⟨by simp [hk], hcalls, ?_, detached_stop hsound.traced hsound.wrapped hk⟩
  have heff : Effect S s.base (.stop k) (diListenHandleStop S k s.base) :=
    stop_effect hlt rfl rfl (.refl _) rfl
  rcases effect_pending heff h with hle | ⟨n, x, hn, -⟩
  · exact Nat.le_zero.mp (hpending ▸ hle)
  · cases hn

theorem run_silent (hS : Lawful S) (hEnv : Fading S Env) {h : ObjRef} (hsound : Sound S s)
    (hs : Silent S s h) (hrun : ReflTransGen (Move S Permitted Env) s s') : Silent S s' h := by
  induction hrun with
  | refl => exact hs
  | tail hpre hmove ih =>
      have hsound' := run_sound hS hEnv (fun _ _ hr => hr) hsound hpre
      cases hmove with
      | act r hr hstep => exact ih.act hS hsound' hr (exec_outcome hstep)
      | env w hw => exact ⟨ih.wrapper, ih.calls, ih.pending, ih.detached.env hEnv hw⟩

/-! ## Nested emissions -/

/-- The signal that a request emits. -/
def emits : Request Name → Option Name
  | .act (.emit n) => some n
  | _ => none

/-- No emission copies a wrapper that another emission has still to call. -/
def CopiesOnce (S : Source Name World Error) (s : Listeners Name World) (r : Request Name) :
    Prop :=
  ∀ n ∈ emits r, ∀ x ∈ S.member s.base.world n, ∀ h ∈ (s.base.signals x).handlers,
    s.listenHandle h ≠ none → pending h s.base = 0

/-- A wrapper has been called, or one emission may still call it, or none has copied it. -/
def AtMostOnce (S : Source Name World Error) (s : Listeners Name World) : Prop :=
  ∀ h, s.listenHandle h ≠ none →
    s.calls h + pending h s.base ≤ 1 ∧ (s.calls h ≠ 0 → Detached S s.base h)

theorem AtMostOnce.effect (hS : Lawful S) (hsound : Sound S s) (h : AtMostOnce S s)
    {a : Action Name} {t : State Name World} (heff : Effect S s.base a t) (ha : ByHandle a)
    (hcopies : CopiesOnce S s (.act a)) {f : ObjRef} (hf : s.listenHandle f ≠ none)
    (hreg : f ∉ registers a) :
    s.calls f + pending f t ≤ 1 ∧ (s.calls f ≠ 0 → Detached S t f) := by
  obtain ⟨hone, hdetached⟩ := h f hf
  refine ⟨?_, fun hcalled => (hdetached hcalled).effect hS hsound.traced heff ha hreg⟩
  rcases effect_pending heff f with hle | ⟨n, x, rfl, hx, hmem, hnext⟩
  · omega
  · -- an emission copies the wrapper, so that it has not been called
    have hnone : pending f s.base = 0 := hcopies n rfl x hx f hmem hf
    have huncalled : s.calls f = 0 := by
      by_contra hcalled
      exact hdetached hcalled n x hx hmem
    omega

theorem AtMostOnce.act (hS : Lawful S) (hsound : Sound S s) (h : AtMostOnce S s)
    {r : Request Name} (hr : Permitted s r) (hcopies : CopiesOnce S s r)
    (hout : Outcome S s r s') : AtMostOnce S s' := by
  cases hout with
  | once n f t heff hmade =>
      intro g hg
      by_cases hgf : g = f
      · subst hgf
        have hcalls : s.calls g = 0 := hsound.unused g hr.1
        have hnone : pending g t = 0 := by
          rcases effect_pending heff g with hle | ⟨m, x, hm, -⟩
          · exact Nat.le_zero.mp (hsound.traced.pending_eq_zero hr.2 ▸ hle)
          · cases hm
        simp only [hcalls, hnone]
        exact ⟨Nat.zero_le 1, fun hcalled => absurd rfl hcalled⟩
      · simp only [Function.update_of_ne hgf] at hg
        exact h.effect hS hsound heff trivial nofun hg fun hreg => hgf (Option.some.inj hreg).symm
  | plain a t heff =>
      intro g hg
      exact h.effect hS hsound heff hr.1 hcopies hg fun hreg => hg (hr.2 g hreg)
  | wrapper e f rest stack k t u hstack hrest hk ht heff hu =>
      have hspent := spent_of_wrapper hS hsound hstack hrest hk ht heff hu
      intro g hg
      by_cases hgf : g = f
      · subst hgf
        have hone := (h g hg).1
        have hcalled := hspent.called
        simp only [Function.update_self]
        exact ⟨by omega, fun _ => hspent.detached⟩
      · obtain ⟨hone, hdetached⟩ := h g hg
        have hothers := hspent.others g
        simp only [Function.update_of_ne hgf]
        exact ⟨by omega, fun hcalled => hspent.kept g (hdetached hcalled)⟩

/-- The state of a new object. -/
def start (w : World) (signals : SignalId → SignalObject Name) : Listeners Name World where
  base := {world := w, signals := signals}

omit [DecidableEq Name] in
theorem sound_start {w : World} {signals : SignalId → SignalObject Name}
    (hw : ∀ n, S.member w n = none) : Sound S (start w signals) where
  traced := traced_init hw
  wrapped := ⟨nofun, nofun⟩
  unused _ _ := rfl

theorem run_atMostOnce (hS : Lawful S) (hEnv : Fading S Env) {w : World}
    {signals : SignalId → SignalObject Name} (hw : ∀ n, S.member w n = none)
    (hrun : ReflTransGen (Move S (fun s r => Permitted s r ∧ CopiesOnce S s r) Env)
      (start w signals) s) : AtMostOnce S s := by
  induction hrun with
  | refl => exact fun h hh => absurd rfl hh
  | tail hpre hmove ih =>
      have hsound := run_sound hS hEnv (fun _ _ hr => hr.1) (sound_start hw) hpre
      cases hmove with
      | act r hr hstep => exact ih.act hS hsound hr.1 hr.2 (exec_outcome hstep)
      | env w hw =>
          exact fun h hh => ⟨(ih h hh).1, fun hcalled => ((ih h hh).2 hcalled).env hEnv hw⟩

/-- While no emission copies a wrapper that another one has still to call, the function given to
`once` is called at most once. In every run it is not called when its handle is stopped before
an emission has copied the wrapper. -/
theorem once_called_at_most_once (hS : Lawful S) (hEnv : Fading S Env) (w : World)
    (signals : SignalId → SignalObject Name) (hw : ∀ n, S.member w n = none) :
    (∀ s, ReflTransGen (Move S (fun s r => Permitted s r ∧ CopiesOnce S s r) Env)
      (start w signals) s → ∀ h, s.calls h ≤ 1) ∧
    (∀ s t s' h k, ReflTransGen (Move S Permitted Env) (start w signals) s →
      s.listenHandle h = some k → s.calls h = 0 → pending h s.base = 0 →
      exec S (.act (.stop k)) s = some (.ok t) → ReflTransGen (Move S Permitted Env) t s' →
      s'.calls h = 0) := by
  constructor
  · intro s hrun h
    have hsound := run_sound hS hEnv (fun _ _ hr => hr.1) (sound_start hw) hrun
    cases hh : s.listenHandle h with
    | none =>
        rw [hsound.unused h hh]
        exact Nat.zero_le 1
    | some k =>
        have hone := (run_atMostOnce hS hEnv hw hrun h (by simp [hh])).1
        omega
  · intro s t s' h k hrun hk hcalls hpending hstop hrest
    have hsound := run_sound hS hEnv (fun _ _ hr => hr) (sound_start hw) hrun
    have hpermitted : Permitted s (.act (.stop k) : Request Name) := ⟨trivial, nofun⟩
    have hsound' := hsound.act hS hpermitted (exec_outcome hstop)
    have hsilent := silent_stop hsound hk hcalls hpending hstop
    exact (run_silent hS hEnv hsound' hsilent hrest).calls

/-! ## Runs given by their requests -/

/-- The state after a request; a request that cannot be met does nothing. -/
def next (S : Source Name World Error) (s : Listeners Name World) (r : Request Name) :
    Listeners Name World :=
  match exec S r s with
  | some (.ok s') => s'
  | _ => s

/-- Every request of the list is one that `P` allows. -/
def Allowed (S : Source Name World Error) (P : Listeners Name World → Request Name → Prop) :
    Listeners Name World → List (Request Name) → Prop
  | _, [] => True
  | s, r :: l => P s r ∧ Allowed S P (next S s r) l

theorem reaches_next {P : Listeners Name World → Request Name → Prop} (l : List (Request Name))
    (h : Allowed S P s l) : ReflTransGen (Move S P Env) s (l.foldl (next S) s) := by
  induction l generalizing s with
  | nil => exact .refl
  | cons r l ih =>
      refine .trans ?_ (ih h.2)
      unfold next
      split
      · rename_i s' hs'
        exact .single (.act r h.1 hs')
      · exact .refl

instance decidableAllowed (S : Source Name World Error)
    (P : Listeners Name World → Request Name → Prop) [∀ s r, Decidable (P s r)] :
    ∀ s l, Decidable (Allowed S P s l)
  | _, [] => .isTrue trivial
  | s, r :: l =>
      have := decidableAllowed S P (next S s r) l
      inferInstanceAs (Decidable (P s r ∧ Allowed S P (next S s r) l))

instance decidablePermitted (s : Listeners Name World) : ∀ r, Decidable (Permitted s r)
  | .once _ h => inferInstanceAs (Decidable (s.listenHandle h = none ∧
      ∀ k, k < s.base.handleCount → (s.base.handles k).weakHandler ≠ h))
  | .act a => inferInstanceAs (Decidable (ByHandle a ∧
      ∀ h ∈ registers a, s.listenHandle h = none))

instance (s : Listeners Name World) (r : Request Name) : Decidable (CopiesOnce S s r) :=
  inferInstanceAs (Decidable (∀ n ∈ emits r, ∀ x ∈ S.member s.base.world n,
    ∀ h ∈ (s.base.signals x).handlers, s.listenHandle h ≠ none → pending h s.base = 0))

end

/-- An object with no signals. -/
def newListeners : Listeners ℕ (PlainObject ℕ) := start {} fun _ => {signalName := 0}

/-- A function given to `once` emits the signal again. -/
def emitsAgain : List (Request ℕ) :=
  [.once 0 6, .act (.emit 0), .act .callNext, .act (.emit 0), .act .handlerReturns]

/-- A handle is stopped before its signal is emitted. -/
def stopsFirst : List (Request ℕ) := [.once 0 6, .act (.listen 0 5)]

theorem once_called_emitsAgain :
    (emitsAgain.foldl (next (plain ℕ)) newListeners).calls 6 = 1 ∧
    (emitsAgain.foldl (next (plain ℕ)) newListeners).calls 6 ≤ 1 ∧
    ([.act (.emit 0), .act .callNext].foldl (next (plain ℕ))
      (next (plain ℕ) (stopsFirst.foldl (next (plain ℕ)) newListeners) (.act (.stop 0)))).calls 6 =
        0 := by
  have honce := once_called_at_most_once plain_lawful plainDies_fading {}
    (fun _ => {signalName := 0}) (fun _ => rfl)
  refine ⟨by decide, honce.1 _ (reaches_next emitsAgain (by decide)) 6, ?_⟩
  exact honce.2 _ _ _ 6 0 (reaches_next stopsFirst (by decide)) (by decide) (by decide) (by decide)
    rfl (reaches_next [.act (.emit 0), .act .callNext] (by decide))

/-- The function given to `on` emits the signal again, which calls the wrapper, before the first
emission calls it. -/
def nestedEmission : List (Request ℕ) :=
  [.act (.listen 0 5), .once 0 6, .act (.emit 0), .act .callNext, .act (.emit 0), .act .callNext,
    .act .handlerReturns, .act .callNext, .act .handlerReturns, .act .endEmission,
    .act .handlerReturns, .act .callNext]

/-- The function given to `once` is called twice. -/
theorem once_called_twice :
    ReflTransGen (Move (plain ℕ) Permitted PlainDies) newListeners
      (nestedEmission.foldl (next (plain ℕ)) newListeners) ∧
    (nestedEmission.foldl (next (plain ℕ)) newListeners).calls 6 = 2 :=
  ⟨reaches_next _ (by decide), by decide⟩

end Deai.OnceListeners
