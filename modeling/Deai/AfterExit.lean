import Deai.Watchers

/-!
# Listeners after `di:exit`

When `di_prepare_exit` has finalized the roots object, a script may go on until it returns to
the main loop. A timer copes with a root that cannot be added. The other event sources fail a
check when they need a root, and a child process also when it gives its root back.
-/
namespace Deai.AfterExit
open Signal SignalRuns EventSources IoEvents Watchers Relation

/-! ## Runs without the calls that need the roots -/

section
variable {Name World : Type} {K : Type}

/-- The setter is called for a signal only as `Q` allows, and the deleter only as `R` allows. -/
def Calm (S : Source Name World Fault) (Q R : Name → World → Prop) (s : State Name World) :
    Action Name → Prop
  | .listen n _ => S.member s.world n = none → Q n s.world
  | .endRemoval => ∀ x stack, s.stack = .removal x :: stack → (s.signals x).nhandlers = 1 →
      R (s.signals x).signalName s.world
  | _ => True

/-- The setter and the deleter do not fail as far as `Q` and `R` allow them, and nothing
starts a watcher. -/
structure Harmless (S : Source Name World Fault) (Q R : Name → World → Prop)
    (Env : State Name World → World → Prop) (I : World → Prop) (active : World → K → Bool) : Prop where
  set : ∀ {n x w}, I w → S.alive w → S.member w n = none → Q n w →
    ∃ w', S.set n x w = .ok w' ∧ I w' ∧ ∀ i, active w' i → active w i
  delete : ∀ {n w}, I w → S.alive w → R n w →
    ∃ w', S.delete n w = .ok w' ∧ I w' ∧ ∀ i, active w' i → active w i
  env : ∀ {s w}, I s.world → Env s w → I w ∧ ∀ i, active w i → active s.world i

variable [DecidableEq Name] {S : Source Name World Fault} {Q R : Name → World → Prop}
  {Env : State Name World → World → Prop} {I : World → Prop} {active : World → K → Bool}
  {s₀ s s' : State Name World}

theorem Harmless.move (hH : Harmless S Q R Env I active) (h : I s.world)
    (hmove : SignalRuns.Move S (Calm S Q R) Env s s') :
    I s'.world ∧ ∀ i, active s'.world i → active s.world i := by
  cases hmove with
  | env w hw => exact hH.env h hw
  | act a ha hstep =>
      have hhook := step_world hstep
      generalize s'.world = w at hhook ⊢
      cases hhook with
      | same hw =>
          rw [hw]
          exact ⟨h, fun _ => id⟩
      | set n f halive hn hset =>
          obtain ⟨w', hw', hres⟩ := hH.set (x := s.signalCount) h halive hn (ha hn)
          cases hset.symm.trans hw'
          exact hres
      | delete x stack hstack halive hone hdel =>
          obtain ⟨w', hw', hres⟩ := hH.delete h halive (ha x stack hstack hone)
          cases hdel.symm.trans hw'
          exact hres

theorem Harmless.run (hH : Harmless S Q R Env I active) (h : I s₀.world)
    (hrun : ReflTransGen (SignalRuns.Move S (Calm S Q R) Env) s₀ s) :
    I s.world ∧ ∀ i, active s.world i → active s₀.world i := by
  induction hrun with
  | refl => exact ⟨h, fun _ => id⟩
  | tail _ hmove ih =>
      obtain ⟨hI, hactive⟩ := hH.move ih.1 hmove
      exact ⟨hI, fun i hi => ih.2 i (hactive i hi)⟩

theorem Harmless.exec_ok (hH : Harmless S Q R Env I active) (h : I s.world) {a : Action Name}
    (ha : Calm S Q R s a) (e : Fault) : exec S a s ≠ some (.error (.source e)) := by
  intro hfails
  cases exec_fails hfails with
  | set n f _ halive hx he =>
      obtain ⟨w', hw', -⟩ := hH.set (x := s.signalCount) h halive hx (ha hx)
      cases he.symm.trans hw'
  | delete x stack _ hstack halive hone he =>
      obtain ⟨w', hw', -⟩ := hH.delete h halive (ha x stack hstack hone)
      cases he.symm.trans hw'

end

/-! ## File descriptor events -/

section
variable {m : Bool} {f : IoEvents} {w w' : IoEv}

/-- A signal that the object holds has its flag, and the object is running. -/
def Lit (w : IoEv) : Prop :=
  ∀ n, w.signals n ≠ none → w.events.flag n = true ∧ w.running = true

theorem Lit.modify (hs : Sound w) (hd : w.life.destroyed = false) (h : Lit w) {n : IoSignal}
    {y : Option SignalId} (hw : diModifyIoev m (w.events.setFlag y.isSome n)
      {w with signals := Function.update w.signals n y} = .ok w') : Lit w' := by
  have hsound := hs.setSignals hd (Function.update w.signals n y)
  obtain ⟨hflag, hrunning⟩ := hsound.diModifyIoev_flags hd hw
  have hsignals : w'.signals = Function.update w.signals n y := (diModifyIoev_frame hw).signals
  intro n' hn'
  rw [hsignals] at hn'
  have hset : (w.events.setFlag y.isSome n).flag n' = true := by
    rw [flag_setFlag]
    by_cases heq : n' = n
    · subst heq
      simpa [Option.isSome_iff_ne_none] using hn'
    · rw [if_neg heq]
      rw [Function.update_of_ne heq] at hn'
      exact (h n' hn').1
  exact ⟨(hflag n').trans hset, hrunning.mpr (flag_ne_zero hset)⟩

theorem Lit.set (hs : Sound w) (hd : w.life.destroyed = false) (h : Lit w) {n : IoSignal}
    {x : SignalId} (hn : w.signals n = none) (hw : (ioev m).set n x w = .ok w') : Lit w' := by
  rw [ioev_set_eq hn] at hw
  exact h.modify hs hd (y := some x) hw

theorem Lit.delete (hs : Sound w) (hd : w.life.destroyed = false) (h : Lit w) {n : IoSignal}
    (hw : (ioev m).delete n w = .ok w') : Lit w' := by
  cases hn : w.signals n with
  | none =>
      rw [ioev_delete_none hn] at hw
      cases hw
      exact h
  | some x =>
      rw [ioev_delete_eq hn] at hw
      exact h.modify hs hd (y := none) hw

theorem Lit.destroy (hw : w.destroy m = .ok w') : Lit w' :=
  fun n hn => absurd ((destroy_gone hw).2.1 n) hn

theorem Lit.move {s s' : IoState} (hmove : IoMove m s s') (hs : Sound s.world) (h : Lit s.world) :
    Lit s'.world := by
  cases hmove with
  | act a hstep =>
      have hhook := step_world hstep
      generalize s'.world = w at hhook ⊢
      cases hhook with
      | same hw => rwa [hw]
      | set n f halive hn hset => exact h.set hs (IoEvents.not_destroyed_of_alive halive) hn hset
      | delete x stack hstack halive hone hdel =>
          exact h.delete hs (IoEvents.not_destroyed_of_alive halive) hdel
  | env w hw =>
      cases hw with
      | life l hl => exact h
      | destroy w href hold hw => exact Lit.destroy hw
  | drain => exact h
  | exit hdrained => exact h

theorem run_lit {exited : Bool} {signals : SignalId → SignalObject IoSignal} {s : IoState}
    (hrun : ReflTransGen (IoMove m) {world := {life := .new exited}, signals := signals} s) :
    Sound s.world ∧ Lit s.world := by
  induction hrun with
  | refl => exact ⟨sound_init id, fun n hn => absurd rfl hn⟩
  | tail _ hmove ih => exact ⟨hmove.sound ih.1, Lit.move hmove ih.1 ih.2⟩

/-- After `di:exit`. -/
structure IoExited (w : IoEv) : Prop where
  sound : Sound w
  lit : Lit w
  exited : w.life.exited = true

theorem ioExited_harmless : Harmless (ioev m) (fun _ w => w.running = true) (fun _ _ => True)
    (IoEnv m) IoExited (fun w (_ : Unit) => w.active) where
  set := by
    intro n x w h halive hn hrun
    have hd := IoEvents.not_destroyed_of_alive halive
    obtain ⟨w', hw', hsound⟩ := h.sound.set (m := m) (x := x) hd hn (.inr hrun)
    refine ⟨w', hw', ⟨hsound, h.lit.set h.sound hd hn hw', ?_⟩, fun _ _ => h.sound.active.trans hrun⟩
    rw [ioev_set_eq hn] at hw'
    exact (diModifyIoev_frame hw').exited.trans h.exited
  delete := by
    intro n w h halive _
    have hd := IoEvents.not_destroyed_of_alive halive
    cases hn : w.signals n with
    | none => exact ⟨w, ioev_delete_none hn, h, fun _ => id⟩
    | some x =>
        have hrun := (h.lit n (by simp [hn])).2
        obtain ⟨w', hw', hsound⟩ := h.sound.delete (m := m) (n := n) hd (.inr (.inl hrun))
        refine ⟨w', hw', ⟨hsound, h.lit.delete h.sound hd hw', ?_⟩,
          fun _ _ => h.sound.active.trans hrun⟩
        rw [ioev_delete_eq hn] at hw'
        exact (diModifyIoev_frame hw').exited.trans h.exited
  env := by
    intro s w h hw
    cases hw with
    | life l hl =>
        refine ⟨⟨h.sound.lifeStep hl, h.lit, ?_⟩, fun _ => id⟩
        cases hl <;> exact h.exited
    | destroy w href hold hw =>
        obtain ⟨w', hw', hsound⟩ := h.sound.destroy (m := m) href hold
        cases hw.symm.trans hw'
        have hstopped := (hsound.destroyed (destroy_gone hw).1).1
        refine ⟨⟨hsound, Lit.destroy hw, (destroy_gone hw).2.2.2.trans h.exited⟩, ?_⟩
        intro _ hactive
        cases (hsound.active.trans hstopped).symm.trans hactive

end

/-! ## Timers and periodic timers -/

inductive TimerEnv (s : Timers.TimerState) : Timer → Prop where
  | life (l : Life) (hl : LifeStep s.world.life l) : TimerEnv s {s.world with life := l}
  | destroy (w : Timer) (href : s.world.life.referenced = false)
      (hold : s.world.life.destroyed = false) (hw : s.world.destroy = .ok w) : TimerEnv s w

structure TimerExited (w : Timer) : Prop where
  invariant : Timers.Invariant w
  exited : w.life.exited = true

theorem timerExited_harmless : Harmless timer (fun _ _ => True) (fun _ _ => True) TimerEnv
    TimerExited (fun w (_ : Unit) => w.armed) where
  set := by
    intro n x w h halive hn _
    obtain ⟨w', hw', h', hexited, harmed⟩ :=
      Timers.add_spec h.invariant (Timers.not_destroyed_of_alive halive) hn x
    exact ⟨w', hw', ⟨h', hexited.trans h.exited⟩, fun _ => harmed h.exited⟩
  delete := by
    intro n w h halive _
    obtain ⟨w', hw', h', -, -, -, -, hexited, harmed⟩ :=
      Timers.delete_spec h.invariant (Timers.not_destroyed_of_alive halive)
    exact ⟨w', hw', ⟨h', hexited.trans h.exited⟩, fun _ => harmed⟩
  env := by
    intro s w h hw
    cases hw with
    | life l hl =>
        refine ⟨⟨h.invariant.lifeStep hl, ?_⟩, fun _ => id⟩
        cases hl <;> exact h.exited
    | destroy w href hold hw =>
        obtain ⟨w₁, hw₁, h₁, -, -, -, -, hexited, harmed⟩ := Timers.delete_spec h.invariant hold
        obtain ⟨w', hw', h'⟩ := Timers.destroy_spec h.invariant href hold
        cases hw.symm.trans hw'
        rw [Timer.destroy, hw₁] at hw
        cases hw
        exact ⟨⟨h', hexited.trans h.exited⟩, fun _ => harmed⟩

inductive PeriodicEnv (s : PeriodicState) : Periodic → Prop where
  | life (l : Life) (hl : LifeStep s.world.life l) : PeriodicEnv s {s.world with life := l}
  | destroy (w : Periodic) (href : s.world.life.referenced = false)
      (hold : s.world.life.destroyed = false) (hw : s.world.destroy = .ok w) : PeriodicEnv s w

theorem periodicExited_harmless : Harmless periodic (fun _ _ => False) (fun _ _ => True) PeriodicEnv
    (fun _ => True) (fun w (_ : Unit) => w.active) where
  set := by
    intro n x w _ _ _ hfalse
    exact hfalse.elim
  delete := by
    intro n w _ _ _
    simp only [periodic, diPeriodicSignalDeleter]
    cases w.signal with
    | none => exact ⟨w, rfl, trivial, fun _ => id⟩
    | some x => exact ⟨_, rfl, trivial, fun _ => id⟩
  env := by
    intro s w _ hw
    refine ⟨trivial, fun _ hactive => ?_⟩
    cases hw with
    | life l hl => exact hactive
    | destroy w href hold hw =>
        simp only [Periodic.destroy, diPeriodicSignalDeleter] at hw
        split at hw <;> cases hw <;> exact hactive

/-! ## Child processes -/

section
variable {m : Bool} {w w' : Child}

/-- An output that has its signal has its listen handle, and its file descriptor event is in
order. -/
structure OutputSound (drained : Bool) (o : Output) : Prop where
  handle : o.signal.isSome → o.listenHandle = true
  fdevent : ∀ ev, o.fdevent = some ev →
    Sound ev ∧ Lit ev ∧ ev.life.destroyed = false ∧ ev.life.drained = drained

/-- An output without a file descriptor event. -/
theorem OutputSound.of_none {d : Bool} {o : Output} (hhandle : o.signal.isSome → o.listenHandle = true)
    (hev : o.fdevent = none) : OutputSound d o := by
  refine ⟨hhandle, fun ev hev' => ?_⟩
  rw [hev] at hev'
  cases hev'

structure OutputsSound (w : Child) : Prop where
  output : ∀ i, OutputSound w.life.drained (w.outputs i)
  exited : w.life.exited → w.life.drained

/-- The watchers of a child process: its own and those of its outputs. -/
def watching (w : Child) : Option OutputId → Bool
  | none => w.active
  | some i => (w.outputs i).fdevent.any (·.active)

theorem OutputsSound.setOutput (h : OutputsSound w) {i : OutputId} {o : Output}
    (ho : OutputSound w.life.drained o) : OutputsSound (w.setOutput i o) := by
  refine ⟨fun j => ?_, h.exited⟩
  by_cases hj : j = i
  · subst hj
    simpa [Child.setOutput] using ho
  · simpa [Child.setOutput, hj] using h.output j

theorem setOutput_setOutput (i : OutputId) (o o' : Output) :
    (w.setOutput i o).setOutput i o' = w.setOutput i o' := by
  simp [Child.setOutput]

theorem OutputsSound.newOutputSignal (h : OutputsSound w) (hd : w.life.destroyed = false)
    {i : OutputId} {x : SignalId} (hw : newOutputSignal m i x w = .ok w') : OutputsSound w' := by
  unfold EventSources.newOutputSignal at hw
  split at hw
  · cases hw
    exact h
  · split at hw
    · cases hw
      exact h
    · rw [diChildStartOutputListener, if_neg (by simp [Child.setOutput, Life.deai, hd])] at hw
      split at hw
      · cases hw
      · rename_i ev hev
        cases hw
        have hset : (ioev m).set .read 0
            {life := {drained := w.life.drained, exited := w.life.exited}} = .ok ev := hev
        have hsound : Sound ev := (sound_init h.exited).of_set rfl rfl hset
        have hlit : Lit ev := Lit.set (sound_init h.exited) rfl (fun n hn => absurd rfl hn) rfl hset
        rw [ioev_set_eq rfl] at hset
        have hframe := diModifyIoev_frame hset
        rw [setOutput_setOutput]
        apply h.setOutput
        refine ⟨fun _ => rfl, ?_⟩
        intro ev' hev'
        cases hev'
        exact ⟨hsound.lifeStep .drop, hlit, hframe.destroyed, hframe.drained⟩

/-- The watcher of one output changes. -/
theorem watching_setOutput {i : OutputId} {o : Output}
    (ho : o.fdevent.any (·.active) → (w.outputs i).fdevent.any (·.active)) (j : Option OutputId)
    (hj : watching (w.setOutput i o) j) : watching w j := by
  cases j with
  | none => exact hj
  | some j =>
      by_cases hji : j = i
      · subst hji
        simp only [watching, Child.setOutput, Function.update_self] at hj
        exact ho hj
      · simpa [watching, Child.setOutput, hji] using hj

/-- `di_disable_read` on the file descriptor event of an output. -/
theorem disableRead_spec {ev : IoEv} (hs : Sound ev) (hl : Lit ev) (hd : ev.life.destroyed = false) :
    ∃ ev', diDisableRead m ev = .ok ev' ∧ Sound ev' ∧ Lit ev' ∧ ev'.life.destroyed = false ∧
      ev'.life.drained = ev.life.drained ∧ (ev'.active → ev.active) := by
  cases hn : ev.signals .read with
  | none => exact ⟨ev, ioev_delete_none hn, hs, hl, hd, rfl, id⟩
  | some x =>
      have hrun := (hl .read (by simp [hn])).2
      obtain ⟨ev', hev', hs'⟩ := hs.delete (m := m) (n := .read) hd (.inr (.inl hrun))
      have hl' := hl.delete hs hd hev'
      have hdisable : diDisableRead m ev = .ok ev' := hev'
      rw [ioev_delete_eq hn] at hev'
      have hframe := diModifyIoev_frame hev'
      exact ⟨ev', hdisable, hs', hl', hframe.destroyed.trans hd, hframe.drained,
        fun _ => hs.active.trans hrun⟩

theorem OutputsSound.stopOutputListener (h : OutputsSound w) {i : OutputId}
    (hsig : (w.outputs i).signal = none) (hhandle : (w.outputs i).listenHandle = true) :
    ∃ w', diChildProcessStopOutputListener m i w = .ok w' ∧ OutputsSound w' ∧
      w'.life = w.life ∧ ∀ j, watching w' j → watching w j := by
  unfold diChildProcessStopOutputListener
  rw [if_neg (by simp [hhandle])]
  cases hev : (w.outputs i).fdevent with
  | none =>
      refine ⟨_, rfl, h.setOutput ⟨?_, ?_⟩, rfl, watching_setOutput ?_⟩
      · simp [hsig]
      · exact (h.output i).fdevent
      · exact id
  | some ev =>
      obtain ⟨hs, hl, hd, hdrained⟩ := (h.output i).fdevent ev hev
      obtain ⟨ev', hev', hs', hl', hd', hdrained', hactive⟩ := disableRead_spec (m := m) hs hl hd
      simp only [hev']
      refine ⟨_, rfl, h.setOutput ⟨?_, ?_⟩, rfl, watching_setOutput ?_⟩
      · simp [hsig]
      · intro ev'' hev''
        simp only [Option.ite_none_right_eq_some, Option.some.injEq] at hev''
        obtain ⟨-, rfl⟩ := hev''
        exact ⟨hs', hl', hd', hdrained'.trans hdrained⟩
      · rw [hev]
        split_ifs
        · exact hactive
        · exact nofun

theorem OutputsSound.deleteOutputSignal (h : OutputsSound w) (i : OutputId) :
    ∃ w', deleteOutputSignal m i w = .ok w' ∧ OutputsSound w' ∧ w'.life = w.life ∧
      ∀ j, watching w' j → watching w j := by
  unfold EventSources.deleteOutputSignal
  cases hsig : (w.outputs i).signal with
  | none => exact ⟨w, rfl, h, rfl, fun _ => id⟩
  | some x =>
      have hhandle : (w.outputs i).listenHandle = true := (h.output i).handle (by simp [hsig])
      have hv : OutputsSound (w.setOutput i {w.outputs i with signal := none}) :=
        h.setOutput ⟨nofun, (h.output i).fdevent⟩
      obtain ⟨w', hw', h', hlife, hwatch⟩ := hv.stopOutputListener (m := m) (i := i)
        (by simp [Child.setOutput]) (by simp [Child.setOutput, hhandle])
      refine ⟨w', hw', h', hlife, fun j hj => ?_⟩
      exact watching_setOutput (o := {w.outputs i with signal := none}) id j (hwatch j hj)

/-- The outputs, when nothing happens to them. -/
theorem OutputsSound.same (h : OutputsSound w) (houtputs : w'.outputs = w.outputs)
    (hdrained : w'.life.drained = w.life.drained) (hexited : w'.life.exited = w.life.exited) :
    OutputsSound w' := by
  refine ⟨fun i => ?_, ?_⟩
  · rw [houtputs, hdrained]
    exact h.output i
  · rw [hexited, hdrained]
    exact h.exited

theorem OutputsSound.newExitSignal (h : OutputsSound w) {x : SignalId}
    (hw : diChildProcessNewExitSignal x w = .ok w') : OutputsSound w' := by
  unfold diChildProcessNewExitSignal evChildStart at hw
  cases hsig : w.exitSignal <;> cases hd : w.life.destroyed <;> cases hf : w.life.freed <;>
    cases hex : w.life.exited <;> simp [hsig, Life.deai, hd, hf, hex] at hw <;> subst hw <;>
      exact h.same rfl rfl (by simp [hex])

theorem OutputsSound.deleteExitSignal (h : OutputsSound w)
    (hw : diChildProcessDeleteExitSignal w = .ok w') : OutputsSound w' := by
  unfold diChildProcessDeleteExitSignal evChildStop at hw
  cases hsig : w.exitSignal <;> cases hd : w.life.destroyed <;> cases hf : w.life.freed <;>
    cases hex : w.life.exited <;> simp [hsig, Life.deai, hd, hf, hex] at hw <;> subst hw <;>
      exact h.same rfl rfl (by simp [hex])

theorem OutputsSound.set (h : OutputsSound w) (hd : w.life.destroyed = false) {n : ChildSignal}
    {x : SignalId} (hw : (child m).set n x w = .ok w') : OutputsSound w' := by
  cases n with
  | exit => exact h.newExitSignal hw
  | stdoutLine => exact h.newOutputSignal hd hw
  | stderrLine => exact h.newOutputSignal hd hw

theorem OutputsSound.delete (h : OutputsSound w) {n : ChildSignal}
    (hw : (child m).delete n w = .ok w') : OutputsSound w' := by
  cases n with
  | exit => exact h.deleteExitSignal hw
  | stdoutLine =>
      obtain ⟨w₁, hw₁, h₁, -⟩ := h.deleteOutputSignal (m := m) .stdout
      cases hw.symm.trans hw₁
      exact h₁
  | stderrLine =>
      obtain ⟨w₁, hw₁, h₁, -⟩ := h.deleteOutputSignal (m := m) .stderr
      cases hw.symm.trans hw₁
      exact h₁

theorem OutputsSound.lifeStep (h : OutputsSound w) {l : Life} (hl : LifeStep w.life l) :
    OutputsSound {w with life := l} := by
  cases hl <;> exact h.same rfl rfl rfl

theorem OutputsSound.drain (h : OutputsSound w) : OutputsSound w.drain :=
  ⟨fun i => .of_none (h.output i).handle rfl, fun _ => rfl⟩

theorem OutputsSound.exit (h : OutputsSound w) (hdrained : w.life.drained) : OutputsSound w.exit := by
  refine ⟨fun i => ⟨(h.output i).handle, ?_⟩, fun _ => hdrained⟩
  intro ev hev
  obtain ⟨ev₀, hev₀, rfl⟩ := Option.map_eq_some_iff.mp hev
  obtain ⟨hs, hl, hd, hdr⟩ := (h.output i).fdevent ev₀ hev₀
  exact ⟨hs.exit (hdr.trans hdrained), hl, hd, hdr⟩

theorem OutputsSound.destroy (h : OutputsSound w) : OutputsSound w.destroy :=
  ⟨fun _ => .of_none nofun rfl, h.exited⟩

theorem OutputsSound.move {s s' : ChildState} (hmove : ChildMove m s s')
    (h : OutputsSound s.world) : OutputsSound s'.world := by
  cases hmove with
  | act a hstep =>
      have hhook := step_world hstep
      generalize s'.world = w at hhook ⊢
      cases hhook with
      | same hw => rwa [hw]
      | set n f halive hn hset => exact h.set (child_not_destroyed_of_alive halive) hset
      | delete x stack hstack halive hone hdel => exact h.delete hdel
  | life l hl => exact h.lifeStep hl
  | drain => exact h.drain
  | exit hdrained => exact h.exit hdrained
  | unroot => exact h.same rfl rfl rfl
  | key taken => exact h.same rfl rfl rfl
  | destroy href hold => exact h.destroy

/-- What goes on around a child process after `di:exit`. -/
inductive ChildEnv (s : ChildState) : Child → Prop where
  | life (l : Life) (hl : LifeStep s.world.life l) : ChildEnv s {s.world with life := l}
  | unroot : ChildEnv s {s.world with life := {s.world.life with rooted := false}}
  | key (taken : Bool) : ChildEnv s {s.world with keyTaken := taken}
  | destroy (href : s.world.life.referenced = false) (hold : s.world.life.destroyed = false) :
      ChildEnv s s.world.destroy

/-- A first listener of a child process needs no root: it is for an output that is no pipe. -/
def childListens : ChildSignal → Child → Prop
  | .exit, _ => False
  | .stdoutLine, w => (w.outputs .stdout).hasFd = false
  | .stderrLine, w => (w.outputs .stderr).hasFd = false

/-- The last listener of a child process gives no root back. -/
def childStops : ChildSignal → Child → Prop
  | .exit, w => w.exitSignal = none
  | _, _ => True

theorem childExited_harmless : Harmless (child m) childListens childStops ChildEnv OutputsSound
    watching where
  set := by
    intro n x w h _ _ hfd
    cases n with
    | exit => exact hfd.elim
    | stdoutLine => exact ⟨w, if_pos hfd, h, fun _ => id⟩
    | stderrLine => exact ⟨w, if_pos hfd, h, fun _ => id⟩
  delete := by
    intro n w h _ hstops
    cases n with
    | exit =>
        refine ⟨w, ?_, h, fun _ => id⟩
        simp only [child, diChildProcessDeleteExitSignal]
        rw [show w.exitSignal = none from hstops]
    | stdoutLine =>
        obtain ⟨w', hw', h', -, hwatch⟩ := h.deleteOutputSignal (m := m) .stdout
        exact ⟨w', hw', h', hwatch⟩
    | stderrLine =>
        obtain ⟨w', hw', h', -, hwatch⟩ := h.deleteOutputSignal (m := m) .stderr
        exact ⟨w', hw', h', hwatch⟩
  env := by
    intro s w h hw
    cases hw with
    | life l hl => exact ⟨h.lifeStep hl, fun i => by cases i <;> exact id⟩
    | unroot => exact ⟨h.same rfl rfl rfl, fun i => by cases i <;> exact id⟩
    | key taken => exact ⟨h.same rfl rfl rfl, fun i => by cases i <;> exact id⟩
    | destroy href hold =>
        refine ⟨h.destroy, fun i hi => ?_⟩
        cases i with
        | none => exact hi
        | some i => cases hi

end

/-! ## All kinds of objects -/

/-- From `s₀`, where the roots object has lost its methods, the actions that `Q` and `R` allow
lead only to states where none of them fails and no more watchers are active. -/
def SafeAfter {Name World K : Type} [DecidableEq Name] (S : Source Name World Fault)
    (Q R : Name → World → Prop) (Env : State Name World → World → Prop)
    (active : World → K → Bool) (s₀ : State Name World) : Prop :=
  ∀ s, ReflTransGen (SignalRuns.Move S (Calm S Q R) Env) s₀ s →
    (∀ a, Calm S Q R s a → ∀ e, exec S a s ≠ some (.error (.source e))) ∧
      ∀ i, active s.world i → active s₀.world i

theorem Harmless.safeAfter {Name World K : Type} [DecidableEq Name] {S : Source Name World Fault}
    {Q R : Name → World → Prop} {Env : State Name World → World → Prop} {I : World → Prop}
    {active : World → K → Bool} (hH : Harmless S Q R Env I active) {s₀ : State Name World}
    (h : I s₀.world) : SafeAfter S Q R Env active s₀ := by
  intro s hrun
  obtain ⟨hI, hactive⟩ := hH.run h hrun
  exact ⟨fun a ha e => hH.exec_ok hI ha e, hactive⟩

/-- After `di:exit` listeners are attached and stopped safely on a timer; on the other objects,
as long as a signal gets its first listener only on a file descriptor event that is running
or on an output that is no pipe, and the signal `exit` does not lose its last listener. -/
theorem listeners_after_exit (hasIoModify : Bool) :
    (∀ exited signals s₀, ReflTransGen (IoMove hasIoModify)
        {world := {life := .new exited}, signals := signals} s₀ → s₀.world.life.exited →
      SafeAfter (ioev hasIoModify) (fun _ w => w.running = true) (fun _ _ => True)
        (IoEnv hasIoModify) (fun w (_ : Unit) => w.active) s₀) ∧
    (∀ exited signals s₀, ReflTransGen Timers.Move
        {world := {life := .new exited}, signals := signals} s₀ → s₀.world.life.exited →
      SafeAfter timer (fun _ _ => True) (fun _ _ => True) TimerEnv
        (fun w (_ : Unit) => w.armed) s₀) ∧
    (∀ exited signals s₀, ReflTransGen PeriodicMove
        {world := {life := .new exited}, signals := signals} s₀ → s₀.world.life.exited →
      SafeAfter periodic (fun _ _ => False) (fun _ _ => True) PeriodicEnv
        (fun w (_ : Unit) => w.active) s₀) ∧
    (∀ exited hasFd signals s₀, ReflTransGen (ChildMove hasIoModify)
        {world := {life := .new exited, outputs := fun _ => {hasFd := hasFd}},
          signals := signals} s₀ → s₀.world.life.exited →
      SafeAfter (child hasIoModify) childListens childStops ChildEnv watching s₀) := by
  refine ⟨?_, ?_, ?_, ?_⟩
  · intro exited signals s₀ hrun hexited
    obtain ⟨hsound, hlit⟩ := run_lit hrun
    exact ioExited_harmless.safeAfter ⟨hsound, hlit, hexited⟩
  · intro exited signals s₀ hrun hexited
    have h : Timers.Invariant s₀.world := by
      clear hexited
      induction hrun with
      | refl => exact Timers.invariant_init exited
      | tail _ hmove ih => exact ih.move hmove
    exact timerExited_harmless.safeAfter ⟨h, hexited⟩
  · intro exited signals s₀ _ _
    exact periodicExited_harmless.safeAfter trivial
  · intro exited hasFd signals s₀ hrun hexited
    have h : OutputsSound s₀.world := by
      clear hexited
      induction hrun with
      | refl => exact ⟨fun _ => .of_none nofun rfl, id⟩
      | tail _ hmove ih => exact ih.move hmove
    exact childExited_harmless.safeAfter h

/-- A timer that is made after `di:exit`. -/
def lateTimer : Timers.TimerState :=
  {world := {life := .new true}, signals := fun _ => {signalName := .elapsed}}

theorem listeners_after_exit_timer :
    ∀ a e, exec timer a (perform timer lateTimer [.listen .elapsed 5, .stop 0]) ≠
      some (.error (.source e)) := by
  have hsafe := (listeners_after_exit true).2.1 true _ lateTimer .refl rfl
  have hallowed : Allowed timer (Calm timer (fun _ _ => True) (fun _ _ => True)) lateTimer
      [.listen .elapsed 5, .stop 0] := ⟨fun _ => trivial, trivial, trivial⟩
  intro a e
  have hcalm : ∀ s a, Calm timer (fun _ _ => True) (fun _ _ => True) s a := by
    intro s a
    cases a <;> simp [Calm]
  exact (hsafe _ (reaches_perform _ hallowed)).1 a (hcalm _ a) e

/-- `di:exit`, then the first listener on an object that was made before. -/
theorem listeners_after_exit_abort :
    (∃ s₀ : IoState, ReflTransGen (IoMove true) newIoev s₀ ∧ s₀.world.life.exited ∧
      exec (ioev true) (.listen .read 5) s₀ = some (.error (.source .check))) ∧
    (∃ s₀ : PeriodicState, ReflTransGen PeriodicMove
        {world := {}, signals := fun _ => {signalName := .triggered}} s₀ ∧ s₀.world.life.exited ∧
      exec periodic (.listen .triggered 5) s₀ = some (.error (.source .check))) ∧
    (∃ s₀ : ChildState, ReflTransGen (ChildMove true)
        {world := {}, signals := fun _ => {signalName := .exit}} s₀ ∧ s₀.world.life.exited ∧
      exec (child true) (.listen .exit 5) s₀ = some (.error (.source .check))) := by
  refine ⟨?_, ?_, ?_⟩
  · exact ⟨_, (ReflTransGen.single .drain).tail (.exit rfl), rfl, rfl⟩
  · exact ⟨_, (ReflTransGen.single .drain).tail (.exit rfl), rfl, rfl⟩
  · exact ⟨_, (ReflTransGen.single .drain).tail (.exit rfl), rfl, rfl⟩

end Deai.AfterExit
