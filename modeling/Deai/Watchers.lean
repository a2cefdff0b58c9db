import Deai.IoEvents
import Deai.Timers

/-!
# Watchers and the memory they lie in

A watcher is a part of its object, so libev must not know it any more when the memory of the
object is freed. The destructors of file descriptor events, timers and the event module stop
their watchers. A periodic timer starts its watcher when it is made and never stops it, and a
child process stops its watcher only when its signal `exit` is deleted.
-/
namespace Deai.Watchers
open Signal SignalRuns EventSources IoEvents Timers Relation

abbrev PeriodicState := State PeriodicSignal Periodic
abbrev ChildState := State ChildSignal Child

/-! ## What can happen to an object -/

inductive IoMove (hasIoModify : Bool) (s : IoState) : IoState → Prop where
  | act {s' : IoState} (a : Action IoSignal) (hstep : Step (ioev hasIoModify) s a s') :
      IoMove hasIoModify s s'
  | env (w : IoEv) (hw : IoEnv hasIoModify s w) : IoMove hasIoModify s {s with world := w}
  | drain : IoMove hasIoModify s {s with world := {s.world with life := s.world.life.drain}}
  | exit (hdrained : s.world.life.drained) :
      IoMove hasIoModify s {s with world := {s.world with life := s.world.life.exit}}

inductive PeriodicMove (s : PeriodicState) : PeriodicState → Prop where
  | act {s' : PeriodicState} (a : Action PeriodicSignal) (hstep : Step periodic s a s') :
      PeriodicMove s s'
  | life (l : Life) (hl : LifeStep s.world.life l) :
      PeriodicMove s {s with world := {s.world with life := l}}
  | drain : PeriodicMove s {s with world := {s.world with life := s.world.life.drain}}
  | exit (hdrained : s.world.life.drained) :
      PeriodicMove s {s with world := {s.world with life := s.world.life.exit}}
  | set (w : Periodic) (halive : s.world.life.alive) (hw : periodicSet s.world = .ok w) :
      PeriodicMove s {s with world := w}
  | destroy (w : Periodic) (href : s.world.life.referenced = false)
      (hold : s.world.life.destroyed = false) (hw : s.world.destroy = .ok w) :
      PeriodicMove s {s with world := w}

/-- The root of a child process goes when `di:exit` removes the named roots, and also when
another object with the same process id removes it. -/
inductive ChildMove (hasIoModify : Bool) (s : ChildState) : ChildState → Prop where
  | act {s' : ChildState} (a : Action ChildSignal) (hstep : Step (child hasIoModify) s a s') :
      ChildMove hasIoModify s s'
  | life (l : Life) (hl : LifeStep s.world.life l) :
      ChildMove hasIoModify s {s with world := {s.world with life := l}}
  | drain : ChildMove hasIoModify s {s with world := s.world.drain}
  | exit (hdrained : s.world.life.drained) : ChildMove hasIoModify s {s with world := s.world.exit}
  | unroot : ChildMove hasIoModify s
      {s with world := {s.world with life := {s.world.life with rooted := false}}}
  | key (taken : Bool) : ChildMove hasIoModify s {s with world := {s.world with keyTaken := taken}}
  | destroy (href : s.world.life.referenced = false) (hold : s.world.life.destroyed = false) :
      ChildMove hasIoModify s {s with world := s.world.destroy}

inductive ModuleMove (w : EventModule) : EventModule → Prop where
  | life (l : Life) (hl : LifeStep w.life l) : ModuleMove w {w with life := l}
  | root (halive : w.life.alive) : ModuleMove w {w with life := {w.life with rooted := true}}
  | drain : ModuleMove w {w with life := w.life.drain}
  | exit (hdrained : w.life.drained) : ModuleMove w {w with life := w.life.exit}
  | start : ModuleMove w (evIdleStart w)
  | idle : ModuleMove w (evIdleStop w)
  | destroy (href : w.life.referenced = false) (hold : w.life.destroyed = false) :
      ModuleMove w w.destroy

/-! ## Child processes -/

section
variable {m : Bool} {w w' : Child}

/-- The watcher of a child process is active while it has the signal `exit`. -/
structure ChildSound (w : Child) : Prop where
  active : w.active = w.exitSignal.isSome
  freed : w.life.freed → w.life.destroyed
  destroyed : w.life.destroyed → w.exitSignal = none

/-- The part of a child process that its outputs have nothing to do with. -/
structure SameExit (w w' : Child) : Prop where
  life : w'.life = w.life
  exitSignal : w'.exitSignal = w.exitSignal
  active : w'.active = w.active

theorem startOutputListener_same {i : OutputId} (h : diChildStartOutputListener m i w = .ok w') :
    SameExit w w' := by
  unfold diChildStartOutputListener at h
  split_ifs at h
  · cases h
    exact ⟨rfl, rfl, rfl⟩
  · split at h <;> cases h
    exact ⟨rfl, rfl, rfl⟩

theorem stopOutputListener_same {i : OutputId}
    (h : diChildProcessStopOutputListener m i w = .ok w') : SameExit w w' := by
  unfold diChildProcessStopOutputListener at h
  split_ifs at h
  split at h
  · cases h
    exact ⟨rfl, rfl, rfl⟩
  · split at h <;> cases h
    exact ⟨rfl, rfl, rfl⟩

theorem newOutputSignal_same {i : OutputId} {x : SignalId}
    (h : newOutputSignal m i x w = .ok w') : SameExit w w' := by
  unfold newOutputSignal at h
  split at h
  · cases h
    exact ⟨rfl, rfl, rfl⟩
  · split at h
    · cases h
      exact ⟨rfl, rfl, rfl⟩
    · have hsame := startOutputListener_same h
      exact ⟨hsame.life, hsame.exitSignal, hsame.active⟩

theorem deleteOutputSignal_same {i : OutputId} (h : deleteOutputSignal m i w = .ok w') :
    SameExit w w' := by
  unfold deleteOutputSignal at h
  split at h
  · cases h
    exact ⟨rfl, rfl, rfl⟩
  · have hsame := stopOutputListener_same h
    exact ⟨hsame.life, hsame.exitSignal, hsame.active⟩

theorem ChildSound.same (h : ChildSound w) (hs : SameExit w w') : ChildSound w' := by
  refine ⟨?_, ?_, ?_⟩
  · rw [hs.active, hs.exitSignal]
    exact h.active
  · rw [hs.life]
    exact h.freed
  · rw [hs.life, hs.exitSignal]
    exact h.destroyed

theorem ChildSound.not_freed (h : ChildSound w) (hd : w.life.destroyed = false) :
    w.life.freed = false := by
  by_contra hf
  rw [h.freed (by simpa using hf)] at hd
  cases hd

theorem ChildSound.newExitSignal (h : ChildSound w) (hd : w.life.destroyed = false) {x : SignalId}
    (hw : diChildProcessNewExitSignal x w = .ok w') : ChildSound w' := by
  have hfreed := h.not_freed hd
  unfold diChildProcessNewExitSignal at hw
  cases hsig : w.exitSignal with
  | some y =>
      rw [hsig] at hw
      cases hw
      exact h
  | none =>
      cases hex : w.life.exited with
      | true => simp [hsig, Life.deai, hd, evChildStart, hfreed, hex] at hw
      | false =>
          simp only [hsig, Life.deai, hd, evChildStart, hfreed, hex, Bool.not_false,
            Bool.true_eq_false, Bool.false_eq_true, if_false, Except.ok.injEq] at hw
          subst hw
          exact ⟨rfl, by rintro ⟨⟩, by rintro ⟨⟩⟩

theorem ChildSound.deleteExitSignal (h : ChildSound w) (hd : w.life.destroyed = false)
    (hw : diChildProcessDeleteExitSignal w = .ok w') : ChildSound w' := by
  have hfreed := h.not_freed hd
  unfold diChildProcessDeleteExitSignal at hw
  cases hsig : w.exitSignal with
  | none =>
      rw [hsig] at hw
      cases hw
      exact h
  | some y =>
      cases hex : w.life.exited with
      | true => simp [hsig, Life.deai, hd, evChildStop, hfreed, hex] at hw
      | false =>
          simp only [hsig, Life.deai, hd, evChildStop, hfreed, hex, Bool.not_false,
            Bool.true_eq_false, Bool.false_eq_true, if_false, Except.ok.injEq] at hw
          subst hw
          exact ⟨rfl, by rintro ⟨⟩, fun _ => rfl⟩

theorem ChildSound.set (h : ChildSound w) (hd : w.life.destroyed = false) {n : ChildSignal}
    {x : SignalId} (hw : (child m).set n x w = .ok w') : ChildSound w' := by
  cases n with
  | exit => exact h.newExitSignal hd hw
  | stdoutLine => exact h.same (newOutputSignal_same hw)
  | stderrLine => exact h.same (newOutputSignal_same hw)

theorem ChildSound.delete (h : ChildSound w) (hd : w.life.destroyed = false) {n : ChildSignal}
    (hw : (child m).delete n w = .ok w') : ChildSound w' := by
  cases n with
  | exit => exact h.deleteExitSignal hd hw
  | stdoutLine => exact h.same (deleteOutputSignal_same hw)
  | stderrLine => exact h.same (deleteOutputSignal_same hw)

theorem ChildSound.lifeStep (h : ChildSound w) {l : Life} (hl : LifeStep w.life l) :
    ChildSound {w with life := l} := by
  cases hl with
  | take halive => exact {h with }
  | drop => exact {h with }
  | free hd => exact {h with freed := fun _ => hd}

end

/-! ## Each kind of object -/

theorem IoMove.sound {m : Bool} {s s' : IoState} (hmove : IoMove m s s') (h : Sound s.world) :
    Sound s'.world := by
  cases hmove with
  | act a hstep =>
      have hhook := step_world hstep
      generalize s'.world = w at hhook ⊢
      cases hhook with
      | same hw => rwa [hw]
      | set n f halive hn hset => exact h.of_set (IoEvents.not_destroyed_of_alive halive) hn hset
      | delete x stack hstack halive hone hdel =>
          exact h.of_delete (IoEvents.not_destroyed_of_alive halive) hdel
  | env w hw =>
      cases hw with
      | life l hl => exact h.lifeStep hl
      | destroy w href hold hw =>
          obtain ⟨w', hw', h'⟩ := h.destroy (m := m) href hold
          cases hw.symm.trans hw'
          exact h'
  | drain => exact h.drain
  | exit hdrained => exact h.exit hdrained

/-- A periodic timer that has not been destroyed. -/
structure PeriodicKept (w : Periodic) : Prop where
  destroyed : w.life.destroyed = false
  freed : w.life.freed = false

theorem periodic_life {w w' : Periodic} {x : SignalId}
    (h : diPeriodicSignalSetter x w = .ok w' ∨ diPeriodicSignalDeleter w = .ok w') :
    w'.life.freed = w.life.freed := by
  rcases h with h | h
  · unfold diPeriodicSignalSetter Life.addAnonymous at h
    split at h
    · cases h
      rfl
    · cases hex : w.life.exited with
      | true => simp [hex] at h
      | false =>
          cases hr : w.life.rooted with
          | true => simp [hex, hr] at h
          | false =>
              simp only [hex, hr, Bool.false_eq_true, if_false, Bool.not_false, if_true,
                Except.ok.injEq] at h
              subst h
              rfl
  · unfold diPeriodicSignalDeleter at h
    split at h
    · cases h
      rfl
    · cases h
      cases hex : w.life.exited <;> simp [Life.removeAnonymous, hex]

theorem PeriodicMove.kept {s s' : PeriodicState} (hmove : PeriodicMove s s')
    (hd : s'.world.life.destroyed = false) (h : PeriodicKept s.world) : PeriodicKept s'.world := by
  refine ⟨hd, ?_⟩
  cases hmove with
  | act a hstep =>
      have hhook := step_world hstep
      generalize s'.world = w at hhook ⊢
      cases hhook with
      | same hw =>
          rw [hw]
          exact h.freed
      | set n f halive hn hset => exact (periodic_life (.inl hset)).trans h.freed
      | delete x stack hstack halive hone hdel =>
          exact (periodic_life (x := 0) (.inr hdel)).trans h.freed
  | life l hl =>
      cases hl with
      | free hdestroyed => cases h.destroyed.symm.trans hdestroyed
      | take halive => exact h.freed
      | drop => exact h.freed
  | drain => exact h.freed
  | exit hdrained => exact h.freed
  | set w halive hw =>
      unfold periodicSet at hw
      split_ifs at hw
      cases hw
      exact h.freed
  | destroy w href hold hw =>
      unfold Periodic.destroy at hw
      cases hdel : diPeriodicSignalDeleter s.world with
      | error e =>
          rw [hdel] at hw
          cases hw
      | ok w₁ =>
          rw [hdel] at hw
          cases hw
          exact (periodic_life (x := 0) (.inr hdel)).trans h.freed

theorem child_not_destroyed_of_alive {m : Bool} {w : Child} (halive : (child m).alive w) :
    w.life.destroyed = false := by
  simp only [child, Life.alive, Bool.and_eq_true, Bool.not_eq_true'] at halive
  exact halive.2

theorem ChildMove.sound {m : Bool} {s s' : ChildState} (hmove : ChildMove m s s')
    (hd : s'.world.life.destroyed → s.world.life.destroyed ∨ s.world.exitSignal = none)
    (h : ChildSound s.world) : ChildSound s'.world := by
  cases hmove with
  | act a hstep =>
      have hhook := step_world hstep
      generalize s'.world = w at hhook ⊢
      cases hhook with
      | same hw => rwa [hw]
      | set n f halive hn hset => exact h.set (child_not_destroyed_of_alive halive) hset
      | delete x stack hstack halive hone hdel =>
          exact h.delete (child_not_destroyed_of_alive halive) hdel
  | life l hl => exact h.lifeStep hl
  | drain => exact ⟨h.active, h.freed, h.destroyed⟩
  | exit hdrained => exact ⟨h.active, h.freed, h.destroyed⟩
  | unroot => exact ⟨h.active, h.freed, h.destroyed⟩
  | key taken => exact ⟨h.active, h.freed, h.destroyed⟩
  | destroy href hold =>
      have hnone : s.world.exitSignal = none := by
        rcases hd rfl with hdestroyed | hnone
        · cases hold.symm.trans hdestroyed
        · exact hnone
      refine ⟨?_, fun _ => rfl, fun _ => rfl⟩
      rw [show s.world.destroy.active = s.world.active from rfl, h.active, hnone]
      rfl

structure ModuleSound (w : EventModule) : Prop where
  freed : w.life.freed → w.life.destroyed
  destroyed : w.life.destroyed → w.active = false

theorem ModuleMove.sound {w w' : EventModule} (hmove : ModuleMove w w') (h : ModuleSound w) :
    ModuleSound w' := by
  cases hmove with
  | life l hl =>
      cases hl with
      | take halive => exact {h with }
      | drop => exact {h with }
      | free hd => exact {h with freed := fun _ => hd}
  | root halive => exact {h with }
  | drain => exact {h with }
  | exit hdrained => exact {h with }
  | start =>
      unfold evIdleStart
      split_ifs with halive
      · refine ⟨h.freed, fun hd => ?_⟩
        simp only [Life.alive, Bool.and_eq_true, Bool.not_eq_true'] at halive
        cases halive.2.symm.trans hd
      · exact h
  | idle => exact ⟨h.freed, fun _ => rfl⟩
  | destroy href hold => exact ⟨fun _ => rfl, fun _ => by simp [EventModule.destroy, Life.deai, hold]⟩

/-! ## All objects of a run -/

inductive EventObject where
  | ioev (s : IoState)
  | timer (s : TimerState)
  | periodic (s : PeriodicState)
  | child (s : ChildState)
  | eventModule (w : EventModule)

namespace EventObject

/-- libev knows the watcher of the object. -/
def active : EventObject → Bool
  | .ioev s => s.world.active
  | .timer s => s.world.armed
  | .periodic s => s.world.active
  | .child s => s.world.active
  | .eventModule w => w.active

def life : EventObject → Life
  | .ioev s => s.world.life
  | .timer s => s.world.life
  | .periodic s => s.world.life
  | .child s => s.world.life
  | .eventModule w => w.life

end EventObject

/-- An object as it is made, before or after `di:exit`. -/
inductive Created : EventObject → Prop where
  | ioev (exited : Bool) (signals : SignalId → SignalObject IoSignal) :
      Created (.ioev {world := {life := .new exited}, signals := signals})
  | timer (exited : Bool) (signals : SignalId → SignalObject TimerSignal) :
      Created (.timer {world := {life := .new exited}, signals := signals})
  | periodic (exited : Bool) (signals : SignalId → SignalObject PeriodicSignal) :
      Created (.periodic {world := {life := .new exited}, signals := signals})
  | child (exited hasFd : Bool) (signals : SignalId → SignalObject ChildSignal) :
      Created (.child {
        world := {life := .new exited, outputs := fun _ => {hasFd := hasFd}}
        signals := signals})
  | eventModule : Created (.eventModule {})

inductive ObjectMove (hasIoModify : Bool) : EventObject → EventObject → Prop where
  | ioev {s s' : IoState} (h : IoMove hasIoModify s s') : ObjectMove hasIoModify (.ioev s) (.ioev s')
  | timer {s s' : TimerState} (h : Timers.Move s s') : ObjectMove hasIoModify (.timer s) (.timer s')
  | periodic {s s' : PeriodicState} (h : PeriodicMove s s') :
      ObjectMove hasIoModify (.periodic s) (.periodic s')
  | child {s s' : ChildState} (h : ChildMove hasIoModify s s') :
      ObjectMove hasIoModify (.child s) (.child s')
  | eventModule {w w' : EventModule} (h : ModuleMove w w') :
      ObjectMove hasIoModify (.eventModule w) (.eventModule w')

/-- A step does not destroy a periodic timer, nor a child process that has the signal `exit`. -/
def Spares : EventObject → EventObject → Prop
  | .periodic _, .periodic s' => s'.world.life.destroyed = false
  | .child s, .child s' =>
      s'.world.life.destroyed → s.world.life.destroyed ∨ s.world.exitSignal = none
  | _, _ => True

abbrev Objects := ℕ → Option EventObject

/-- Objects are made, and things happen to them in any order. -/
inductive ObjectsMove (hasIoModify : Bool) (P : EventObject → EventObject → Prop) (f : Objects) :
    Objects → Prop where
  | create (i : ℕ) (o : EventObject) (hi : f i = none) (ho : Created o) :
      ObjectsMove hasIoModify P f (Function.update f i (some o))
  | move (i : ℕ) (o o' : EventObject) (hi : f i = some o) (ho : ObjectMove hasIoModify o o')
      (hP : P o o') : ObjectsMove hasIoModify P f (Function.update f i (some o'))

/-- What keeps the watcher of an object out of freed memory. -/
def Guarded : EventObject → Prop
  | .ioev s => Sound s.world
  | .timer s => Timers.Invariant s.world
  | .periodic s => PeriodicKept s.world
  | .child s => ChildSound s.world
  | .eventModule w => ModuleSound w

theorem Created.guarded {o : EventObject} (h : Created o) : Guarded o := by
  cases h with
  | ioev exited signals => exact sound_init id
  | timer exited signals => exact Timers.invariant_init exited
  | periodic exited signals => exact ⟨rfl, rfl⟩
  | child exited hasFd signals => exact ⟨rfl, nofun, nofun⟩
  | eventModule => exact ⟨nofun, nofun⟩

theorem ObjectMove.guarded {m : Bool} {o o' : EventObject} (hmove : ObjectMove m o o')
    (hP : Spares o o') (h : Guarded o) : Guarded o' := by
  cases hmove with
  | ioev hm => exact hm.sound h
  | timer hm => exact Timers.Invariant.move h hm
  | periodic hm => exact hm.kept hP h
  | child hm => exact hm.sound hP h
  | eventModule hm => exact hm.sound h

theorem Guarded.not_active {o : EventObject} (h : Guarded o) (hfreed : o.life.freed) :
    o.active = false := by
  cases o with
  | ioev s => exact h.active.trans (h.destroyed (h.freed hfreed)).1
  | timer s => exact (h.destroyed (h.freed hfreed)).2.1
  | periodic s => cases h.freed.symm.trans hfreed
  | child s =>
      change s.world.active = false
      rw [h.active, h.destroyed (h.freed hfreed)]
      rfl
  | eventModule w => exact h.destroyed (h.freed hfreed)

/-- No active watcher lies in freed memory, in a run that destroys no periodic timer and no
child process with the signal `exit`. -/
theorem watchers_do_not_outlive (hasIoModify : Bool) {f : Objects}
    (hrun : ReflTransGen (ObjectsMove hasIoModify Spares) (fun _ => none) f) :
    ∀ i o, f i = some o → o.active → o.life.freed = false := by
  have hguarded : ∀ i o, f i = some o → Guarded o := by
    induction hrun with
    | refl => exact fun i o ho => by cases ho
    | tail _ hmove ih =>
        intro i o ho
        cases hmove with
        | create j p hj hp =>
            by_cases hij : i = j
            · subst hij
              rw [Function.update_self] at ho
              cases ho
              exact hp.guarded
            · rw [Function.update_of_ne hij] at ho
              exact ih i o ho
        | move j p p' hj hp hP =>
            by_cases hij : i = j
            · subst hij
              rw [Function.update_self] at ho
              cases ho
              exact hp.guarded hP (ih i p hj)
            · rw [Function.update_of_ne hij] at ho
              exact ih i o ho
  intro i o ho hactive
  by_contra hfreed
  rw [(hguarded i o ho).not_active (by simpa using hfreed)] at hactive
  cases hactive

/-- A file descriptor event with a listener. -/
def listenedIoev : IoState := perform (ioev true) newIoev [.listen .read 5]

theorem watchers_do_not_outlive_listened :
    (EventObject.ioev listenedIoev).active = true ∧
      (EventObject.ioev listenedIoev).life.freed = false := by
  have hcreate : ObjectsMove true Spares (fun _ => none)
      (Function.update (fun _ => none) 0 (some (.ioev newIoev))) :=
    .create 0 _ rfl (.ioev false fun _ => {signalName := .read})
  have hlisten : ObjectsMove true Spares (Function.update (fun _ => none) 0 (some (.ioev newIoev)))
      (Function.update _ 0 (some (.ioev listenedIoev))) :=
    .move 0 _ _ (Function.update_self ..) (.ioev (.act (.listen .read 5) rfl)) trivial
  have hrun := (ReflTransGen.single hcreate).tail hlisten
  exact ⟨rfl, watchers_do_not_outlive true hrun 0 _ (Function.update_self ..) rfl⟩

/-- A periodic timer without references. -/
def droppedPeriodic (l : Life) : EventObject :=
  .periodic {world := {life := l}, signals := fun _ => {signalName := .triggered}}

/-- The reference to a new periodic timer is dropped. -/
theorem watchers_outlive_periodic :
    ∃ f : Objects, ReflTransGen (ObjectsMove true fun _ _ => True) (fun _ => none) f ∧
      ∃ o, f 0 = some o ∧ o.active = true ∧ o.life.freed = true := by
  have hcreate : ObjectsMove true (fun _ _ => True) (fun _ => none)
      (Function.update (fun _ => none) 0 (some (droppedPeriodic {}))) :=
    .create 0 _ rfl (.periodic false _)
  have hstep : ∀ {f : Objects} {o o' : EventObject}, ObjectMove true o o' →
      ObjectsMove true (fun _ _ => True) (Function.update f 0 (some o))
        (Function.update (Function.update f 0 (some o)) 0 (some o')) :=
    fun h => .move 0 _ _ (Function.update_self ..) h trivial
  have hdrop : ObjectMove true (droppedPeriodic {}) (droppedPeriodic {outside := false}) :=
    .periodic (.life _ .drop)
  have hdestroy : ObjectMove true (droppedPeriodic {outside := false})
      (droppedPeriodic {outside := false, destroyed := true}) :=
    .periodic (.destroy {life := {outside := false, destroyed := true}} rfl rfl rfl)
  have hfree : ObjectMove true (droppedPeriodic {outside := false, destroyed := true})
      (droppedPeriodic {outside := false, destroyed := true, freed := true}) :=
    .periodic (.life _ (.free rfl))
  refine ⟨_, (((ReflTransGen.single hcreate).tail (hstep hdrop)).tail (hstep hdestroy)).tail
    (hstep hfree), _, Function.update_self .., rfl, rfl⟩

end Deai.Watchers
