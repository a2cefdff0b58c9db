import Deai.SignalRuns
import Deai.EventSources

/-!
# The life of a timer

Listeners of a timer come and go by the signal machine, over the timer as the source; the
main loop calls `di_timer_callback` when nothing else runs, `di:exit` drops the roots, and the
object is destroyed when no reference to it is left.
-/
namespace Deai.Timers
open Signal SignalRuns EventSources Relation

abbrev TimerState := State TimerSignal Timer

inductive Move (s : TimerState) : TimerState → Prop where
  | act {s' : TimerState} (a : Action TimerSignal) (hstep : Step timer s a s') : Move s s'
  | life (l : Life) (hl : LifeStep s.world.life l) : Move s {s with world := {s.world with life := l}}
  | drain : Move s {s with world := {s.world with life := s.world.life.drain}}
  | exit (hdrained : s.world.life.drained) :
      Move s {s with world := {s.world with life := s.world.life.exit}}
  | destroy (w : Timer) (href : s.world.life.referenced = false)
      (hold : s.world.life.destroyed = false) (hw : s.world.destroy = .ok w) :
      Move s {s with world := w}
  | expire {s' : TimerState} (w : Timer) (hstack : s.stack = []) (harmed : s.world.armed)
      (hcallback : s.world.life.callback = false) (hw : diTimerCallback s.world = .ok w)
      (hemit : diEmitn timer .elapsed {s with world := w} = .ok s') : Move s s'
  | expired (w : Timer) (hstack : s.stack = []) (hcallback : s.world.life.callback)
      (hw : diTimerCallbackEnd s.world = .ok w) : Move s {s with world := w}

structure Invariant (w : Timer) : Prop where
  freed : w.life.freed → w.life.destroyed
  destroyed : w.life.destroyed → w.signal = none ∧ w.armed = false ∧ w.life.rooted = false ∧
    w.life.callback = false
  armed : w.life.callback = false → w.armed = w.signal.isSome
  rooted : w.life.drained = false → w.life.rooted = w.signal.isSome
  unrooted : w.life.exited = false → w.signal = none → w.life.rooted = false
  exited : w.life.exited → w.life.drained
  callback : w.life.callback → w.spent
  spent : w.spent → w.armed = false
  emitted : w.emitted = if w.spent then 1 else 0

theorem invariant_init (exited : Bool) : Invariant {life := .new exited} := by
  constructor <;> simp [Life.new]

theorem Invariant.lifeStep {w : Timer} (h : Invariant w) {l : Life} (hl : LifeStep w.life l) :
    Invariant {w with life := l} := by
  cases hl with
  | take halive => exact {h with }
  | drop => exact {h with }
  | free hd => exact {h with freed := fun _ => hd}

theorem Invariant.drain {w : Timer} (h : Invariant w) :
    Invariant {w with life := w.life.drain} where
  freed := h.freed
  destroyed hd := ⟨(h.destroyed hd).1, (h.destroyed hd).2.1, rfl, (h.destroyed hd).2.2.2⟩
  armed := h.armed
  rooted := nofun
  unrooted _ _ := rfl
  exited _ := rfl
  callback := h.callback
  spent := h.spent
  emitted := h.emitted

theorem Invariant.exit {w : Timer} (h : Invariant w) (hdrained : w.life.drained) :
    Invariant {w with life := w.life.exit} :=
  {h with exited := fun _ => hdrained, unrooted := nofun}

theorem Invariant.not_freed {w : Timer} (h : Invariant w) (hd : w.life.destroyed = false) :
    w.life.freed = false := by
  by_contra hf
  rw [h.freed (by simpa using hf)] at hd
  cases hd

/-- `di_timer_delete_signal` on an object that is there. -/
theorem delete_spec {w : Timer} (h : Invariant w) (hd : w.life.destroyed = false) :
    ∃ w', diTimerDeleteSignal w = .ok w' ∧ Invariant w' ∧ w'.signal = none ∧
      w'.life.callback = w.life.callback ∧ w'.life.destroyed = false ∧
      (w'.life.rooted → w.life.rooted) ∧ w'.life.exited = w.life.exited ∧
      (w'.armed → w.armed) := by
  have hfreed := h.not_freed hd
  cases hsig : w.signal with
  | none => exact ⟨w, by simp [diTimerDeleteSignal, hsig], h, hsig, rfl, hd, id, rfl, id⟩
  | some x =>
      refine ⟨{w with signal := none, armed := false, life := w.life.removeAnonymous}, ?_, ?_, rfl,
        ?_, ?_, ?_, ?_, nofun⟩
      · cases hex : w.life.exited <;>
          simp [diTimerDeleteSignal, hsig, Life.removeAnonymous, hex, Life.deai, hd, evTimerStop, hfreed]
      · have hcallback := h.callback
        have hemitted := h.emitted
        cases hex : w.life.exited with
        | true =>
            have hdrained := h.exited hex
            constructor <;> simp_all [Life.removeAnonymous]
        | false => constructor <;> simp_all [Life.removeAnonymous]
      · cases hex : w.life.exited <;> simp [Life.removeAnonymous, hex]
      · cases hex : w.life.exited <;> simp [Life.removeAnonymous, hex, hd]
      · cases hex : w.life.exited <;> simp [Life.removeAnonymous, hex]
      · cases hex : w.life.exited <;> simp [Life.removeAnonymous, hex]

/-- `di_timer_add_signal` on an object that does not hold the signal. -/
theorem add_spec {w : Timer} (h : Invariant w) (hd : w.life.destroyed = false)
    (hsig : w.signal = none) (x : SignalId) :
    ∃ w', diTimerAddSignal x w = .ok w' ∧ Invariant w' ∧ w'.life.exited = w.life.exited ∧
      (w.life.exited → w'.armed → w.armed) := by
  have hfreed := h.not_freed hd
  cases hspent : w.spent with
  | true => exact ⟨w, by simp [diTimerAddSignal, hspent], h, rfl, fun _ => id⟩
  | false =>
      have hcallback : w.life.callback = false := by
        by_contra hcb
        rw [h.callback (by simpa using hcb)] at hspent
        cases hspent
      cases hex : w.life.exited with
      | true =>
          -- the root cannot be added, and the signal is deleted again
          refine ⟨{w with signal := none, armed := false}, ?_, ?_, hex, fun _ => nofun⟩
          · simp [diTimerAddSignal, hspent, Life.deai, hd, hsig, Life.addAnonymous, hex,
              diTimerDeleteSignal, Life.removeAnonymous, evTimerStop, hfreed]
          · have hdrained := h.exited hex
            have hemitted := h.emitted
            constructor <;> simp_all
      | false =>
          have hrooted := h.unrooted hex hsig
          refine ⟨{w with signal := some x, armed := true, life := {w.life with rooted := true}},
            ?_, ?_, hex, nofun⟩
          · simp [diTimerAddSignal, hspent, Life.deai, hd, hsig, Life.addAnonymous, hex, hrooted,
              evTimerStart, hfreed]
          · have hemitted := h.emitted
            constructor <;> simp_all

theorem destroy_spec {w : Timer} (h : Invariant w) (href : w.life.referenced = false)
    (hd : w.life.destroyed = false) : ∃ w', w.destroy = .ok w' ∧ Invariant w' := by
  obtain ⟨w₁, hw₁, h₁, hsig, hcb, hd₁, hrooted, -⟩ := delete_spec h hd
  simp only [Life.referenced, Bool.or_eq_false_iff] at href
  have harmed : w₁.armed = false := by
    rw [h₁.armed (hcb.trans href.2), hsig]
    rfl
  have hroot : w₁.life.rooted = false := by
    by_contra hr
    rw [hrooted (by simpa using hr)] at href
    cases href.1.2
  refine ⟨{w₁ with life := {w₁.life with destroyed := true}, signal := none}, ?_, ?_⟩
  · simp [Timer.destroy, hw₁, Except.map]
  · exact {h₁ with
      freed := fun _ => rfl
      destroyed := fun _ => ⟨rfl, harmed, hroot, hcb.trans href.2⟩
      armed := fun _ => harmed
      rooted := fun _ => hroot
      unrooted := fun _ _ => hroot}

theorem callback_spec {w : Timer} (h : Invariant w) (harmed : w.armed) :
    ∃ w', diTimerCallback w = .ok w' ∧ Invariant w' := by
  have hd : w.life.destroyed = false := by
    by_contra hd
    rw [(h.destroyed (by simpa using hd)).2.1] at harmed
    cases harmed
  have hfreed := h.not_freed hd
  have hspent : w.spent = false := by
    by_contra hs
    rw [h.spent (by simpa using hs)] at harmed
    cases harmed
  have hemitted := h.emitted
  rw [hspent] at hemitted
  refine ⟨{w with
    life := {w.life with callback := true}
    armed := false
    spent := true
    emitted := w.emitted + 1}, ?_, ?_⟩
  · simp [diTimerCallback, Life.deai, hd, evTimerStop, hfreed]
  · exact {h with
      destroyed := fun hd' => absurd (hd.symm.trans hd') (by simp)
      armed := nofun
      callback := fun _ => rfl
      spent := fun _ => rfl
      emitted := by simp [hemitted]}

theorem callbackEnd_spec {w : Timer} (h : Invariant w) (hcb : w.life.callback) :
    ∃ w', diTimerCallbackEnd w = .ok w' ∧ Invariant w' := by
  have hd : w.life.destroyed = false := by
    by_contra hd
    rw [(h.destroyed (by simpa using hd)).2.2.2] at hcb
    cases hcb
  obtain ⟨w₁, hw₁, h₁, hsig, hcb₁, hd₁, -⟩ := delete_spec h hd
  have harmed : w₁.armed = false := h₁.spent (h₁.callback (hcb₁.trans hcb))
  refine ⟨{w₁ with life := {w₁.life with callback := false}}, ?_, ?_⟩
  · simp [diTimerCallbackEnd, hw₁, Except.map]
  · exact {h₁ with
      destroyed := fun hd' => absurd (hd₁.symm.trans hd') (by simp)
      armed := fun _ => by rw [harmed, hsig]; rfl
      callback := nofun}

theorem not_destroyed_of_alive {w : Timer} (halive : timer.alive w) : w.life.destroyed = false := by
  simp only [timer, Life.alive, Bool.and_eq_true, Bool.not_eq_true'] at halive
  exact halive.2

theorem Invariant.move {s s' : TimerState} (h : Invariant s.world) (hmove : Move s s') :
    Invariant s'.world := by
  cases hmove with
  | act a hstep =>
      have hhook := step_world hstep
      generalize s'.world = w at hhook ⊢
      cases hhook with
      | same hw => rwa [hw]
      | set n f halive hsig hset =>
          obtain ⟨w', hw', h', -⟩ := add_spec h (not_destroyed_of_alive halive) hsig s.signalCount
          cases hset.symm.trans hw'
          exact h'
      | delete x stack hstack halive hone hdel =>
          obtain ⟨w', hw', h', -⟩ := delete_spec h (not_destroyed_of_alive halive)
          cases hdel.symm.trans hw'
          exact h'
  | life l hl => exact h.lifeStep hl
  | drain => exact h.drain
  | exit hdrained => exact h.exit hdrained
  | destroy w href hold hw =>
      obtain ⟨w', hw', h'⟩ := destroy_spec h href hold
      cases hw.symm.trans hw'
      exact h'
  | expire w hstack harmed hcallback hw hemit =>
      obtain ⟨w', hw', h'⟩ := callback_spec h harmed
      cases hw.symm.trans hw'
      rwa [diEmitn_world hemit]
  | expired w hstack hcallback hw =>
      obtain ⟨w', hw', h'⟩ := callbackEnd_spec h hcallback
      cases hw.symm.trans hw'
      exact h'

theorem Invariant.exec_ok {s : TimerState} (h : Invariant s.world) (a : Action TimerSignal)
    (e : Fault) : exec timer a s ≠ some (.error (.source e)) := by
  intro hfails
  cases exec_fails hfails with
  | set n f _ halive hx he =>
      obtain ⟨w', hw', -⟩ := add_spec h (not_destroyed_of_alive halive) hx s.signalCount
      cases he.symm.trans hw'
  | delete x stack _ hstack halive hone he =>
      obtain ⟨w', hw', -⟩ := delete_spec h (not_destroyed_of_alive halive)
      cases he.symm.trans hw'

/-- A timer emits its signal at most once. Outside its callback it is armed while it has the
signal, and then it is a root, unless `di:exit` has dropped the roots. When it has expired it is
not armed again. None of its functions fails. -/
theorem timer_state_machine {exited : Bool} {signals : SignalId → SignalObject TimerSignal}
    {s : TimerState}
    (hrun : ReflTransGen Move {world := {life := .new exited}, signals := signals} s) :
    s.world.emitted ≤ 1 ∧
    (s.world.life.destroyed = false → s.world.life.callback = false →
      (s.world.armed ↔ s.world.signal.isSome) ∧
      (s.world.life.drained = false → (s.world.life.rooted ↔ s.world.signal.isSome))) ∧
    (s.world.emitted = 1 → s.world.armed = false ∧
      ∀ x, diTimerAddSignal x s.world = .ok s.world) ∧
    (s.world.life.freed → s.world.armed = false) ∧
    (∀ a e, exec timer a s ≠ some (.error (.source e))) ∧
    (s.world.armed → ∃ w, diTimerCallback s.world = .ok w) ∧
    (s.world.life.callback → ∃ w, diTimerCallbackEnd s.world = .ok w) ∧
    (s.world.life.referenced = false → s.world.life.destroyed = false →
      ∃ w, s.world.destroy = .ok w) := by
  have h : Invariant s.world := by
    induction hrun with
    | refl => exact invariant_init exited
    | tail _ hmove ih => exact ih.move hmove
  refine ⟨?_, ?_, ?_, ?_, h.exec_ok, ?_, ?_, ?_⟩
  · rw [h.emitted]
    split_ifs <;> omega
  · intro _ hcallback
    rw [h.armed hcallback]
    exact ⟨Iff.rfl, fun hdrained => by rw [h.rooted hdrained]⟩
  · intro hone
    have hspent : s.world.spent := by
      by_contra hs
      rw [h.emitted, if_neg hs] at hone
      cases hone
    exact ⟨h.spent hspent, fun x => by simp [diTimerAddSignal, hspent]⟩
  · exact fun hfreed => (h.destroyed (h.freed hfreed)).2.1
  · intro harmed
    obtain ⟨w, hw, -⟩ := callback_spec h harmed
    exact ⟨w, hw⟩
  · intro hcallback
    obtain ⟨w, hw, -⟩ := callbackEnd_spec h hcallback
    exact ⟨w, hw⟩
  · intro href hd
    obtain ⟨w, hw, -⟩ := destroy_spec h href hd
    exact ⟨w, hw⟩

theorem moves_perform (s : TimerState) (l : List (Action TimerSignal)) :
    ReflTransGen Move s (perform timer s l) :=
  performs (fun _ a _ hstep => .act a hstep) s l

/-- A timer with one listener. -/
def listened : TimerState :=
  perform timer {world := {life := .new false}, signals := fun _ => {signalName := .elapsed}}
    [.listen .elapsed 5]

/-- The timer has expired, and its callback has started to emit the signal. -/
def expiring : TimerState :=
  {listened with
    world := {listened.world with
      life := {listened.world.life with callback := true}
      armed := false
      spent := true
      emitted := 1}
    stack := [.emission ⟨0, [5], false, [5], [0], [], []⟩]}

/-- In the emission the handler stops itself, and attaches another listener. -/
theorem timer_state_machine_attachedAgain :
    (perform timer expiring [.callNext, .stop 0, .endRemoval, .listen .elapsed 6]).world.emitted = 1 ∧
    (perform timer expiring [.callNext, .stop 0, .endRemoval, .listen .elapsed 6]).world.armed =
      false := by
  have hstart : ReflTransGen Move
      {world := {life := .new false}, signals := fun _ => {signalName := .elapsed}} listened :=
    moves_perform _ _
  have hexpire : Move listened expiring := .expire _ rfl rfl rfl rfl rfl
  have hrun := (hstart.tail hexpire).trans
    (moves_perform expiring [.callNext, .stop 0, .endRemoval, .listen .elapsed 6])
  exact ⟨rfl, ((timer_state_machine hrun).2.2.1 rfl).1⟩

end Deai.Timers
