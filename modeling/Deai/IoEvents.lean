import Deai.ListenHandles
import Deai.EventSources

/-!
# File descriptor events and their listeners

Before `di:exit`, the watcher of a file descriptor event follows the listeners of its two
signals. This rests on `ev_io_modify`: where libev does not have it, `ev_io_set` leaves a bit in
the event mask that the test for an empty mask does not expect.
-/
namespace Deai.IoEvents
open Signal SignalRuns SignalCounts ListenHandles EventSources Relation

abbrev IoState := State IoSignal IoEv

/-- References come and go, and the object is destroyed when none is left. -/
inductive IoEnv (hasIoModify : Bool) (s : IoState) : IoEv → Prop where
  | life (l : Life) (hl : LifeStep s.world.life l) : IoEnv hasIoModify s {s.world with life := l}
  | destroy (w : IoEv) (href : s.world.life.referenced = false)
      (hold : s.world.life.destroyed = false) (hw : s.world.destroy hasIoModify = .ok w) :
      IoEnv hasIoModify s w

/-! ## The members -/

section
variable {m : Bool} {f : IoEvents} {w w' : IoEv}

/-- Starting and stopping the watcher changes nothing but the watcher and the root. -/
structure Frame (w w' : IoEv) : Prop where
  signals : w'.signals = w.signals
  outside : w'.life.outside = w.life.outside
  callback : w'.life.callback = w.life.callback
  destroyed : w'.life.destroyed = w.life.destroyed
  freed : w'.life.freed = w.life.freed
  drained : w'.life.drained = w.life.drained
  exited : w'.life.exited = w.life.exited

theorem Frame.refl (w : IoEv) : Frame w w := ⟨rfl, rfl, rfl, rfl, rfl, rfl, rfl⟩

theorem evIoStart_frame (h : evIoStart w = .ok w') : Frame w w' := by
  unfold evIoStart at h
  split_ifs at h <;> cases h
  · exact .refl w
  · exact ⟨rfl, rfl, rfl, rfl, rfl, rfl, rfl⟩

theorem diStartIoev_frame (h : diStartIoev w = .ok w') : Frame w w' := by
  unfold diStartIoev at h
  split_ifs at h
  · cases h
    exact .refl w
  · cases h
    exact .refl w
  · split at h
    · cases h
    · rename_i w₁ hw₁
      have hframe := evIoStart_frame hw₁
      unfold Life.addAnonymous at h
      cases hex : w₁.life.exited with
      | true => simp [hex] at h
      | false =>
          cases hroot : w₁.life.rooted with
          | true => simp [hex, hroot] at h
          | false =>
              simp only [hex, hroot, Bool.not_false, if_true, Bool.false_eq_true, if_false,
                Except.ok.injEq] at h
              subst h
              exact {hframe with exited := hex.symm.trans hframe.exited}

theorem diStopIoev_frame (h : diStopIoev w = .ok w') : Frame w w' := by
  have hroot : Frame w {w with
      active := false
      running := false
      life := w.life.removeAnonymous} := by
    cases hex : w.life.exited <;> constructor <;> simp [Life.removeAnonymous, hex]
  unfold diStopIoev evIoStop at h
  split_ifs at h <;> cases h
  · exact .refl w
  · exact .refl w
  · exact hroot

theorem diModifyIoev_frame (h : diModifyIoev m f w = .ok w') : Frame w w' := by
  unfold diModifyIoev at h
  dsimp only at h
  split_ifs at h
  · have hframe := diStartIoev_frame h
    exact {hframe with }
  · have hframe := diStopIoev_frame h
    exact {hframe with }
  · cases h
    exact ⟨rfl, rfl, rfl, rfl, rfl, rfl, rfl⟩

theorem ioev_set {n : IoSignal} {x : SignalId} :
    (ioev m).set n x w = enableSignal m n x w := by
  cases n <;> rfl

theorem ioev_delete {n : IoSignal} : (ioev m).delete n w = disableSignal m n w := by
  cases n <;> rfl

theorem ioev_set_eq {n : IoSignal} (hn : w.signals n = none) (x : SignalId) :
    (ioev m).set n x w = diModifyIoev m (w.events.setFlag true n)
      {w with signals := Function.update w.signals n (some x)} := by
  rw [ioev_set, enableSignal, hn]

theorem ioev_delete_eq {n : IoSignal} {x : SignalId} (hn : w.signals n = some x) :
    (ioev m).delete n w = diModifyIoev m (w.events.setFlag false n)
      {w with signals := Function.update w.signals n none} := by
  rw [ioev_delete, disableSignal, hn]

theorem ioev_delete_none {n : IoSignal} (hn : w.signals n = none) : (ioev m).delete n w = .ok w := by
  rw [ioev_delete, disableSignal, hn]

theorem ioev_set_signals {n : IoSignal} {x : SignalId} (hn : w.signals n = none)
    (h : (ioev m).set n x w = .ok w') : w'.signals = Function.update w.signals n (some x) := by
  rw [ioev_set_eq hn] at h
  exact (diModifyIoev_frame h).signals

theorem ioev_delete_signals {n : IoSignal} (h : (ioev m).delete n w = .ok w') :
    w'.signals = Function.update w.signals n none := by
  cases hn : w.signals n with
  | none =>
      rw [ioev_delete_none hn] at h
      cases h
      rw [← hn, Function.update_eq_self]
  | some x =>
      rw [ioev_delete_eq hn] at h
      exact (diModifyIoev_frame h).signals

theorem ioev_lawful : Lawful (ioev m) where
  set := by
    intro n x w w' hn hw
    have hsignals := ioev_set_signals hn hw
    constructor
    · left
      simp [ioev, hsignals]
    · intro n' hn'
      simp [ioev, hsignals, Function.update_of_ne hn']
  delete := by
    intro n w w' hw
    have hsignals := ioev_delete_signals hw
    constructor
    · simp [ioev, hsignals]
    · intro n' hn'
      simp [ioev, hsignals, Function.update_of_ne hn']

theorem destroy_gone {w w' : IoEv} (h : w.destroy m = .ok w') :
    w'.life.destroyed = true ∧ (∀ n, w'.signals n = none) ∧ w'.life.drained = w.life.drained ∧
      w'.life.exited = w.life.exited := by
  unfold IoEv.destroy at h
  cases hd : diIoevDtor m w with
  | error e =>
      rw [hd] at h
      cases h
  | ok w₁ =>
      rw [hd] at h
      cases h
      have hframe := diModifyIoev_frame hd
      exact ⟨rfl, fun _ => rfl, hframe.drained, hframe.exited⟩

theorem alive_of_lifeStep {l l' : Life} (h : LifeStep l l') (halive : l'.alive) : l.alive := by
  cases h with
  | take h => exact h
  | drop =>
      simp only [Life.alive, Life.referenced, Bool.false_or, Bool.and_eq_true] at halive ⊢
      rw [Bool.or_assoc, halive.1]
      exact ⟨Bool.or_true _, halive.2⟩
  | free h => exact halive

theorem not_alive_of_destroyed {w : IoEv} (h : w.life.destroyed = true) :
    (ioev m).alive w = false := by
  simp [ioev, Life.alive, h]

theorem ioEnv_fading : Fading (ioev m) (IoEnv m) where
  member := by
    intro s w hw n
    cases hw with
    | life l hl => exact .inl rfl
    | destroy w href hold hw => exact .inr ((destroy_gone hw).2.1 n)
  alive := by
    intro s w hw halive
    cases hw with
    | life l hl => exact alive_of_lifeStep hl halive
    | destroy w href hold hw =>
        rw [not_alive_of_destroyed (destroy_gone hw).1] at halive
        cases halive

theorem ioEnv_storing : Storing (ioev m) (IoEnv m) where
  set := by
    intro n x w w' hn hw
    simp [ioev, ioev_set_signals hn hw]
  keep := by
    intro s w hw halive n
    cases hw with
    | life l hl => rfl
    | destroy w href hold hw =>
        rw [not_alive_of_destroyed (destroy_gone hw).1] at halive
        cases halive

/-! ## The watcher and the root -/

/-- The watcher is active while the object is running, and then the object is a root, unless
`di:exit` has dropped the roots. -/
structure Sound (w : IoEv) : Prop where
  active : w.active = w.running
  freed : w.life.freed → w.life.destroyed
  destroyed : w.life.destroyed → w.running = false ∧ w.life.rooted = false ∧ ∀ n, w.signals n = none
  rooted : w.life.drained = false → w.life.rooted = w.running
  unrooted : w.life.exited = false → w.running = false → w.life.rooted = false
  exited : w.life.exited → w.life.drained

theorem sound_init {drained exited : Bool} (h : exited → drained) :
    Sound {life := {drained := drained, exited := exited}} := by
  constructor <;> simp_all

theorem Sound.not_freed (h : Sound w) (hd : w.life.destroyed = false) : w.life.freed = false := by
  by_contra hf
  rw [h.freed (by simpa using hf)] at hd
  cases hd

theorem Sound.setEvents (h : Sound w) (e : IoEvents) : Sound {w with events := e} := {h with }

theorem Sound.setSignals (h : Sound w) (hd : w.life.destroyed = false)
    (g : IoSignal → Option SignalId) : Sound {w with signals := g} :=
  {h with destroyed := fun hd' => absurd (hd.symm.trans hd') (by simp)}

/-- `di_start_ioev` on an object that is there. -/
theorem Sound.diStartIoev_eq (h : Sound w) (hd : w.life.destroyed = false)
    (hrun : w.running = false) :
    diStartIoev w = if w.life.exited then .error .check else .ok {w with
      events := {w.events with fdSet := false}
      active := true
      running := true
      life := {w.life with rooted := true}} := by
  have hactive : w.active = false := h.active.trans hrun
  cases hex : w.life.exited with
  | true =>
      simp [diStartIoev, hrun, Life.deai, hd, evIoStart, h.not_freed hd, hactive,
        Life.addAnonymous, hex]
  | false =>
      simp [diStartIoev, hrun, Life.deai, hd, evIoStart, h.not_freed hd, hactive,
        Life.addAnonymous, hex, h.unrooted hex hrun]

theorem Sound.diStopIoev_eq (h : Sound w) (hd : w.life.destroyed = false) (hrun : w.running = true) :
    diStopIoev w = .ok {w with
      active := false
      running := false
      life := w.life.removeAnonymous} := by
  simp [diStopIoev, hrun, Life.deai, hd, evIoStop, h.not_freed hd]

theorem Sound.started (h : Sound w) (hd : w.life.destroyed = false) (e : IoEvents) :
    Sound {w with
      events := e
      active := true
      running := true
      life := {w.life with rooted := true}} where
  active := rfl
  freed := h.freed
  destroyed hd' := absurd (hd.symm.trans hd') (by simp)
  rooted _ := rfl
  unrooted _ := nofun
  exited := h.exited

theorem Sound.stopped (h : Sound w) (hd : w.life.destroyed = false) :
    Sound {w with
      active := false
      running := false
      life := w.life.removeAnonymous} := by
  have hexited := h.exited
  have hfreed := h.not_freed hd
  cases hex : w.life.exited with
  | true => constructor <;> simp_all [Life.removeAnonymous]
  | false => constructor <;> simp_all [Life.removeAnonymous]

theorem removeAnonymous_life (l : Life) :
    l.removeAnonymous.destroyed = l.destroyed ∧ (l.removeAnonymous.rooted → l.rooted) := by
  cases hex : l.exited <;> simp [Life.removeAnonymous, hex]

/-- `di_modify_ioev` fails only when it has to start the watcher after `di:exit`. -/
theorem Sound.diModifyIoev (h : Sound w) (hd : w.life.destroyed = false)
    (hex : w.life.exited = false ∨ w.running = true ∨ f = {}) :
    ∃ w', diModifyIoev m f w = .ok w' ∧ Sound w' ∧ w'.life.destroyed = false ∧
      (f = {} → w'.running = false ∧ (w'.life.rooted → w.life.rooted)) := by
  have he := h.setEvents (modifiedEvents m w.events f)
  unfold EventSources.diModifyIoev
  dsimp only
  split_ifs with hstart hstop
  · have hexited : w.life.exited = false := by
      rcases hex with hex | hrun | hflags
      · exact hex
      · rw [hstart.1] at hrun
        cases hrun
      · exact absurd hflags hstart.2
    rw [he.diStartIoev_eq hd hstart.1, if_neg (by simp [hexited])]
    exact ⟨_, rfl, h.started hd _, hd, fun hflags => absurd hflags hstart.2⟩
  · rw [he.diStopIoev_eq hd hstop.1]
    obtain ⟨hdestroyed, hrooted⟩ := removeAnonymous_life w.life
    exact ⟨_, rfl, he.stopped hd, hdestroyed.trans hd, fun _ => ⟨rfl, hrooted⟩⟩
  · refine ⟨_, rfl, he, hd, fun hflags => ⟨?_, id⟩⟩
    by_contra hrun
    exact hstop ⟨by simpa using hrun, hflags⟩

/-- Whatever `di_modify_ioev` returns is sound. -/
theorem Sound.of_diModifyIoev (h : Sound w) (hd : w.life.destroyed = false)
    (hw : EventSources.diModifyIoev m f w = .ok w') : Sound w' := by
  by_cases hex : w.life.exited = false ∨ w.running = true ∨ f = {}
  · obtain ⟨w₁, hw₁, h₁, -⟩ := h.diModifyIoev (m := m) hd hex
    cases hw.symm.trans hw₁
    exact h₁
  · simp only [not_or, Bool.not_eq_false, Bool.not_eq_true] at hex
    rw [EventSources.diModifyIoev, if_pos ⟨hex.2.1, hex.2.2⟩,
      (h.setEvents (modifiedEvents m w.events f)).diStartIoev_eq hd hex.2.1, if_pos hex.1] at hw
    cases hw

theorem Sound.of_set (h : Sound w) (hd : w.life.destroyed = false) {n : IoSignal} {x : SignalId}
    (hn : w.signals n = none) (hw : (ioev m).set n x w = .ok w') : Sound w' := by
  rw [ioev_set_eq hn] at hw
  exact (h.setSignals hd (Function.update w.signals n (some x))).of_diModifyIoev hd hw

theorem Sound.of_delete (h : Sound w) (hd : w.life.destroyed = false) {n : IoSignal}
    (hw : (ioev m).delete n w = .ok w') : Sound w' := by
  cases hn : w.signals n with
  | none =>
      rw [ioev_delete_none hn] at hw
      cases hw
      exact h
  | some x =>
      rw [ioev_delete_eq hn] at hw
      exact (h.setSignals hd (Function.update w.signals n none)).of_diModifyIoev hd hw

theorem Sound.set (h : Sound w) (hd : w.life.destroyed = false) {n : IoSignal} {x : SignalId}
    (hn : w.signals n = none) (hex : w.life.exited = false ∨ w.running = true) :
    ∃ w', (ioev m).set n x w = .ok w' ∧ Sound w' := by
  obtain ⟨w', hw', h', -⟩ := (h.setSignals hd (Function.update w.signals n (some x))).diModifyIoev
    (m := m) (f := w.events.setFlag true n) hd
    (hex.elim .inl fun hrun => .inr (.inl hrun))
  exact ⟨w', (ioev_set_eq hn x).trans hw', h'⟩

theorem Sound.delete (h : Sound w) (hd : w.life.destroyed = false) {n : IoSignal}
    (hex : w.life.exited = false ∨ w.running = true ∨ w.signals n = none) :
    ∃ w', (ioev m).delete n w = .ok w' ∧ Sound w' := by
  cases hn : w.signals n with
  | none => exact ⟨w, ioev_delete_none hn, h⟩
  | some x =>
      rw [hn] at hex
      obtain ⟨w', hw', h', -⟩ := (h.setSignals hd (Function.update w.signals n none)).diModifyIoev
        (m := m) (f := w.events.setFlag false n) hd
        (hex.imp id fun hrun => .inl (hrun.resolve_right (by simp)))
      exact ⟨w', (ioev_delete_eq hn).trans hw', h'⟩

theorem Sound.destroy (h : Sound w) (href : w.life.referenced = false)
    (hd : w.life.destroyed = false) : ∃ w', w.destroy m = .ok w' ∧ Sound w' := by
  obtain ⟨w₁, hw₁, h₁, hd₁, hstop⟩ :=
    h.diModifyIoev (m := m) (f := {}) hd (.inr (.inr rfl))
  obtain ⟨hrun, hroot⟩ := hstop rfl
  simp only [Life.referenced, Bool.or_eq_false_iff] at href
  have hrooted : w₁.life.rooted = false := by
    by_contra hr
    rw [hroot (by simpa using hr)] at href
    cases href.1.2
  refine ⟨{w₁ with life := {w₁.life with destroyed := true}, signals := fun _ => none}, ?_, ?_⟩
  · simp [IoEv.destroy, diIoevDtor, hw₁, Except.map]
  · exact {h₁ with
      freed := fun _ => rfl
      destroyed := fun _ => ⟨hrun, hrooted, fun _ => rfl⟩}

theorem Sound.lifeStep (h : Sound w) {l : Life} (hl : LifeStep w.life l) :
    Sound {w with life := l} := by
  cases hl with
  | take halive => exact {h with }
  | drop => exact {h with }
  | free hd => exact {h with freed := fun _ => hd}

theorem Sound.exit (h : Sound w) (hdrained : w.life.drained) :
    Sound {w with life := w.life.exit} :=
  {h with exited := fun _ => hdrained, unrooted := nofun}

theorem Sound.drain (h : Sound w) : Sound {w with life := w.life.drain} where
  active := h.active
  freed := h.freed
  destroyed hd := ⟨(h.destroyed hd).1, rfl, (h.destroyed hd).2.2⟩
  rooted := nofun
  unrooted _ _ := rfl
  exited _ := rfl

/-- The flags after `di_modify_ioev` are those that it was called with, and the object is
running unless they are empty. -/
theorem Sound.diModifyIoev_flags (h : Sound w) (hd : w.life.destroyed = false)
    (hw : EventSources.diModifyIoev m f w = .ok w') :
    (∀ n, w'.events.flag n = f.flag n) ∧ (w'.running = true ↔ f ≠ {}) := by
  have he := h.setEvents (modifiedEvents m w.events f)
  have hflag : ∀ n, (modifiedEvents m w.events f).flag n = f.flag n := by
    intro n
    cases m <;> cases n <;> rfl
  unfold EventSources.diModifyIoev at hw
  dsimp only at hw
  split_ifs at hw with hstart hstop
  · rw [he.diStartIoev_eq hd hstart.1] at hw
    split_ifs at hw
    cases hw
    refine ⟨fun n => ?_, fun _ => hstart.2, fun _ => rfl⟩
    rw [← hflag n]
    cases n <;> rfl
  · rw [he.diStopIoev_eq hd hstop.1] at hw
    cases hw
    exact ⟨hflag, nofun, fun hne => absurd hstop.2 hne⟩
  · cases hw
    refine ⟨hflag, fun hrun hzero => hstop ⟨hrun, hzero⟩, fun hne => ?_⟩
    by_contra hrun
    exact hstart ⟨by simpa using hrun, hne⟩

theorem flag_of_ne_zero {e : IoEvents} (h : e ≠ {}) (hfd : e.fdSet = false) :
    (e.read || e.write) = true := by
  by_contra hzero
  simp only [Bool.or_eq_true, not_or, Bool.not_eq_true] at hzero
  apply h
  cases e
  simp_all

/-- The bit of libev is not set again while the object is running. -/
theorem Sound.diModifyIoev_fdSet (h : Sound w) (hd : w.life.destroyed = false)
    (hw : EventSources.diModifyIoev true f w = .ok w')
    (hrunning : w.running = true → f.fdSet = false ∧ w.events.fdSet = false) :
    w'.running → w'.events.fdSet = false := by
  have he := h.setEvents (modifiedEvents true w.events f)
  unfold EventSources.diModifyIoev at hw
  dsimp only at hw
  split_ifs at hw with hstart hstop
  · rw [he.diStartIoev_eq hd hstart.1] at hw
    split_ifs at hw
    cases hw
    exact fun _ => rfl
  · rw [he.diStopIoev_eq hd hstop.1] at hw
    cases hw
    exact nofun
  · cases hw
    intro hrun
    simp [modifiedEvents, (hrunning hrun).1, (hrunning hrun).2]

theorem flag_setFlag (e : IoEvents) (b : Bool) (n n' : IoSignal) :
    (e.setFlag b n).flag n' = if n' = n then b else e.flag n' := by
  cases n <;> cases n' <;> rfl

theorem flag_ne_zero {e : IoEvents} {n : IoSignal} (h : e.flag n = true) : e ≠ {} := by
  rintro rfl
  cases n <;> cases h

/-! ## The events, where libev has `ev_io_modify` -/

/-- The flags of the watcher are those of the signals, and the object is running while one of
them is set. -/
structure Mirror (w : IoEv) : Prop where
  flag : ∀ n, w.events.flag n = (w.signals n).isSome
  running : w.running = (w.events.read || w.events.write)
  fdSet : w.running → w.events.fdSet = false

theorem fdSet_setFlag (e : IoEvents) (b : Bool) (n : IoSignal) : (e.setFlag b n).fdSet = e.fdSet := by
  cases n <;> rfl

/-- The signals and the flags change together. -/
theorem Mirror.modify (hs : Sound w) (hd : w.life.destroyed = false) (h : Mirror w) {n : IoSignal}
    {y : Option SignalId} (hw : diModifyIoev true (w.events.setFlag y.isSome n)
      {w with signals := Function.update w.signals n y} = .ok w')
    (hset : w.running = false → y.isSome) : Mirror w' := by
  have hsound := hs.setSignals hd (Function.update w.signals n y)
  obtain ⟨hflag, hrunning⟩ := hsound.diModifyIoev_flags hd hw
  refine ⟨?_, ?_, ?_⟩
  · intro n'
    rw [hflag, flag_setFlag, (diModifyIoev_frame hw).signals]
    by_cases hn' : n' = n
    · subst hn'
      simp
    · simp [hn', h.flag n']
  · rw [Bool.eq_iff_iff, hrunning]
    constructor
    · intro hne
      cases hrun : w.running with
      | true =>
          have hone := flag_of_ne_zero hne ((fdSet_setFlag ..).trans (h.fdSet hrun))
          have hread := hflag .read
          have hwrite := hflag .write
          simp only [IoEvents.flag] at hread hwrite
          rw [hread, hwrite]
          exact hone
      | false =>
          have hn := hflag n
          rw [flag_setFlag, if_pos rfl, hset hrun] at hn
          cases n <;> simp_all [IoEvents.flag]
    · intro hone hzero
      have hread := hflag .read
      have hwrite := hflag .write
      rw [hzero] at hread hwrite
      simp only [IoEvents.flag] at hread hwrite
      rw [hread, hwrite] at hone
      cases hone
  · apply hsound.diModifyIoev_fdSet hd hw
    exact fun hrun => ⟨(fdSet_setFlag ..).trans (h.fdSet hrun), h.fdSet hrun⟩

theorem Mirror.set (hs : Sound w) (hd : w.life.destroyed = false) (h : Mirror w) {n : IoSignal}
    {x : SignalId} (hn : w.signals n = none) (hw : (ioev true).set n x w = .ok w') : Mirror w' := by
  rw [ioev_set_eq hn] at hw
  exact h.modify hs hd (y := some x) hw fun _ => rfl

theorem Mirror.delete (hs : Sound w) (hd : w.life.destroyed = false) (h : Mirror w) {n : IoSignal}
    (hw : (ioev true).delete n w = .ok w') : Mirror w' := by
  cases hn : w.signals n with
  | none =>
      rw [ioev_delete_none hn] at hw
      cases hw
      exact h
  | some x =>
      have hrun : w.running = true := by
        have hset := h.flag n
        rw [hn] at hset
        rw [h.running]
        cases n <;> simp_all [IoEvents.flag]
      rw [ioev_delete_eq hn] at hw
      exact h.modify hs hd (y := none) hw fun hstopped => by cases hrun.symm.trans hstopped

theorem Mirror.destroy (hs : Sound w) (hd : w.life.destroyed = false)
    (hw : w.destroy true = .ok w') : Mirror w' := by
  unfold IoEv.destroy diIoevDtor at hw
  cases hm : diModifyIoev true {} w with
  | error e =>
      rw [hm] at hw
      cases hw
  | ok w₁ =>
      rw [hm] at hw
      cases hw
      obtain ⟨hflag, hrunning⟩ := hs.diModifyIoev_flags hd hm
      have hstopped : w₁.running = false := by
        by_contra hrun
        exact hrunning.mp (by simpa using hrun) rfl
      have hread := hflag .read
      have hwrite := hflag .write
      simp only [IoEvents.flag] at hread hwrite
      refine ⟨fun n => ?_, ?_, fun hrun => ?_⟩
      · cases n <;> simpa [IoEvents.flag]
      · simp [hstopped, hread, hwrite]
      · cases hstopped.symm.trans hrun

end

/-! ## Runs -/

/-- All that holds in every state before `di:exit`. -/
structure IoInvariant (s : IoState) : Prop where
  listeners : Invariant (ioev true) s
  distinct : Distinct s
  used : Used (ioev true) s
  sound : Sound s.world
  mirror : Mirror s.world
  drained : s.world.life.drained = false

theorem IoInvariant.exited {s : IoState} (h : IoInvariant s) : s.world.life.exited = false := by
  by_contra hex
  cases h.drained.symm.trans (h.sound.exited (by simpa using hex))

theorem not_destroyed_of_alive {m : Bool} {w : IoEv} (halive : (ioev m).alive w) :
    w.life.destroyed = false := by
  simp only [ioev, Life.alive, Bool.and_eq_true, Bool.not_eq_true'] at halive
  exact halive.2

theorem ioInvariant_init {signals : SignalId → SignalObject IoSignal} :
    IoInvariant {world := {}, signals := signals} where
  listeners := invariant_init fun _ => rfl
  distinct k _ hk := absurd hk (Nat.not_lt_zero k)
  used _ _ _ hx := by cases hx
  sound := sound_init nofun
  mirror := ⟨fun n => by cases n <;> rfl, rfl, nofun⟩
  drained := rfl

theorem IoInvariant.act {s s' : IoState} (h : IoInvariant s) {a : Action IoSignal}
    (ha : Once s a) (hstep : Step (ioev true) s a s') : IoInvariant s' := by
  have heff := step_effect hstep
  have hworld : Sound s'.world ∧ Mirror s'.world ∧ s'.world.life.drained = false := by
    have hhook := step_world hstep
    generalize s'.world = w at hhook ⊢
    cases hhook with
    | same hw =>
        rw [hw]
        exact ⟨h.sound, h.mirror, h.drained⟩
    | set n f halive hn hset =>
        have hd := not_destroyed_of_alive halive
        refine ⟨h.sound.of_set hd hn hset, h.mirror.set h.sound hd hn hset, ?_⟩
        rw [ioev_set_eq hn] at hset
        exact (diModifyIoev_frame hset).drained.trans h.drained
    | delete x stack hstack halive hone hdel =>
        have hd := not_destroyed_of_alive halive
        refine ⟨h.sound.of_delete hd hdel, h.mirror.delete h.sound hd hdel, ?_⟩
        cases hn : s.world.signals (s.signals x).signalName with
        | none =>
            rw [ioev_delete_none hn] at hdel
            rw [← Except.ok.inj hdel]
            exact h.drained
        | some y =>
            rw [ioev_delete_eq hn] at hdel
            exact (diModifyIoev_frame hdel).drained.trans h.drained
  have hapart := Apart.of_once h.listeners h.distinct ha hstep
  exact ⟨h.listeners.act ioev_lawful ioEnv_storing hapart hstep, h.distinct.effect ha heff,
    h.used.tally ioev_lawful h.listeners.counts (effect_tally heff), hworld.1, hworld.2.1,
    hworld.2.2⟩

theorem drained_of_lifeStep {l l' : Life} (h : LifeStep l l') : l'.drained = l.drained := by
  cases h <;> rfl

theorem IoInvariant.env {s : IoState} (h : IoInvariant s) {w : IoEv} (hw : IoEnv true s w) :
    IoInvariant {s with world := w} := by
  have hworld : Sound w ∧ Mirror w ∧ w.life.drained = false := by
    cases hw with
    | life l hl =>
        exact ⟨h.sound.lifeStep hl, ⟨h.mirror.flag, h.mirror.running, h.mirror.fdSet⟩,
          (drained_of_lifeStep hl).trans h.drained⟩
    | destroy w href hold hw =>
        obtain ⟨w', hw', hsound⟩ := h.sound.destroy (m := true) href hold
        cases hw.symm.trans hw'
        exact ⟨hsound, Mirror.destroy h.sound hold hw, (destroy_gone hw).2.2.1.trans h.drained⟩
  refine ⟨h.listeners.env ioEnv_fading ioEnv_storing hw, h.distinct, ?_, hworld.1, hworld.2.1,
    hworld.2.2⟩
  intro halive n x hx
  rcases ioEnv_fading.member hw n with hsame | hnone
  · exact h.used (ioEnv_fading.alive hw halive) n x (hsame.symm.trans hx)
  · cases hnone.symm.trans hx

theorem run_ioInvariant {signals : SignalId → SignalObject IoSignal} {s : IoState}
    (hrun : ReflTransGen (Move (ioev true) Once (IoEnv true)) {world := {}, signals := signals} s) :
    IoInvariant s := by
  induction hrun with
  | refl => exact ioInvariant_init
  | tail _ hmove ih =>
      cases hmove with
      | act a ha hstep => exact ih.act ha hstep
      | env w hw => exact ih.env hw

/-- The signals of the object follow their listeners, a call of `stop` that has not returned
included, the watcher follows the signals, the root follows the watcher, and no check fails. -/
structure Follows (hasIoModify : Bool) (s : IoState) : Prop where
  listened : (ioev hasIoModify).alive s.world → ∀ n, ((s.world.signals n).isSome ↔
    (∃ k, k < s.handleCount ∧ (s.handles k).ended = false ∧
      (s.signals (s.handles k).weakSignal).signalName = n) ∨
    ∃ x, s.world.signals n = some x ∧ 0 < removals s x)
  flag : (ioev hasIoModify).alive s.world → ∀ n,
    (s.world.events.flag n ↔ (s.world.signals n).isSome)
  running : (ioev hasIoModify).alive s.world → (s.world.running ↔ ∃ n, s.world.events.flag n)
  rooted : (ioev hasIoModify).alive s.world → (s.world.life.rooted ↔ s.world.running)
  checks : ∀ a e, exec (ioev hasIoModify) a s ≠ some (.error (.source e))

theorem IoInvariant.listened {s : IoState} (h : IoInvariant s) (halive : (ioev true).alive s.world)
    (n : IoSignal) : (s.world.signals n).isSome ↔
      (∃ k, k < s.handleCount ∧ (s.handles k).ended = false ∧
        (s.signals (s.handles k).weakSignal).signalName = n) ∨
      ∃ x, s.world.signals n = some x ∧ 0 < removals s x := by
  obtain ⟨hcounts, hattached, hmatched, -, -⟩ := h.listeners
  constructor
  · intro hsome
    obtain ⟨x, hx⟩ := Option.isSome_iff_exists.mp hsome
    obtain ⟨hlt, hname⟩ := hcounts.member n x hx
    have hpos := h.used halive n x hx
    have hcount := (hcounts.counted x hlt).count
    rcases Nat.eq_zero_or_pos (removals s x) with hzero | hremoval
    · left
      have hne : (s.signals x).handlers ≠ [] := by
        apply List.ne_nil_of_length_pos
        omega
      obtain ⟨f, hf⟩ := List.exists_mem_of_ne_nil _ hne
      obtain ⟨k, hk, -⟩ := hmatched.registered_of_mem halive hlt hf
      obtain ⟨hklt, hactive, hsig⟩ := mem_registered.mp hk
      exact ⟨k, hklt, hactive, by rw [hsig, hname]⟩
    · exact .inr ⟨x, hx, hremoval⟩
  · rintro (⟨k, hk, hactive, hname⟩ | ⟨x, hx, -⟩)
    · have hmember := (hmatched.member hcounts hattached halive hk hactive).1
      rw [hname] at hmember
      exact Option.isSome_iff_exists.mpr ⟨_, hmember⟩
    · exact Option.isSome_iff_exists.mpr ⟨x, hx⟩

theorem IoInvariant.checks {s : IoState} (h : IoInvariant s) (a : Action IoSignal) (e : Fault) :
    exec (ioev true) a s ≠ some (.error (.source e)) := by
  intro hfails
  cases exec_fails hfails with
  | set n f _ halive hx he =>
      obtain ⟨w', hw', -⟩ := h.sound.set (m := true) (x := s.signalCount)
        (not_destroyed_of_alive halive) hx (.inl h.exited)
      cases he.symm.trans hw'
  | delete x stack _ hstack halive hone he =>
      obtain ⟨w', hw', -⟩ := h.sound.delete (m := true) (n := (s.signals x).signalName)
        (not_destroyed_of_alive halive) (.inl h.exited)
      cases he.symm.trans hw'

theorem IoInvariant.follows {s : IoState} (h : IoInvariant s) : Follows true s where
  listened := h.listened
  flag _ n := by rw [h.mirror.flag n]
  running _ := by
    rw [h.mirror.running, Bool.or_eq_true]
    constructor
    · rintro (hread | hwrite)
      · exact ⟨.read, hread⟩
      · exact ⟨.write, hwrite⟩
    · rintro ⟨n, hn⟩
      cases n with
      | read => exact .inl hn
      | write => exact .inr hn
  rooted _ := by rw [h.sound.rooted h.drained]
  checks := h.checks

/-- A new file descriptor event. -/
def newIoev : IoState := {world := {}, signals := fun _ => {signalName := .read}}

/-- Both signals get a listener, and lose it again. -/
def bothStopped : List (Action IoSignal) :=
  [.listen .read 5, .listen .write 6, .stop 0, .endRemoval, .stop 1, .endRemoval]

/-- Without `ev_io_modify` the object is still running, with no flag set. -/
theorem fdevent_keeps_running :
    ReflTransGen (Move (ioev false) Once (IoEnv false)) newIoev
      (perform (ioev false) newIoev bothStopped) ∧
    (ioev false).alive (perform (ioev false) newIoev bothStopped).world = true ∧
    (perform (ioev false) newIoev bothStopped).world.running = true ∧
    (∀ n, (perform (ioev false) newIoev bothStopped).world.events.flag n = false) ∧
    ¬ Follows false (perform (ioev false) newIoev bothStopped) := by
  have halive : (ioev false).alive (perform (ioev false) newIoev bothStopped).world = true := by decide
  have hrun : (perform (ioev false) newIoev bothStopped).world.running = true := by decide
  have hflag : ∀ n, (perform (ioev false) newIoev bothStopped).world.events.flag n = false := by
    intro n
    cases n <;> decide
  refine ⟨reaches_perform _ (by decide), halive, hrun, hflag, ?_⟩
  intro hfollows
  obtain ⟨n, hn⟩ := (hfollows.running halive).mp hrun
  rw [hflag n] at hn
  cases hn

/-- A file descriptor event follows its listeners in every run before `di:exit`, when every
handler object is registered once, if and only if libev has `ev_io_modify`. -/
theorem fdevent_follows_listeners (hasIoModify : Bool) :
    (∀ (signals : SignalId → SignalObject IoSignal) (s : IoState),
      ReflTransGen (Move (ioev hasIoModify) Once (IoEnv hasIoModify))
        {world := {}, signals := signals} s → Follows hasIoModify s) ↔ hasIoModify = true := by
  constructor
  · intro h
    cases hasIoModify with
    | true => rfl
    | false =>
        have hrun : ReflTransGen (Move (ioev false) Once (IoEnv false)) newIoev
            (perform (ioev false) newIoev bothStopped) := reaches_perform _ (by decide)
        have hfollows := h _ _ hrun
        obtain ⟨n, hn⟩ := (hfollows.running (by decide)).mp (by decide)
        revert hn
        cases n <;> decide
  · rintro rfl signals s hrun
    exact (run_ioInvariant hrun).follows

end Deai.IoEvents
