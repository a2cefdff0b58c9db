import Deai.AfterExit

/-!
# Callbacks and their handlers

libev calls the callback of an event object from the main loop, and the callback goes on after
the handlers of the signals that it emits. What it still has to do is a script; it lies below
the frames of the emission. User code runs while there are frames, and where the destruction of
a listener can call it. The callbacks of timers and child processes hold a reference to their
object. The callback of a file descriptor event does not, and emits up to two signals.
-/
namespace Deai.Callbacks
open Signal SignalRuns EventSources IoEvents Watchers AfterExit Relation

/-! ## Scripts -/

/-- What a callback still has to do. At a pause user code may run. -/
inductive Script (Name World : Type) where
  | done
  | pause (rest : Script Name World)
  | emit (n : Name) (rest : Script Name World)
  | access (f : World → Except Fault World) (rest : Script Name World)
  | branch (c : World → Bool) (yes no : Script Name World)

/-- A kind of event objects: their signals, the callbacks that libev may call, and what user
code and everything else may do to an object. -/
structure Kind (Name World : Type) where
  source : Source Name World Fault
  life : World → Life
  callback : World → Script Name World → Prop
  move : State Name World → State Name World → Prop

structure Turn (Name World : Type) where
  state : State Name World
  rest : Script Name World := .done

section
variable {Name World : Type} [DecidableEq Name]

/-- The callback goes on, when no emission is under way. Everything but a pause touches the
object. -/
def proceed (K : Kind Name World) (t : Turn Name World) :
    Option (Except (Failure Fault) (Turn Name World)) :=
  match t.state.stack, t.rest with
  | _ :: _, _ => none
  | [], .done => none
  | [], .pause k => some (.ok {t with rest := k})
  | [], .emit n k =>
      if (K.life t.state.world).referenced then
        match diEmitn K.source n t.state with
        | .ok s => some (.ok ⟨s, k⟩)
        | .error e => some (.error e)
      else some (.error (.source .dead))
  | [], .access f k =>
      if (K.life t.state.world).referenced then
        match f t.state.world with
        | .ok w => some (.ok ⟨{t.state with world := w}, k⟩)
        | .error e => some (.error (.source e))
      else some (.error (.source .dead))
  | [], .branch c k₁ k₂ =>
      if (K.life t.state.world).referenced then
        some (.ok {t with rest := if c t.state.world then k₁ else k₂})
      else some (.error (.source .dead))

/-- User code runs in an emission, at a pause, and when there is no callback. -/
def Turn.Open (t : Turn Name World) : Prop :=
  t.state.stack ≠ [] ∨ t.rest = .done ∨ ∃ k, t.rest = .pause k

/-- In the main loop, an object without references has been destroyed. -/
inductive TurnStep (K : Kind Name World) (P : Script Name World → State Name World →
    State Name World → Prop) (t : Turn Name World) : Turn Name World → Prop where
  | user (s : State Name World) (hopen : t.Open) (hmove : K.move t.state s)
      (hP : P t.rest t.state s) : TurnStep K P t {t with state := s}
  | start (k : Script Name World) (hstack : t.state.stack = []) (hdone : t.rest = .done)
      (hcallback : K.callback t.state.world k)
      (hsettled : (K.life t.state.world).referenced ∨ (K.life t.state.world).destroyed) :
      TurnStep K P t {t with rest := k}
  | proceed (t' : Turn Name World) (h : Callbacks.proceed K t = some (.ok t')) : TurnStep K P t t'

/-! ## A rule for callbacks -/

/-- The access does not touch memory that is gone. -/
def Fault.Mild (e : Fault) : Prop := e ≠ .dead ∧ e ≠ .freed

section
variable (K : Kind Name World) (Inv Held : World → Prop)

/-- The script never touches a dead object, if user code keeps `Inv` always, and `Held` while the
script is not done. -/
def Script.Safe : Script Name World → World → Prop
  | .done, _ => True
  | .pause k, w => Held w ∧ ∀ w', Inv w' → Held w' → Safe k w'
  | .emit _ k, w => (K.life w).referenced ∧
      (k = .done ∨ Held w ∧ ∀ w', Inv w' → Held w' → Safe k w')
  | .access f k, w => (K.life w).referenced ∧ (∀ w', f w = .ok w' → Inv w' ∧ Safe k w') ∧
      ∀ e, f w = .error e → Fault.Mild e
  | .branch c k₁ k₂, w => (K.life w).referenced ∧ if c w then Safe k₁ w else Safe k₂ w

structure Turn.Sound (t : Turn Name World) : Prop where
  inv : Inv t.state.world
  running : t.state.stack = [] → t.rest.Safe K Inv Held t.state.world
  waiting : t.state.stack ≠ [] → t.rest = .done ∨
    Held t.state.world ∧ ∀ w, Inv w → Held w → t.rest.Safe K Inv Held w

structure Respects (P : Script Name World → State Name World → State Name World → Prop) : Prop where
  inv : ∀ {k s s'}, K.move s s' → P k s s' → Inv s.world → Inv s'.world
  held : ∀ {k s s'}, k ≠ .done → K.move s s' → P k s s' → Inv s.world → Held s.world → Held s'.world
  callback : ∀ {w k}, Inv w → K.callback w k → ((K.life w).referenced ∨ (K.life w).destroyed) →
    k.Safe K Inv Held w

end

variable {K : Kind Name World} {Inv Held : World → Prop}
  {P : Script Name World → State Name World → State Name World → Prop} {t t' : Turn Name World}

theorem Turn.Sound.proceed (h : t.Sound K Inv Held) (hp : Callbacks.proceed K t = some (.ok t')) :
    t'.Sound K Inv Held := by
  unfold Callbacks.proceed at hp
  obtain ⟨s, k⟩ := t
  cases hstack : s.stack with
  | cons f stack => simp [hstack] at hp
  | nil =>
      have hsafe := h.running hstack
      have hinv : Inv s.world := h.inv
      cases k with
      | done => simp [hstack] at hp
      | pause k =>
          simp only [hstack, Option.some.injEq, Except.ok.injEq] at hp
          subst hp
          exact ⟨h.inv, fun _ => hsafe.2 _ h.inv hsafe.1, fun hne => absurd hstack hne⟩
      | emit n k =>
          simp only [hstack, show (K.life s.world).referenced = true from hsafe.1, if_true] at hp
          split at hp <;> cases hp
          rename_i s' hemit
          have hworld := diEmitn_world hemit
          refine ⟨?_, ?_, fun _ => ?_⟩
          · change Inv s'.world
            rwa [hworld]
          · intro _
            change k.Safe K Inv Held s'.world
            rw [hworld]
            rcases hsafe.2 with rfl | ⟨hheld, hk⟩
            · trivial
            · exact hk _ hinv hheld
          · change k = .done ∨ Held s'.world ∧ _
            rw [hworld]
            exact hsafe.2
      | access f k =>
          simp only [hstack, show (K.life s.world).referenced = true from hsafe.1, if_true] at hp
          split at hp <;> cases hp
          rename_i w hw
          obtain ⟨hinv', hk⟩ := hsafe.2.1 w hw
          exact ⟨hinv', fun _ => hk, fun hne => absurd rfl hne⟩
      | branch c k₁ k₂ =>
          simp only [hstack, show (K.life s.world).referenced = true from hsafe.1, if_true,
            Option.some.injEq, Except.ok.injEq] at hp
          subst hp
          refine ⟨h.inv, fun _ => ?_, fun hne => absurd hstack hne⟩
          have hbranch := hsafe.2
          cases hc : c s.world <;> simpa [hc] using hbranch

omit [DecidableEq Name] in
theorem Respects.user (hR : Respects K Inv Held P) (h : t.Sound K Inv Held) {s : State Name World}
    (hopen : t.Open) (hmove : K.move t.state s) (hP : P t.rest t.state s) :
    Turn.Sound K Inv Held {t with state := s} := by
  obtain ⟨s₀, k⟩ := t
  have hinv' : Inv s.world := hR.inv hmove hP h.inv
  by_cases hdone : k = .done
  · subst hdone
    exact ⟨hinv', fun _ => trivial, fun _ => .inl rfl⟩
  · have hkept : Held s₀.world ∧ ∀ w, Inv w → Held w → k.Safe K Inv Held w := by
      rcases hopen with hstack | hd | ⟨k', rfl⟩
      · exact (h.waiting hstack).resolve_left hdone
      · exact absurd hd hdone
      · by_cases hstack : s₀.stack = []
        · have hsafe := h.running hstack
          exact ⟨hsafe.1, fun w _ hw => ⟨hw, hsafe.2⟩⟩
        · exact (h.waiting hstack).resolve_left hdone
    have hheld : Held s.world := hR.held hdone hmove hP h.inv hkept.1
    exact ⟨hinv', fun _ => hkept.2 _ hinv' hheld, fun _ => .inr ⟨hheld, hkept.2⟩⟩

theorem Respects.step (hR : Respects K Inv Held P) (h : t.Sound K Inv Held)
    (hstep : TurnStep K P t t') : t'.Sound K Inv Held := by
  cases hstep with
  | user s hopen hmove hP => exact hR.user h hopen hmove hP
  | start k hstack hdone hcallback hsettled =>
      exact ⟨h.inv, fun _ => hR.callback h.inv hcallback hsettled, fun hne => absurd hstack hne⟩
  | proceed t' hp => exact h.proceed hp

theorem Turn.Sound.mild (h : t.Sound K Inv Held) {e : Fault}
    (hp : Callbacks.proceed K t = some (.error (.source e))) : Fault.Mild e := by
  unfold Callbacks.proceed at hp
  obtain ⟨s, k⟩ := t
  cases hstack : s.stack with
  | cons f stack => simp [hstack] at hp
  | nil =>
      have hsafe := h.running hstack
      cases k with
      | done => simp [hstack] at hp
      | pause k => simp [hstack] at hp
      | emit n k =>
          simp only [hstack, show (K.life s.world).referenced = true from hsafe.1, if_true] at hp
          split at hp <;> cases hp
          rename_i hemit
          unfold diEmitn at hemit
          split at hemit
          · cases hemit
          · dsimp only at hemit
            split_ifs at hemit
            cases hemit
      | access f k =>
          simp only [hstack, show (K.life s.world).referenced = true from hsafe.1, if_true] at hp
          split at hp <;> cases hp
          rename_i hw
          exact hsafe.2.2 e hw
      | branch c k₁ k₂ => simp [hstack, show (K.life s.world).referenced = true from hsafe.1] at hp

/-- Along every run that `P` allows, a callback does not touch memory that is gone. -/
theorem Respects.run (hR : Respects K Inv Held P) {s₀ : State Name World} (h₀ : Inv s₀.world)
    (hrun : ReflTransGen (TurnStep K P) {state := s₀} t) :
    proceed K t ≠ some (.error (.source .dead)) ∧ proceed K t ≠ some (.error (.source .freed)) := by
  have h : t.Sound K Inv Held := by
    induction hrun with
    | refl => exact ⟨h₀, fun _ => trivial, fun _ => .inl rfl⟩
    | tail _ hstep ih => exact hR.step ih hstep
  exact ⟨fun hp => (h.mild hp).1 rfl, fun hp => (h.mild hp).2 rfl⟩

end

/-! ## File descriptor events -/

/-- `di_ioev_callback`, for the events that libev reports. -/
def diIoevCallback (read write : Bool) : Script IoSignal IoEv :=
  let rest := if write then .emit .write .done else .done
  if read then .emit .read rest else rest

def ioevKind (hasIoModify : Bool) : Kind IoSignal IoEv where
  source := ioev hasIoModify
  life w := w.life
  callback w k := w.active = true ∧ ∃ read write, k = diIoevCallback read write
  move := IoMove hasIoModify

/-- While the callback still has a signal to emit, the object does not lose its last
reference. -/
def StaysReferenced (k : Script IoSignal IoEv) (s s' : IoState) : Prop :=
  k ≠ .done → s.world.life.referenced → s'.world.life.referenced

theorem ioev_respects (m : Bool) :
    Respects (ioevKind m) Sound (fun w => w.life.referenced = true) StaysReferenced where
  inv hmove _ h := hmove.sound h
  held hk _ hP _ hheld := hP hk hheld
  callback := by
    intro w k h ⟨hactive, readable, writable, hk⟩ hsettled
    have href : w.life.referenced = true := by
      refine hsettled.resolve_right fun hd => ?_
      rw [h.active, (h.destroyed hd).1] at hactive
      cases hactive
    subst hk
    have hemit : ∀ b v, v.life.referenced = true →
        Script.Safe (ioevKind m) Sound (fun w => w.life.referenced = true)
          (if b = true then .emit .write .done else .done) v := by
      intro b v hv
      cases b with
      | true => exact ⟨hv, .inl rfl⟩
      | false => trivial
    cases readable with
    | true => exact ⟨href, .inr ⟨href, fun v _ hv => hemit writable v hv⟩⟩
    | false => exact hemit writable w href

/-! ## Timers -/

/-- What can happen to a timer besides its callback. -/
inductive TimerMove (s : Timers.TimerState) : Timers.TimerState → Prop where
  | act {s' : Timers.TimerState} (a : Action TimerSignal) (hstep : Step timer s a s') : TimerMove s s'
  | life (l : Life) (hl : LifeStep s.world.life l) :
      TimerMove s {s with world := {s.world with life := l}}
  | drain : TimerMove s {s with world := {s.world with life := s.world.life.drain}}
  | exit (hdrained : s.world.life.drained) :
      TimerMove s {s with world := {s.world with life := s.world.life.exit}}
  | destroy (w : Timer) (href : s.world.life.referenced = false)
      (hold : s.world.life.destroyed = false) (hw : s.world.destroy = .ok w) :
      TimerMove s {s with world := w}

theorem TimerMove.move {s s' : Timers.TimerState} (h : TimerMove s s') : Timers.Move s s' := by
  cases h with
  | act a hstep => exact .act a hstep
  | life l hl => exact .life l hl
  | drain => exact .drain
  | exit hdrained => exact .exit hdrained
  | destroy w href hold hw => exact .destroy w href hold hw

theorem referenced_of_callback {l : Life} (h : l.callback = true) : l.referenced = true := by
  simp [Life.referenced, h]

theorem lifeStep_callback {l l' : Life} (h : LifeStep l l') : l'.callback = l.callback := by
  cases h <;> rfl

/-- User code does not take away the reference that the callback holds. -/
theorem TimerMove.callback {s s' : Timers.TimerState} (hmove : TimerMove s s')
    (h : Timers.Invariant s.world) (hcb : s.world.life.callback = true) :
    s'.world.life.callback = true := by
  cases hmove with
  | act a hstep =>
      have hhook := step_world hstep
      generalize s'.world = w at hhook ⊢
      cases hhook with
      | same hw => rwa [hw]
      | set n f halive hn hset =>
          have hsame : diTimerAddSignal s.signalCount s.world = .ok s.world := by
            simp [diTimerAddSignal, h.callback hcb]
          cases hset.symm.trans hsame
          exact hcb
      | delete x stack hstack halive hone hdel =>
          obtain ⟨w', hw', -, -, hcb', -⟩ :=
            Timers.delete_spec h (Timers.not_destroyed_of_alive halive)
          cases hdel.symm.trans hw'
          exact hcb'.trans hcb
  | life l hl => exact (lifeStep_callback hl).trans hcb
  | drain => exact hcb
  | exit hdrained => exact hcb
  | destroy w href hold hw => cases href.symm.trans (referenced_of_callback hcb)

/-- `di_timer_callback` -/
def diTimerCallbackScript : Script TimerSignal Timer :=
  .access diTimerCallback (.emit .elapsed (.access diTimerCallbackEnd .done))

def timerKind : Kind TimerSignal Timer where
  source := timer
  life w := w.life
  callback w k := w.armed = true ∧ k = diTimerCallbackScript
  move := TimerMove

theorem timer_callback_held {w w' : Timer} (h : diTimerCallback w = .ok w') :
    w'.life.callback = true := by
  unfold diTimerCallback evTimerStop at h
  split_ifs at h
  cases h
  rfl

theorem timer_respects : Respects timerKind Timers.Invariant (fun w => w.life.callback = true)
    (fun _ _ _ => True) where
  inv hmove _ h := h.move hmove.move
  held _ hmove _ h hcb := hmove.callback h hcb
  callback := by
    intro w k h ⟨harmed, hk⟩ hsettled
    subst hk
    have href : w.life.referenced = true := by
      refine hsettled.resolve_right fun hd => ?_
      rw [(h.destroyed hd).2.1] at harmed
      cases harmed
    obtain ⟨w₁, hw₁, h₁⟩ := Timers.callback_spec h harmed
    have hcb₁ := timer_callback_held hw₁
    refine ⟨href, fun v hv => ?_, fun e he => by cases hw₁.symm.trans he⟩
    cases hw₁.symm.trans hv
    refine ⟨h₁, referenced_of_callback hcb₁, .inr ⟨hcb₁, fun v hinv hcb => ?_⟩⟩
    obtain ⟨w₂, hw₂, h₂⟩ := Timers.callbackEnd_spec hinv hcb
    refine ⟨referenced_of_callback hcb, fun v' hv' => ?_, fun e he => by cases hw₂.symm.trans he⟩
    cases hw₂.symm.trans hv'
    exact ⟨h₂, trivial⟩

/-! ## Periodic timers -/

/-- `di_periodic_callback` -/
def diPeriodicCallback : Script PeriodicSignal Periodic := .emit .triggered .done

def periodicKind : Kind PeriodicSignal Periodic where
  source := periodic
  life w := w.life
  callback w k := w.active = true ∧ k = diPeriodicCallback
  move := PeriodicMove

theorem periodic_respects : Respects periodicKind PeriodicKept (fun _ => True)
    (fun _ _ s' => s'.world.life.destroyed = false) where
  inv hmove hd h := hmove.kept hd h
  held _ _ _ _ _ := trivial
  callback := by
    intro w k h ⟨_, hk⟩ hsettled
    subst hk
    refine ⟨hsettled.resolve_right fun hd => ?_, .inl rfl⟩
    cases h.destroyed.symm.trans hd

/-! ## Child processes -/

section
variable {m : Bool} {w w' : Child}

def Child.hold (w : Child) : Except Fault Child :=
  .ok {w with life := {w.life with callback := true}}

def Child.letGo (w : Child) : Except Fault Child :=
  .ok {w with life := {w.life with callback := false}}

def hasBuffer (i : OutputId) (w : Child) : Bool := (w.outputs i).buffer

/-- A call of a function of `string_buf.c` on the buffer of an output. -/
def useBuffer (i : OutputId) (w : Child) : Except Fault Child :=
  if hasBuffer i w then .ok w else .error .freed

def assertBuffer (i : OutputId) (w : Child) : Except Fault Child :=
  if hasBuffer i w then .ok w else .error .check

/-- `SIGNAL_NAME` -/
def signalName : OutputId → ChildSignal
  | .stdout => .stdoutLine
  | .stderr => .stderrLine

/-- What one call of `read` returns, with `n` lines that end in it. The listeners may have
stopped after each of them, and then the handler returns to `ret`. -/
def outputLines (i : OutputId) (ret next : Script ChildSignal Child) : ℕ → Script ChildSignal Child
  | 0 => .access (useBuffer i) next
  | n + 1 =>
      .access (useBuffer i)
        (.emit (signalName i) (.branch (hasBuffer i) (outputLines i ret next n) ret))

/-- `output_handler`, for the lines in what the calls of `read` return, and whether the last call
has found that the remote end is closed. -/
def outputHandler (hasIoModify : Bool) (i : OutputId) (closed : Bool)
    (ret : Script ChildSignal Child) : List ℕ → Script ChildSignal Child
  | [] => if closed then .access ((child hasIoModify).delete (signalName i)) (.pause ret) else ret
  | n :: reads => outputLines i ret (outputHandler hasIoModify i closed ret reads) n

/-- What a handler finds on the file descriptor of an output. -/
structure Input where
  reads : List ℕ
  closed : Bool
  -- the buffer is not empty afterwards
  partialLine : Bool

/-- One round of the loop in `sigchld_handler`. -/
def flushOutput (hasIoModify : Bool) (input : OutputId → Input) (i : OutputId)
    (next : Script ChildSignal Child) : Script ChildSignal Child :=
  let last := .access (useBuffer i)
    (if (input i).partialLine then .access (useBuffer i) (.emit (signalName i) next) else next)
  .branch (hasBuffer i)
    (outputHandler hasIoModify i (input i).closed (.branch (hasBuffer i) last next) (input i).reads)
    next

/-- `sigchld_handler` -/
def sigchldHandler (hasIoModify : Bool) (input : OutputId → Input) : Script ChildSignal Child :=
  let delete n k := .access ((child hasIoModify).delete n) (.pause k)
  .access Child.hold
    (flushOutput hasIoModify input .stdout
      (flushOutput hasIoModify input .stderr
        (.emit .exit
          (delete .stdoutLine (delete .stderrLine (delete .exit (.access Child.letGo .done)))))))

/-- `output_cb`. The handlers that the emission has copied hold the closure, and the closure
holds the object. -/
def outputCb (hasIoModify : Bool) (i : OutputId) (closed : Bool) (reads : List ℕ) :
    Script ChildSignal Child :=
  .access Child.hold
    (.access (assertBuffer i)
      (outputHandler hasIoModify i closed (.access Child.letGo .done) reads))

/-- libev calls `sigchld_handler` for the watcher of the object, and `output_cb` by way of the
file descriptor event of an output. -/
def childKind (hasIoModify : Bool) : Kind ChildSignal Child where
  source := child hasIoModify
  life w := w.life
  callback w k :=
    (w.active = true ∧ ∃ input, k = sigchldHandler hasIoModify input) ∨
    ∃ i ev closed reads, (w.outputs i).fdevent = some ev ∧ ev.active = true ∧
      k = outputCb hasIoModify i closed reads
  move := ChildMove hasIoModify

/-- What is true of a child process while nothing destroys it with its signal `exit`. -/
structure ChildInv (w : Child) : Prop where
  sound : ChildSound w
  outputs : OutputsSound w
  closed : w.life.destroyed → ∀ i, (w.outputs i).fdevent = none

theorem ChildInv.not_destroyed (h : ChildInv w) {k : Script ChildSignal Child}
    (hk : (childKind m).callback w k) : w.life.destroyed = false := by
  by_contra hd
  have hd' : w.life.destroyed = true := by simpa using hd
  rcases hk with ⟨hactive, -⟩ | ⟨i, ev, closed, reads, hev, -⟩
  · rw [h.sound.active, h.sound.destroyed hd'] at hactive
    cases hactive
  · rw [h.closed hd' i] at hev
    cases hev

/-- The life of a child process, when its exit signal comes or goes. -/
theorem exitSignal_life {x : SignalId}
    (h : diChildProcessNewExitSignal x w = .ok w' ∨ diChildProcessDeleteExitSignal w = .ok w') :
    w'.life.destroyed = w.life.destroyed ∧ w'.life.callback = w.life.callback := by
  rcases h with h | h
  · unfold diChildProcessNewExitSignal evChildStart at h
    cases hsig : w.exitSignal <;> cases hd : w.life.deai <;> cases hf : w.life.freed <;>
      cases hex : w.life.exited <;> simp [hsig, hd, hf, hex] at h <;> subst h <;> simp
  · unfold diChildProcessDeleteExitSignal evChildStop at h
    cases hsig : w.exitSignal <;> cases hd : w.life.deai <;> cases hf : w.life.freed <;>
      cases hex : w.life.exited <;> simp [hsig, hd, hf, hex] at h <;> subst h <;> simp

theorem child_set_life {n : ChildSignal} {x : SignalId} (h : (child m).set n x w = .ok w') :
    w'.life.destroyed = w.life.destroyed ∧ w'.life.callback = w.life.callback := by
  cases n with
  | exit => exact exitSignal_life (.inl h)
  | stdoutLine => simp [(newOutputSignal_same h).life]
  | stderrLine => simp [(newOutputSignal_same h).life]

theorem child_delete_life {n : ChildSignal} (h : (child m).delete n w = .ok w') :
    w'.life.destroyed = w.life.destroyed ∧ w'.life.callback = w.life.callback := by
  cases n with
  | exit => exact exitSignal_life (x := 0) (.inr h)
  | stdoutLine => simp [(deleteOutputSignal_same h).life]
  | stderrLine => simp [(deleteOutputSignal_same h).life]

theorem ChildInv.closed_move {s s' : ChildState} (hmove : ChildMove m s s') (h : ChildInv s.world)
    (hd : s'.world.life.destroyed) (i : OutputId) : (s'.world.outputs i).fdevent = none := by
  cases hmove with
  | act a hstep =>
      have hhook := step_world hstep
      generalize s'.world = w at hhook hd ⊢
      cases hhook with
      | same hw =>
          subst hw
          exact h.closed hd i
      | set n f halive hn hset =>
          rw [(child_set_life hset).1, child_not_destroyed_of_alive halive] at hd
          cases hd
      | delete x stack hstack halive hone hdel =>
          rw [(child_delete_life hdel).1, child_not_destroyed_of_alive halive] at hd
          cases hd
  | life l hl =>
      cases hl with
      | take halive => exact h.closed hd i
      | drop => exact h.closed hd i
      | free hdestroyed => exact h.closed hdestroyed i
  | drain => rfl
  | exit hdrained =>
      change (s.world.outputs i).fdevent.map _ = none
      rw [h.closed hd i]
      rfl
  | unroot => exact h.closed hd i
  | key taken => exact h.closed hd i
  | destroy href hold => rfl

theorem ChildInv.move {s s' : ChildState} (hmove : ChildMove m s s')
    (hd : s'.world.life.destroyed → s.world.life.destroyed ∨ s.world.exitSignal = none)
    (h : ChildInv s.world) : ChildInv s'.world :=
  ⟨hmove.sound hd h.sound, .move hmove h.outputs, fun hd' i => h.closed_move hmove hd' i⟩

/-- The object is there, and the callback holds it. -/
def ChildHeld (w : Child) : Prop := w.life.callback = true ∧ w.life.destroyed = false

theorem ChildHeld.referenced (h : ChildHeld w) : w.life.referenced = true :=
  referenced_of_callback h.1

theorem ChildHeld.move {s s' : ChildState} (hmove : ChildMove m s s') (h : ChildHeld s.world) :
    ChildHeld s'.world := by
  cases hmove with
  | act a hstep =>
      have hhook := step_world hstep
      generalize s'.world = w at hhook ⊢
      cases hhook with
      | same hw => rwa [hw]
      | set n f halive hn hset =>
          obtain ⟨hd, hcb⟩ := child_set_life hset
          exact ⟨hcb.trans h.1, hd.trans h.2⟩
      | delete x stack hstack halive hone hdel =>
          obtain ⟨hd, hcb⟩ := child_delete_life hdel
          exact ⟨hcb.trans h.1, hd.trans h.2⟩
  | life l hl => cases hl <;> exact h
  | drain => exact h
  | exit hdrained => exact h
  | unroot => exact h
  | key taken => exact h
  | destroy href hold => cases href.symm.trans h.referenced

abbrev ChildSafe (m : Bool) (k : Script ChildSignal Child) (w : Child) : Prop :=
  k.Safe (childKind m) ChildInv ChildHeld w

/-- The script is safe from wherever the callback holds the object. -/
def Tame (m : Bool) (k : Script ChildSignal Child) : Prop :=
  ∀ w, ChildInv w → ChildHeld w → ChildSafe m k w

theorem ChildInv.setCallback (h : ChildInv w) (b : Bool) :
    ChildInv {w with life := {w.life with callback := b}} :=
  ⟨⟨h.sound.active, h.sound.freed, h.sound.destroyed⟩, h.outputs.same rfl rfl rfl, h.closed⟩

theorem ChildInv.delete (h : ChildInv w) (hheld : ChildHeld w) {n : ChildSignal}
    (hw : (child m).delete n w = .ok w') : ChildInv w' ∧ ChildHeld w' := by
  obtain ⟨hd, hcb⟩ := child_delete_life hw
  refine ⟨⟨h.sound.delete hheld.2 hw, h.outputs.delete hw, fun hd' => ?_⟩, ?_⟩
  · rw [hd, hheld.2] at hd'
    cases hd'
  · exact ⟨hcb.trans hheld.1, hd.trans hheld.2⟩

theorem deleteExitSignal_mild (h : ChildInv w) (hheld : ChildHeld w) {e : Fault}
    (he : diChildProcessDeleteExitSignal w = .error e) : Fault.Mild e := by
  have hfreed := h.sound.not_freed hheld.2
  unfold diChildProcessDeleteExitSignal at he
  cases hsig : w.exitSignal <;> cases hex : w.life.exited <;>
    simp [hsig, Life.deai, hheld.2, evChildStop, hfreed, hex] at he
  subst he
  exact ⟨by rintro ⟨⟩, by rintro ⟨⟩⟩

theorem delete_mild (h : ChildInv w) (hheld : ChildHeld w) {n : ChildSignal} {e : Fault}
    (he : (child m).delete n w = .error e) : Fault.Mild e := by
  cases n with
  | exit => exact deleteExitSignal_mild h hheld he
  | stdoutLine =>
      obtain ⟨w', hw', -⟩ := h.outputs.deleteOutputSignal (m := m) .stdout
      cases hw'.symm.trans he
  | stderrLine =>
      obtain ⟨w', hw', -⟩ := h.outputs.deleteOutputSignal (m := m) .stderr
      cases hw'.symm.trans he

theorem Tame.emit {k : Script ChildSignal Child} (hk : Tame m k) (n : ChildSignal) :
    Tame m (.emit n k) :=
  fun _ _ hheld => ⟨hheld.referenced, .inr ⟨hheld, hk⟩⟩

theorem Tame.branch {k₁ k₂ : Script ChildSignal Child} {c : Child → Bool}
    (h₁ : ∀ w, ChildInv w → ChildHeld w → c w = true → ChildSafe m k₁ w) (h₂ : Tame m k₂) :
    Tame m (.branch c k₁ k₂) := by
  intro w hinv hheld
  refine ⟨hheld.referenced, ?_⟩
  cases hc : c w with
  | true => exact h₁ w hinv hheld hc
  | false => exact h₂ w hinv hheld

theorem Tame.delete {k : Script ChildSignal Child} (hk : Tame m k) (n : ChildSignal) :
    Tame m (.access ((child m).delete n) (.pause k)) := by
  intro w hinv hheld
  refine ⟨hheld.referenced, fun w' hw' => ?_, fun e he => delete_mild hinv hheld he⟩
  obtain ⟨hinv', hheld'⟩ := hinv.delete hheld hw'
  exact ⟨hinv', hheld', hk⟩

theorem tame_letGo : Tame m (.access Child.letGo .done) := by
  intro w hinv hheld
  refine ⟨hheld.referenced, fun w' hw' => ?_, nofun⟩
  cases hw'
  exact ⟨hinv.setCallback false, trivial⟩

theorem safe_useBuffer {i : OutputId} {k : Script ChildSignal Child} (hinv : ChildInv w)
    (hheld : ChildHeld w) (hbuf : hasBuffer i w = true) (hk : ChildSafe m k w) :
    ChildSafe m (.access (useBuffer i) k) w := by
  have hok : useBuffer i w = .ok w := by simp [useBuffer, hbuf]
  refine ⟨hheld.referenced, fun w' hw' => ?_, fun e he => by cases hok.symm.trans he⟩
  cases hok.symm.trans hw'
  exact ⟨hinv, hk⟩

theorem safe_outputLines {i : OutputId} {ret next : Script ChildSignal Child} (hret : Tame m ret)
    (hnext : ∀ w, ChildInv w → ChildHeld w → hasBuffer i w = true → ChildSafe m next w) (n : ℕ) :
    ∀ w, ChildInv w → ChildHeld w → hasBuffer i w = true →
      ChildSafe m (outputLines i ret next n) w := by
  induction n with
  | zero => exact fun w hinv hheld hbuf => safe_useBuffer hinv hheld hbuf (hnext w hinv hheld hbuf)
  | succ n ih =>
      intro w hinv hheld hbuf
      have hemit : Tame m (.emit (signalName i)
          (.branch (hasBuffer i) (outputLines i ret next n) ret)) :=
        (Tame.branch ih hret).emit (signalName i)
      exact safe_useBuffer hinv hheld hbuf (hemit w hinv hheld)

theorem safe_outputHandler {i : OutputId} {closed : Bool} {ret : Script ChildSignal Child}
    (hret : Tame m ret) (reads : List ℕ) :
    ∀ w, ChildInv w → ChildHeld w → hasBuffer i w = true →
      ChildSafe m (outputHandler m i closed ret reads) w := by
  induction reads with
  | nil =>
      intro w hinv hheld _
      cases closed with
      | true => exact hret.delete (signalName i) w hinv hheld
      | false => exact hret w hinv hheld
  | cons n reads ih => exact safe_outputLines hret ih n

theorem Tame.flushOutput {next : Script ChildSignal Child} (hnext : Tame m next)
    (input : OutputId → Input) (i : OutputId) : Tame m (flushOutput m input i next) := by
  apply Tame.branch _ hnext
  apply safe_outputHandler
  apply Tame.branch _ hnext
  intro w hinv hheld hbuf
  apply safe_useBuffer hinv hheld hbuf
  cases (input i).partialLine with
  | true => exact safe_useBuffer hinv hheld hbuf (hnext.emit (signalName i) w hinv hheld)
  | false => exact hnext w hinv hheld

theorem safe_hold {k : Script ChildSignal Child} (hinv : ChildInv w)
    (href : w.life.referenced = true) (hd : w.life.destroyed = false) (hk : Tame m k) :
    ChildSafe m (.access Child.hold k) w := by
  refine ⟨href, fun w' hw' => ?_, nofun⟩
  cases hw'
  exact ⟨hinv.setCallback true, hk _ (hinv.setCallback true) ⟨rfl, hd⟩⟩

theorem tame_outputCb {i : OutputId} {closed : Bool} {reads : List ℕ} :
    Tame m (.access (assertBuffer i)
      (outputHandler m i closed (.access Child.letGo .done) reads)) := by
  intro w hinv hheld
  refine ⟨hheld.referenced, fun w' hw' => ?_, fun e he => ?_⟩
  · unfold assertBuffer at hw'
    split_ifs at hw' with hbuf
    cases hw'
    exact ⟨hinv, safe_outputHandler tame_letGo reads w hinv hheld hbuf⟩
  · unfold assertBuffer at he
    split_ifs at he
    cases he
    exact ⟨nofun, nofun⟩

theorem child_respects (m : Bool) : Respects (childKind m) ChildInv ChildHeld
    (fun _ s s' => s'.world.life.destroyed → s.world.life.destroyed ∨ s.world.exitSignal = none) where
  inv hmove hd h := h.move hmove hd
  held _ hmove _ _ hheld := hheld.move hmove
  callback := by
    intro w k h hk hsettled
    have hd := h.not_destroyed hk
    have href : w.life.referenced = true := by
      refine hsettled.resolve_right fun hd' => ?_
      cases hd.symm.trans hd'
    rcases hk with ⟨-, input, rfl⟩ | ⟨i, ev, closed, reads, -, -, rfl⟩
    · have hend := (((tame_letGo (m := m)).delete .exit).delete .stderrLine).delete .stdoutLine
      exact safe_hold h href hd (((hend.emit .exit).flushOutput input .stderr).flushOutput input .stdout)
    · exact safe_hold h href hd tame_outputCb

end

/-! ## All callbacks -/

/-- No callback touches its object, a buffer or a watcher after the last reference has gone. For a
file descriptor event this needs that it keeps a reference while the callback has another
signal to emit. A periodic timer must not be destroyed, nor a child process that has the
signal `exit`: libev would still call their callbacks. -/
theorem callbacks_survive_handlers (hasIoModify : Bool) :
    (∀ exited signals t, ReflTransGen (TurnStep (ioevKind hasIoModify) StaysReferenced)
        {state := {world := {life := .new exited}, signals := signals}} t →
      proceed (ioevKind hasIoModify) t ≠ some (.error (.source .dead)) ∧
        proceed (ioevKind hasIoModify) t ≠ some (.error (.source .freed))) ∧
    (∀ exited signals t, ReflTransGen (TurnStep timerKind fun _ _ _ => True)
        {state := {world := {life := .new exited}, signals := signals}} t →
      proceed timerKind t ≠ some (.error (.source .dead)) ∧
        proceed timerKind t ≠ some (.error (.source .freed))) ∧
    (∀ exited signals t, ReflTransGen (TurnStep periodicKind
        fun _ _ s' => s'.world.life.destroyed = false)
        {state := {world := {life := .new exited}, signals := signals}} t →
      proceed periodicKind t ≠ some (.error (.source .dead)) ∧
        proceed periodicKind t ≠ some (.error (.source .freed))) ∧
    (∀ exited hasFd signals t, ReflTransGen (TurnStep (childKind hasIoModify) fun _ s s' =>
        s'.world.life.destroyed → s.world.life.destroyed ∨ s.world.exitSignal = none)
        {state := {
          world := {life := .new exited, outputs := fun _ => {hasFd := hasFd}}
          signals := signals}} t →
      proceed (childKind hasIoModify) t ≠ some (.error (.source .dead)) ∧
        proceed (childKind hasIoModify) t ≠ some (.error (.source .freed))) := by
  refine ⟨?_, ?_, ?_, ?_⟩
  · intro exited signals t hrun
    exact (ioev_respects hasIoModify).run (sound_init id) hrun
  · intro exited signals t hrun
    exact timer_respects.run (Timers.invariant_init exited) hrun
  · intro exited signals t hrun
    exact periodic_respects.run ⟨rfl, rfl⟩ hrun
  · intro exited hasFd signals t hrun
    have hinit : ChildInv {life := .new exited, outputs := fun _ => {hasFd := hasFd}} :=
      ⟨⟨rfl, nofun, nofun⟩, ⟨fun _ => .of_none nofun rfl, id⟩, nofun⟩
    exact (child_respects hasIoModify).run hinit hrun

/-- A file descriptor event with a listener for each signal, and no reference but the root. -/
def bothListened : IoState :=
  let s := perform (ioev true) newIoev [.listen .read 5, .listen .write 6]
  {s with world := {s.world with life := {s.world.life with outside := false}}}

/-- The file descriptor is readable and writable, and the callback has emitted the first
signal. -/
def emittingRead : Turn IoSignal IoEv :=
  ⟨{bothListened with stack := [.emission ⟨0, [5], false, [5], [0], [], []⟩]}, .emit .write .done⟩

theorem user_turns {P : Script IoSignal IoEv → IoState → IoState → Prop}
    {R : IoState → IoState → Prop} {k : Script IoSignal IoEv}
    (hR : ∀ s s', R s s' → TurnStep (ioevKind true) P ⟨s, k⟩ ⟨s', k⟩) {s s' : IoState}
    (hrun : ReflTransGen R s s') : ReflTransGen (TurnStep (ioevKind true) P) ⟨s, k⟩ ⟨s', k⟩ := by
  induction hrun with
  | refl => exact .refl
  | tail _ hstep ih => exact ih.tail (hR _ _ hstep)

theorem reaches_emittingRead {P : Script IoSignal IoEv → IoState → IoState → Prop}
    (hP : ∀ s s', P .done s s') :
    ReflTransGen (TurnStep (ioevKind true) P) {state := newIoev} emittingRead := by
  have hlisten : ReflTransGen (TurnStep (ioevKind true) P) {state := newIoev}
      {state := perform (ioev true) newIoev [.listen .read 5, .listen .write 6]} :=
    user_turns (R := IoMove true) (fun _ _ h => .user _ (.inr (.inl rfl)) h (hP _ _))
      (performs (fun _ a _ h => .act a h) newIoev _)
  have hdrop : TurnStep (ioevKind true) P
      {state := perform (ioev true) newIoev [.listen .read 5, .listen .write 6]}
      {state := bothListened} := .user _ (.inr (.inl rfl)) (.env _ (.life _ .drop)) (hP _ _)
  have hstart : TurnStep (ioevKind true) P {state := bothListened}
      {state := bothListened, rest := diIoevCallback true true} :=
    .start _ rfl rfl ⟨rfl, true, true, rfl⟩ (.inl rfl)
  exact ((hlisten.tail hdrop).tail hstart).tail (.proceed _ rfl)

/-- The handler does nothing, and the callback emits the second signal. -/
theorem callbacks_survive_handlers_bothEvents :
    proceed (ioevKind true) ⟨bothListened, .emit .write .done⟩ ≠ some (.error (.source .dead)) := by
  have hread := reaches_emittingRead (P := StaysReferenced) fun _ _ hdone => absurd rfl hdone
  have hstep : ∀ {s s' : IoState} {a : Action IoSignal}, s.stack ≠ [] → Step (ioev true) s a s' →
      s'.world.life.referenced = true → TurnStep (ioevKind true) StaysReferenced
        ⟨s, .emit .write .done⟩ ⟨s', .emit .write .done⟩ :=
    fun hstack h href => .user _ (.inl hstack) (.act _ h) fun _ _ => href
  have hcall := hread.tail (hstep (a := .callNext) (List.cons_ne_nil _ _) rfl rfl)
  have hreturn := hcall.tail (hstep (a := .handlerReturns) (List.cons_ne_nil _ _) rfl rfl)
  have hend := hreturn.tail (hstep (a := .endEmission) (List.cons_ne_nil _ _) rfl rfl)
  exact ((callbacks_survive_handlers true).1 false _ _ hend).1

/-- The handler of the first signal stops both listeners. -/
def stopBoth : List (Action IoSignal) :=
  [.callNext, .stop 0, .endRemoval, .stop 1, .endRemoval, .handlerReturns, .endEmission]

/-- The object has lost its last reference when the second signal is emitted. -/
theorem callbacks_survive_handlers_stopBoth :
    ∃ t, ReflTransGen (TurnStep (ioevKind true) fun _ _ _ => True) {state := newIoev} t ∧
      proceed (ioevKind true) t = some (.error (.source .dead)) := by
  have hmoves : ReflTransGen (SignalRuns.Move (ioev true) (fun s _ => s.stack.isEmpty = false)
      fun _ _ => False) emittingRead.state (perform (ioev true) emittingRead.state stopBoth) :=
    reaches_perform _ (by decide)
  have hturns : ReflTransGen (TurnStep (ioevKind true) fun _ _ _ => True) emittingRead
      ⟨perform (ioev true) emittingRead.state stopBoth, .emit .write .done⟩ := by
    refine user_turns (fun s s' hmove => ?_) hmoves
    cases hmove with
    | act a hbusy hstep =>
        refine .user _ (.inl fun hnil => ?_) (.act a hstep) trivial
        rw [show s.stack = [] from hnil] at hbusy
        cases hbusy
    | env w hw => exact hw.elim
  exact ⟨_, (reaches_emittingRead fun _ _ => trivial).trans hturns, rfl⟩

end Deai.Callbacks
