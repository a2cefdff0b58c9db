import Deai.Fallible
import Deai.Value
import Mathlib.Data.List.Basic
import Mathlib.Data.Nat.Cast.Order.Ring

/-!
# Key bindings

The extension `key` of the module `xorg`. It keeps all bindings in a table, and they take part in
every key event and in every change of the keyboard mapping. The connection to the X server is
assumed to be alive.
-/
namespace Deai.KeyBindings
open Fallible Value

/-! ## Bindings -/

inductive KeyEvent where
  | pressed | released
  deriving DecidableEq

/-- `struct keybinding`. The keycodes stand without the `XCB_NO_SYMBOL` at their end. A signal is
there as long as it has listeners. -/
structure Binding where
  keysym : UInt32
  keycodes : Option (List UInt8) := none
  modifiers : UInt16
  intercept : Bool
  /-- `di_finalize_object` has removed `___xorg_key_ext` and the setters of the signals. -/
  finalized : Bool := false
  listeners : KeyEvent → List ℕ := fun _ => []
  /-- The extension has a member for the binding itself, `___keybinding_%p`. -/
  keptAlive : Bool := false

def Binding.hasSignal (kb : Binding) : Bool :=
  kb.listeners .pressed ≠ [] ∨ kb.listeners .released ≠ []

def Binding.setListeners (kb : Binding) (event : KeyEvent) (l : List ℕ) : Binding :=
  {kb with listeners := fun e => if e = event then l else kb.listeners e}

inductive Request where
  | grabKey (keycode : UInt8) (modifiers : UInt16)
  | ungrabKey (keycode : UInt8) (modifiers : UInt16)
  | allowEvents (intercept : Bool)

/-- `struct xorg_key` without its bindings. -/
structure Ext where
  nsignals : ℤ := 0
  registered : Bool := false
  requests : List Request := []

def Ext.send (e : Ext) (l : List Request) : Ext := {e with requests := e.requests ++ l}

/-- A failing `DI_CHECK`, or keycodes that are read when they are NULL. -/
inductive Failure where
  | check
  | nullKeycodes
  deriving DecidableEq

def ungrab (kb : Binding) (e : Ext) : Except Failure Ext :=
  if kb.finalized then .error .check
  else
    match kb.keycodes with
    | none => .error .nullKeycodes
    | some codes => .ok (e.send (codes.map (.ungrabKey · kb.modifiers)))

def freeKeycodes (kb : Binding) (e : Ext) : Except Failure Ext :=
  if kb.keycodes.isSome then ungrab kb e else .ok e

/-- `answer` is what `xcb_key_symbols_get_keycode` returns. A grab that fails is only logged. -/
def refreshBinding (answer : Option (List UInt8)) (kb : Binding) (e : Ext) :
    Except Failure (ℤ × Binding × Ext) :=
  if kb.finalized then .error .check
  else do
    let e ← freeKeycodes kb e
    match answer with
    | none => .ok (-1, {kb with keycodes := none}, e)
    | some codes =>
        .ok (0, {kb with keycodes := some codes}, e.send (codes.map (.grabKey · kb.modifiers)))

/-- The handles of the listeners are new members, which must not be there yet. -/
def keyRegisterListener (e : Ext) : Except Failure Ext :=
  if e.registered then .error .check else .ok {e with registered := true}

def keyDeregisterListener (e : Ext) : Ext := {e with registered := false}

def Ext.addSignal (e : Ext) : Except Failure Ext :=
  let e := {e with nsignals := e.nsignals + 1}
  if e.nsignals = 1 then keyRegisterListener e else .ok e

def Ext.removeSignal (e : Ext) : Ext :=
  let e := {e with nsignals := e.nsignals - 1}
  if e.nsignals = 0 then keyDeregisterListener e else e

def keybindingDelSignal (event : KeyEvent) (kb : Binding) (e : Ext) :
    Except Failure (Binding × Ext) :=
  if kb.listeners event = [] then .ok (kb, e)
  else
    let kb := kb.setListeners event []
    if kb.hasSignal then .ok (kb, e)
    else do
      let e ← ungrab kb e
      .ok ({kb with keptAlive := false}, e.removeSignal)

/-- The signal gets its first listener. -/
def keybindingNewSignal (event : KeyEvent) (id : ℕ) (answer : Option (List UInt8)) (kb : Binding)
    (e : Ext) : Except Failure (Binding × Ext) :=
  let hadSignal := kb.hasSignal
  let kb := kb.setListeners event [id]
  if hadSignal then .ok (kb, e)
  else do
    let (ret, kb, e) ← refreshBinding answer kb e
    if ret ≠ 0 then keybindingDelSignal event kb e
    else
      let e ← e.addSignal
      -- a second member of the same name cannot be added
      if kb.keptAlive then do
        let e ← ungrab kb e
        keybindingDelSignal event kb e
      else .ok ({kb with keptAlive := true}, e)

/-- `di_listen_to`. The setter of the signal is called when the signal is not there. -/
def listen (event : KeyEvent) (id : ℕ) (answer : Option (List UInt8)) (kb : Binding) (e : Ext) :
    Except Failure (Binding × Ext) :=
  if kb.listeners event ≠ [] then .ok (kb.setListeners event (kb.listeners event ++ [id]), e)
  else if kb.finalized then .ok (kb.setListeners event [id], e)
  else keybindingNewSignal event id answer kb e

/-- A listener is stopped. The signal goes with its last one, which calls the deleter. -/
def stop (event : KeyEvent) (id : ℕ) (kb : Binding) (e : Ext) : Except Failure (Binding × Ext) :=
  if id ∉ kb.listeners event then .ok (kb, e)
  else if (kb.listeners event).erase id ≠ [] then
    .ok (kb.setListeners event ((kb.listeners event).erase id), e)
  else if kb.finalized then .ok (kb.setListeners event [], e)
  else keybindingDelSignal event kb e

/-- `di_finalize_object`, with `binding_dtor`. -/
def finalize (kb : Binding) (e : Ext) : Except Failure (Binding × Ext) := do
  let e ← if kb.finalized then .ok e else freeKeycodes kb e
  .ok ({kb with keycodes := none, finalized := true, listeners := fun _ => []}, e)

/-! ## Names -/

def modifierNames : List String :=
  ["shift", "lock", "control", "mod1", "mod2", "mod3", "mod4", "mod5"]

/-- `strncasecmp(keyname.data, name, keyname.length) == 0`. A zero ends the comparison. -/
def namedBy (keyname name : String) : Bool :=
  ((keyname.toList.take (name.length + 1)).map Char.toLower).isPrefixOf
    (name.toList ++ [Char.ofNat 0])

def controlMask : UInt16 := 0x4
def anyMask : UInt16 := 0x8000

def nameToMod (keyname : String) : UInt16 :=
  match modifierNames.findIdx? (namedBy keyname ·) with
  | some i => .ofNat (2 ^ i)
  | none =>
      if namedBy keyname "ctrl" then controlMask
      else if namedBy keyname "any" then anyMask
      else 0

/-- The array of the modifiers. -/
inductive Modifiers where
  | strings (l : List String)
  | other (elemType : DiType) (length : ℕ)

def modOf (mod : UInt16) (keyname : String) : Option UInt16 :=
  if nameToMod keyname = 0 then none else some (mod ||| nameToMod keyname)

def Modifiers.mask : Modifiers → Option UInt16
  | .strings l => l.foldlM modOf 0
  | .other _ n => if n = 0 then some 0 else none

/-! ## The extension -/

/-- The position of `handle_key` in the table while it delivers a key event. -/
structure Visit where
  keycode : UInt8
  mod : UInt16
  event : KeyEvent
  binding : ℕ := 0
  index : ℕ := 0
  intercept : Bool := false
  /-- The handlers of the event are running. -/
  emitting : Bool := false

/-- The bindings stand under their numbers, `___keybinding_%zu`. -/
structure State where
  bindings : List Binding := []
  nextBindingKey : ℕ := 0
  ext : Ext := {}
  visit : Option Visit := none
  listenersCreated : ℕ := 0
  -- history
  emitted : List (ℕ × KeyEvent) := []

inductive Reply where
  | done
  | threw (message : String)
  | binding (b : ℕ)
  deriving DecidableEq

/-- `xkb_keysym_from_name`, without regard to case. -/
abbrev Keysyms := String → Option UInt32

def newBinding (keysyms : Keysyms) (modifiers : Modifiers) (key : String) (intercept : Bool)
    (answer : Option (List UInt8)) (s : State) : Except Failure (Reply × State) :=
  match keysyms key with
  | none => .ok (.threw "Invalid key name", s)
  | some ks =>
      match modifiers.mask with
      | none => .ok (.threw "Invalid modifiers", s)
      | some mod => do
          let kb := {keysym := ks, modifiers := mod, intercept := intercept}
          let b := s.nextBindingKey
          let s := {s with bindings := s.bindings ++ [kb], nextBindingKey := b + 1}
          let (ret, kb, e) ← refreshBinding answer kb s.ext
          let s := {s with bindings := s.bindings.set b kb, ext := e}
          if ret ≠ 0 then .ok (.threw "Failed to setup key grab", s) else .ok (.binding b, s)

/-- A function of a binding that a user has. -/
def onBinding (b : ℕ) (f : Binding → Ext → Except Failure (Binding × Ext)) (s : State) :
    Except Failure State :=
  match s.bindings[b]? with
  | none => .ok s
  | some kb => do
      let (kb, e) ← f kb s.ext
      .ok {s with bindings := s.bindings.set b kb, ext := e}

/-- One round of the loop for `XCB_MAPPING_NOTIFY`. -/
def refreshAt (answers : ℕ → Option (List UInt8)) (s : State) (b : ℕ) : Except Failure State :=
  match s.bindings[b]? with
  | none => .error .check
  | some kb => do
      let (ret, kb, e) ← refreshBinding (answers b) kb s.ext
      let (kb, e) ← if ret ≠ 0 then finalize kb e else .ok (kb, e)
      .ok {s with bindings := s.bindings.set b kb, ext := e}

/-- One round of the loops for a key event, and what follows them. The table of the keysyms does
not change under an event, so the index is never behind the end of the keycodes. -/
def visitNext (v : Visit) (s : State) : Except Failure State :=
  if v.binding < s.nextBindingKey then
    match s.bindings[v.binding]? with
    | none => .error .check
    | some kb =>
        let skip := {v with binding := v.binding + 1, index := 0, emitting := false}
        if kb.modifiers ≠ v.mod then .ok {s with visit := some skip}
        else
          match kb.keycodes with
          | none => .error .nullKeycodes
          | some codes =>
              match codes[v.index]? with
              | none => .ok {s with visit := some skip}
              | some code =>
                  if code = v.keycode then
                    .ok {s with
                      visit := some {v with
                        index := v.index + 1
                        intercept := v.intercept || kb.intercept
                        emitting := true}
                      emitted := s.emitted ++ [(v.binding, v.event)]}
                  else .ok {s with visit := some {v with index := v.index + 1, emitting := false}}
  else .ok {s with visit := none, ext := s.ext.send [.allowEvents v.intercept]}

inductive Op where
  | new (modifiers : Modifiers) (key : String) (intercept : Bool) (answer : Option (List UInt8))
  | listen (b : ℕ) (event : KeyEvent) (answer : Option (List UInt8))
  | stop (b : ℕ) (event : KeyEvent) (id : ℕ)
  /-- `xcb_refresh_keyboard_mapping` may say that nothing has changed. -/
  | mapping (refreshed : Bool) (answers : ℕ → Option (List UInt8))
  | key (keycode : UInt8) (mod : UInt16) (event : KeyEvent)
  | visit

/-- Users act between the events, and in the handlers. The extension gets events while it is
registered. -/
def Enabled (s : State) : Op → Prop
  | .new .. | .listen .. | .stop .. => ∀ v ∈ s.visit, v.emitting
  | .mapping .. | .key .. => s.visit = none ∧ s.ext.registered
  | .visit => s.visit.isSome

def exec (keysyms : Keysyms) (s : State) : Op → Except Failure (Reply × State)
  | .new modifiers key intercept answer => newBinding keysyms modifiers key intercept answer s
  | .listen b event answer =>
      (onBinding b (KeyBindings.listen event s.listenersCreated answer) s).map fun s =>
        (.done, {s with listenersCreated := s.listenersCreated + 1})
  | .stop b event id => (onBinding b (KeyBindings.stop event id) s).map (.done, ·)
  | .mapping refreshed answers =>
      if refreshed then
        ((List.range s.nextBindingKey).foldlM (refreshAt answers) s).map (.done, ·)
      else .ok (.done, s)
  | .key keycode mod event => .ok (.done, {s with visit := some {keycode, mod, event}})
  | .visit =>
      match s.visit with
      | none => .ok (.done, s)
      | some v => (visitNext v s).map (.done, ·)

/-- A run, with its calls and the states before them, the last one first. It ends with a state or
in a failure. -/
inductive Run (keysyms : Keysyms) : List (Op × State) → Except Failure State → Prop
  | init : Run keysyms [] (.ok {})
  | step {l : List (Op × State)} {s : State} (a : Op) : Run keysyms l (.ok s) → Enabled s a →
      Run keysyms ((a, s) :: l) ((exec keysyms s a).map Prod.snd)

/-! ## The table -/

/-- Every binding that `handle_key` visits has its keycodes and its extension, and the signals are
counted. -/
structure Usable (s : State) : Prop where
  bindings : ∀ b < s.nextBindingKey, ∃ kb, s.bindings[b]? = some kb ∧ kb.keycodes.isSome ∧
    kb.finalized = false
  counted : s.ext.nsignals = s.bindings.countP Binding.hasSignal

/-- A call that throws leaves the table and the counters as they were. -/
def Unchanged (keysyms : Keysyms) (s : State) (a : Op) : Prop :=
  ∀ message s', exec keysyms s a = .ok (.threw message, s') → s'.bindings = s.bindings ∧
    s'.nextBindingKey = s.nextBindingKey ∧ s'.ext.nsignals = s.ext.nsignals

/-- Every call of `xcb_key_symbols_get_keycode` that is made returns keycodes. -/
def Answered (keysyms : Keysyms) (s : State) : Op → Prop
  | .new modifiers key _ answer =>
      (keysyms key).isSome → modifiers.mask.isSome → answer.isSome
  | .listen b _ answer => ∀ kb ∈ s.bindings[b]?, kb.finalized = false → kb.hasSignal = false →
      answer.isSome
  | .mapping refreshed answers => refreshed → ∀ b < s.nextBindingKey, (answers b).isSome
  | _ => True

/-! ## One binding -/

/-- A binding as `new_binding` leaves it. -/
structure Live (kb : Binding) : Prop where
  keycodes : kb.keycodes.isSome
  finalized : kb.finalized = false
  kept : kb.keptAlive = kb.hasSignal

/-- The extension with a number of signals. -/
structure Accounts (n : ℕ) (e : Ext) : Prop where
  nsignals : e.nsignals = n
  registered : e.registered = true ↔ n ≠ 0

section
variable {kb : Binding} {e : Ext} {event : KeyEvent} {id n : ℕ}

theorem Accounts.send (h : Accounts n e) (l : List Request) : Accounts n (e.send l) :=
  ⟨h.nsignals, h.registered⟩

theorem hasSignal_of_listeners (h : kb.listeners event ≠ []) : kb.hasSignal = true := by
  cases event
  · exact decide_eq_true (.inl h)
  · exact decide_eq_true (.inr h)

theorem hasSignal_setListeners {l : List ℕ} (h : l ≠ []) :
    (kb.setListeners event l).hasSignal = true := by
  have hlisteners : (kb.setListeners event l).listeners event ≠ [] := by
    simpa [Binding.setListeners] using h
  exact hasSignal_of_listeners hlisteners

theorem ungrab_live (kb : Binding) (hlive : kb.finalized = false) (hcodes : kb.keycodes.isSome)
    (e : Ext) :
    ∃ l, ungrab kb e = .ok (e.send l) := by
  obtain ⟨codes, hcodes⟩ := Option.isSome_iff_exists.mp hcodes
  refine ⟨codes.map (.ungrabKey · kb.modifiers), ?_⟩
  simp only [ungrab, hlive, hcodes, Bool.false_eq_true, if_false]

theorem Ext.send_send (e : Ext) (l l' : List Request) : (e.send l).send l' = e.send (l ++ l') := by
  simp only [Ext.send, List.append_assoc]

theorem freeKeycodes_live (kb : Binding) (hlive : kb.finalized = false) (e : Ext) :
    ∃ l, freeKeycodes kb e = .ok (e.send l) := by
  by_cases hcodes : kb.keycodes.isSome
  · rw [freeKeycodes, if_pos hcodes]
    exact ungrab_live kb hlive hcodes e
  · refine ⟨[], ?_⟩
    rw [freeKeycodes, if_neg hcodes, Ext.send, List.append_nil]

/-- What `refresh_binding` does to a binding with its extension. -/
theorem refreshBinding_eq (kb : Binding) (hlive : kb.finalized = false)
    (answer : Option (List UInt8)) (e : Ext) :
    ∃ l, refreshBinding answer kb e =
      .ok (if answer.isSome then 0 else -1, {kb with keycodes := answer}, e.send l) := by
  obtain ⟨l, hfree⟩ := freeKeycodes_live kb hlive e
  rw [refreshBinding, if_neg (by rw [hlive]; exact Bool.false_ne_true), hfree, ok_bind]
  cases answer with
  | none => exact ⟨l, rfl⟩
  | some codes =>
      refine ⟨l ++ codes.map (Request.grabKey · kb.modifiers), ?_⟩
      rw [← Ext.send_send]
      rfl

/-- The first signal registers the extension. -/
theorem Accounts.addSignal (h : Accounts n e) :
    ∃ e', e.addSignal = .ok e' ∧ Accounts (n + 1) e' := by
  have hsucc : e.nsignals + 1 = ((n + 1 : ℕ) : ℤ) := by
    rw [h.nsignals, Nat.cast_add, Nat.cast_one]
  by_cases hzero : n = 0
  · have hunregistered : e.registered = false := by
      rw [← Bool.not_eq_true, h.registered]
      exact not_not.mpr hzero
    refine ⟨{e with nsignals := e.nsignals + 1, registered := true}, ?_, hsucc,
      iff_of_true rfl (Nat.succ_ne_zero n)⟩
    rw [Ext.addSignal, if_pos (by rw [hsucc, hzero]; rfl), keyRegisterListener,
      if_neg (by simp only [hunregistered, Bool.false_eq_true, not_false_eq_true])]
  · refine ⟨_, if_neg ?_, hsucc, iff_of_true (h.registered.mpr hzero) (Nat.succ_ne_zero n)⟩
    change ¬ e.nsignals + 1 = 1
    rw [hsucc]
    exact_mod_cast fun hone => hzero (Nat.succ_injective hone)

/-- The last signal takes the listeners of the extension away. -/
theorem Accounts.removeSignal (h : Accounts (n + 1) e) : Accounts n e.removeSignal := by
  have hpred : e.nsignals - 1 = (n : ℤ) := by
    rw [h.nsignals, Nat.cast_add, Nat.cast_one, add_sub_cancel_right]
  by_cases hzero : n = 0
  · rw [Ext.removeSignal, if_pos (by rw [hpred, hzero]; rfl)]
    exact ⟨hpred, iff_of_false Bool.false_ne_true (not_not.mpr hzero)⟩
  · rw [Ext.removeSignal, if_neg (fun hnone => hzero (by exact_mod_cast hpred.symm.trans hnone))]
    exact ⟨hpred, iff_of_true (h.registered.mpr (Nat.succ_ne_zero n)) hzero⟩

/-- After a call, the binding is as it should be, and its signal is counted beside `n` others. -/
def Settled (n : ℕ) (r : Except Failure (Binding × Ext)) : Prop :=
  ∃ kb e, r = .ok (kb, e) ∧ Live kb ∧ Accounts (n + kb.hasSignal.toNat) e

theorem delSignal_settled (h : Live kb) (hcount : Accounts (n + kb.hasSignal.toNat) e) :
    Settled n (keybindingDelSignal event kb e) := by
  rw [keybindingDelSignal]
  by_cases hnone : kb.listeners event = []
  · rw [if_pos hnone]
    exact ⟨kb, e, rfl, h, hcount⟩
  · have hsignal := hasSignal_of_listeners hnone
    rw [if_neg hnone]
    by_cases hleft : (kb.setListeners event []).hasSignal = true
    · simp only [hleft, if_true]
      refine ⟨_, e, rfl, ⟨h.keycodes, h.finalized, ?_⟩, ?_⟩
      · rw [hleft]
        exact h.kept.trans hsignal
      · rwa [hleft, ← hsignal]
    · rw [Bool.not_eq_true] at hleft
      obtain ⟨l, hungrab⟩ := ungrab_live (kb.setListeners event []) h.finalized h.keycodes e
      simp only [hleft, Bool.false_eq_true, if_false, hungrab, ok_bind]
      refine ⟨_, _, rfl, ⟨h.keycodes, h.finalized, hleft.symm⟩, ?_⟩
      rw [hsignal] at hcount
      change Accounts (n + (kb.setListeners event []).hasSignal.toNat) _
      rw [hleft]
      exact (hcount.send l).removeSignal

theorem newSignal_settled (h : Live kb) (hcount : Accounts (n + kb.hasSignal.toNat) e)
    {answer : Option (List UInt8)} (hanswer : kb.hasSignal = false → answer.isSome) :
    Settled n (keybindingNewSignal event id answer kb e) := by
  have hnew : (kb.setListeners event [id]).hasSignal = true :=
    hasSignal_setListeners (List.cons_ne_nil _ _)
  rw [keybindingNewSignal]
  by_cases hsignal : kb.hasSignal = true
  · simp only [hsignal, if_true]
    refine ⟨_, e, rfl, ⟨h.keycodes, h.finalized, ?_⟩, ?_⟩
    · rw [hnew]
      exact h.kept.trans hsignal
    · rwa [hnew, ← hsignal]
  · rw [Bool.not_eq_true] at hsignal
    obtain ⟨l, hrefresh⟩ := refreshBinding_eq (kb.setListeners event [id]) h.finalized answer e
    have hcodes := hanswer hsignal
    rw [hsignal] at hcount
    obtain ⟨e', hadd, hcount'⟩ := (hcount.send l).addSignal
    have hkept' : (kb.setListeners event [id]).keptAlive = false := h.kept.trans hsignal
    simp only [hsignal, Bool.false_eq_true, if_false, hrefresh, ok_bind, hcodes, if_true, ne_eq,
      not_true_eq_false, hadd, hkept']
    refine ⟨_, e', rfl, ⟨hcodes, h.finalized, hnew.symm⟩, ?_⟩
    change Accounts (n + (kb.setListeners event [id]).hasSignal.toNat) e'
    rw [hnew]
    exact hcount'

theorem delSignal_of_null (kb : Binding) (hlive : kb.finalized = false) (hnull : kb.keycodes = none)
    (hsome : kb.listeners event ≠ []) (hlast : (kb.setListeners event []).hasSignal = false)
    (e : Ext) : keybindingDelSignal event kb e = .error .nullKeycodes := by
  have hungrab : ungrab (kb.setListeners event []) e = .error .nullKeycodes := by
    simp only [ungrab, Binding.setListeners, hlive, hnull, Bool.false_eq_true, if_false]
  simp only [keybindingDelSignal, hsome, hlast, hungrab, Bool.false_eq_true, if_false]
  rfl

/-- Without keycodes, the first listener of a binding ends in the deleter, which reads them. -/
theorem newSignal_unanswered (hlive : kb.finalized = false) (hsignal : kb.hasSignal = false)
    (e : Ext) : keybindingNewSignal event id none kb e = .error .nullKeycodes := by
  have hnone : ∀ event, kb.listeners event = [] := by
    intro event
    by_contra hsome
    rw [hasSignal_of_listeners hsome] at hsignal
    cases hsignal
  obtain ⟨l, hrefresh⟩ := refreshBinding_eq (kb.setListeners event [id]) hlive none e
  simp only [keybindingNewSignal, hsignal, Bool.false_eq_true, if_false, hrefresh, ok_bind,
    Option.isSome_none, ne_eq, neg_eq_zero, one_ne_zero, not_false_eq_true, if_true]
  refine delSignal_of_null {kb.setListeners event [id] with keycodes := none} hlive rfl
    (by simp [Binding.setListeners]) ?_ _
  cases event <;> simp [Binding.hasSignal, Binding.setListeners, hnone]

theorem listen_settled (h : Live kb) (hcount : Accounts (n + kb.hasSignal.toNat) e)
    {answer : Option (List UInt8)} (hanswer : kb.hasSignal = false → answer.isSome) :
    Settled n (listen event id answer kb e) := by
  rw [listen]
  by_cases hmore : kb.listeners event ≠ []
  · have hsignal := hasSignal_of_listeners hmore
    have hnew : (kb.setListeners event (kb.listeners event ++ [id])).hasSignal = true :=
      hasSignal_setListeners (List.append_ne_nil_of_right_ne_nil _ (List.cons_ne_nil _ _))
    rw [if_pos hmore]
    refine ⟨_, e, rfl, ⟨h.keycodes, h.finalized, ?_⟩, ?_⟩
    · rw [hnew]
      exact h.kept.trans hsignal
    · rwa [hnew, ← hsignal]
  · rw [if_neg hmore, if_neg (by rw [h.finalized]; exact Bool.false_ne_true)]
    exact newSignal_settled h hcount hanswer

theorem stop_settled (h : Live kb) (hcount : Accounts (n + kb.hasSignal.toNat) e) :
    Settled n (stop event id kb e) := by
  rw [stop]
  by_cases hmem : id ∉ kb.listeners event
  · rw [if_pos hmem]
    exact ⟨kb, e, rfl, h, hcount⟩
  · rw [if_neg hmem]
    by_cases hleft : (kb.listeners event).erase id ≠ []
    · have hsignal := hasSignal_of_listeners (List.ne_nil_of_mem (not_not.mp hmem))
      have hnew : (kb.setListeners event ((kb.listeners event).erase id)).hasSignal = true :=
        hasSignal_setListeners hleft
      rw [if_pos hleft]
      refine ⟨_, e, rfl, ⟨h.keycodes, h.finalized, ?_⟩, ?_⟩
      · rw [hnew]
        exact h.kept.trans hsignal
      · rwa [hnew, ← hsignal]
    · rw [if_neg hleft, if_neg (by rw [h.finalized]; exact Bool.false_ne_true)]
      exact delSignal_settled h hcount

end

/-! ## The whole table -/

structure Consistent (s : State) : Prop where
  next : s.nextBindingKey = s.bindings.length
  live : ∀ kb ∈ s.bindings, Live kb
  accounts : Accounts (s.bindings.countP Binding.hasSignal) s.ext

section
variable {keysyms : Keysyms} {s s' : State} {b : ℕ}

theorem consistent_init : Consistent {} :=
  ⟨rfl, nofun, rfl, iff_of_false Bool.false_ne_true (not_not.mpr rfl)⟩

theorem Consistent.usable (h : Consistent s) : Usable s := by
  refine ⟨fun b hb => ?_, h.accounts.nsignals⟩
  rw [h.next] at hb
  have hlive := h.live _ (List.getElem_mem hb)
  exact ⟨_, List.getElem?_eq_getElem hb, hlive.keycodes, hlive.finalized⟩

/-- The bindings beside one of them. -/
theorem exists_split {l : List Binding} {kb : Binding} (h : l[b]? = some kb) :
    ∃ l₁ l₂, l = l₁ ++ kb :: l₂ ∧ ∀ kb', l.set b kb' = l₁ ++ kb' :: l₂ := by
  obtain ⟨hlt, rfl⟩ := List.getElem?_eq_some_iff.mp h
  refine ⟨l.take b, l.drop (b + 1), ?_, fun kb' => ?_⟩
  · rw [List.getElem_cons_drop, List.take_append_drop]
  · rw [List.set_eq_take_append_cons_drop, if_pos hlt]

theorem countP_split (l₁ l₂ : List Binding) (kb : Binding) :
    (l₁ ++ kb :: l₂).countP Binding.hasSignal =
      (l₁ ++ l₂).countP Binding.hasSignal + kb.hasSignal.toNat := by
  simp only [List.countP_append, List.countP_cons]
  cases kb.hasSignal
  · rfl
  · exact (Nat.add_assoc _ _ _).symm

/-- One binding of the table may be replaced by another that is as it should be. -/
theorem Consistent.exchange (h : Consistent s) {kb : Binding} (hkb : s.bindings[b]? = some kb) :
    ∃ n, Accounts (n + kb.hasSignal.toNat) s.ext ∧ ∀ kb' e', Live kb' →
      Accounts (n + kb'.hasSignal.toNat) e' →
        Consistent {s with bindings := s.bindings.set b kb', ext := e'} := by
  obtain ⟨l₁, l₂, hsplit, hset⟩ := exists_split hkb
  refine ⟨(l₁ ++ l₂).countP Binding.hasSignal, ?_, fun kb' e' hlive hcount => ⟨?_, ?_, ?_⟩⟩
  · rw [← countP_split, ← hsplit]
    exact h.accounts
  · rw [List.length_set]
    exact h.next
  · intro kb'' hmem
    rcases List.mem_or_eq_of_mem_set hmem with hmem | rfl
    · exact h.live kb'' hmem
    · exact hlive
  · simp only [hset, countP_split]
    exact hcount

theorem Consistent.onBinding (h : Consistent s)
    {f : Binding → Ext → Except Failure (Binding × Ext)}
    (hf : ∀ kb n, s.bindings[b]? = some kb → Live kb → Accounts (n + kb.hasSignal.toNat) s.ext →
      Settled n (f kb s.ext)) :
    ∃ s', onBinding b f s = .ok s' ∧ Consistent s' := by
  rw [KeyBindings.onBinding]
  cases hkb : s.bindings[b]? with
  | none => exact ⟨s, rfl, h⟩
  | some kb =>
      obtain ⟨n, hcount, hexchange⟩ := h.exchange hkb
      obtain ⟨kb', e', hrun, hlive, hcount'⟩ :=
        hf kb n hkb (h.live kb (List.mem_of_getElem? hkb)) hcount
      refine ⟨_, ?_, hexchange kb' e' hlive hcount'⟩
      simp only [hrun, ok_bind]

theorem Consistent.refreshAt (h : Consistent s) {answers : ℕ → Option (List UInt8)}
    (hb : b < s.nextBindingKey) (hanswer : (answers b).isSome) :
    ∃ s', refreshAt answers s b = .ok s' ∧ Consistent s' ∧
      s'.nextBindingKey = s.nextBindingKey := by
  rw [h.next] at hb
  have hkb := List.getElem?_eq_getElem hb
  have hlive := h.live _ (List.getElem_mem hb)
  obtain ⟨n, hcount, hexchange⟩ := h.exchange hkb
  obtain ⟨l, hrefresh⟩ := refreshBinding_eq _ hlive.finalized (answers b) s.ext
  refine ⟨_, ?_, hexchange {s.bindings[b] with keycodes := answers b} (s.ext.send l)
    ⟨hanswer, hlive.finalized, hlive.kept⟩ (hcount.send l), rfl⟩
  simp only [KeyBindings.refreshAt, hkb, hrefresh, ok_bind, hanswer, if_true, ne_eq,
    not_true_eq_false, if_false]

/-- What one round of the loop can do. -/
theorem refreshAt_cases {answers : ℕ → Option (List UInt8)} (h : refreshAt answers s b = .ok s') :
    ∃ kb, s.bindings[b]? = some kb ∧ ∃ kb' e', (answers b = none → kb'.keycodes = none) ∧
      s' = {s with bindings := s.bindings.set b kb', ext := e'} := by
  rw [KeyBindings.refreshAt] at h
  cases hkb : s.bindings[b]? with
  | none =>
      rw [hkb] at h
      cases h
  | some kb =>
      simp only [hkb] at h
      obtain ⟨⟨ret, kb₁, e₁⟩, hrefresh, h⟩ := bind_eq_ok h
      have hlive : kb.finalized = false := by
        by_contra hfinal
        rw [refreshBinding, if_pos (by simpa using hfinal)] at hrefresh
        cases hrefresh
      obtain ⟨l, heq⟩ := refreshBinding_eq kb hlive (answers b) s.ext
      rw [heq] at hrefresh
      cases hrefresh
      refine ⟨kb, rfl, ?_⟩
      cases hanswer : answers b with
      | some codes =>
          simp only [hanswer, Option.isSome_some, if_true, ne_eq, not_true_eq_false, if_false,
            ok_bind, Except.ok.injEq] at h
          exact ⟨_, _, nofun, h.symm⟩
      | none =>
          simp only [hanswer, Option.isSome_none, Bool.false_eq_true, if_false, ne_eq,
            neg_eq_zero, one_ne_zero, not_false_eq_true, if_true, finalize, hlive] at h
          obtain ⟨p, hfinal, h⟩ := bind_eq_ok h
          obtain ⟨e₂, -, hfinal⟩ := bind_eq_ok hfinal
          cases hfinal
          cases h
          exact ⟨_, _, fun _ => rfl, rfl⟩

theorem Consistent.refreshAll (h : Consistent s) (answers : ℕ → Option (List UInt8)) {l : List ℕ}
    (hl : ∀ b ∈ l, b < s.nextBindingKey ∧ (answers b).isSome) :
    ∃ s', l.foldlM (KeyBindings.refreshAt answers) s = .ok s' ∧ Consistent s' := by
  induction l generalizing s with
  | nil => exact ⟨s, rfl, h⟩
  | cons b l ih =>
      obtain ⟨hb, hanswer⟩ := hl b List.mem_cons_self
      obtain ⟨s₁, hstep, hs₁, hnext⟩ := h.refreshAt hb hanswer
      obtain ⟨s₂, hrest, hs₂⟩ := ih hs₁ fun c hc => hnext ▸ hl c (List.mem_cons_of_mem b hc)
      refine ⟨s₂, ?_, hs₂⟩
      rw [List.foldlM_cons, hstep, ok_bind, hrest]

theorem Consistent.visitNext (h : Consistent s) (v : Visit) :
    ∃ s', visitNext v s = .ok s' ∧ Consistent s' := by
  have hsame : ∀ v' l, Consistent {s with visit := v', emitted := l} :=
    fun _ _ => ⟨h.next, h.live, h.accounts⟩
  rw [KeyBindings.visitNext]
  by_cases hb : v.binding < s.nextBindingKey
  · rw [if_pos hb]
    rw [h.next] at hb
    have hlive := h.live _ (List.getElem_mem hb)
    obtain ⟨codes, hcodes⟩ := Option.isSome_iff_exists.mp hlive.keycodes
    simp only [List.getElem?_eq_getElem hb, hcodes]
    by_cases hmod : s.bindings[v.binding].modifiers ≠ v.mod
    · rw [if_pos hmod]
      exact ⟨_, rfl, hsame _ _⟩
    · rw [if_neg hmod]
      cases codes[v.index]? with
      | none => exact ⟨_, rfl, hsame _ _⟩
      | some code =>
          simp only
          split_ifs
          · exact ⟨_, rfl, hsame _ _⟩
          · exact ⟨_, rfl, hsame _ _⟩
  · rw [if_neg hb]
    exact ⟨_, rfl, h.next, h.live, h.accounts.send _⟩

/-- `new_binding` with arguments that are valid. -/
theorem newBinding_eq (h : Consistent s) {modifiers : Modifiers} {key : String} {ks : UInt32}
    {mod : UInt16} (hkey : keysyms key = some ks) (hmod : modifiers.mask = some mod)
    (intercept : Bool) (answer : Option (List UInt8)) :
    ∃ l, newBinding keysyms modifiers key intercept answer s =
      .ok (if answer.isSome then .binding s.nextBindingKey else .threw "Failed to setup key grab",
        {s with
          bindings := s.bindings ++
            [{keysym := ks, keycodes := answer, modifiers := mod, intercept := intercept}]
          nextBindingKey := s.nextBindingKey + 1
          ext := s.ext.send l}) := by
  obtain ⟨l, hrefresh⟩ := refreshBinding_eq
    {keysym := ks, modifiers := mod, intercept := intercept} rfl answer s.ext
  refine ⟨l, ?_⟩
  have hset : ∀ kb kb', (s.bindings ++ [kb]).set s.nextBindingKey kb' = s.bindings ++ [kb'] := by
    intro kb kb'
    rw [h.next, List.set_append_right _ _ le_rfl, Nat.sub_self, List.set_cons_zero]
  simp only [newBinding, hkey, hmod, hrefresh, ok_bind, hset]
  cases answer with
  | none => rfl
  | some codes => rfl

/-- When a binding gets no keycodes, the loop over the table leaves it without them. -/
theorem refreshAll_unanswered {answers : ℕ → Option (List UInt8)} {l : List ℕ} (hl : l.Nodup)
    (h : l.foldlM (refreshAt answers) s = .ok s') :
    s'.nextBindingKey = s.nextBindingKey ∧ (∀ b ∉ l, s'.bindings[b]? = s.bindings[b]?) ∧
      ∀ b ∈ l, answers b = none → ∃ kb ∈ s'.bindings[b]?, kb.keycodes = none := by
  induction l generalizing s with
  | nil =>
      cases h
      exact ⟨rfl, fun _ _ => rfl, nofun⟩
  | cons c l ih =>
      obtain ⟨hc, hl⟩ := List.nodup_cons.mp hl
      rw [List.foldlM_cons] at h
      obtain ⟨s₁, hstep, hrest⟩ := bind_eq_ok h
      obtain ⟨hnext, hframe, hnull⟩ := ih hl hrest
      obtain ⟨kb, hkb, kb', e', hrefreshed, rfl⟩ := refreshAt_cases hstep
      refine ⟨hnext, fun b hb => ?_, fun b hb hanswer => ?_⟩
      · rw [List.mem_cons, not_or] at hb
        obtain ⟨hne, hb⟩ := hb
        rw [hframe b hb]
        exact List.getElem?_set_ne (Ne.symm hne)
      · rcases List.mem_cons.mp hb with rfl | hb
        · refine ⟨kb', ?_, hrefreshed hanswer⟩
          rw [hframe b hc]
          exact List.getElem?_set_self (List.getElem?_eq_some_iff.mp hkb).1
        · exact hnull b hb hanswer

/-! ## Runs -/

theorem unchanged_of_same {a : Op} {r : Reply} (h : exec keysyms s a = .ok (r, s)) :
    Unchanged keysyms s a := by
  intro message s' heq
  rw [h] at heq
  cases heq
  exact ⟨rfl, rfl, rfl⟩

theorem unchanged_of_reply {a : Op} {r : Reply} (h : exec keysyms s a = .ok (r, s'))
    (hr : ∀ message, r ≠ .threw message) : Unchanged keysyms s a := by
  intro message s'' heq
  rw [h] at heq
  cases heq
  exact absurd rfl (hr message)

/-- The call keeps the table usable, when every binding gets its keycodes. -/
theorem exec_answered (h : Consistent s) {a : Op} (ha : Answered keysyms s a) :
    ∃ r s', exec keysyms s a = .ok (r, s') ∧ Consistent s' ∧ Unchanged keysyms s a := by
  have hdone : ∀ s', exec keysyms s a = .ok (.done, s') → Consistent s' →
      ∃ r s', exec keysyms s a = .ok (r, s') ∧ Consistent s' ∧ Unchanged keysyms s a :=
    fun _ hrun hs => ⟨_, _, hrun, hs, unchanged_of_reply hrun fun _ => nofun⟩
  cases a with
  | new modifiers key intercept answer =>
      have hsame : ∀ message, exec keysyms s (.new modifiers key intercept answer) =
          .ok (.threw message, s) → ∃ r s',
            exec keysyms s (.new modifiers key intercept answer) = .ok (r, s') ∧
              Consistent s' ∧ Unchanged keysyms s (.new modifiers key intercept answer) :=
        fun message hrun => ⟨_, s, hrun, h, unchanged_of_same hrun⟩
      cases hkey : keysyms key with
      | none => exact hsame "Invalid key name" (by simp only [exec, newBinding, hkey])
      | some ks =>
          cases hmod : modifiers.mask with
          | none => exact hsame "Invalid modifiers" (by simp only [exec, newBinding, hkey, hmod])
          | some mod =>
              obtain ⟨codes, rfl⟩ := Option.isSome_iff_exists.mp (ha (by rw [hkey]; rfl)
                (by rw [hmod]; rfl))
              obtain ⟨l, hrun⟩ := newBinding_eq h hkey hmod intercept (some codes)
              have hreply : ∀ message, Reply.binding s.nextBindingKey ≠ .threw message :=
                fun _ => nofun
              refine ⟨_, _, hrun, ⟨?_, ?_, ?_⟩, unchanged_of_reply hrun hreply⟩
              · rw [h.next, List.length_append]
                rfl
              · intro kb hkb
                rcases List.mem_append.mp hkb with hkb | hkb
                · exact h.live kb hkb
                · rw [List.mem_singleton.mp hkb]
                  exact ⟨rfl, rfl, rfl⟩
              · rw [List.countP_append]
                exact h.accounts.send l
  | listen b event answer =>
      obtain ⟨s', hrun, hs⟩ := h.onBinding (b := b)
        (f := KeyBindings.listen event s.listenersCreated answer) fun kb n hkb hlive hcount =>
          listen_settled hlive hcount (ha kb hkb hlive.finalized)
      exact hdone {s' with listenersCreated := s'.listenersCreated + 1}
        (by rw [exec, hrun]; rfl) ⟨hs.next, hs.live, hs.accounts⟩
  | stop b event id =>
      obtain ⟨s', hrun, hs⟩ := h.onBinding (b := b) (f := KeyBindings.stop event id)
        fun kb n hkb hlive hcount => stop_settled hlive hcount
      exact hdone s' (by rw [exec, hrun]; rfl) hs
  | mapping refreshed answers =>
      cases refreshed with
      | false => exact hdone s rfl h
      | true =>
          obtain ⟨s', hrun, hs⟩ := h.refreshAll answers (l := List.range s.nextBindingKey)
            fun b hb => ⟨List.mem_range.mp hb, ha rfl b (List.mem_range.mp hb)⟩
          exact hdone s' (by rw [exec, if_pos rfl, hrun]; rfl) hs
  | key keycode mod event => exact hdone _ rfl ⟨h.next, h.live, h.accounts⟩
  | visit =>
      cases hv : s.visit with
      | none => exact hdone s (by rw [exec, hv]) h
      | some v =>
          obtain ⟨s', hrun, hs⟩ := h.visitNext v
          exact hdone s' (by simp only [exec, hv, hrun]; rfl) hs

/-- Without keycodes, the call fails, or it throws and leaves its binding behind, or it leaves a
binding without keycodes. -/
theorem exec_unanswered (h : Consistent s) {a : Op} (ha : ¬ Answered keysyms s a) {r : Reply}
    (hrun : exec keysyms s a = .ok (r, s')) (husable : Usable s') : ¬ Unchanged keysyms s a := by
  intro hsame
  cases a with
  | new modifiers key intercept answer =>
      simp only [Answered, Classical.not_imp, Bool.not_eq_true, Option.isSome_eq_false_iff,
        Option.isNone_iff_eq_none] at ha
      obtain ⟨hkey, hmod, rfl⟩ := ha
      obtain ⟨ks, hkey⟩ := Option.isSome_iff_exists.mp hkey
      obtain ⟨mod, hmod⟩ := Option.isSome_iff_exists.mp hmod
      obtain ⟨l, heq⟩ := newBinding_eq h hkey hmod intercept none
      exact Nat.succ_ne_self _ (hsame _ _ heq).2.1
  | listen b event answer =>
      simp only [Answered, not_forall, Bool.not_eq_true, Option.isSome_eq_false_iff,
        Option.isNone_iff_eq_none] at ha
      obtain ⟨kb, hkb, hlive, hsignal, rfl⟩ := ha
      have hnone : kb.listeners event = [] := by
        by_contra hsome
        rw [hasSignal_of_listeners hsome] at hsignal
        cases hsignal
      have hfail : KeyBindings.listen event s.listenersCreated none kb s.ext =
          .error .nullKeycodes := by
        rw [KeyBindings.listen, if_neg (not_not.mpr hnone), if_neg (by rw [hlive]; nofun)]
        exact newSignal_unanswered hlive hsignal s.ext
      have hkb : s.bindings[b]? = some kb := hkb
      simp only [exec, onBinding, hkb, hfail] at hrun
      cases hrun
  | mapping refreshed answers =>
      simp only [Answered, not_forall, Bool.not_eq_true, Option.isSome_eq_false_iff,
        Option.isNone_iff_eq_none] at ha
      obtain ⟨rfl, b, hb, hanswer⟩ := ha
      rw [exec, if_pos rfl] at hrun
      cases hloop : (List.range s.nextBindingKey).foldlM (refreshAt answers) s with
      | error e =>
          rw [hloop] at hrun
          cases hrun
      | ok s₁ =>
          rw [hloop] at hrun
          cases hrun
          obtain ⟨hnext, -, hnull⟩ := refreshAll_unanswered List.nodup_range hloop
          obtain ⟨kb, hkb, hcodes⟩ := hnull b (List.mem_range.mpr hb) hanswer
          obtain ⟨kb', hkb', hsome, -⟩ := husable.bindings b (hnext ▸ hb)
          rw [Option.mem_def.mp hkb] at hkb'
          cases hkb'
          rw [hcodes] at hsome
          cases hsome
  | stop b event id => exact ha trivial
  | key keycode mod event => exact ha trivial
  | visit => exact ha trivial

theorem run_consistent {l : List (Op × State)} {r : Except Failure State} (h : Run keysyms l r)
    (ha : ∀ p ∈ l, Answered keysyms p.2 p.1) : ∃ s, r = .ok s ∧ Consistent s := by
  induction h with
  | init => exact ⟨_, rfl, consistent_init⟩
  | @step l s a hrun henabled ih =>
      obtain ⟨ha, hall⟩ := List.forall_mem_cons.mp ha
      obtain ⟨s₁, heq, hs⟩ := ih hall
      cases heq
      obtain ⟨r', s', hexec, hs', -⟩ := exec_answered hs ha
      exact ⟨s', by rw [hexec]; rfl, hs'⟩

/-- In every run, no check fails, the table stays usable, and a call that throws changes nothing,
if and only if keycodes are found whenever they are looked up. -/
theorem bindings_usable_iff {l : List (Op × State)} {r : Except Failure State}
    (h : Run keysyms l r) :
    ((∃ s, r = .ok s ∧ Usable s) ∧ ∀ p ∈ l, Usable p.2 ∧ Unchanged keysyms p.2 p.1) ↔
      ∀ p ∈ l, Answered keysyms p.2 p.1 := by
  induction h with
  | init =>
      exact iff_of_true ⟨⟨_, rfl, consistent_init.usable⟩, List.forall_mem_nil _⟩
        (List.forall_mem_nil _)
  | @step l s a hrun henabled ih =>
      rw [List.forall_mem_cons, List.forall_mem_cons]
      constructor
      · rintro ⟨⟨s', heq, hs'⟩, ⟨hs, hunchanged⟩, hall⟩
        have hanswered := ih.mp ⟨⟨s, rfl, hs⟩, hall⟩
        obtain ⟨s₁, hsome, hconsistent⟩ := run_consistent hrun hanswered
        cases hsome
        refine ⟨?_, hanswered⟩
        by_contra ha
        cases hexec : exec keysyms s a with
        | error e =>
            rw [hexec] at heq
            cases heq
        | ok p =>
            rw [hexec] at heq
            cases heq
            exact exec_unanswered hconsistent ha hexec hs' hunchanged
      · rintro ⟨ha, hanswered⟩
        obtain ⟨s₁, hsome, hconsistent⟩ := run_consistent hrun hanswered
        cases hsome
        obtain ⟨r', s', hexec, hs', hunchanged⟩ := exec_answered hconsistent ha
        refine ⟨⟨s', by rw [hexec]; rfl, hs'.usable⟩, ⟨hconsistent.usable, hunchanged⟩, ?_⟩
        exact (ih.mpr hanswered).2

end

/-- A name table for examples. -/
def anyKey : Keysyms := fun _ => some 97

/-- A binding with a listener; the mapping changes, and its key is pressed. -/
theorem bindings_usable_pressed : ∃ l s, Run anyKey l (.ok s) ∧
    s.emitted = [(0, .pressed)] ∧ Usable s ∧ s.ext.nsignals = 1 := by
  have hinit : Run anyKey [] (.ok {}) := .init
  have hnew := hinit.step (.new (.strings []) "a" true (some [38])) nofun
  have hlisten := Run.step (.listen 0 .pressed (some [38])) hnew nofun
  have hmapping := Run.step (.mapping true fun _ => some [39]) hlisten ⟨rfl, rfl⟩
  have hkey := Run.step (.key 39 0 .pressed) hmapping ⟨rfl, rfl⟩
  have hvisit := Run.step .visit hkey rfl
  obtain ⟨s, heq, husable⟩ := ((bindings_usable_iff hvisit).mpr (by simp [Answered])).1
  cases heq
  exact ⟨_, _, hvisit, rfl, husable, rfl⟩

/-- A call that throws leaves its binding in the table; when a change of the mapping takes the
keycodes away, the next change fails a check, and the next key event reads NULL. -/
theorem bindings_broken : ¬ Unchanged anyKey {} (.new (.strings []) "a" false none) ∧
    (∃ l, Run anyKey l (.error .check)) ∧ ∃ l, Run anyKey l (.error .nullKeycodes) := by
  have hinit : Run anyKey [] (.ok {}) := .init
  have hnew := hinit.step (.new (.strings []) "a" true (some [38])) nofun
  have hlisten := Run.step (.listen 0 .pressed (some [38])) hnew nofun
  have hmapping := Run.step (.mapping true fun _ => none) hlisten ⟨rfl, rfl⟩
  refine ⟨fun h => ?_, ⟨_, Run.step (.mapping true fun _ => none) hmapping ⟨rfl, rfl⟩⟩, ?_⟩
  · exact Nat.one_ne_zero (h "Failed to setup key grab" _ rfl).2.1
  · exact ⟨_, Run.step .visit (Run.step (.key 38 0 .pressed) hmapping ⟨rfl, rfl⟩) rfl⟩

end Deai.KeyBindings
