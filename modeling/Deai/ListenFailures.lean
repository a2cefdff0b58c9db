import Deai.MemberHandlers

/-!
# Listening to a signal that cannot be had

`di_listen_to` with an error output. It reads the signal member of the object, and creates and
stores a signal if there is none. Then it registers the handler. A store that fails is noticed,
but the assertion that follows allows for errors of the lookup only, where there is no signal yet.
-/
namespace Deai.ListenFailures
open Value OwnedConversion AccountedRun AccountedRun.Run MemberHandlers

/-- The texts of the errors that are made here. -/
inductive Message where
  | setFailed (rc : ℤ)
  | getFailed (rc : ℤ)
  | notObject
  deriving DecidableEq

/-- An error comes with its text if it was made here. -/
structure ListenError where
  error : ObjRef
  message : Option Message

inductive Listened where
  | handle (l : ObjRef)
  | error (e : ListenError)

section
variable {σ : Type} (P : UserCode σ) (self : ObjRef)

def strongRef (o : ObjRef) : List Resource := [.ref (.strong o)]

def newObject : M σ ObjRef := do
  let o ← act fun w => (w.nextObject, {w with nextObject := w.nextObject + 1})
  take (strongRef o)
  pure o

def newError (m : Message) : M σ ListenError := do
  let e ← newObject
  pure ⟨e, some m⟩

/-- A new signal. The weak reference to its source is a member of it. -/
def newSignal : M σ ObjRef := do
  let sig ← newObject
  act fun w => (sig, {w with signals := Function.update w.signals sig (some [])})

/-- What was found is used as a signal, and its field `nhandlers` is written, whatever it is. No
code runs between the lookup and that. -/
def castSignal (sig : ObjRef) : M σ ObjRef := do
  let w ← look
  if (w.signals sig).isNone then exit (.crash .notSignal) else pure sig

/-- A new signal is stored with `di_setx`. -/
def storeSignal (member : String) : M σ (ObjRef × ℤ × Option ObjRef) := do
  let sig ← newSignal
  let stored ← diSetx P self member ⟨.object sig, trivial⟩
  pure (sig, stored)

/-- The branch for `-ENOENT`: the signal and the error after it. -/
def createSignal (member : String) : M σ (Option ObjRef × Option ListenError) := do
  match ← storeSignal P self member with
  | (sig, _, some e) => pure (some sig, some ⟨e, none⟩)
  | (sig, rc, none) =>
      if rc ≠ 0 then do
        let e ← newError (.setFailed rc)
        pure (some sig, some e)
      else pure (some sig, none)

/-- The branch for a value. -/
def acceptSignal (v : Val) : M σ (Option ObjRef × Option ListenError) := do
  match ← toObject P v with
  | some o => do
      let sig ← castSignal o
      pure (some sig, none)
  | none => do
      let e ← newError .notObject
      pure (none, some e)

def findSignal (member : String) : M σ (Option ObjRef × Option ListenError) := do
  match ← diGetx P self true member with
  | .caught e => pure (none, some ⟨e, none⟩)
  | .failed rc =>
      if rc = enoent then createSignal P self member
      else do
        let e ← newError (.getFailed rc)
        pure (none, some e)
  | .value v => acceptSignal P v

def addHandler (h : ObjRef) (hs : List ObjRef) : List ObjRef := if h ∈ hs then hs else hs ++ [h]

def diSignalAddHandler (sig h : ObjRef) : M σ PUnit := do
  book (0, {(sig, h)})
  act fun w => (⟨⟩, {w with
    signals := Function.update w.signals sig ((w.signals sig).map (addHandler h))})

/-- The rest of `di_listen_to`: the weak references of the handle are members of it, and the handle
itself is for the caller. -/
def register (sig h : ObjRef) : M σ Listened := do
  diSignalAddHandler sig h
  let handle ← newObject
  release P (strongRef sig)
  book (gave (strongRef handle))
  pure (.handle handle)

def diListenTo (name : String) (h : ObjRef) : M σ Listened := do
  let (sig, error) ← findSignal P self ("__signal_" ++ name)
  match error, sig with
  | some _, some _ => exit (.crash .assertion)
  | some e, none => do
      book (gave (strongRef e.error))
      pure (.error e)
  | none, none => exit (.crash .notSignal)
  | none, some sig => register P sig h

/-- Either the handler was registered, or there is an error; no reference is left. -/
def Clean (h : ObjRef) (r : Ran (World σ) Exit Account Listened) : Prop :=
  match r.result with
  | .ok (.handle _) => ∃ sig, r.net = (0, {(sig, h)})
  | .ok (.error _) => r.net = 0
  | .error _ => False

/-- The new signal goes into the object without an error. -/
def Storable (member : String) (w : World σ) : Prop :=
  ∃ sig, (storeSignal P self member w).result = .ok (sig, 0, none)

/-- The value is not an object, or it is a signal. -/
def SignalOrNone (v : Val) (w : World σ) : Prop :=
  ∀ o, (toObject P v w).result = .ok (some o) → ((toObject P v w).world.signals o).isSome

/-- What the lookup of the member gives can be used: an error, a value that is a signal or no object
at all, or nothing while a new signal can be stored. -/
def Obtainable (member : String) (w : World σ) : Prop :=
  match (diGetx P self true member w).result with
  | .error _ => False
  | .ok (.caught _) => True
  | .ok (.failed rc) => rc = enoent → Storable P self member (diGetx P self true member w).world
  | .ok (.value v) => SignalOrNone P v (diGetx P self true member w).world

end

/-! ## The account -/

/-- The search ends with either a signal or an error in hand. -/
def Settles {σ : Type} (r : Ran (World σ) Exit Account (Option ObjRef × Option ListenError)) : Prop :=
  (∃ sig w, r = ⟨.ok (some sig, none), w, took (strongRef sig)⟩) ∨
    ∃ e w, r = ⟨.ok (none, some e), w, took (strongRef e.error)⟩

/-- It ends with both, or not at all. -/
def Fails {σ : Type} (r : Ran (World σ) Exit Account (Option ObjRef × Option ListenError)) : Prop :=
  (∃ sig e, r.result = .ok (some sig, some e)) ∨ ∃ x, r.result = .error x

section
variable {σ : Type} (P : UserCode σ) (self : ObjRef)

theorem newObject_apply (w : World σ) :
    (newObject : M σ ObjRef) w =
      ⟨.ok w.nextObject, {w with nextObject := w.nextObject + 1}, took (strongRef w.nextObject)⟩ := by
  unfold newObject take
  rw [act_bind_apply, book_bind_apply]
  simp only [pure_apply, Ran.after, add_zero]

theorem newObject_ends :
    Ends (newObject : M σ ObjRef) fun r g => ∃ o, r = .ok o ∧ g = took (strongRef o) := by
  intro w
  rw [newObject_apply]
  exact ⟨_, rfl, rfl⟩

theorem newError_apply (m : Message) (w : World σ) :
    (newError m : M σ ListenError) w = ⟨.ok ⟨w.nextObject, some m⟩,
      {w with nextObject := w.nextObject + 1}, took (strongRef w.nextObject)⟩ := by
  unfold newError
  rw [bind_ok (newObject_apply w)]
  simp only [pure_apply, Ran.after, add_zero]

theorem newSignal_ends :
    Ends (newSignal : M σ ObjRef) fun r g => ∃ sig, r = .ok sig ∧ g = took (strongRef sig) := by
  intro w
  unfold newSignal
  rw [bind_ok (newObject_apply w)]
  exact ⟨_, rfl, add_zero _⟩

/-- A new signal is in hand, and so is an error that the store gave. -/
theorem storeSignal_ends (member : String) :
    Ends (storeSignal P self member) fun r g =>
      ∀ sig rc e, r = .ok (sig, rc, e) → g = took (strongRef sig) + took (errorResources e) := by
  refine newSignal_ends.bind (fun x g hx => nomatch hx) fun sig g hsig => ?_
  obtain ⟨_, ⟨⟩, rfl⟩ := hsig
  refine (diSetx_ends P self member _).bind nofun fun stored g hstored => ?_
  refine ends_pure fun sig' rc e heq => ?_
  cases heq
  rw [add_zero, hstored _ rfl]

theorem createSignal_spec (member : String) (w : World σ) :
    (Storable P self member w → Settles (createSignal P self member w)) ∧
      (¬ Storable P self member w → Fails (createSignal P self member w)) := by
  have hend := storeSignal_ends P self member w
  unfold Storable createSignal
  cases hr : storeSignal P self member w with
  | mk result w' g =>
      rw [hr] at hend
      cases result with
      | error x =>
          rw [bind_error hr]
          exact ⟨by rintro ⟨_, ⟨⟩⟩, fun _ => .inr ⟨x, rfl⟩⟩
      | ok stored =>
          obtain ⟨sig, rc, e⟩ := stored
          rw [bind_ok hr]
          cases e with
          | some e => exact ⟨by rintro ⟨_, ⟨⟩⟩, fun _ => .inl ⟨sig, _, rfl⟩⟩
          | none =>
              by_cases hrc : rc = 0
              · subst hrc
                have hg : g = took (strongRef sig) + 0 := hend sig 0 none rfl
                refine ⟨fun _ => .inl ⟨sig, w', ?_⟩, fun hn => absurd ⟨sig, rfl⟩ hn⟩
                rw [hg]
                simp [Ran.after]
              · refine ⟨?_, fun _ => .inl ⟨sig, ⟨w'.nextObject, some (.setFailed rc)⟩, ?_⟩⟩
                · rintro ⟨_, hstored⟩
                  cases hstored
                  exact absurd rfl hrc
                · dsimp only
                  rw [if_pos hrc, bind_ok (newError_apply _ _)]
                  rfl

theorem castSignal_apply (o : ObjRef) (w : World σ) :
    castSignal o w = match w.signals o with
      | none => ⟨.error (.crash .notSignal), w, 0⟩
      | some _ => ⟨.ok o, w, 0⟩ := by
  unfold castSignal
  rw [look_bind_apply]
  cases w.signals o <;> rfl

theorem acceptSignal_spec (v : Val) (w : World σ) :
    (SignalOrNone P v w → Settles ((acceptSignal P v w).after (took v.1.resources))) ∧
      (¬ SignalOrNone P v w → Fails ((acceptSignal P v w).after (took v.1.resources))) := by
  have hend := toObject_ends P v w
  unfold SignalOrNone acceptSignal
  cases hr : toObject P v w with
  | mk result w' g =>
      rw [hr] at hend
      cases result with
      | error x => exact hend.elim
      | ok o =>
          rw [bind_ok hr]
          cases o with
          | none =>
              have hg : took v.1.resources + g = 0 := hend
              refine ⟨fun _ => .inr ⟨⟨w'.nextObject, some .notObject⟩,
                {w' with nextObject := w'.nextObject + 1}, ?_⟩, fun hn => (hn nofun).elim⟩
              dsimp only
              rw [bind_ok (newError_apply _ _)]
              simp only [pure_apply, Ran.after, add_zero, ← add_assoc, hg, zero_add]
          | some o =>
              have hg : took v.1.resources + g = took (strongRef o) := hend
              cases hsignal : w'.signals o with
              | none =>
                  refine ⟨fun hall => ?_, fun _ => .inr ⟨.crash .notSignal, ?_⟩⟩
                  · have hsome := hall o rfl
                    rw [hsignal] at hsome
                    cases hsome
                  · have hcast : castSignal o w' = ⟨.error (.crash .notSignal), w', 0⟩ := by
                      rw [castSignal_apply, hsignal]
                    dsimp only
                    rw [bind_error hcast]
                    rfl
              | some hs =>
                  refine ⟨fun _ => .inl ⟨o, w', ?_⟩, fun hn => (hn ?_).elim⟩
                  · have hcast : castSignal o w' = ⟨.ok o, w', 0⟩ := by rw [castSignal_apply, hsignal]
                    dsimp only
                    rw [bind_ok hcast]
                    simp only [pure_apply, Ran.after, add_zero, hg]
                  · rintro _ ⟨⟩
                    exact Option.isSome_iff_exists.mpr ⟨hs, hsignal⟩

theorem findSignal_spec (member : String) (w : World σ) :
    (Obtainable P self member w → Settles (findSignal P self member w)) ∧
      (¬ Obtainable P self member w → Fails (findSignal P self member w)) := by
  have hend := diGetx_ends P self true member w
  unfold Obtainable findSignal
  cases hr : diGetx P self true member w with
  | mk result w' g =>
      rw [hr] at hend
      cases result with
      | error x =>
          rw [bind_error hr]
          exact ⟨False.elim, fun _ => .inr ⟨x, rfl⟩⟩
      | ok got =>
          rw [bind_ok hr, show g = took got.resources from hend.1]
          cases got with
          | caught e =>
              refine ⟨fun _ => .inr ⟨⟨e, none⟩, w', ?_⟩, fun hn => (hn trivial).elim⟩
              simp [Ran.after, Got.resources, strongRef]
          | value v => exact acceptSignal_spec P v w'
          | failed rc =>
              simp only [Got.resources, took_nil, after_zero]
              by_cases hrc : rc = enoent
              · simp only [hrc, true_imp_iff]
                exact createSignal_spec P self member w'
              · simp only [if_neg hrc]
                refine ⟨fun _ => .inr ⟨⟨w'.nextObject, some (.getFailed rc)⟩,
                  {w' with nextObject := w'.nextObject + 1}, ?_⟩, fun hn => (hn fun h => absurd h hrc).elim⟩
                rw [bind_ok (newError_apply _ _)]
                simp only [pure_apply, Ran.after, add_zero]

theorem diSignalAddHandler_ends (sig h : ObjRef) :
    Ends (diSignalAddHandler sig h : M σ PUnit) fun r g => r = .ok ⟨⟩ ∧ g = (0, {(sig, h)}) := by
  intro w
  unfold diSignalAddHandler
  rw [book_bind_apply]
  exact ⟨rfl, add_zero _⟩

/-- With a signal in hand the handler is registered and the signal given back. -/
theorem register_ends (sig h : ObjRef) :
    Ends (register P sig h) fun r g =>
      ∃ l, r = .ok (.handle l) ∧ took (strongRef sig) + g = (0, {(sig, h)}) := by
  refine (diSignalAddHandler_ends sig h).bind (fun x g hx => nomatch hx.1) fun _ g hadd => ?_
  rw [hadd.2]
  refine newObject_ends.bind (fun x g hx => nomatch hx) fun l g hl => ?_
  obtain ⟨_, ⟨⟩, rfl⟩ := hl
  refine (release_ends P _).bind (fun x g hx => nomatch hx.1) fun _ g hrelease => ?_
  rw [hrelease.2]
  refine ends_book (ends_pure ⟨l, rfl, ?_⟩)
  calc took (strongRef sig) +
        ((0, {(sig, h)}) + (took (strongRef l) + (gave (strongRef sig) + (gave (strongRef l) + 0))))
      = (0, {(sig, h)}) + (took (strongRef sig) + gave (strongRef sig)) +
        (took (strongRef l) + gave (strongRef l)) := by abel
    _ = (0, {(sig, h)}) := by rw [took_gave, took_gave, add_zero, add_zero]

theorem clean_of_handle {r : Ran (World σ) Exit Account Listened} {l sig h : ObjRef} {g : Account}
    (hresult : r.result = .ok (.handle l)) (hnet : g + r.net = (0, {(sig, h)})) :
    Clean h (r.after g) := by
  unfold Clean Ran.after
  rw [hresult]
  exact ⟨sig, hnet⟩

/-- Listening ends with a registered handler or with an error, and leaves nothing behind, if and only
if the signal member can be used or a new signal can be stored. -/
theorem listen_clean_iff (name : String) (h : ObjRef) (w : World σ) :
    Clean h (diListenTo P self name h w) ↔ Obtainable P self ("__signal_" ++ name) w := by
  obtain ⟨hgood, hbad⟩ := findSignal_spec P self ("__signal_" ++ name) w
  unfold diListenTo
  by_cases hob : Obtainable P self ("__signal_" ++ name) w
  · refine iff_of_true ?_ hob
    obtain ⟨sig, w', hr⟩ | ⟨e, w', hr⟩ := hgood hob
    · rw [bind_ok hr]
      obtain ⟨l, hresult, hnet⟩ := register_ends P sig h w'
      exact clean_of_handle hresult hnet
    · rw [bind_ok hr]
      dsimp only
      rw [book_bind_apply]
      have hnet : took (strongRef e.error) + (gave (strongRef e.error) + 0) = 0 := by
        rw [add_zero, took_gave]
      exact hnet
  · refine iff_of_false ?_ hob
    cases hr : findSignal P self ("__signal_" ++ name) w with
    | mk result w' g =>
        have hfail := hbad hob
        rw [hr] at hfail
        obtain ⟨sig, e, rfl⟩ | ⟨x, rfl⟩ := hfail
        · rw [bind_ok hr]
          exact fun hc => hc
        · rw [bind_error hr]
          exact fun hc => hc

end

/-- An object whose setter for all members refuses. -/
def refusing : World Unit where
  members := [("__set", ⟨.object 1, trivial⟩)]
  callable := fun _ => true
  signals := fun _ => none
  env := ⟨fun _ => false, 0⟩
  nextBlock := 0
  nextObject := 2
  user := ()

def returnsEinval : UserCode Unit where
  call := fun _ _ w => (.code einval (by decide), w)
  release := fun _ w => w
  releaseMember := fun _ w => (false, w)

/-- The signal was created, and could not be stored. -/
theorem listen_not_clean :
    (diListenTo returnsEinval 0 "x" 7 refusing).result = .error (.crash .assertion) ∧
    ¬ Clean 7 (diListenTo returnsEinval 0 "x" 7 refusing) := by
  have hrun : (diListenTo returnsEinval 0 "x" 7 refusing).result = .error (.crash .assertion) := rfl
  refine ⟨hrun, ?_⟩
  unfold Clean
  rw [hrun]
  exact id

end Deai.ListenFailures
