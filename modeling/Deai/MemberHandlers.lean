import Deai.AccountedRun
import Deai.OwnedConversion
import Mathlib.Data.Multiset.AddSub

/-!
# Members that are read and written through handlers

`di_getx` and `di_setx` of one object. A member that is not there is read by a getter, and a
setter or a deleter takes part in every write: the handler for the very member first, then the
one for all members. Handlers and destructors are user code, and may do anything to the world.

The account of a run holds the references that the running functions have in their hands: those
they were given or have taken, less those they have released, returned or stored. Where user code
returns a value or throws an error, its references change hands.
-/
namespace Deai.MemberHandlers
open Value Conversion OwnedConversion AccountedRun AccountedRun.Run

/-- A value as the functions get it. -/
abbrev Val := {v : Owned // v.WellFormed}

/-- `DI_TYPE_NIL` has no size. -/
def isNil (v : Owned) : Bool :=
  match v with
  | .scalar .nil => true
  | _ => false

/-- The member table of the object, and what the functions see of other objects: whether they
have a `call` function, and the handlers of those that are signals. -/
structure World (σ : Type) where
  members : List (String × Val)
  callable : ObjRef → Bool
  signals : ObjRef → Option (List ObjRef)
  env : Env
  nextBlock : Block
  nextObject : ObjRef
  user : σ

/-- How a call of user code ends. The value is missing if its type is `DI_LAST_TYPE`. -/
inductive Reply where
  | returned (v : Option Val)
  | code (rc : ℤ) (hrc : rc ≠ 0)
  | threw (e : ObjRef)

/-- The second function runs while a member's old value is released; it says if the member was
touched by the code that ran. -/
structure UserCode (σ : Type) where
  call : ObjRef → List DiValue → World σ → Reply × World σ
  release : List Resource → World σ → World σ
  releaseMember : Val → World σ → Bool × World σ

inductive Crash where
  | assertion
  | nullCall
  | staleMember
  | notSignal
  deriving DecidableEq

inductive Exit where
  | crash (c : Crash)
  | threw (e : ObjRef)
  deriving DecidableEq

/-- The references in the hands of the functions, and the handlers they have registered. -/
abbrev Account := (Ref → ℤ) × Multiset (ObjRef × ObjRef)

abbrev M (σ : Type) := Run (World σ) Exit Account

def took (xs : List Resource) : Account := (fun r => xs.count (.ref r), 0)

def gave (xs : List Resource) : Account := (fun r => -(xs.count (.ref r) : ℤ), 0)

def enoent : ℤ := -2

def einval : ℤ := -22

def World.lookup {σ : Type} (name : String) (w : World σ) : Option Val :=
  (w.members.find? (·.1 == name)).map (·.2)

section
variable {σ : Type} (P : UserCode σ) (self : ObjRef)

def take (xs : List Resource) : M σ PUnit := book (took xs)

/-- References are released, and destructors run. -/
def release (xs : List Resource) : M σ PUnit := do
  book (gave xs)
  act fun w => (⟨⟩, P.release xs w)

/-- `di_rawgetx`; none for `-ENOENT`. -/
def diRawgetx (prop : String) : M σ (Option Val) := do
  let w ← look
  match w.lookup prop with
  | none => pure none
  | some v =>
      if isNil v.1 then exit (.crash .assertion)
      else do
        take v.1.resources
        pure (some v)

/-- `di_rawget_borrowed2` of an object. -/
def rawgetBorrowed (prop : String) : M σ (Option ObjRef) := do
  let w ← look
  match w.lookup prop with
  | none => pure none
  | some v =>
      if isNil v.1 then exit (.crash .assertion)
      else match v.1 with
        | .object h => pure (some h)
        | _ => pure none

/-- What a handler gave: a value, a code, or an error that was caught. -/
inductive Answer where
  | value (v : Option Val)
  | code (rc : ℤ)
  | caught (e : ObjRef)

def Answer.rc : Answer → ℤ
  | .code rc => rc
  | _ => 0

def Answer.error : Answer → Option ObjRef
  | .caught e => some e
  | _ => none

def Answer.resources : Answer → List Resource
  | .value (some v) => v.1.resources
  | .value none => []
  | .code _ => []
  | .caught e => [.ref (.strong e)]

/-- `di_call_object_catch`, or `di_call_object` if there is nowhere to put an error. -/
def callObject (catching : Bool) (handler : ObjRef) (args : List DiValue) : M σ Answer := do
  let w ← look
  if w.callable handler = false then exit (.crash .nullCall)
  else do
    match ← act (P.call handler args) with
    | .returned v => do
        let a := Answer.value v
        take a.resources
        pure a
    | .code rc _ => pure (.code rc)
    | .threw e =>
        if catching then do
          let a := Answer.caught e
          take a.resources
          pure a
        else exit (.threw e)

/-- The handler for the very member. -/
def callSpecific (catching : Bool) (kind prop : String) (arg : Option DiValue) :
    M σ (Bool × Answer) := do
  match ← rawgetBorrowed (kind ++ "_" ++ prop) with
  | some handler => do
      let a ← callObject P catching handler (.object self :: arg.toList)
      pure (true, a)
  | none => pure (false, .code enoent)

/-- The handler for all members, if there is no answer yet. -/
def callFallback (catching : Bool) (kind prop : String) (arg : Option DiValue) :
    Bool × Answer → M σ (Bool × Answer)
  | (found, .code rc) => do
      match ← rawgetBorrowed kind with
      | some handler => do
          let a ← callObject P catching handler (.object self :: .string prop :: arg.toList)
          pure (true, a)
      | none => pure (found, .code rc)
  | answered => pure answered

/-- `call_handler_with_fallback`; the flag says if a handler was found. -/
def callHandlerWithFallback (catching : Bool) (kind prop : String) (arg : Option DiValue) :
    M σ (Bool × Answer) := do
  let first ← callSpecific P self catching kind prop arg
  callFallback P self catching kind prop arg first

/-- What `di_getx` gives. An error is caught only if there is somewhere to put it. -/
inductive Got where
  | value (v : Val)
  | failed (rc : ℤ)
  | caught (e : ObjRef)

def diGetx (catching : Bool) (prop : String) : M σ Got := do
  match ← diRawgetx prop with
  | some v => pure (.value v)
  | none => do
      match ← callHandlerWithFallback P self catching "__get" prop none with
      | (_, .value (some v)) => pure (.value v)
      | (_, .value none) => pure (.failed enoent)
      | (_, .code rc) => pure (.failed rc)
      | (_, .caught e) => pure (.caught e)

/-- `di_type_conversion` to an object, of a value that is given away. -/
def toObject (v : Val) : M σ (Option ObjRef) := do
  let w ← look
  match diTypeConversionOwned w.env w.nextBlock .object v.1 with
  | .error _ => exit (.crash .assertion)
  | .ok r => do
      take r.acquired
      release P r.released
      match r.result with
      | some (.object m) => pure (some m)
      | _ => pure none

/-- What a lookup of an object gives. -/
inductive Looked where
  | failed (rc : ℤ)
  | object (o : ObjRef)

/-- `di_getxt` of an object, with nowhere to put an error. -/
def diGetxt (prop : String) : M σ Looked := do
  match ← diGetx P self false prop with
  | .failed rc => pure (.failed rc)
  | .caught _ => pure (.failed einval)
  | .value v => do
      match ← toObject P v with
      | some o => pure (.object o)
      | none => pure (.failed einval)

/-- A value of a handler that nobody asked for is freed. -/
def discard : Answer → M σ PUnit
  | .value (some v) => release P v.1.resources
  | .value none => exit (.crash .assertion)
  | .code _ => pure ⟨⟩
  | .caught _ => pure ⟨⟩

/-- The end of `di_setx`. The old value is released while it is still in the table; the copy of
the new one goes into the table at once. -/
def storeMember (prop : String) (v : Val) : M σ ℤ := do
  let w ← look
  match w.lookup prop with
  | some old => do
      let touched ← act (P.releaseMember old)
      if touched then exit (.crash .staleMember)
      else act fun w =>
        (0, {w with members := w.members.map fun m => if m.1 = prop then (prop, v) else m})
  | none =>
      if isNil v.1 then pure einval
      else act fun w => (0, {w with members := w.members ++ [(prop, v)]})

/-- `di_setx` with an error output: the code, and the error that was caught. A deleter that
throws does not keep the value from being stored. -/
def diSetx (prop : String) (v : Val) : M σ (ℤ × Option ObjRef) := do
  let (found, set) ← callHandlerWithFallback P self true "__set" prop (some v.1.erase)
  discard P set
  if found then pure (set.rc, set.error)
  else do
    let (found, deleted) ← callHandlerWithFallback P self true "__delete" prop none
    discard P deleted
    if found ∧ deleted.rc ≠ 0 then pure (deleted.rc, deleted.error)
    else do
      let rc ← storeMember P prop v
      pure (rc, deleted.error)

end

/-! ## What the functions have in their hands -/

def Got.resources : Got → List Resource
  | .value v => v.1.resources
  | .failed _ => []
  | .caught e => [.ref (.strong e)]

def Looked.resources : Looked → List Resource
  | .failed _ => []
  | .object o => [.ref (.strong o)]

@[simp] theorem took_nil : took [] = 0 := rfl

theorem took_gave (xs : List Resource) : took xs + gave xs = 0 := by
  unfold took gave
  ext r <;> simp

/-- A conversion to an object conserves the references. -/
theorem object_conversion (E : Env) (next : Block) (v : Val) :
    ∃ r, diTypeConversionOwned E next .object v.1 = .ok r ∧ Conserves .object v.1 r := by
  unfold diTypeConversionOwned
  by_cases htype : v.1.type = .object
  · rw [if_pos htype]
    refine ⟨_, rfl, fun x => ?_, nofun, ?_⟩
    · simp [Report.held]
    · rintro _ ⟨⟩
      exact ⟨htype, v.2⟩
  · rw [if_neg htype]
    exact (convertOwned_conserves_iff v.1 v.2).mpr trivial

theorem eq_object_of_type {w : Owned} (hw : w.type = .object) : ∃ o, w = .object o := by
  cases w with
  | object o => exact ⟨o, rfl⟩
  | scalar s => cases s <;> cases hw
  | _ => cases hw

section
variable {σ : Type} (P : UserCode σ) (self : ObjRef)

theorem diRawgetx_ends (prop : String) :
    Ends (diRawgetx prop : M σ (Option Val)) fun r g =>
      match r with
      | .ok (some v) => g = took v.1.resources
      | .ok none => g = 0
      | .error e => e = .crash .assertion ∧ g = 0 := by
  refine ends_look fun w => ?_
  cases w.lookup prop with
  | none => exact ends_pure rfl
  | some v =>
      dsimp only
      split_ifs
      · exact ends_exit ⟨rfl, rfl⟩
      · exact ends_book (ends_pure (add_zero _))

theorem rawgetBorrowed_ends (prop : String) :
    Ends (rawgetBorrowed prop : M σ (Option ObjRef)) fun r g =>
      g = 0 ∧ ∀ e, r = .error e → e = .crash .assertion := by
  refine ends_look fun w => ?_
  cases w.lookup prop with
  | none => exact ends_pure ⟨rfl, nofun⟩
  | some v =>
      dsimp only
      split_ifs
      · exact ends_exit ⟨rfl, fun e he => by cases he; rfl⟩
      · split <;> exact ends_pure ⟨rfl, nofun⟩

/-- An answer of user code is in the hands of the caller. -/
theorem callObject_ends (catching : Bool) (handler : ObjRef) (args : List DiValue) :
    Ends (callObject P catching handler args) fun r g =>
      match r with
      | .ok a => g = took a.resources ∧ (catching = false → ∀ e, a ≠ .caught e)
      | .error _ => g = 0 := by
  refine ends_look fun w => ?_
  by_cases hcall : w.callable handler = false
  · rw [if_pos hcall]
    exact ends_exit rfl
  · rw [if_neg hcall]
    refine ends_act fun reply => ?_
    cases reply with
    | returned v => exact ends_book (ends_pure ⟨add_zero _, nofun⟩)
    | code rc hrc => exact ends_pure ⟨rfl, nofun⟩
    | threw e =>
        dsimp only
        split_ifs with hcatch
        · exact ends_book (ends_pure ⟨add_zero _, fun h => by rw [hcatch] at h; cases h⟩)
        · exact ends_exit rfl

/-- What a search for a handler leaves in the hands of its caller. -/
def Answered (catching : Bool) (r : Except Exit (Bool × Answer)) (g : Account) : Prop :=
  match r with
  | .ok a => g = took a.2.resources ∧ (catching = false → ∀ e, a.2 ≠ .caught e) ∧
      (a.1 = false → a.2.error = none)
  | .error _ => g = 0

theorem callFound_answered (catching : Bool) (handler : ObjRef) (args : List DiValue) :
    Ends (do
      let a ← callObject P catching handler args
      pure (true, a)) (Answered catching) := by
  refine (callObject_ends P catching handler args).bind (fun e g hg => hg) fun a g hg => ?_
  refine ends_pure ⟨?_, hg.2, nofun⟩
  rw [add_zero]
  exact hg.1

theorem callSpecific_answered (catching : Bool) (kind prop : String) (arg : Option DiValue) :
    Ends (callSpecific P self catching kind prop arg) (Answered catching) := by
  refine (rawgetBorrowed_ends _).bind (fun e g hg => hg.1) fun h g hg => ?_
  rw [hg.1]
  simp only [zero_add]
  cases h with
  | none => exact ends_pure ⟨rfl, nofun, fun _ => rfl⟩
  | some handler => exact callFound_answered P catching handler _

theorem callFallback_answered (catching : Bool) (kind prop : String) (arg : Option DiValue)
    (first : Bool × Answer) (hfirst : catching = false → ∀ e, first.2 ≠ .caught e)
    (hfound : first.1 = false → first.2.error = none) :
    Ends (callFallback P self catching kind prop arg first) fun r g =>
      Answered catching r (took first.2.resources + g) := by
  obtain ⟨found, a⟩ := first
  cases a with
  | value v => exact ends_pure ⟨add_zero _, hfirst, hfound⟩
  | caught e => exact ends_pure ⟨add_zero _, hfirst, hfound⟩
  | code rc =>
      simp only [Answer.resources, took_nil, zero_add]
      refine (rawgetBorrowed_ends _).bind (fun e g hg => hg.1) fun h g hg => ?_
      rw [hg.1]
      simp only [zero_add]
      cases h with
      | none => exact ends_pure ⟨rfl, nofun, fun _ => rfl⟩
      | some handler => exact callFound_answered P catching handler _

theorem callHandlerWithFallback_answered (catching : Bool) (kind prop : String)
    (arg : Option DiValue) :
    Ends (callHandlerWithFallback P self catching kind prop arg) (Answered catching) := by
  refine (callSpecific_answered P self catching kind prop arg).bind (fun e g hg => hg)
    fun first g hg => ?_
  rw [hg.1]
  exact callFallback_answered P self catching kind prop arg first hg.2.1 hg.2.2

/-- What `di_getx` leaves in the hands of its caller. -/
theorem diGetx_ends (catching : Bool) (prop : String) :
    Ends (diGetx P self catching prop) fun r g =>
      match r with
      | .ok a => g = took a.resources ∧ (catching = false → ∀ e, a ≠ .caught e)
      | .error _ => g = 0 := by
  refine (diRawgetx_ends prop).bind (fun e g hg => hg.2) fun v g hg => ?_
  cases v with
  | some v => exact ends_pure ⟨(add_zero g).trans hg, nofun⟩
  | none =>
      rw [show g = 0 from hg]
      simp only [zero_add]
      refine (callHandlerWithFallback_answered P self catching _ _ _).bind (fun e g hg => hg)
        fun a g hg => ?_
      obtain ⟨found, a⟩ := a
      obtain ⟨rfl, hcaught, -⟩ := hg
      cases a with
      | value v =>
          cases v with
          | none => exact ends_pure ⟨rfl, nofun⟩
          | some v => exact ends_pure ⟨add_zero _, nofun⟩
      | code rc => exact ends_pure ⟨rfl, nofun⟩
      | caught e => exact ends_pure ⟨add_zero _, fun h => absurd rfl (hcaught h e)⟩

theorem release_apply (xs : List Resource) (w : World σ) :
    release P xs w = ⟨.ok ⟨⟩, P.release xs w, gave xs⟩ := by
  unfold release
  rw [book_bind_apply]
  simp only [act, Ran.after, add_zero]

theorem release_ends (xs : List Resource) :
    Ends (release P xs) fun r g => r = .ok ⟨⟩ ∧ g = gave xs := by
  intro w
  rw [release_apply]
  exact ⟨rfl, rfl⟩

theorem toObject_ends (v : Val) :
    Ends (toObject P v) fun r g =>
      match r with
      | .ok (some o) => took v.1.resources + g = took [.ref (.strong o)]
      | .ok none => took v.1.resources + g = 0
      | .error _ => False := by
  refine ends_look fun w => ?_
  obtain ⟨r, hr, hconserves⟩ := object_conversion w.env w.nextBlock v
  rw [hr]
  have hbalance : took v.1.resources + (took r.acquired + gave r.released) = took r.held := by
    unfold took gave
    ext x
    · have hx := hconserves.balance (.ref x)
      simp only [Prod.fst_add, Pi.add_apply]
      omega
    · rfl
  refine ends_book ((release_ends P r.released).bind (fun e g hg => nomatch hg.1) fun _ g hg => ?_)
  rw [hg.2]
  cases hresult : r.result with
  | none =>
      refine ends_pure ?_
      rw [add_zero, hbalance, Report.held, hresult]
      rfl
  | some x =>
      obtain ⟨o, rfl⟩ := eq_object_of_type (hconserves.result x hresult).1
      refine ends_pure ?_
      rw [add_zero, hbalance, Report.held, hresult]
      rfl

/-- An object that is looked up is in the hands of the caller, and nothing else is. -/
theorem diGetxt_ends (prop : String) :
    Ends (diGetxt P self prop) fun r g =>
      match r with
      | .ok a => g = took a.resources
      | .error _ => g = 0 := by
  refine (diGetx_ends P self false prop).bind (fun e g hg => hg) fun got g hg => ?_
  obtain ⟨rfl, hcaught⟩ := hg
  cases got with
  | failed rc => exact ends_pure rfl
  | caught e => exact absurd rfl (hcaught rfl e)
  | value v =>
      refine (toObject_ends P v).bind (fun e g hg => hg.elim) fun o g hg => ?_
      cases o with
      | none =>
          refine ends_pure ?_
          rw [add_zero]
          exact hg
      | some o =>
          refine ends_pure ?_
          rw [add_zero]
          exact hg

def errorResources (e : Option ObjRef) : List Resource := e.toList.map fun e => .ref (.strong e)

/-- After the value is freed only the error is left. -/
theorem discard_ends (a : Answer) :
    Ends (discard P a) fun r g =>
      r = .ok ⟨⟩ → took a.resources + g = took (errorResources a.error) := by
  cases a with
  | value v =>
      cases v with
      | none => exact ends_exit nofun
      | some v =>
          refine (release_ends P _).mono fun r g hg _ => ?_
          rw [hg.2]
          exact took_gave _
  | code rc => exact ends_pure fun _ => rfl
  | caught e => exact ends_pure fun _ => add_zero _

theorem storeMember_ends (prop : String) (v : Val) :
    Ends (storeMember P prop v) fun _ g => g = 0 := by
  refine ends_look fun w => ?_
  cases w.lookup prop with
  | some old =>
      refine ends_act fun touched => ?_
      cases touched with
      | true => exact ends_exit rfl
      | false => exact fun _ => rfl
  | none =>
      dsimp only
      split_ifs
      · exact ends_pure rfl
      · exact fun _ => rfl

/-- A handler was called, and only an error it has thrown is left. -/
theorem askHandler_ends (kind prop : String) (arg : Option DiValue) {β : Type}
    {f : Bool × Answer → M σ β} {Q : Except Exit β → Account → Prop}
    (herror : ∀ e g, Q (.error e) g)
    (hf : ∀ a, (a.1 = false → a.2.error = none) →
      Ends (f a) fun r g => Q r (took (errorResources a.2.error) + g)) :
    Ends (do
      let a ← callHandlerWithFallback P self true kind prop arg
      discard P a.2
      f a) Q := by
  refine (callHandlerWithFallback_answered P self true kind prop arg).bind
    (fun e g _ => herror e g) fun a g hg₀ => ?_
  rw [hg₀.1]
  refine (discard_ends P a.2).bind (fun e g _ => herror e _) fun _ g hg => ?_
  have hleft := hg rfl
  refine (hf a hg₀.2.2).mono fun r g' hQ => ?_
  rw [← add_assoc, hleft]
  exact hQ

/-- What `di_setx` leaves in the hands of its caller. -/
theorem diSetx_ends (prop : String) (v : Val) :
    Ends (diSetx P self prop v) fun r g =>
      ∀ a, r = .ok a → g = took (errorResources a.2) := by
  refine askHandler_ends P self _ _ _ nofun fun set hset => ?_
  obtain ⟨found, set⟩ := set
  cases found with
  | true =>
      refine ends_pure fun a ha => ?_
      cases ha
      exact add_zero _
  | false =>
      rw [show set.error = none from hset rfl]
      simp only [errorResources, Option.toList_none, List.map_nil, took_nil, zero_add]
      refine askHandler_ends P self _ _ _ nofun fun deleted _ => ?_
      split_ifs
      · refine ends_pure fun a ha => ?_
        cases ha
        exact add_zero _
      · refine (storeMember_ends P prop v).bind nofun fun rc g hg => ?_
        refine ends_pure fun a ha => ?_
        cases ha
        rw [hg, add_zero, add_zero]
        rfl

end

end Deai.MemberHandlers
