import Deai.MemberHandlers

/-!
# Calling a method

`di_callx` looks a method up and calls it with the object itself as the first argument. The lookup
gives an owned reference to the method. It is given back after a call that returned, but neither
when there is no `call` function nor when the callee throws.
-/
namespace Deai.MethodCalls
open Value OwnedConversion AccountedRun AccountedRun.Run MemberHandlers

/-- `MAX_NARGS` -/
def maxNargs : ℕ := 128

/-- What a call gives its caller. -/
structure Called where
  rc : ℤ
  value : Option Val := none
  called : Bool

section
variable {σ : Type} (P : UserCode σ) (self : ObjRef)

def diCallInternal (method : ObjRef) (args : List DiValue) : M σ Called := do
  let w ← look
  if w.callable method = false then pure {rc := einval, called := false}
  else if maxNargs < args.length + 1 then exit (.crash .assertion)
  else do
    match ← act (P.call method (.object self :: args)) with
    | .returned v => do
        release P [.ref (.strong method)]
        pure {rc := 0, value := v, called := true}
    | .code rc _ => do
        release P [.ref (.strong method)]
        pure {rc := rc, called := true}
    | .threw e => exit (.threw e)

def diCallx (name : String) (args : List DiValue) : M σ Called := do
  match ← diGetxt P self name with
  | .failed rc => pure {rc := rc, called := false}
  | .object method => diCallInternal P self method args

/-- The call gives back what it took, if it ends at all. -/
def Balanced (r : Ran (World σ) Exit Account Called) : Prop :=
  (∀ c, r.result ≠ .error (.crash c)) → ∀ x, r.net.1 x = 0

/-- The method that is looked up can be called, and does not throw if it is called. -/
def Harmless (name : String) (args : List DiValue) (w : World σ) : Prop :=
  ∀ m, (diGetxt P self name w).result = .ok (.object m) →
    (diGetxt P self name w).world.callable m = true ∧
    (args.length < maxNargs →
      ∀ e, (P.call m (.object self :: args) (diGetxt P self name w).world).1 ≠ .threw e)

/-- The account of the second half, which begins with the method in hand. -/
theorem diCallInternal_balanced_iff (method : ObjRef) (args : List DiValue) (w : World σ) :
    Balanced ((diCallInternal P self method args w).after (took [.ref (.strong method)])) ↔
      w.callable method = true ∧ (args.length < maxNargs →
        ∀ e, (P.call method (.object self :: args) w).1 ≠ .threw e) := by
  have hheld : (took [.ref (.strong method)]).1 (.strong method) ≠ 0 := by simp [took]
  unfold diCallInternal
  rw [look_bind_apply]
  by_cases hcall : w.callable method = false
  · rw [if_pos hcall]
    refine iff_of_false (fun hb => hheld ?_) fun h => by rw [hcall] at h; cases h.1
    have hzero := hb (fun c hc => by cases hc) (.strong method)
    simpa [Ran.after] using hzero
  · rw [if_neg hcall]
    rw [Bool.not_eq_false] at hcall
    by_cases hargs : maxNargs < args.length + 1
    · rw [if_pos hargs]
      refine iff_of_true (fun hcrash => absurd rfl (hcrash .assertion)) ⟨hcall, fun h => ?_⟩
      omega
    · rw [if_neg hargs, act_bind_apply]
      have hback : ∀ c : Called, Balanced (((do
          release P [.ref (.strong method)]
          pure c : M σ Called) (P.call method (.object self :: args) w).2).after
            (took [.ref (.strong method)])) := by
        intro c _ x
        rw [bind_ok (release_apply P _ _)]
        simp only [pure_apply, Ran.after, add_zero, took_gave]
        rfl
      cases hreply : (P.call method (.object self :: args) w).1 with
      | returned v => exact iff_of_true (hback _) ⟨hcall, fun _ e he => by cases he⟩
      | code rc hrc => exact iff_of_true (hback _) ⟨hcall, fun _ e he => by cases he⟩
      | threw e =>
          refine iff_of_false (fun hb => hheld ?_) fun h => h.2 (by omega) e rfl
          have hzero := hb (fun c hc => by cases hc) (.strong method)
          simpa [Ran.after] using hzero

/-- A call changes no count of its own accord if and only if the method that it looked up can be
called and does not throw. -/
theorem call_balanced_iff (name : String) (args : List DiValue) (w : World σ) :
    Balanced (diCallx P self name args w) ↔ Harmless P self name args w := by
  have hend := diGetxt_ends P self name w
  unfold diCallx Harmless
  cases hr : diGetxt P self name w with
  | mk result w' g =>
      rw [hr] at hend
      cases result with
      | error e =>
          rw [bind_error hr]
          refine iff_of_true (fun _ x => ?_) nofun
          rw [show g = 0 from hend]
          rfl
      | ok looked =>
          rw [bind_ok hr, show g = took looked.resources from hend]
          cases looked with
          | failed rc => exact iff_of_true (fun _ _ => rfl) nofun
          | object m =>
              refine (diCallInternal_balanced_iff P self m args w').trans ?_
              constructor
              · rintro h _ ⟨⟩
                exact h
              · intro h
                exact h m rfl

end

/-- An object with one method. -/
def oneMethod (callable : Bool) : World Unit where
  members := [("f", ⟨.object 1, trivial⟩)]
  callable := fun _ => callable
  signals := fun _ => none
  env := ⟨fun _ => false, 0⟩
  nextBlock := 0
  nextObject := 2
  user := ()

def throwing : UserCode Unit where
  call := fun _ _ w => (.threw 9, w)
  release := fun _ w => w
  releaseMember := fun _ w => (false, w)

/-- A method without `call` function, and one that throws. -/
theorem call_not_balanced :
    ¬ Balanced (diCallx throwing 0 "f" [] (oneMethod false)) ∧
    ¬ Balanced (diCallx throwing 0 "f" [] (oneMethod true)) := by
  constructor
  · intro hb
    have hzero := hb nofun (.strong 1)
    exact absurd hzero (by decide)
  · intro hb
    have hzero := hb nofun (.strong 1)
    exact absurd hzero (by decide)

end Deai.MethodCalls
