import Mathlib.Algebra.Group.Basic

/-!
# Runs that keep an account

A run changes a world, ends with a result or with an exit, and books amounts on the way. The
account is what the run itself has booked, whatever else happens in the world.
-/
namespace Deai.AccountedRun
universe u

/-- How a run ended. -/
structure Ran (σ ε G α : Type u) where
  result : Except ε α
  world : σ
  net : G

def Run (σ ε G α : Type u) := σ → Ran σ ε G α

section
variable {σ ε G α β : Type u} [AddMonoid G]

/-- The end of a run that began with the amount `g`. -/
def Ran.after (g : G) (r : Ran σ ε G α) : Ran σ ε G α := {r with net := g + r.net}

namespace Run

instance : Monad (Run σ ε G) where
  pure a := fun w => ⟨.ok a, w, 0⟩
  bind m f := fun w =>
    match (m w).result with
    | .ok a => (f a (m w).world).after (m w).net
    | .error e => ⟨.error e, (m w).world, (m w).net⟩

def exit (e : ε) : Run σ ε G α := fun w => ⟨.error e, w, 0⟩

def book (g : G) : Run σ ε G PUnit := fun w => ⟨.ok ⟨⟩, w, g⟩

def look : Run σ ε G σ := fun w => ⟨.ok w, w, 0⟩

/-- Something else changes the world. -/
def act (f : σ → α × σ) : Run σ ε G α := fun w => ⟨.ok (f w).1, (f w).2, 0⟩

end Run

open Run

theorem bind_ok {m : Run σ ε G α} {f : α → Run σ ε G β} {w w' : σ} {a : α} {g : G}
    (hm : m w = ⟨.ok a, w', g⟩) : (m >>= f) w = (f a w').after g := by
  change (match (m w).result with
    | .ok a => (f a (m w).world).after (m w).net
    | .error e => ⟨.error e, (m w).world, (m w).net⟩) = _
  rw [hm]

theorem bind_error {m : Run σ ε G α} {f : α → Run σ ε G β} {w w' : σ} {e : ε} {g : G}
    (hm : m w = ⟨.error e, w', g⟩) : (m >>= f) w = ⟨.error e, w', g⟩ := by
  change (match (m w).result with
    | .ok a => (f a (m w).world).after (m w).net
    | .error e => ⟨.error e, (m w).world, (m w).net⟩) = _
  rw [hm]

@[simp] theorem pure_apply (a : α) (w : σ) : (pure a : Run σ ε G α) w = ⟨.ok a, w, 0⟩ := rfl

@[simp] theorem exit_apply (e : ε) (w : σ) : (exit e : Run σ ε G α) w = ⟨.error e, w, 0⟩ := rfl

@[simp] theorem after_zero (r : Ran σ ε G α) : r.after 0 = r := by
  unfold Ran.after
  rw [zero_add]

@[simp] theorem pure_bind_apply (a : α) (f : α → Run σ ε G β) (w : σ) :
    ((pure a : Run σ ε G α) >>= f) w = f a w := by rw [bind_ok (pure_apply a w), after_zero]

@[simp] theorem look_bind_apply (f : σ → Run σ ε G β) (w : σ) : (look >>= f) w = f w w := by
  rw [bind_ok (rfl : look w = ⟨.ok w, w, 0⟩), after_zero]

@[simp] theorem act_bind_apply (a : σ → α × σ) (f : α → Run σ ε G β) (w : σ) :
    (act a >>= f) w = f (a w).1 (a w).2 := by
  rw [bind_ok (rfl : act a w = ⟨.ok (a w).1, (a w).2, 0⟩), after_zero]

@[simp] theorem book_bind_apply (g : G) (f : PUnit → Run σ ε G β) (w : σ) :
    (book g >>= f) w = (f ⟨⟩ w).after g :=
  bind_ok (rfl : book g w = ⟨.ok ⟨⟩, w, g⟩)

/-- However the run ends, its result and its account are as `Q` says. -/
def Ends (m : Run σ ε G α) (Q : Except ε α → G → Prop) : Prop := ∀ w, Q (m w).result (m w).net

omit [AddMonoid G] in
theorem Ends.mono {m : Run σ ε G α} {Q R : Except ε α → G → Prop} (hm : Ends m Q)
    (hQR : ∀ r g, Q r g → R r g) : Ends m R := fun w => hQR _ _ (hm w)

theorem Ends.bind {m : Run σ ε G α} {f : α → Run σ ε G β} {Q : Except ε α → G → Prop}
    {R : Except ε β → G → Prop} (hm : Ends m Q) (herror : ∀ e g, Q (.error e) g → R (.error e) g)
    (hok : ∀ a g, Q (.ok a) g → Ends (f a) fun r g' => R r (g + g')) : Ends (m >>= f) R := by
  intro w
  have hend := hm w
  cases hr : m w with
  | mk result w' g =>
      rw [hr] at hend
      cases result with
      | error e =>
          rw [bind_error hr]
          exact herror e g hend
      | ok a =>
          rw [bind_ok hr]
          exact hok a g hend w'

theorem ends_pure {a : α} {Q : Except ε α → G → Prop} (ha : Q (.ok a) 0) :
    Ends (pure a : Run σ ε G α) Q := fun _ => ha

theorem ends_exit {e : ε} {Q : Except ε α → G → Prop} (he : Q (.error e) 0) :
    Ends (exit e : Run σ ε G α) Q := fun _ => he

theorem ends_look {f : σ → Run σ ε G β} {Q : Except ε β → G → Prop} (hf : ∀ w, Ends (f w) Q) :
    Ends (look >>= f) Q := by
  intro w
  rw [look_bind_apply]
  exact hf w w

theorem ends_act {a : σ → α × σ} {f : α → Run σ ε G β} {Q : Except ε β → G → Prop}
    (hf : ∀ x, Ends (f x) Q) : Ends (act a >>= f) Q := by
  intro w
  rw [act_bind_apply]
  exact hf _ _

theorem ends_book {g : G} {f : PUnit → Run σ ε G β} {Q : Except ε β → G → Prop}
    (hf : Ends (f ⟨⟩) fun r g' => Q r (g + g')) : Ends (book g >>= f) Q := by
  intro w
  rw [book_bind_apply]
  exact hf w

end

end Deai.AccountedRun
