import Deai.OrderedTable

/-!
# Removing the members of an object

`di_finalize_object_inner` removes all members of an object after its destructor has run, and
`di_clear_roots` removes the named roots from the roots object. Both are sweeps over the member
table: `m->hh.next`, and `tmp` of `HASH_ITER`, are read before a member is removed, and the release
of its value can run destructors. Those of objects that know this one can delete, replace and add
members of it, as `di_remove_root` does.
-/
namespace Deai.Finalization
open OrderedTable

/-- The prefix that `di_add_root` gives to the names of roots. -/
def rootPrefix : String := "___root_"

/-- The test of `di_clear_roots`. -/
def isRoot (name : String) : Bool := rootPrefix.toList.isPrefixOf name.toList

/-- The two loops. What the destructor of the object does comes first; without one it is nothing. -/
inductive Loop where
  | diFinalizeObjectInner (dtor : List (Edit String))
  | diClearRoots

namespace Loop

def removes : Loop → String → Bool
  | .diFinalizeObjectInner _ => fun _ => true
  | .diClearRoots => isRoot

/-- The table when the loop begins. -/
def start : Loop → Table String → Table String
  | .diFinalizeObjectInner dtor, t => applyAll dtor t
  | .diClearRoots, t => t

end Loop

/-- In every run in which no release takes away the member that comes next, or leaves a member
behind at the end, no freed member is read, every value is in the table or was released once, and
there are no more rounds than members that ever were. In the end no member is left that had to be
removed; after a finalization every value was released. -/
theorem finalization_safe (loop : Loop) (t₀ : Table String) {k : ℕ} {cur : Option ℕ}
    {t : Table String} (hrun : Sweep loop.removes (loop.start t₀) k cur t) :
    (∀ c, cur = some c → ∀ edits, ∃ r, sweepStep loop.removes edits c t = .ok r) ∧
    (t.entries.map (·.token) ++ t.released).Perm (List.range t.nextToken) ∧ k ≤ t.nextId ∧
    (cur = none → (∀ e ∈ t.entries, loop.removes e.name = false) ∧
      ∀ dtor, loop = .diFinalizeObjectInner dtor →
        t.entries = [] ∧ t.released.Perm (List.range t.nextToken)) := by
  have hp := sweep_position hrun
  refine ⟨?_, t.account, ?_, ?_⟩
  · rintro c rfl edits
    obtain ⟨passed, e, left, ht, rfl, -⟩ := hp.mem
    have he : e ∈ t.entries := by
      rw [ht]
      exact List.mem_append_right _ List.mem_cons_self
    exact ⟨_, sweepStep_eq edits he⟩
  · obtain ⟨passed, left, -, -, -, hlen⟩ := hp
    omega
  · rintro rfl
    obtain ⟨passed, left, ht, hpassed, hcur, -⟩ := hp
    have hleft : left = [] := by
      cases left with
      | nil => rfl
      | cons e left => cases hcur
    have hall : ∀ e ∈ t.entries, loop.removes e.name = false := by
      rw [ht, hleft, List.append_nil]
      exact hpassed
    refine ⟨hall, ?_⟩
    rintro dtor rfl
    have hempty : t.entries = [] := by
      cases hentries : t.entries with
      | nil => rfl
      | cons e es =>
          have hfalse := hall e (hentries ▸ List.mem_cons_self)
          cases hfalse
    have haccount := t.account
    rw [hempty] at haccount
    exact ⟨hempty, haccount⟩

/-- Two members, the second one a root. -/
def twoMembers : Table String := (Table.empty.push "a").push "___root_b"

def first : Entry String := ⟨0, "a", 0⟩

theorem first_mem : first ∈ twoMembers.entries := List.mem_cons_self

/-- A member that is added while the first one is released. -/
theorem finalization_safe_adding :
    ∃ t, Sweep (Loop.diFinalizeObjectInner []).removes twoMembers 1 (some 1) t ∧
      ∃ r, sweepStep (Loop.diFinalizeObjectInner []).removes [] 1 t = .ok r := by
  have hcareful : Careful (Loop.diFinalizeObjectInner []).removes [.add "c"] 0 twoMembers := by
    intro e he hid _
    obtain rfl : e = first := eq_of_id twoMembers.unique he first_mem hid
    refine ⟨fun n hn => ?_, nofun⟩
    cases hn
    exact List.mem_cons_self
  have hstart : Sweep (Loop.diFinalizeObjectInner []).removes twoMembers 0 (some 0) twoMembers := .start
  have hround := hstart.round _ hcareful (sweepStep_eq [.add "c"] first_mem)
  exact ⟨_, hround, (finalization_safe (.diFinalizeObjectInner []) twoMembers hround).1 1 rfl []⟩

/-- The release of the first value deletes the member that comes next; the release of a last value
adds a member, which stays. -/
theorem finalization_unsafe :
    (∃ t, sweepStep (Loop.diFinalizeObjectInner []).removes [.delete "___root_b"] 0 twoMembers =
        .ok (some 1, t) ∧
      ∀ edits, sweepStep (Loop.diFinalizeObjectInner []).removes edits 1 t = .error (.freedEntry 1)) ∧
    ∃ t : Table String,
      sweepStep (Loop.diFinalizeObjectInner []).removes [.add "c"] 0 (Table.empty.push "a") =
        .ok (none, t) ∧ t.entries ≠ [] := by
  have hfirst : first ∈ (Table.empty.push "a").entries := List.mem_cons_self
  refine ⟨⟨_, sweepStep_eq [.delete "___root_b"] first_mem, fun edits => rfl⟩,
    applyAll [.add "c"] ((Table.empty.push "a").unlink first hfirst), ?_, ?_⟩
  · exact sweepStep_eq [.add "c"] hfirst
  · exact List.cons_ne_nil _ _

end Deai.Finalization
