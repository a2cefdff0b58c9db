import Deai.Fallible
import Deai.SharedLists
import Mathlib.Data.Fintype.Basic
import Mathlib.Data.List.Range

/-!
# The modifiers of a keymap

`find_modifiers` of the module `xorg`. It presses every key and looks at which modifiers become
active; a pair of a key and a modifier becomes a node of one of eight lists, which share two arrays
with 256 entries. The lists are then written into the rows of a matrix.
-/
namespace Deai.Modifiers
open Fallible SharedLists

/-- The names that `modifier_names` lists. -/
inductive ModName where
  | shift | caps | ctrl | alt | num | mod3 | logo | mod5
  deriving DecidableEq, Repr

def modifierNames : Fin 8 → ModName
  | 0 => .shift
  | 1 => .caps
  | 2 => .ctrl
  | 3 => .alt
  | 4 => .num
  | 5 => .mod3
  | 6 => .logo
  | 7 => .mod5

inductive Direction where
  | up | down
  deriving DecidableEq, Repr

/-- What is used of xkbcommon, for one keymap: `xkb_map_mod_get_index` is not `XKB_MOD_INVALID`,
`xkb_state_new`, `xkb_state_update_key` with the components that changed, and
`xkb_state_mod_name_is_active`. -/
structure Xkb (σ : Type) where
  hasMod : ModName → Bool
  stateNew : σ
  updateKey : σ → ℕ → Direction → σ × UInt32
  modNameIsActive : σ → ModName → UInt32 → Bool

def modsDepressed : UInt32 := 1
def modsLatched : UInt32 := 2
def modsLocked : UInt32 := 4

def maxKeycode : ℕ := 256

/-- Key codes of an X server. -/
structure KeycodeRange where
  min : ℕ
  max : ℕ
  low : 8 ≤ min
  high : max ≤ 255

/-- An index of the arrays that is too large, or an assertion. -/
inductive Failure where
  | outOfBounds
  | unknownModifier
  | rowTooLong
  deriving DecidableEq

/-- The local variables. An index `-1` is `none`. -/
structure Lists where
  nextKeycodeIndices : ℕ → Option ℕ := fun _ => none
  keycodes : ℕ → ℕ := fun _ => 0
  totalKeycodes : ℕ := 0
  modifierKeycodeHead : Fin 8 → Option ℕ := fun _ => none
  modifierKeycodeCount : Fin 8 → ℕ := fun _ => 0

/-- The result: eight rows of key codes, one after the other. -/
structure Matrix where
  keycodePerModifiers : ℕ
  keycodes : ℕ → ℕ

/-! ## The function -/

section
variable {σ : Type} (xkb : Xkb σ)

/-- A key is pressed. -/
def press (i : ℕ) (state : σ) : σ × UInt32 :=
  let (state, updates) := xkb.updateKey state i .down
  (state, updates &&& (modsDepressed ||| modsLatched ||| modsLocked))

/-- It is released, and what it has locked or latched is undone. -/
def release (i : ℕ) (state : σ) (updates : UInt32) : σ :=
  let state := (xkb.updateKey state i .up).1
  let state := if updates &&& modsLocked ≠ 0 then
      (xkb.updateKey (xkb.updateKey state i .down).1 i .up).1
    else state
  if updates &&& modsLatched ≠ 0 then xkb.stateNew else state

/-- A node at the front of the list of a modifier. -/
def addKeycode (i : ℕ) (j : Fin 8) (s : Lists) : Except Failure Lists :=
  if s.totalKeycodes < maxKeycode then
    .ok {
      nextKeycodeIndices :=
        Function.update s.nextKeycodeIndices s.totalKeycodes (s.modifierKeycodeHead j)
      keycodes := Function.update s.keycodes s.totalKeycodes i
      totalKeycodes := s.totalKeycodes + 1
      modifierKeycodeHead := Function.update s.modifierKeycodeHead j (some s.totalKeycodes)
      modifierKeycodeCount :=
        Function.update s.modifierKeycodeCount j (s.modifierKeycodeCount j + 1)}
  else .error .outOfBounds

def addKeycodes (i : ℕ) (state : σ) (updates : UInt32) (s : Lists) : Except Failure Lists :=
  (List.finRange 8).foldlM (fun s j =>
    if xkb.modNameIsActive state (modifierNames j) updates then addKeycode i j s else .ok s) s

def visitKey (x : σ × Lists) (i : ℕ) : Except Failure (σ × Lists) := do
  let (state, updates) := press xkb i x.1
  let s ← if updates = 0 then .ok x.2 else addKeycodes xkb i state updates x.2
  .ok (release xkb i state updates, s)

/-- The `while` loop over one list, with `left` entries of the row to go. -/
def unroll (s : Lists) (i : Fin 8) (k : ℕ) : ℕ → Option ℕ → (ℕ → ℕ) → Except Failure (ℕ → ℕ)
  | _, none, m => .ok m
  | 0, some _, _ => .error .rowTooLong
  | left + 1, some curr, m =>
      unroll s i k left (s.nextKeycodeIndices curr)
        (Function.update m (i.val * k + (k - (left + 1))) (s.keycodes curr % 256))

/-- `keycodes_per_modifiers`, the length of the longest list. -/
def width (s : Lists) : ℕ := (List.finRange 8).foldl (fun k i => max k (s.modifierKeycodeCount i)) 0

def unrollAll (s : Lists) : Except Failure Matrix := do
  let m ← (List.finRange 8).foldlM
    (fun m i => unroll s i (width s) (width s) (s.modifierKeycodeHead i) m) fun _ => 0
  .ok ⟨width s, m⟩

def keys (min max : ℕ) : List ℕ := List.range' min (max + 1 - min)

def findModifiers (r : KeycodeRange) : Except Failure Matrix := do
  if ∃ j, xkb.hasMod (modifierNames j) = false then .error .unknownModifier
  else
    let (_, s) ← (keys r.min r.max).foldlM (visitKey xkb) (xkb.stateNew, {})
    unrollAll s

/-! ## What the keys do -/

/-- The modifiers that are active when a key is pressed in a state. -/
def active (i : ℕ) (state : σ) : List (Fin 8) :=
  let (state, updates) := press xkb i state
  if updates = 0 then [] else
    (List.finRange 8).filter fun j => xkb.modNameIsActive state (modifierNames j) updates

def after (state : σ) (i : ℕ) : σ :=
  let (state, updates) := press xkb i state
  release xkb i state updates

/-- The state before a key is pressed. -/
def stateBefore (min i : ℕ) : σ := (List.range' min (i - min)).foldl (after xkb) xkb.stateNew

/-- The pairs of a key and a modifier that its press made active, in the order of the keys. -/
def pairs (min max : ℕ) : List (ℕ × Fin 8) :=
  (keys min max).flatMap fun i => (active xkb i (stateBefore xkb min i)).map (i, ·)

end

variable {σ : Type} {xkb : Xkb σ} {s : Lists} {ps : List (ℕ × Fin 8)}

/-! ## The lists -/

/-- The keys of a modifier. -/
def keysOf (ps : List (ℕ × Fin 8)) (j : Fin 8) : List ℕ := (ps.filter (·.2 = j)).map Prod.fst

theorem keysOf_push (i : ℕ) (j j' : Fin 8) :
    keysOf (ps ++ [(i, j)]) j' = keysOf ps j' ++ if j = j' then [i] else [] := by
  by_cases h : j = j' <;> simp [keysOf, List.filter_append, h]

theorem mem_keysOf {i : ℕ} {j : Fin 8} : i ∈ keysOf ps j ↔ (i, j) ∈ ps := by
  simp [keysOf]

/-- The arrays hold these pairs, the last one first. -/
structure Holds (s : Lists) (ps : List (ℕ × Fin 8)) : Prop where
  total : s.totalKeycodes = ps.length
  chain : ∀ j, Chain s.nextKeycodeIndices s.keycodes s.totalKeycodes (s.modifierKeycodeHead j)
    (keysOf ps j).reverse
  count : ∀ j, s.modifierKeycodeCount j = (keysOf ps j).length

theorem holds_nil : Holds {} [] := ⟨rfl, fun _ => .nil, fun _ => rfl⟩

theorem addKeycode_ok (h : Holds s ps) (hroom : ps.length < maxKeycode) (i : ℕ) (j : Fin 8) :
    ∃ s', addKeycode i j s = .ok s' ∧ Holds s' (ps ++ [(i, j)]) := by
  refine ⟨_, if_pos (h.total ▸ hroom), ?_, fun j' => ?_, fun j' => ?_⟩
  · rw [List.length_append, h.total]
    rfl
  · rw [keysOf_push]
    by_cases hj : j = j'
    · subst hj
      rw [if_pos rfl, List.reverse_append]
      simp only [Function.update_self]
      exact (h.chain j).push i
    · rw [if_neg hj, List.append_nil]
      simp only [Function.update_of_ne (Ne.symm hj)]
      exact (h.chain j').extend _ i
  · rw [keysOf_push]
    by_cases hj : j = j'
    · subst hj
      simp [h.count]
    · simp [Function.update_of_ne (Ne.symm hj), h.count, hj]

theorem addKeycode_full (h : Holds s ps) (hfull : ¬ ps.length < maxKeycode) (i : ℕ) (j : Fin 8) :
    addKeycode i j s = .error .outOfBounds :=
  if_neg (h.total ▸ hfull)

/-- The arrays have room for all the pairs, or for the first of them. -/
inductive Stored (ps : List (ℕ × Fin 8)) : Except Failure Lists → Prop
  | all (s : Lists) : ps.length ≤ maxKeycode → Holds s ps → Stored ps (.ok s)
  | full : maxKeycode < ps.length → Stored ps (.error .outOfBounds)

theorem addKeycodes_stored (h : Holds s ps) (hps : ps.length ≤ maxKeycode) (i : ℕ)
    (js : List (Fin 8)) :
    Stored (ps ++ js.map (i, ·)) (js.foldlM (fun s j => addKeycode i j s) s) := by
  induction js generalizing s ps with
  | nil =>
      rw [List.map_nil, List.append_nil]
      exact .all s hps h
  | cons j js ih =>
      rw [List.foldlM_cons, List.map_cons, List.append_cons]
      by_cases hroom : ps.length < maxKeycode
      · obtain ⟨s', hok, hs'⟩ := addKeycode_ok h hroom i j
        rw [hok]
        refine ih hs' ?_
        rw [List.length_append]
        exact hroom
      · rw [addKeycode_full h hroom]
        apply Stored.full
        simp only [List.length_append, List.length_cons, List.length_map]
        omega

theorem addKeycodes_eq (i : ℕ) (state : σ) (updates : UInt32) (s : Lists) :
    addKeycodes xkb i state updates s =
      ((List.finRange 8).filter fun j => xkb.modNameIsActive state (modifierNames j) updates).foldlM
        (fun s j => addKeycode i j s) s := by
  rw [List.foldlM_filter]
  rfl

/-- One key. -/
theorem visitKey_stored (h : Holds s ps) (hps : ps.length ≤ maxKeycode) (state : σ) (i : ℕ) :
    ∃ r, Stored (ps ++ (active xkb i state).map (i, ·)) r ∧
      visitKey xkb (state, s) i = r.map fun s => (after xkb state i, s) := by
  unfold visitKey active
  by_cases hupdates : (press xkb i state).2 = 0
  · refine ⟨.ok s, ?_, ?_⟩
    · simp only [if_pos hupdates, List.map_nil, List.append_nil]
      exact .all s hps h
    · simp only [if_pos hupdates]
      rfl
  · refine ⟨_, addKeycodes_stored h hps i _, ?_⟩
    simp only [if_neg hupdates, addKeycodes_eq]
    generalize (List.filter _ (List.finRange 8)).foldlM (m := Except Failure) _ s = r
    cases r <;> rfl

/-- All the keys, one after the other. -/
theorem visitKeys_stored (xkb : Xkb σ) (min n : ℕ) :
    ∃ r, Stored ((List.range' min n).flatMap fun i =>
        (active xkb i (stateBefore xkb min i)).map (i, ·)) r ∧
      (List.range' min n).foldlM (visitKey xkb) (xkb.stateNew, {}) =
        r.map fun s => (stateBefore xkb min (min + n), s) := by
  induction n with
  | zero =>
      refine ⟨.ok {}, .all {} (Nat.zero_le _) holds_nil, ?_⟩
      simp [stateBefore]
      rfl
  | succ n ih =>
      obtain ⟨r, hr, hrun⟩ := ih
      have hnext : stateBefore xkb min (min + (n + 1)) =
          after xkb (stateBefore xkb min (min + n)) (min + n) := by
        simp only [stateBefore, Nat.add_sub_cancel_left, List.range'_1_concat, List.foldl_append,
          List.foldl_cons, List.foldl_nil]
      rw [List.range'_1_concat, List.foldlM_append, hrun, List.flatMap_append,
        List.flatMap_singleton, hnext]
      cases hr with
      | all s hlen hs =>
          obtain ⟨r', hr', hvisit⟩ :=
            visitKey_stored hs hlen (stateBefore xkb min (min + n)) (min + n)
          refine ⟨r', hr', ?_⟩
          rw [← hvisit]
          exact bind_pure (visitKey xkb (stateBefore xkb min (min + n), s) (min + n))
      | full hlen =>
          refine ⟨_, .full ?_, rfl⟩
          rw [List.length_append]
          omega

/-! ## The matrix -/

/-- A list is written into consecutive entries. -/
def writeList (m : ℕ → ℕ) : ℕ → List ℕ → ℕ → ℕ
  | _, [] => m
  | base, a :: l => writeList (Function.update m base (a % 256)) (base + 1) l

theorem writeList_of_lt {m : ℕ → ℕ} {base x : ℕ} {l : List ℕ} (hx : x < base) :
    writeList m base l x = m x := by
  induction l generalizing m base with
  | nil => rfl
  | cons a l ih =>
      rw [writeList, ih (Nat.lt_succ_of_lt hx), Function.update_of_ne (Nat.ne_of_lt hx)]

theorem writeList_of_ge {m : ℕ → ℕ} {base x : ℕ} {l : List ℕ} (hx : base + l.length ≤ x) :
    writeList m base l x = m x := by
  induction l generalizing m base with
  | nil => rfl
  | cons a l ih =>
      rw [List.length_cons] at hx
      rw [writeList, ih (by omega), Function.update_of_ne (by omega)]

theorem writeList_add {m : ℕ → ℕ} {base c : ℕ} {l : List ℕ} (hc : c < l.length) :
    writeList m base l (base + c) = l.getD c 0 % 256 := by
  induction l generalizing m base c with
  | nil => cases hc
  | cons a l ih =>
      cases c with
      | zero =>
          change writeList (Function.update m base (a % 256)) (base + 1) l base = a % 256
          rw [writeList_of_lt (Nat.lt_succ_self _), Function.update_self]
      | succ c =>
          rw [List.length_cons, Nat.add_lt_add_iff_right] at hc
          rw [writeList, show base + (c + 1) = base + 1 + c by omega, ih hc]
          rfl

theorem unroll_eq {head : Option ℕ} {l : List ℕ} {k left : ℕ} {m : ℕ → ℕ} {i : Fin 8}
    (h : Chain s.nextKeycodeIndices s.keycodes s.totalKeycodes head l) (hl : l.length ≤ left)
    (hleft : left ≤ k) :
    unroll s i k left head m = .ok (writeList m (i.val * k + (k - left)) l) := by
  induction l generalizing head left m with
  | nil =>
      cases h
      cases left <;> rfl
  | cons a l ih =>
      cases h with
      | cons curr l hcurr htail =>
          cases left with
          | zero => cases hl
          | succ left =>
              rw [List.length_cons, Nat.add_le_add_iff_right] at hl
              rw [unroll, ih htail hl (Nat.le_of_succ_le hleft), writeList]
              congr 2
              omega

/-- The entries of a row, after a list has been written into one of the rows. -/
theorem writeList_row {m : ℕ → ℕ} {k c : ℕ} {l : List ℕ} (hl : l.length ≤ k) (hc : c < k)
    (i j : Fin 8) : writeList m (i.val * k) l (j.val * k + c) =
      if i = j ∧ c < l.length then l.getD c 0 % 256 else m (j.val * k + c) := by
  rcases lt_trichotomy i j with hlt | rfl | hgt
  · rw [if_neg fun h => hlt.ne h.1]
    have hrow : (i.val + 1) * k ≤ j.val * k := Nat.mul_le_mul_right k hlt
    rw [Nat.succ_mul] at hrow
    exact writeList_of_ge (by omega)
  · by_cases hlen : c < l.length
    · rw [if_pos ⟨rfl, hlen⟩, writeList_add hlen]
    · rw [if_neg fun h => hlen h.2]
      exact writeList_of_ge (by omega)
  · rw [if_neg fun h => hgt.ne' h.1]
    have hrow : (j.val + 1) * k ≤ i.val * k := Nat.mul_le_mul_right k hgt
    rw [Nat.succ_mul] at hrow
    exact writeList_of_lt (by omega)

/-- The loop over the rows. -/
theorem unrollRows {k : ℕ} {rows : Fin 8 → List ℕ}
    (hchain : ∀ j, Chain s.nextKeycodeIndices s.keycodes s.totalKeycodes
      (s.modifierKeycodeHead j) (rows j)) (hk : ∀ j, (rows j).length ≤ k) (js : List (Fin 8))
    (m : ℕ → ℕ) :
    ∃ m', js.foldlM (fun m i => unroll s i k k (s.modifierKeycodeHead i) m) m = .ok m' ∧
      ∀ j c, c < k → m' (j.val * k + c) =
        if j ∈ js ∧ c < (rows j).length then (rows j).getD c 0 % 256 else m (j.val * k + c) := by
  induction js generalizing m with
  | nil => exact ⟨m, rfl, fun j c _ => (if_neg fun h => by cases h.1).symm⟩
  | cons i js ih =>
      rw [List.foldlM_cons, unroll_eq (hchain i) (hk i) (le_refl k), Nat.sub_self, Nat.add_zero]
      obtain ⟨m', hrun, hm'⟩ := ih (writeList m (i.val * k) (rows i))
      refine ⟨m', hrun, fun j c hc => ?_⟩
      rw [hm' j c hc, writeList_row (hk i) hc]
      by_cases hj : j ∈ js ∧ c < (rows j).length
      · rw [if_pos hj, if_pos ⟨List.mem_cons_of_mem i hj.1, hj.2⟩]
      · rw [if_neg hj]
        by_cases hij : i = j ∧ c < (rows i).length
        · obtain ⟨rfl, hlen⟩ := hij
          rw [if_pos ⟨rfl, hlen⟩, if_pos ⟨List.mem_cons_self, hlen⟩]
        · rw [if_neg hij, if_neg]
          rintro ⟨hmem, hlen⟩
          rcases List.mem_cons.mp hmem with rfl | hmem
          · exact hij ⟨rfl, hlen⟩
          · exact hj ⟨hmem, hlen⟩

/-! ## The result -/

def Matrix.row (r : Matrix) (j : Fin 8) : List ℕ :=
  (List.range r.keycodePerModifiers).map fun c => r.keycodes (j.val * r.keycodePerModifiers + c)

/-- The press of a key made a modifier active. -/
def MadeActive (xkb : Xkb σ) (r : KeycodeRange) (i : ℕ) (j : Fin 8) : Prop :=
  (r.min ≤ i ∧ i ≤ r.max) ∧ j ∈ active xkb i (stateBefore xkb r.min i)

/-- Each row lists the keys of its modifier, each once, and is padded with zeros up to the longest
row. -/
def Exact (xkb : Xkb σ) (r : KeycodeRange) (x : Matrix) : Prop :=
  ∃ rows : Fin 8 → List ℕ,
    (∀ j, (rows j).Nodup ∧ ∀ i, i ∈ rows j ↔ MadeActive xkb r i j) ∧
    (∀ j, (rows j).length ≤ x.keycodePerModifiers ∧
      x.row j = rows j ++ List.replicate (x.keycodePerModifiers - (rows j).length) 0) ∧
    (x.keycodePerModifiers = 0 ∨ ∃ j, (rows j).length = x.keycodePerModifiers)

/-- Nothing is written beyond the arrays, and the result is exact unless an assertion says that the
keymap lacks a modifier. -/
def FindsModifiers (xkb : Xkb σ) (r : KeycodeRange) : Prop :=
  findModifiers xkb r ≠ .error .outOfBounds ∧
    ((∀ j, xkb.hasMod (modifierNames j) = true) →
      ∃ x, findModifiers xkb r = .ok x ∧ Exact xkb r x)

theorem mem_pairs {r : KeycodeRange} {i : ℕ} {j : Fin 8} :
    (i, j) ∈ pairs xkb r.min r.max ↔ MadeActive xkb r i j := by
  simp only [pairs, keys, List.mem_flatMap, List.mem_range'_1, List.mem_map, Prod.mk.injEq]
  constructor
  · rintro ⟨i, hi, j, hj, rfl, rfl⟩
    exact ⟨by omega, hj⟩
  · rintro ⟨hi, hj⟩
    exact ⟨i, by omega, j, hj, rfl, rfl⟩

theorem active_nodup (i : ℕ) (state : σ) : (active xkb i state).Nodup := by
  unfold active
  dsimp only
  split_ifs
  · exact List.nodup_nil
  · exact (List.nodup_finRange 8).filter _

theorem pairs_nodup (min max : ℕ) : (pairs xkb min max).Nodup := by
  refine List.nodup_flatMap.mpr ⟨fun i _ => ?_, ?_⟩
  · exact (active_nodup i _).map fun _ _ h => (Prod.mk.inj h).2
  · refine (List.nodup_range' 1).imp fun {i i'} hne => ?_
    rintro ⟨a, b⟩ h h'
    obtain ⟨_, -, heq⟩ := List.mem_map.mp h
    obtain ⟨_, -, heq'⟩ := List.mem_map.mp h'
    exact hne ((Prod.mk.inj heq).1.trans (Prod.mk.inj heq').1.symm)

theorem keysOf_nodup (h : ps.Nodup) (j : Fin 8) : (keysOf ps j).Nodup := by
  refine (h.filter _).map_on ?_
  rintro ⟨a, b⟩ hx ⟨a', b'⟩ hy heq
  have hb := (List.mem_filter.mp hx).2
  have hb' := (List.mem_filter.mp hy).2
  simp only [decide_eq_true_eq] at hb hb' heq
  rw [heq, hb, hb']

/-- The length of the longest row. -/
theorem width_spec (f : Fin 8 → ℕ) (js : List (Fin 8)) (k : ℕ) :
    (k ≤ js.foldl (fun k i => max k (f i)) k ∧
        ∀ j ∈ js, f j ≤ js.foldl (fun k i => max k (f i)) k) ∧
      (js.foldl (fun k i => max k (f i)) k = k ∨
        ∃ j ∈ js, f j = js.foldl (fun k i => max k (f i)) k) := by
  induction js generalizing k with
  | nil => exact ⟨⟨le_refl k, nofun⟩, .inl rfl⟩
  | cons i js ih =>
      obtain ⟨⟨hle, hall⟩, hend⟩ := ih (max k (f i))
      rw [List.foldl_cons]
      refine ⟨⟨(le_max_left _ _).trans hle, ?_⟩, ?_⟩
      · intro j hj
        rcases List.mem_cons.mp hj with rfl | hj
        · exact (le_max_right _ _).trans hle
        · exact hall j hj
      · rcases hend with hend | ⟨j, hj, hend⟩
        · rcases max_choice k (f i) with hmax | hmax
          · exact .inl (hend.trans hmax)
          · exact .inr ⟨i, List.mem_cons_self, (hend.trans hmax).symm⟩
        · exact .inr ⟨j, List.mem_cons_of_mem i hj, hend⟩

/-- A row whose entries are these, and zero behind them. -/
theorem row_eq {x : Matrix} {j : Fin 8} {l : List ℕ} (hl : l.length ≤ x.keycodePerModifiers)
    (hsmall : ∀ i ∈ l, i < 256)
    (hrow : ∀ c < x.keycodePerModifiers, x.keycodes (j.val * x.keycodePerModifiers + c) =
      if c < l.length then l.getD c 0 % 256 else 0) :
    x.row j = l ++ List.replicate (x.keycodePerModifiers - l.length) 0 := by
  apply List.ext_getElem
  · simp only [Matrix.row, List.length_map, List.length_range, List.length_append,
      List.length_replicate]
    omega
  · intro c hc hc'
    simp only [Matrix.row, List.length_map, List.length_range] at hc
    simp only [Matrix.row, List.getElem_map, List.getElem_range, hrow c hc, List.getElem_append]
    split_ifs with hlt
    · rw [List.getD_eq_getElem?_getD, List.getElem?_eq_getElem hlt, Option.getD_some,
        Nat.mod_eq_of_lt (hsmall _ (List.getElem_mem hlt))]
    · rw [List.getElem_replicate]

/-- The loops over the rows, when the arrays hold all the pairs. -/
theorem unrollAll_exact {r : KeycodeRange} (h : Holds s (pairs xkb r.min r.max)) :
    ∃ x, unrollAll s = .ok x ∧ Exact xkb r x := by
  obtain ⟨⟨-, hle⟩, hend⟩ := width_spec s.modifierKeycodeCount (List.finRange 8) 0
  change ∀ j ∈ List.finRange 8, s.modifierKeycodeCount j ≤ width s at hle
  change width s = 0 ∨ ∃ j ∈ List.finRange 8, s.modifierKeycodeCount j = width s at hend
  have hlen : ∀ j, (keysOf (pairs xkb r.min r.max) j).reverse.length ≤ width s := by
    intro j
    rw [List.length_reverse, ← h.count]
    exact hle j (List.mem_finRange j)
  obtain ⟨m, hrun, hm⟩ := unrollRows h.chain hlen (List.finRange 8) fun _ => 0
  refine ⟨⟨width s, m⟩, ?_, fun j => (keysOf (pairs xkb r.min r.max) j).reverse, ?_, ?_, ?_⟩
  · rw [unrollAll, hrun]
    rfl
  · intro j
    refine ⟨List.nodup_reverse.mpr (keysOf_nodup (pairs_nodup _ _) j), fun i => ?_⟩
    rw [List.mem_reverse, mem_keysOf, mem_pairs]
  · intro j
    refine ⟨hlen j, row_eq (hlen j) ?_ ?_⟩
    · intro i hi
      rw [List.mem_reverse, mem_keysOf, mem_pairs] at hi
      have hhigh := r.high
      have hmax := hi.1.2
      omega
    · intro c hc
      simp only [hm j c hc, List.mem_finRange, true_and]
  · rcases hend with hend | ⟨j, -, hend⟩
    · exact .inl hend
    · refine .inr ⟨j, ?_⟩
      rw [List.length_reverse, ← h.count]
      exact hend

theorem findModifiers_known {r : KeycodeRange} (hknown : ∀ j, xkb.hasMod (modifierNames j) = true) :
    findModifiers xkb r =
      (keys r.min r.max).foldlM (visitKey xkb) (xkb.stateNew, {}) >>= fun x => unrollAll x.2 :=
  if_neg fun ⟨j, hj⟩ => by rw [hknown j] at hj; cases hj

/-- Nothing is written beyond the arrays, and the rows are exact, if and only if there are at most
256 pairs of a key and a modifier that it makes active. -/
theorem find_modifiers_exact_iff (xkb : Xkb σ) (r : KeycodeRange) :
    FindsModifiers xkb r ↔ (∃ j, xkb.hasMod (modifierNames j) = false) ∨
      (pairs xkb r.min r.max).length ≤ 256 := by
  by_cases hlacks : ∃ j, xkb.hasMod (modifierNames j) = false
  · refine iff_of_true ⟨?_, fun hall => ?_⟩ (.inl hlacks)
    · rw [findModifiers, if_pos hlacks]
      intro h
      cases h
    · obtain ⟨j, hj⟩ := hlacks
      rw [hall j] at hj
      cases hj
  · have hknown : ∀ j, xkb.hasMod (modifierNames j) = true := by
      intro j
      by_contra hj
      exact hlacks ⟨j, Bool.eq_false_iff.mpr hj⟩
    rw [or_iff_right hlacks, FindsModifiers, findModifiers_known hknown]
    obtain ⟨x, hx, hrun⟩ := visitKeys_stored xkb r.min (r.max + 1 - r.min)
    rw [keys, hrun]
    change Stored (pairs xkb r.min r.max) x at hx
    cases hx with
    | all s hlen hs =>
        obtain ⟨m, hm, hexact⟩ := unrollAll_exact hs
        refine iff_of_true ⟨fun h => ?_, fun _ => ⟨m, hm, hexact⟩⟩ hlen
        cases hm.symm.trans h
    | full hlen => exact iff_of_false (fun h => h.1 rfl) (Nat.not_le.mpr hlen)

/-- Every key sets all the modifiers. -/
def setsAll : Xkb Unit where
  hasMod _ := true
  stateNew := ()
  updateKey _ _ _ := ((), modsDepressed)
  modNameIsActive _ _ _ := true

/-- The 33rd key is too much. -/
theorem find_modifiers_out_of_bounds :
    findModifiers setsAll ⟨8, 40, by decide, by decide⟩ = .error .outOfBounds ∧
      ¬ FindsModifiers setsAll ⟨8, 40, by decide, by decide⟩ :=
  ⟨rfl, fun h => h.1 rfl⟩

end Deai.Modifiers
