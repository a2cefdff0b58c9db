import Deai.LuaArrays
import Deai.LuaPushing

/-!
# From Lua to deai and back

Plain data comes back as new tables with the same elements. What differs is what deai has no value
for: an integer among floats comes back as a float, and an empty table as a proxy of its object,
unless it is among arrays.
-/
namespace Deai.LuaRoundTrip
open Fallible Value Numbers LuaStack LuaConversion LuaWalk LuaReading LuaTermination LuaArrays
  LuaPushing

variable {h h' h'' : Lua} {r k n base base' : ℕ} {t elemt : DiType} {v w : LuaValue} {s : Stack}

/-! ## Plain data -/

variable (h) in
/-- Booleans, numbers, strings, and arrays of plain data with an element type in common. -/
inductive Plain : LuaValue → Prop
  | boolean (b : Bool) : Plain (.boolean b)
  | integer (m : Int64) : Plain (.integer m)
  | float (bits : UInt64) : Plain (.float bits)
  | string (str : String) : Plain (.string str)
  | empty (r : ℕ) : (h.tables r).metatable = none → (h.tables r).entries = [] → Plain (.table r)
  | array (r n : ℕ) (t : DiType) : (h.tables r).metatable = none → 0 < n → n < intMax →
      Keys h r n → Common h (values h r n) t → (∀ w ∈ values h r n, Plain w) → Plain (.table r)

theorem contained_element (hkeys : Keys h r n) (hw : Contains h w (.table r)) :
    w ∈ values h r n := by
  obtain ⟨_, k, hr, hentry⟩ := hw
  cases hr
  obtain ⟨j, hj, rfl⟩ := List.mem_map.mp ((hkeys k).mp (List.mem_map_of_mem hentry))
  exact List.mem_map.mpr ⟨j, hj, Table.get_of_mem _ hentry⟩

theorem Plain.bounded (hplain : Plain h v) : Bounded h v := by
  induction hplain with
  | array r n t _ _ hn hkeys _ _ ih =>
      intro r' hreach
      obtain hr | ⟨w, hreach, hw⟩ := hreach.cases_tail
      · cases hr
        rwa [hkeys.length hn.le]
      · exact ih w (contained_element hkeys hw) r' hreach
  | empty r _ hentries =>
      intro r' hreach
      obtain hr | ⟨w, _, _, k, hr, hentry⟩ := hreach.cases_tail
      · cases hr
        rw [hentries]
        decide
      · cases hr
        rw [hentries] at hentry
        cases hentry
  | boolean | integer | float | string =>
      intro r' hreach
      obtain hr | ⟨w, _, _, k, hr, -⟩ := hreach.cases_tail
      · cases hr
      · cases hr

/-- The types of plain data. -/
def plainTypes : List DiType := [.bool, .int, .float, .string, .emptyObject, .array]

theorem Plain.hasType (hplain : Plain h v) : ∃ t ∈ plainTypes, HasType h v t := by
  induction hplain with
  | boolean b => exact ⟨.bool, by decide, 1, rfl⟩
  | integer m => exact ⟨.int, by decide, 1, rfl⟩
  | float bits => exact ⟨.float, by decide, 1, rfl⟩
  | string str => exact ⟨.string, by decide, 1, rfl⟩
  | empty r hmetatable hentries =>
      have hnil := elements_eq_nil_iff.mpr hentries
      have hcheck : checkTypes (typeOf h 0) (elements h r) = .yes .any := by rw [hnil]; rfl
      exact ⟨.emptyObject, by decide, 1, typeOf_empty hcheck hmetatable hnil⟩
  | array r n t hmetatable hpos hn hkeys hcommon _ ih =>
      have hlength := hkeys.length hn.le
      have helements := elements_eq_values (h := h) (r := r) (by omega)
      rw [hlength] at helements
      obtain ⟨N, hN⟩ := exists_depth (values h r n) (fun _ => True) fun w hw _ => by
        obtain ⟨t, -, m, hm⟩ := ih w hw
        exact ⟨m, by rw [hm]; simp⟩
      have hne : elements h r ≠ [] := by
        rw [helements, ← List.length_pos_iff, values, List.length_map, List.length_range]
        exact hpos
      have hcheck : checkTypes (typeOf h N) (elements h r) = .yes t := by
        rw [checkTypes_common (fun w hw => hN w (helements ▸ hw) trivial) hne, helements]
        exact hcommon
      exact ⟨.array, by decide, N + 1, typeOf_array hcheck hmetatable hne⟩

theorem hasType_unique (hv : HasType h v t) (hv' : HasType h v elemt) : t = elemt := by
  obtain ⟨n, hn⟩ := hv
  rw [hasType_iff (n := n) (by rw [hn]; simp), hn] at hv'
  exact Walk.of.inj hv'

/-! ## What comes back -/

/-- The value `w` has come back for `v`, where values of type `t` are expected. Its tables are new:
from `base` on. -/
inductive Pushed (h : Lua) (base : ℕ) (h' : Lua) : DiType → LuaValue → LuaValue → Prop
  | boolean (b : Bool) : Pushed h base h' .bool (.boolean b) (.boolean b)
  | integer (m : Int64) : Pushed h base h' .int (.integer m) (.integer m)
  | float (bits : UInt64) : Pushed h base h' .float (.float bits) (.float bits)
  | widened (m : Int64) :
      Pushed h base h' .float (.integer m) (.float (doubleBits m.toInt))
  | string (str : String) : Pushed h base h' .string (.string str) (.string str)
  | proxy (r u : ℕ) : (h.tables r).entries = [] → u < h'.nextUserdata →
      (h'.userdata u).object = h.wrap (.table r) →
      Pushed h base h' .emptyObject (.table r) (.userdata u)
  | empty (r r' : ℕ) : (h.tables r).entries = [] → base ≤ r' → r' < h'.nextTable →
      h'.tables r' = .empty → Pushed h base h' .array (.table r) (.table r')
  | array (r r' n : ℕ) (t : DiType) : Keys h r n → Common h (values h r n) t →
      base ≤ r' → r' < h'.nextTable → (h'.tables r').metatable = none → Keys h' r' n →
      (∀ j < n, Pushed h base h' t (h.element r (j + 1)) (h'.element r' (j + 1))) →
      Pushed h base h' .array (.table r) (.table r')

namespace Pushed

theorem ne_nil (hpushed : Pushed h base h' t v w) : w ≠ .nil := by
  cases hpushed <;> simp

theorem mono (hpushed : Pushed h base h' t v w) (hbase : base' ≤ base)
    (hnext : h'.nextTable ≤ h''.nextTable) (hnext' : h'.nextUserdata ≤ h''.nextUserdata)
    (htables : ∀ r, base ≤ r → r < h'.nextTable → h''.tables r = h'.tables r)
    (huserdata : ∀ u < h'.nextUserdata, h''.userdata u = h'.userdata u) :
    Pushed h base' h'' t v w := by
  induction hpushed with
  | boolean b => exact .boolean b
  | integer m => exact .integer m
  | float bits => exact .float bits
  | widened m => exact .widened m
  | string str => exact .string str
  | proxy r u hentries hu hobject =>
      exact .proxy r u hentries (hu.trans_le hnext') (by rw [huserdata u hu, hobject])
  | empty r r' hentries hle hlt hempty =>
      exact .empty r r' hentries (hbase.trans hle) (hlt.trans_le hnext)
        (by rw [htables r' hle hlt, hempty])
  | array r r' n t hkeys hcommon hle hlt hmetatable hkeys' _ ih =>
      have htable := htables r' hle hlt
      refine .array r r' n t hkeys hcommon (hbase.trans hle) (hlt.trans_le hnext)
        (by rw [htable, hmetatable]) (by rwa [Keys, htable]) fun j hj => ?_
      have helement : h''.element r' (j + 1) = h'.element r' (j + 1) := by
        rw [Lua.element, Lua.element, htable]
      rw [helement]
      exact ih j hj

end Pushed

/-! ## Pushing an array -/

/-- The value `x` is pushed as one that has come back for `v`. -/
def Comes (h : Lua) (t : DiType) (v : LuaValue) (x : DiValue) : Prop :=
  ∀ name h₁ s, ∃ h' w, diLuaPushvariant false name x h₁ s = .ok (1, h', w :: s) ∧
    Pushed h h₁.nextTable h' t v w ∧ Grows h₁.nextTable h₁ h'

/-- The first `k` elements of the new table `r'` have come back for those of `r`. -/
structure Filled (h : Lua) (r : ℕ) (t : DiType) (r' k : ℕ) (h' : Lua) : Prop where
  allocated : r' < h'.nextTable
  metatable : (h'.tables r').metatable = none
  keys : Keys h' r' k
  pushed : ∀ j < k, Pushed h (r' + 1) h' t (h.element r (j + 1)) (h'.element r' (j + 1))

variable {r' : ℕ}

theorem key_ne_nil (j : ℕ) : key j ≠ .nil := by
  simp [key]

/-- One more element. -/
theorem Filled.next (hfilled : Filled h r t r' k h') (hk : k < intMax)
    (hgrows : Grows h'.nextTable h' h'')
    (hpushed : Pushed h h'.nextTable h'' t (h.element r (k + 1)) w) :
    Filled h r t r' (k + 1) (h''.setTable r' ((h''.tables r').set (key k) w)) := by
  have hw := hpushed.ne_nil
  have hold := hgrows.tables r' hfilled.allocated
  have hself : (h''.setTable r' ((h''.tables r').set (key k) w)).tables r'
      = (h'.tables r').set (key k) w := by
    rw [← hold]
    exact Function.update_self _ _ _
  have hothers : ∀ x, x ≠ r' →
      (h''.setTable r' ((h''.tables r').set (key k) w)).tables x = h''.tables x :=
    fun x hx => Function.update_of_ne hx _ _
  refine ⟨hfilled.allocated.trans_le hgrows.nextTable, ?_, ?_, fun j hj => ?_⟩
  · rw [hself]
    exact hfilled.metatable
  · intro x
    rw [hself, Table.mem_keys_set _ (key_ne_nil k) hw, hfilled.keys x, List.range_succ,
      List.map_append, List.mem_append, List.map_singleton, List.mem_singleton, or_comm]
  · have helement : (h''.setTable r' ((h''.tables r').set (key k) w)).element r' (j + 1)
        = ((h'.tables r').set (key k) w).get (key j) := by
      rw [Lua.element, hself]
      rfl
    rw [helement]
    obtain hj | rfl := Nat.lt_succ_iff_lt_or_eq.mp hj
    · have hne : key j ≠ key k := fun hkey =>
        hj.ne (key_injective (hj.trans hk) hk hkey)
      rw [Table.get_set_of_ne _ (key_ne_nil k) hw hne]
      refine (hfilled.pushed j hj).mono le_rfl hgrows.nextTable hgrows.nextUserdata
        (fun x hx hlt => ?_) hgrows.userdata
      rw [hothers x (by omega), hgrows.tables x hlt]
    · rw [Table.get_set_self _ (key_ne_nil j) hw]
      refine hpushed.mono hfilled.allocated le_rfl le_rfl (fun x hx _ => ?_) fun _ _ => rfl
      exact hothers x (by have := hfilled.allocated; omega)

/-- By induction on the elements that are left. -/
theorem pushElements_filled {vs : List DiValue} {h₁ : Lua}
    (hcomes : ∀ j x, vs[j]? = some x → Comes h t (h.element r (k + j + 1)) x)
    (hfilled : Filled h r t r' k h₁) (hk : k + vs.length < intMax) (s : Stack) :
    ∃ h', pushElements false vs (k + 1) h₁ (.table r' :: s) = .ok (h', .table r' :: s) ∧
      Filled h r t r' (k + vs.length) h' ∧ Grows r' h₁ h' := by
  induction vs generalizing k h₁ with
  | nil => exact ⟨h₁, rfl, hfilled, .refl r' h₁⟩
  | cons x vs ih =>
      rw [List.length_cons] at hk
      obtain ⟨h₂, w, hpush, hpushed, hgrows⟩ := hcomes 0 x rfl "" h₁ (.table r' :: s)
      have hnext := hfilled.next (by omega) hgrows hpushed
      obtain ⟨h', hrest, hfilled', hgrows'⟩ := ih (k := k + 1)
        (fun j x hx => by
          have hcomes := hcomes (j + 1) x hx
          rwa [show k + (j + 1) + 1 = k + 1 + j + 1 by omega] at hcomes)
        hnext (by omega)
      refine ⟨h', ?_, ?_, ?_⟩
      · rw [pushElements, hpush, ok_bind]
        exact hrest
      · rwa [List.length_cons, show k + (vs.length + 1) = k + 1 + vs.length by omega]
      · exact ((hgrows.mono hfilled.allocated.le).trans (.setTable _ _ _)).trans hgrows'

theorem comes_array {elems : List DiValue} (ht : t ≠ .any) (hkeys : Keys h r elems.length)
    (hcommon : Common h (values h r elems.length) t) (hlength : elems.length < intMax)
    (hcomes : ∀ j x, elems[j]? = some x → Comes h t (h.element r (j + 1)) x) :
    Comes h .array (.table r) (.array t elems) := by
  intro name h₁ s
  have hempty : Filled h r t h₁.nextTable 0 (h₁.newTable .empty) := by
    have hself : (h₁.newTable .empty).tables h₁.nextTable = .empty := Function.update_self _ _ _
    refine ⟨Nat.lt_succ_self _, by rw [hself]; rfl, fun x => ?_, fun j hj => ?_⟩
    · rw [hself]
      exact Iff.rfl
    · exact absurd hj (Nat.not_lt_zero j)
  obtain ⟨h', hpush, hfilled, hgrows⟩ := pushElements_filled
    (fun j x hx => by rw [Nat.zero_add]; exact hcomes j x hx) hempty (by omega) s
  rw [Nat.zero_add] at hpush hfilled
  refine ⟨h', .table h₁.nextTable, ?_, ?_, (Grows.newTable h₁ .empty).trans hgrows⟩
  · rw [diLuaPushvariant, if_neg ht, if_pos hlength, hpush]
    rfl
  · exact .array r _ _ t hkeys hcommon le_rfl hfilled.allocated hfilled.metatable hfilled.keys
      fun j hj => (hfilled.pushed j hj).mono (Nat.le_succ _) le_rfl le_rfl (fun _ _ _ => rfl)
        fun _ _ => rfl

/-! ## The way back -/

/-- What stands for plain data is pushed as plain data. -/
theorem stands_comes {x : DiValue} (hstands : Stands h t v x) (hplain : Plain h v) :
    Comes h t v x := by
  induction hstands with
  | boolean b => exact fun _ h₁ _ => ⟨h₁, _, rfl, .boolean b, .refl _ h₁⟩
  | integer m => exact fun _ h₁ _ => ⟨h₁, _, rfl, .integer m, .refl _ h₁⟩
  | float bits => exact fun _ h₁ _ => ⟨h₁, _, rfl, .float bits, .refl _ h₁⟩
  | widened m => exact fun _ h₁ _ => ⟨h₁, _, rfl, .widened m, .refl _ h₁⟩
  | string str =>
      intro name h₁ s
      refine ⟨h₁, _, ?_, .string str, .refl _ h₁⟩
      rw [diLuaPushvariant, if_neg (by simp)]
  | proxy u => cases hplain
  | function r => cases hplain
  | table r hobject =>
      obtain ⟨t, ht, htype⟩ := hplain.hasType
      rw [hasType_unique htype hobject] at ht
      exact absurd ht (by decide)
  | emptyObject r hentries =>
      intro name h₁ s
      obtain ⟨h', u, hpush, hu, hobject, hgrows⟩ :=
        diLuaPushobject_spec name (h.wrap (.table r)) h₁ s
      refine ⟨h', .userdata u, ?_, .proxy r u hentries hu hobject, hgrows⟩
      rw [diLuaPushvariant, hpush]
      rfl
  | empty r hentries =>
      intro name h₁ s
      refine ⟨h₁.newTable .empty, .table h₁.nextTable, ?_, ?_, .newTable h₁ .empty⟩
      · rw [diLuaPushvariant, if_pos rfl]
      · exact .empty r _ hentries le_rfl (Nat.lt_succ_self _) (Function.update_self _ _ _)
  | array r t elems hkeys hcommon _ ih =>
      have hsize := hplain.bounded r .refl
      have hlength := hkeys.length (hkeys.le hsize)
      refine comes_array hcommon.ne_any hkeys hcommon (hlength ▸ hsize) fun j x hx => ih j x hx ?_
      cases hplain with
      | empty _ _ hentries =>
          rw [hentries] at hlength
          rw [List.length_eq_zero_iff.mp hlength.symm] at hx
          cases hx
      | array _ n _ _ _ hn hkeys' _ hplain =>
          have hj := (List.getElem?_eq_some_iff.mp hx).1
          rw [hkeys'.length hn.le] at hlength
          exact hplain _ (List.mem_map_of_mem (List.mem_range.mpr (hlength ▸ hj)))

/-- The table `{{}}`. -/
def nestedTable : Lua where
  tables r := if r = 0 then Table.empty.set (key 0) (.table 1) else .empty
  userdata _ := {metatable := none, object := 0}
  nextTable := 2
  cached _ := none
  wrap _ := 7
  proxied := selfTable.proxied

end Deai.LuaRoundTrip
