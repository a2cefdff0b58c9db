import Deai.LuaTermination

/-!
# The tables that are arrays

Which tables the detection takes for arrays, and what their elements become. It only looks at the
number of entries and at the values under the integers from `1` on, in no order of its own.
-/
namespace Deai.LuaArrays
open Fallible Value Numbers LuaStack LuaConversion LuaWalk LuaReading LuaTermination

variable {h : Lua} {r k n : ℕ} {t elemt : DiType} {v w : LuaValue}

/-! ## Keys -/

/-- The key of the element behind `j` others. -/
def key (j : ℕ) : LuaValue := .integer (.ofNat (j + 1))

variable (h) in
/-- The keys of the table are the integers from `1` to `k`. -/
def Keys (r k : ℕ) : Prop :=
  ∀ x, x ∈ (h.tables r).entries.map Prod.fst ↔ x ∈ (List.range k).map key

variable (h) in
def values (r k : ℕ) : List LuaValue := (List.range k).map fun j => h.element r (j + 1)

theorem key_injective {i j : ℕ} (hi : i < intMax) (hj : j < intMax) (hkey : key i = key j) :
    i = j := by
  have hint : (Int64.ofNat (i + 1)).toInt = (Int64.ofNat (j + 1)).toInt := by
    rw [LuaValue.integer.inj hkey]
  have hmax : intMax + 1 < 2 ^ 63 := by decide
  rw [Int64.toInt_ofNat_of_lt (by omega), Int64.toInt_ofNat_of_lt (by omega)] at hint
  omega

theorem keys_nodup (hk : k ≤ intMax) : ((List.range k).map key).Nodup := by
  refine List.Nodup.map_on (fun i hi j hj => ?_) List.nodup_range
  exact key_injective (by have := List.mem_range.mp hi; omega)
    (by have := List.mem_range.mp hj; omega)

theorem get_mem (t : Table) (hget : t.get v ≠ .nil) : v ∈ t.entries.map Prod.fst := by
  rw [Table.get] at hget
  split at hget
  · exact absurd rfl hget
  · rename_i e hfind
    have hkey : e.1 = v := by simpa using List.find?_some hfind
    exact hkey ▸ List.mem_map_of_mem (List.mem_of_find?_eq_some hfind)

theorem Keys.length (hkeys : Keys h r k) (hk : k ≤ intMax) :
    (h.tables r).entries.length = k := by
  have hperm := (List.perm_ext_iff_of_nodup (h.tables r).nodup (keys_nodup hk)).mpr hkeys
  simpa using hperm.length_eq

theorem Keys.le (hkeys : Keys h r k) (hsize : (h.tables r).entries.length < intMax) :
    k ≤ intMax := by
  by_contra hlt
  have hsubset : (List.range intMax).map key ⊆ (h.tables r).entries.map Prod.fst := by
    intro x hx
    obtain ⟨j, hj, rfl⟩ := List.mem_map.mp hx
    have hj := List.mem_range.mp hj
    exact (hkeys _).mpr (List.mem_map_of_mem (List.mem_range.mpr (by omega)))
  have hcount := ((keys_nodup le_rfl).subperm hsubset).length_le
  rw [List.length_map, List.length_map, List.length_range] at hcount
  omega

/-- A table with as many entries as it has elements has no other keys. -/
theorem keys_of_values (hlength : (h.tables r).entries.length = k) (hk : k ≤ intMax)
    (hvalues : ∀ w ∈ values h r k, w ≠ .nil) : Keys h r k := by
  have hsubset : (List.range k).map key ⊆ (h.tables r).entries.map Prod.fst := by
    intro x hx
    obtain ⟨j, hj, rfl⟩ := List.mem_map.mp hx
    exact get_mem _ (hvalues _ (List.mem_map_of_mem hj))
  have hperm := ((keys_nodup hk).subperm hsubset).perm_of_length_le (by simp [hlength])
  exact fun x => hperm.mem_iff.symm

theorem elements_eq_values (hsize : (h.tables r).entries.length < intMax) :
    elements h r = values h r (h.tables r).entries.length := by
  rw [elements, values, min_eq_left (by omega)]

/-! ## The common type -/

/-- An element of this type may be in an array whose elements have type `t`. -/
def Unifies (k t : DiType) : Prop :=
  k = t ∨ (k = .int ∧ t = .float) ∨ (k = .emptyObject ∧ t = .array)

theorem admits_iff : Admits t elemt ↔ Unifies elemt t := by
  rw [Admits, Unifies, under]
  split_ifs with hempty
  · obtain ⟨rfl, rfl⟩ := hempty
    simp
  · rw [or_iff_left hempty]

variable (h) in
/-- The type of a value. -/
def HasType (v : LuaValue) (t : DiType) : Prop := ∃ n, typeOf h n v = .of t

variable (h) in
/-- The values have the element type `t` in common. -/
def Common (vs : List LuaValue) (t : DiType) : Prop :=
  t ≠ .nil ∧ (∃ w ∈ vs, HasType h w t) ∧ ∀ w ∈ vs, ∃ k, HasType h w k ∧ Unifies k t

theorem Unifies.antisymm (hk : Unifies elemt t) (ht : Unifies t elemt) : elemt = t := by
  obtain rfl | ⟨rfl, rfl⟩ | ⟨rfl, rfl⟩ := hk
  · rfl
  · revert ht
    simp [Unifies]
  · revert ht
    simp [Unifies]

theorem Unifies.ne_nil (hk : Unifies elemt t) (ht : t ≠ .nil) : elemt ≠ .nil := by
  obtain rfl | ⟨rfl, -⟩ | ⟨rfl, -⟩ := hk
  · exact ht
  all_goals simp

theorem under_self (t : DiType) : under t t = t := by
  rw [under, if_neg]
  rintro ⟨rfl, h⟩
  cases h

/-- Types that unify with one type are joined. -/
theorem joinType_unifies {k : DiType} (helemt : Unifies elemt t) (hk : Unifies k t) :
    ∃ t', joinType elemt (under elemt k) = some t' ∧ Unifies t' t := by
  obtain rfl | ⟨rfl, rfl⟩ | ⟨rfl, rfl⟩ := helemt
  · obtain rfl | ⟨rfl, rfl⟩ | ⟨rfl, rfl⟩ := hk
    · exact ⟨k, by rw [under_self, joinType, if_pos rfl], .inl rfl⟩
    · exact ⟨.float, rfl, .inl rfl⟩
    · exact ⟨.array, rfl, .inl rfl⟩
  · obtain rfl | ⟨rfl, -⟩ | ⟨-, h⟩ := hk
    · exact ⟨.float, rfl, .inl rfl⟩
    · exact ⟨.int, rfl, .inr (.inl ⟨rfl, rfl⟩)⟩
    · cases h
  · obtain rfl | ⟨-, h⟩ | ⟨rfl, -⟩ := hk
    · exact ⟨.array, rfl, .inl rfl⟩
    · cases h
    · exact ⟨.emptyObject, rfl, .inr (.inr ⟨rfl, rfl⟩)⟩

theorem joinType_reached {k : DiType} (hjoin : joinType elemt (under elemt k) = some t) :
    t = elemt ∨ t = k := by
  rw [joinType] at hjoin
  split_ifs at hjoin with hsame hfloat harray hint
  · cases hjoin
    exact .inl rfl
  · cases hjoin
    obtain ⟨hunder, rfl⟩ := hfloat
    rw [under_of_ne (by simp)] at hunder
    exact .inr hunder.symm
  · cases hjoin
    obtain ⟨-, rfl⟩ := harray
    exact .inr (under_of_ne (by simp) k)
  · cases hjoin
    exact .inl rfl

section Check

variable {type : LuaValue → Walk} {vs : List LuaValue}

theorem scanTypes_unifies (hall : ∀ w ∈ vs, ∃ k, type w = .of k ∧ Unifies k t)
    (helemt : Unifies elemt t) : ∃ t', scanTypes type elemt vs = .yes t' ∧ Unifies t' t := by
  induction vs generalizing elemt with
  | nil => exact ⟨elemt, rfl, helemt⟩
  | cons v vs ih =>
      obtain ⟨k, hv, hk⟩ := hall v List.mem_cons_self
      obtain ⟨t', hjoin, ht'⟩ := joinType_unifies helemt hk
      rw [scanTypes_typed (by simp [hv]) (by simp [hv]), hv, Walk.type, hjoin]
      exact ih (fun w hw => hall w (List.mem_cons_of_mem v hw)) ht'

/-- The type that is found is the type of an element. -/
theorem scanTypes_reached (hscan : scanTypes type elemt vs = .yes t) :
    t = elemt ∨ ∃ w ∈ vs, (type w).type = t := by
  induction vs generalizing elemt with
  | nil =>
      cases hscan
      exact .inl rfl
  | cons v vs ih =>
      obtain ⟨hdepth, hbare⟩ := typed_of_scan hscan
      rw [scanTypes_typed hdepth hbare] at hscan
      split at hscan
      · cases hscan
      · rename_i hjoin
        obtain rfl | ⟨w, hw, hwt⟩ := ih hscan
        · obtain rfl | rfl := joinType_reached hjoin
          · exact .inl rfl
          · exact .inr ⟨v, List.mem_cons_self, rfl⟩
        · exact .inr ⟨w, List.mem_cons_of_mem v hw, hwt⟩

theorem checkTypes_reached (hcheck : checkTypes type vs = .yes t) (hvs : vs ≠ [])  :
    ∃ w ∈ vs, (type w).type = t := by
  cases vs with
  | nil => exact absurd rfl hvs
  | cons v vs =>
      obtain ⟨hdepth, hbare⟩ := typed_of_check hcheck
      rw [checkTypes_typed hdepth hbare] at hcheck
      split_ifs at hcheck
      obtain rfl | ⟨w, hw, hwt⟩ := scanTypes_reached hcheck
      · exact ⟨v, List.mem_cons_self, rfl⟩
      · exact ⟨w, List.mem_cons_of_mem v hw, hwt⟩

/-- The walk through the elements finds what they have in common, in any order. -/
theorem checkTypes_iff (htuple : ∀ v, type v ≠ .of .tuple) (hvs : vs ≠ []) :
    checkTypes type vs = .yes t ↔ t ≠ .nil ∧ (∃ w ∈ vs, type w = .of t) ∧
      ∀ w ∈ vs, ∃ k, type w = .of k ∧ Unifies k t := by
  constructor
  · intro hcheck
    obtain ⟨ht, hall⟩ := checkTypes_yes htuple hcheck hvs
    obtain ⟨w, hw, rfl⟩ := checkTypes_reached hcheck hvs
    refine ⟨ht, ⟨w, hw, ?_⟩, fun u hu => ?_⟩
    · obtain ⟨k, hk, -⟩ := hall w hw
      rw [hk, Walk.type]
    · obtain ⟨k, hk, hadmits⟩ := hall u hu
      exact ⟨k, hk, admits_iff.mp hadmits⟩
  · rintro ⟨ht, ⟨w, hw, hwt⟩, hall⟩
    obtain ⟨t', hcheck, ht'⟩ : ∃ t', checkTypes type vs = .yes t' ∧ Unifies t' t := by
      cases vs with
      | nil => exact absurd rfl hvs
      | cons v vs =>
          obtain ⟨k, hv, hk⟩ := hall v List.mem_cons_self
          rw [checkTypes_typed (by simp [hv]) (by simp [hv]), hv, Walk.type,
            if_neg (hk.ne_nil ht)]
          exact scanTypes_unifies (fun w hw => hall w (List.mem_cons_of_mem v hw)) hk
    obtain ⟨k, hk, hadmits⟩ := (checkTypes_yes htuple hcheck hvs).2 w hw
    obtain rfl : t = k := by
      rw [hwt] at hk
      exact Walk.of.inj hk
    rw [hcheck, ht'.antisymm (admits_iff.mp hadmits)]

end Check

theorem Common.ne_any (hcommon : Common h (values h r n) t) : t ≠ .any := by
  obtain ⟨-, ⟨w, -, m, hw⟩, -⟩ := hcommon
  rintro rfl
  exact absurd (typeOf_mem hw) (by decide)

/-! ## Acyclic tables -/

variable (h) in
/-- The table `v` has the value `w`. -/
def Contains (w v : LuaValue) : Prop := ∃ r k, v = .table r ∧ (k, w) ∈ (h.tables r).entries

theorem get_entry (t : Table) {key : LuaValue} (hget : t.get key ≠ .nil) :
    ∃ k, (k, t.get key) ∈ t.entries := by
  rw [Table.get] at hget ⊢
  split at hget
  · exact absurd rfl hget
  · rename_i e hfind
    exact ⟨e.1, List.mem_of_find?_eq_some hfind⟩

theorem element_contained (hw : w ∈ elements h r) : w = .nil ∨ Contains h w (.table r) := by
  obtain ⟨j, -, rfl⟩ := List.mem_map.mp hw
  by_cases hnil : h.element r (j + 1) = .nil
  · exact .inl hnil
  · obtain ⟨k, hk⟩ := get_entry _ hnil
    exact .inr ⟨r, k, rfl, hk⟩

theorem acc_visits_nil : Acc (Visits h) .nil := by
  refine ⟨_, fun w hvisits => ?_⟩
  obtain ⟨r, _, _, _, _, hr, -⟩ := hvisits
  cases hr

/-- The walk through an acyclic value comes to an end. -/
theorem acc_visits (hacc : Acc (Contains h) v) : Acc (Visits h) v := by
  induction hacc with
  | intro v _ ih =>
      refine ⟨v, fun w hvisits => ?_⟩
      obtain ⟨r, before, after, n, t, rfl, hsplit, -⟩ := hvisits
      have hw : w ∈ elements h r := hsplit ▸ List.mem_append_right _ List.mem_cons_self
      obtain rfl | hw := element_contained hw
      · exact acc_visits_nil
      · exact ih w hw

/-- At some depth all elements are known. -/
theorem elements_depth (hacc : Acc (Contains h) (.table r)) :
    ∃ N, ∀ n, N ≤ n → ∀ w ∈ elements h r, typeOf h n w ≠ .depth := by
  have hends : ∀ w ∈ elements h r, True → ∃ n, typeOf h n w ≠ .depth := by
    intro w hw _
    refine typeOf_iff_acc.mpr ?_
    obtain rfl | hw := element_contained hw
    · exact acc_visits_nil
    · exact acc_visits (hacc.inv hw)
  obtain ⟨N, hN⟩ := exists_depth (elements h r) (fun _ => True) hends
  refine ⟨N, fun n hn w hw => ?_⟩
  rw [typeOf_stable hn (hN w hw trivial)]
  exact hN w hw trivial

theorem hasType_iff (hv : typeOf h n v ≠ .depth) : HasType h v t ↔ typeOf h n v = .of t := by
  constructor
  · rintro ⟨m, hm⟩
    rw [typeOf_unique hv (by rw [hm]; simp), hm]
  · exact fun ht => ⟨n, ht⟩

theorem checkTypes_common (hdepth : ∀ w ∈ elements h r, typeOf h n w ≠ .depth)
    (hne : elements h r ≠ []) :
    checkTypes (typeOf h n) (elements h r) = .yes t ↔ Common h (elements h r) t := by
  rw [checkTypes_iff typeOf_ne_tuple hne, Common]
  refine and_congr_right fun _ => and_congr ?_ ?_
  · refine exists_congr fun w => and_congr_right fun hw => ?_
    rw [hasType_iff (hdepth w hw)]
  · refine forall₂_congr fun w hw => exists_congr fun k => ?_
    rw [hasType_iff (hdepth w hw)]

theorem common_of_check (hcheck : checkTypes (typeOf h n) (elements h r) = .yes t)
    (hne : elements h r ≠ []) : Common h (elements h r) t := by
  obtain ⟨ht, ⟨w, hw, hwt⟩, hall⟩ := (checkTypes_iff typeOf_ne_tuple hne).mp hcheck
  refine ⟨ht, ⟨w, hw, n, hwt⟩, fun u hu => ?_⟩
  obtain ⟨k, hk, hunifies⟩ := hall u hu
  exact ⟨k, ⟨n, hk⟩, hunifies⟩

/-! ## What the elements become -/

variable (h) in
/-- The value `x` stands for `v` where a value of type `t` is expected. -/
inductive Stands : DiType → LuaValue → DiValue → Prop
  | boolean (b : Bool) : Stands .bool (.boolean b) (.bool b)
  | integer (m : Int64) : Stands .int (.integer m) (.int m)
  | float (bits : UInt64) : Stands .float (.float bits) (.float bits)
  | widened (m : Int64) : Stands .float (.integer m) (.float (doubleBits m.toInt))
  | string (s : String) : Stands .string (.string s) (.string s)
  | proxy (u : ℕ) : Stands .object (.userdata u) (.object (h.userdata u).object)
  | function (r : ℕ) : Stands .object (.function r) (.object (h.wrap (.function r)))
  | table (r : ℕ) : HasType h (.table r) .object →
      Stands .object (.table r) (.object (h.wrap (.table r)))
  | emptyObject (r : ℕ) : (h.tables r).entries = [] →
      Stands .emptyObject (.table r) (.emptyObject (h.wrap (.table r)))
  | empty (r : ℕ) : (h.tables r).entries = [] → Stands .array (.table r) (.array .any [])
  | array (r : ℕ) (t : DiType) (elems : List DiValue) : Keys h r elems.length →
      Common h (values h r elems.length) t →
      (∀ j x, elems[j]? = some x → Stands t (h.element r (j + 1)) x) →
      Stands .array (.table r) (.array t elems)

variable (h) in
/-- No table in the value is so large that it is cut off. -/
def Bounded (v : LuaValue) : Prop :=
  ∀ r, Relation.ReflTransGen (Contains h) (.table r) v → (h.tables r).entries.length < intMax

theorem Bounded.element (hbounded : Bounded h (.table r)) (hw : w ∈ elements h r) :
    Bounded h w := by
  intro r' hreach
  obtain rfl | hw := element_contained hw
  · obtain hnil | ⟨u, _, r'', k, hnil, -⟩ := hreach.cases_tail
    · cases hnil
    · cases hnil
  · exact hbounded r' (hreach.tail hw)

theorem typeOf_nil {k : DiType} (hv : typeOf h n .nil = .of k) : k = .nil := by
  cases n with
  | zero => cases hv
  | succ n =>
      cases hv
      rfl

/-- The elements of an array are not nil, so it has no other keys than theirs. -/
theorem keys_of_check (hcheck : checkTypes (typeOf h n) (elements h r) = .yes elemt)
    (hne : elements h r ≠ []) (hsize : (h.tables r).entries.length < intMax) :
    Keys h r (h.tables r).entries.length := by
  obtain ⟨helemt, hall⟩ := checkTypes_yes typeOf_ne_tuple hcheck hne
  refine keys_of_values rfl hsize.le fun w hw => ?_
  rw [← elements_eq_values hsize] at hw
  obtain ⟨k, hk, hadmits⟩ := hall w hw
  rintro rfl
  exact hadmits.ne_nil helemt (typeOf_nil hk)

theorem elementOf_stands {k : DiType} {value : DiType → LuaValue → DiValue}
    (hw : typeOf h n w = .of k) (hadmits : Admits elemt k)
    (hvalue : Stands h (under elemt k) w (value elemt w)) :
    Stands h elemt w (elementOf value elemt w) := by
  by_cases hunder : under elemt k = elemt
  · rw [elementOf_eq value hw hunder]
    rwa [hunder] at hvalue
  · obtain ⟨rfl, rfl⟩ := hadmits.resolve_left hunder
    obtain ⟨m, rfl, -⟩ := typeOf_int hw
    exact .widened m

theorem elements_stand (hcheck : checkTypes (typeOf h n) (elements h r) = .yes elemt)
    (hne : elements h r ≠ [])
    (hvalue : ∀ w ∈ elements h r, ∀ k, typeOf h n w = .of k → k ≠ .nil →
      Stands h (under elemt k) w (valueOf h n elemt w)) {j : ℕ} {x : DiValue}
    (hx : ((elements h r).map (elementOf (valueOf h n) elemt))[j]? = some x) :
    Stands h elemt (h.element r (j + 1)) x := by
  obtain ⟨helemt, hall⟩ := checkTypes_yes typeOf_ne_tuple hcheck hne
  obtain ⟨w, hj, rfl⟩ := Option.map_eq_some_iff.mp (List.getElem?_map ▸ hx)
  have hw := List.mem_of_getElem? hj
  obtain rfl : h.element r (j + 1) = w := by
    obtain ⟨hlt, hj⟩ := List.getElem?_eq_some_iff.mp hj
    simpa only [elements, List.getElem_map, List.getElem_range] using hj
  obtain ⟨k, hk, hadmits⟩ := hall _ hw
  exact elementOf_stands hk hadmits (hvalue _ hw k hk (hadmits.ne_nil helemt))

theorem elements_eq_nil_iff : elements h r = [] ↔ (h.tables r).entries = [] := by
  rw [← List.length_eq_zero_iff, elements_length, ← List.length_eq_zero_iff]
  have hmax : 0 < intMax - 1 := by decide
  omega

/-- The value of an object, of an empty table or of an array. -/
theorem valueOf_stands (hv : typeOf h n v = .of t) (ht : t ≠ .nil) (hbounded : Bounded h v)
    (hint : DiType) : Stands h (under hint t) v (valueOf h n hint v) := by
  induction n generalizing v t hint with
  | zero => cases hv
  | succ n ih =>
      cases v with
      | table r =>
          cases hcheck : checkTypes (typeOf h n) (elements h r) with
          | depth | bare =>
              rw [typeOf_table, hcheck] at hv
              cases hv
          | no =>
              rw [typeOf_table_of_no hcheck] at hv
              cases hv
              rw [under_plain (show DiType.object ≠ .emptyObject by simp), valueOf_table, hcheck]
              exact .table r ⟨n + 1, typeOf_table_of_no hcheck⟩
          | yes elemt =>
              cases hmetatable : (h.tables r).metatable with
              | some m =>
                  have htype := typeOf_table_of_yes hcheck
                  rw [hmetatable] at htype
                  rw [htype] at hv
                  cases hv
                  rw [valueOf_table, hcheck, hmetatable]
                  exact .table r ⟨n + 1, htype⟩
              | none =>
                  by_cases hnil : elements h r = []
                  · rw [typeOf_empty hcheck hmetatable hnil] at hv
                    cases hv
                    rw [valueOf_empty hcheck hmetatable hnil]
                    by_cases hhint : hint = .array
                    · rw [if_pos hhint, hhint]
                      exact .empty r (elements_eq_nil_iff.mp hnil)
                    · rw [if_neg hhint, under_of_ne hhint]
                      exact .emptyObject r (elements_eq_nil_iff.mp hnil)
                  · rw [typeOf_array hcheck hmetatable hnil] at hv
                    cases hv
                    have hsize := hbounded r .refl
                    rw [valueOf_array hcheck hmetatable hnil, under_plain (by simp)]
                    have hlength : ((elements h r).map (elementOf (valueOf h n) elemt)).length
                        = (h.tables r).entries.length := by
                      rw [List.length_map, elements_length, min_eq_left (by omega)]
                    refine .array r elemt _ ?_ ?_ fun j x hx => ?_
                    · rw [hlength]
                      exact keys_of_check hcheck hnil hsize
                    · rw [hlength, ← elements_eq_values hsize]
                      exact common_of_check hcheck hnil
                    · exact elements_stand hcheck hnil
                        (fun w hw k hk hne => ih hk hne (hbounded.element hw) elemt) hx
      | userdata u =>
          rw [typeOf_userdata] at hv
          split at hv
          · cases hv
          · split_ifs at hv
            cases hv
            rw [under_plain (by simp)]
            exact .proxy u
      | nil =>
          cases hv
          exact absurd rfl ht
      | boolean b | integer m | float bits | string s | function r =>
          cases hv
          rw [under_plain (by simp)]
          constructor
      | lightUserdata p | thread r => cases hv

/-! ## The detection of arrays -/

variable {i : ℤ} {s : Stack}

/-- What is found when the walk through the elements comes to an end. -/
theorem diLuaCheckarray_some_iff (hdepth : ∀ w ∈ elements h r, typeOf h n w ≠ .depth)
    (hsize : (h.tables r).entries.length < intMax) (hk : 0 < k) :
    (k = (elements h r).length ∧ checkTypes (typeOf h n) (elements h r) = .yes t)
      ↔ Keys h r k ∧ Common h (values h r k) t := by
  have hlength : (elements h r).length = (h.tables r).entries.length := by
    rw [elements_length, min_eq_left (by omega)]
  have helements := elements_eq_values hsize
  constructor
  · rintro ⟨rfl, hcheck⟩
    have hne : elements h r ≠ [] := List.length_pos_iff.mp hk
    rw [hlength, ← helements]
    exact ⟨keys_of_check hcheck hne hsize, (checkTypes_common hdepth hne).mp hcheck⟩
  · rintro ⟨hkeys, hcommon⟩
    have hentries := hkeys.length (hkeys.le hsize)
    rw [← hentries, ← helements] at hcommon
    have hne : elements h r ≠ [] := by
      rw [← List.length_pos_iff, hlength, hentries]
      exact hk
    exact ⟨by rw [hlength, hentries], (checkTypes_common hdepth hne).mpr hcommon⟩

/-- The table `{2^53 + 1, 0.5}`. -/
def roundedTable : Lua where
  tables _ := {
    entries := [(.integer 1, .integer 9007199254740993), (.integer 2, .float 0x3fe0000000000000)]
    nodup := by decide
    present := by decide }
  userdata _ := {metatable := none, object := 0}
  cached _ := none
  wrap _ := 0
  proxied := selfTable.proxied

theorem checkTypes_roundedTable :
    checkTypes (typeOf roundedTable 1) (elements roundedTable 0) = .yes .float := rfl

end Deai.LuaArrays
