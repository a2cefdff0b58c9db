import Deai.LuaWalk

/-!
# The conversion on the stack

The functions on the stack find what the walk finds. Where they come to a userdata without a
metatable, they take two elements too many off the stack.
-/
namespace Deai.LuaReading
open Fallible Value Numbers LuaStack LuaConversion LuaWalk

variable (h : Lua)

/-- What a table turns out to be, on a stack. -/
def Finds (r : ℕ) (s : Stack) (check : Check)
    (result : Except Stop (Option (ℕ × DiType) × Stack)) : Prop :=
  match check with
  | .depth => result = .error .depth
  | .bare => ∀ a s', result = .ok (a, s') → s'.length + 2 ≤ s.length
  | .no => result = .ok (none, s)
  | .yes elemt => result = .ok (some ((elements h r).length, elemt), s)

/-- What a value is converted to, on a stack. -/
def Gives (n : ℕ) (want : Bool) (hint : DiType) (v : LuaValue) (s : Stack)
    (result : Except Stop (Converted × Stack)) : Prop :=
  match typeOf h n v with
  | .depth => result = .error .depth
  | .bare => ∀ c s', result = .ok (c, s') → s'.length + 2 ≤ s.length
  | _ => result = .ok (converted h n want hint v, s)

def Reads (n : ℕ) (convert : Convert) : Prop :=
  ∀ want i hint s v, index i s = some v → Gives h n want hint v s (convert want i hint s)

variable {h} {n p r left : ℕ} {convert : Convert} {s s' : Stack} {v : LuaValue}
  {elemt t hint : DiType} {want : Bool} {result : Except Stop (Converted × Stack)}
  {c : Converted}

/-! ## One value -/

theorem Gives.depth (hgives : Gives h n want hint v s result) (hv : typeOf h n v = .depth) :
    result = .error .depth := by
  rwa [Gives, hv] at hgives

theorem Gives.bare (hgives : Gives h n want hint v s result) (hv : typeOf h n v = .bare)
    (hresult : result = .ok (c, s')) : s'.length + 2 ≤ s.length := by
  rw [Gives, hv] at hgives
  exact hgives c s' hresult

theorem Gives.of_type (hgives : Gives h n want hint v s result) (hv : typeOf h n v = .of t) :
    result = .ok (converted h n want hint v, s) := by
  rwa [Gives, hv] at hgives

theorem Gives.unsupported (hgives : Gives h n want hint v s result)
    (hv : typeOf h n v = .unsupported) : result = .ok (converted h n want hint v, s) := by
  rwa [Gives, hv] at hgives

/-- The conversion never leaves more on the stack than there was. -/
theorem Gives.length (hgives : Gives h n want hint v s result) (hresult : result = .ok (c, s')) :
    s'.length ≤ s.length := by
  cases hv : typeOf h n v with
  | depth =>
      rw [hgives.depth hv] at hresult
      cases hresult
  | bare =>
      have hlength := hgives.bare hv hresult
      omega
  | unsupported =>
      rw [hgives.unsupported hv] at hresult
      cases hresult
      exact le_rfl
  | of t =>
      rw [hgives.of_type hv] at hresult
      cases hresult
      exact le_rfl

theorem converted_type (n : ℕ) (want : Bool) (hint : DiType) (v : LuaValue) :
    (converted h n want hint v).type = under hint (typeOf h n v).type := by
  rw [converted]
  split
  · rename_i hv
    rw [hv]
    rfl
  · cases hv : typeOf h n v with
    | of t => simp_all
    | depth | bare | unsupported => rw [under, if_neg (by simp [Walk.type])]; rfl

theorem converted_value (hv : typeOf h n v = .of t) (hint : DiType) :
    (converted h n true hint v).value = valueOf h n hint v := by
  simp only [converted, hv, if_true]

/-! ## The scan of a table -/

theorem elements_length (r : ℕ) :
    (elements h r).length = min (h.tables r).entries.length (intMax - 1) := by
  rw [elements, List.length_map, List.length_range]

theorem elements_drop {i : ℕ} (hi : i < min (h.tables r).entries.length (intMax - 1)) :
    (elements h r).drop i = h.element r (i + 1) :: (elements h r).drop (i + 1) := by
  rw [List.drop_eq_getElem_cons (by rwa [elements_length])]
  simp only [elements, List.getElem_map, List.getElem_range]

theorem elements_cons {e : LuaValue × LuaValue} {rest : List (LuaValue × LuaValue)}
    (hentries : (h.tables r).entries = e :: rest) :
    elements h r = h.element r 1 :: (elements h r).drop 1 := by
  have hdrop := elements_drop (h := h) (r := r) (i := 0)
    (by rw [hentries, List.length_cons, intMax]; omega)
  rwa [List.drop_zero] at hdrop

/-- An element that sinks the stack sinks it for the whole scan. -/
theorem scan_sinks (hreads : Reads h n convert) {a : Option (ℕ × DiType)}
    (hscan : scan h convert p left elemt s = .ok (a, s')) : s'.length + 1 ≤ s.length := by
  induction left generalizing elemt s with
  | zero => cases hscan
  | succ left ih =>
      simp only [scan] at hscan
      obtain ⟨⟨more, s₁⟩, hnext, hscan⟩ := bind_eq_ok hscan
      obtain ⟨rfl, hnext⟩ | ⟨rfl, hnext⟩ := luaNext_length h hnext
      · simp only [if_true] at hscan
        obtain ⟨s₂, hget, hscan⟩ := bind_eq_ok hscan
        obtain ⟨w, rfl⟩ := luaRawgeti_push h hget
        obtain ⟨⟨c, s₃⟩, hconvert, hscan⟩ := bind_eq_ok hscan
        have hlength := (hreads true (-1) elemt (w :: s₁) w index_top).length hconvert
        obtain ⟨s₄, hpop : pop 2 s₃ = .ok s₄, hscan⟩ := bind_eq_ok hscan
        have hpop := pop_length hpop
        rw [List.length_cons] at hlength
        split at hscan
        · obtain ⟨s₅, hpop' : pop 1 s₄ = .ok s₅, hscan⟩ := bind_eq_ok hscan
          have hpop' := pop_length hpop'
          cases hscan
          omega
        · split_ifs at hscan
          · obtain ⟨s₅, hpop' : pop 1 s₄ = .ok s₅, hscan⟩ := bind_eq_ok hscan
            have hpop' := pop_length hpop'
            cases hscan
            omega
          · have := ih hscan
            omega
      · simp only [Bool.false_eq_true, if_false] at hscan
        cases hscan
        omega

theorem pop_one (v : LuaValue) (s : Stack) : pop 1 (v :: s) = .ok s := by
  rw [pop, if_pos (by simp)]
  rfl

theorem pop_two (v w : LuaValue) (s : Stack) : pop 2 (v :: w :: s) = .ok s := by
  rw [pop, if_pos (by simp)]
  rfl

theorem Gives.eq (hgives : Gives h n want hint v s result) (hdepth : typeOf h n v ≠ .depth)
    (hbare : typeOf h n v ≠ .bare) : result = .ok (converted h n want hint v, s) := by
  cases hv : typeOf h n v with
  | depth => exact absurd hv hdepth
  | bare => exact absurd hv hbare
  | unsupported => exact hgives.unsupported hv
  | of t => exact hgives.of_type hv

section Scan

variable (hslot : slot p s = some (.table r)) {before rest : List (LuaValue × LuaValue)}
  {e e' : LuaValue × LuaValue}

include hslot

/-- The scan comes to the next element. -/
theorem scan_next (hsplit : (h.tables r).entries = before ++ e :: e' :: rest)
    (hleft : left + 1 + before.length + 2 = intMax) (convert : Convert) (elemt : DiType) :
    scan h convert p (left + 1) elemt (e.1 :: s) =
      (convert true (-1) elemt (h.element r (before.length + 2) :: e'.2 :: e'.1 :: s) >>= fun x =>
        pop 2 x.2 >>= fun s =>
          match joinType elemt x.1.type with
          | none => do
              let s ← pop 1 s
              .ok (none, s)
          | some elemt =>
              if left = 0 then do
                let s ← pop 1 s
                .ok (some (before.length + 2, elemt), s)
              else scan h convert p left elemt s) := by
  have hi : intMax - (left + 1) = before.length + 2 := by omega
  have hget : luaRawgeti h p (before.length + 2) (e'.2 :: e'.1 :: s)
      = .ok (h.element r (before.length + 2) :: e'.2 :: e'.1 :: s) := by
    refine luaRawgeti_eq h ?_ _
    rw [index_cast]
    exact slot_push (slot_push hslot _) _
  rw [scan, luaNext_eq h hslot hsplit]
  simp only [List.head?_cons, ok_bind, if_true]
  rw [hi, hget]
  rfl

theorem scan_end (hsplit : (h.tables r).entries = before ++ [e])
    (hleft : left + 1 + before.length + 2 = intMax) (convert : Convert) (elemt : DiType) :
    scan h convert p (left + 1) elemt (e.1 :: s)
      = .ok (some (before.length + 1, elemt), s) := by
  have hi : intMax - (left + 1) - 1 = before.length + 1 := by omega
  simp only [scan, luaNext_eq h hslot hsplit, List.head?_nil, ok_bind, Bool.false_eq_true,
    if_false, hi]

/-- After an element that takes too much off the stack the scan gives up, or it fails. -/
theorem scan_bare (hreads : Reads h n convert)
    (hsplit : (h.tables r).entries = before ++ e :: e' :: rest)
    (hleft : left + 1 + before.length + 2 = intMax)
    (hbare : typeOf h n (h.element r (before.length + 2)) = .bare)
    {a : Option (ℕ × DiType)} (hscan : scan h convert p (left + 1) elemt (e.1 :: s) = .ok (a, s')) :
    s'.length + 2 ≤ s.length := by
  rw [scan_next hslot hsplit hleft] at hscan
  obtain ⟨⟨c, s₁⟩, hconvert, hscan⟩ := bind_eq_ok hscan
  have hlength₁ := (hreads true (-1) elemt _ _ index_top).bare hbare hconvert
  obtain ⟨s₂, hpop : pop 2 s₁ = .ok s₂, hscan⟩ := bind_eq_ok hscan
  have hlength₂ := pop_length hpop
  simp only [List.length_cons] at hlength₁
  split at hscan
  · obtain ⟨s₃, hpop : pop 1 s₂ = .ok s₃, hscan⟩ := bind_eq_ok hscan
    have hlength₃ := pop_length hpop
    cases hscan
    omega
  · split_ifs at hscan
    · obtain ⟨s₃, hpop : pop 1 s₂ = .ok s₃, hscan⟩ := bind_eq_ok hscan
      have hlength₃ := pop_length hpop
      cases hscan
      omega
    · have hlength₃ := scan_sinks hreads hscan
      omega

theorem scan_typed (hreads : Reads h n convert)
    (hsplit : (h.tables r).entries = before ++ e :: e' :: rest)
    (hleft : left + 1 + before.length + 2 = intMax)
    {w : LuaValue} (hw : h.element r (before.length + 2) = w)
    (hdepth : typeOf h n w ≠ .depth) (hbare : typeOf h n w ≠ .bare) :
    scan h convert p (left + 1) elemt (e.1 :: s) =
      match joinType elemt (under elemt (typeOf h n w).type) with
      | none => .ok (none, s)
      | some elemt =>
          if left = 0 then .ok (some (before.length + 2, elemt), s)
          else scan h convert p left elemt (e'.1 :: s) := by
  rw [scan_next hslot hsplit hleft, hw,
    (hreads true (-1) elemt _ _ index_top).eq hdepth hbare]
  simp only [ok_bind, pop_two, pop_one, converted_type]

/-- From the second element on. -/
theorem scan_finds (hreads : Reads h n convert)
    (hsplit : (h.tables r).entries = before ++ e :: rest) (hpos : 0 < left)
    (hleft : left + before.length + 2 = intMax) :
    Finds h r s (scanTypes (typeOf h n) elemt ((elements h r).drop (before.length + 1)))
      (scan h convert p left elemt (e.1 :: s)) := by
  induction left generalizing elemt before e rest with
  | zero => exact absurd hpos (lt_irrefl 0)
  | succ left ih =>
      have hlength := congrArg List.length hsplit
      cases rest with
      | nil =>
          have hall : (elements h r).length = before.length + 1 := by
            rw [elements_length, hlength]
            simp only [List.length_append, List.length_cons, List.length_nil]
            omega
          rw [scan_end hslot hsplit hleft, List.drop_eq_nil_of_le hall.le]
          simp only [scanTypes, Finds, hall]
      | cons e' rest =>
          simp only [List.length_append, List.length_cons] at hlength
          rw [elements_drop (by omega)]
          generalize hw : h.element r (before.length + 1 + 1) = w
          by_cases hdepth : typeOf h n w = .depth
          · rw [scan_next hslot hsplit hleft, hw, scanTypes, hdepth,
              (hreads true (-1) elemt _ _ index_top).depth hdepth]
            rfl
          by_cases hbare : typeOf h n w = .bare
          · rw [scanTypes, hbare]
            exact fun a s' => scan_bare hslot hreads hsplit hleft (hw ▸ hbare)
          rw [scan_typed hslot hreads hsplit hleft hw hdepth hbare,
            scanTypes_typed hdepth hbare]
          cases joinType elemt (under elemt (typeOf h n w).type) with
          | none => rfl
          | some elemt =>
              simp only
              split_ifs with hzero
              · -- the scan stops before a table is too large
                have hall : (elements h r).length = before.length + 2 := by
                  rw [elements_length]
                  omega
                rw [List.drop_eq_nil_of_le hall.le]
                simp only [scanTypes, Finds, hall]
              · have hsplit' : (h.tables r).entries = (before ++ [e]) ++ e' :: rest := by
                  rw [hsplit, List.append_assoc]
                  rfl
                have hbefore : (before ++ [e]).length = before.length + 1 := by
                  rw [List.length_append, List.length_singleton]
                rw [← hbefore]
                exact ih hsplit' (Nat.pos_of_ne_zero hzero) (by omega)

end Scan

/-! ## The detection of arrays -/

section Checkarray

variable {i : ℤ} (hindex : index i s = some (.table r))

include hindex

theorem diLuaCheckarray_nil (hentries : (h.tables r).entries = []) (convert : Convert) :
    diLuaCheckarray h convert i s = .ok (some (0, .any), s) := by
  simp only [diLuaCheckarray, luaNext_nil h hindex, hentries, List.head?_nil, ok_bind,
    Bool.false_eq_true, if_false]

theorem diLuaCheckarray_cons {e : LuaValue × LuaValue} {rest : List (LuaValue × LuaValue)}
    (hentries : (h.tables r).entries = e :: rest) (convert : Convert) :
    diLuaCheckarray h convert i s =
      (convert true (-1) .any (h.element r 1 :: e.2 :: e.1 :: s) >>= fun x =>
        pop 2 x.2 >>= fun s₁ =>
          if x.1.type = .nil then do
            let s₁ ← pop 1 s₁
            .ok (none, s₁)
          else scan h convert (absolute i s) (intMax - 2) x.1.type s₁) := by
  have hget : luaRawgeti h (absolute i s) 1 (e.2 :: e.1 :: s)
      = .ok (h.element r 1 :: e.2 :: e.1 :: s) := by
    refine luaRawgeti_eq h ?_ _
    rw [index_cast]
    exact slot_push (slot_push hindex _) _
  simp only [diLuaCheckarray, luaNext_nil h hindex, hentries, List.head?_cons, ok_bind, if_true,
    hget]

theorem diLuaCheckarray_finds (hreads : Reads h n convert) :
    Finds h r s (checkTypes (typeOf h n) (elements h r)) (diLuaCheckarray h convert i s) := by
  cases hentries : (h.tables r).entries with
  | nil =>
      have hall : elements h r = [] := by
        rw [← List.length_eq_zero_iff, elements_length, hentries]
        rfl
      rw [diLuaCheckarray_nil hindex hentries, hall]
      simp only [checkTypes, Finds, hall, List.length_nil]
  | cons e rest =>
      rw [diLuaCheckarray_cons hindex hentries, elements_cons hentries]
      have hgives := hreads true (-1) .any _ _
        (index_top (s := e.2 :: e.1 :: s) (v := h.element r 1))
      generalize h.element r 1 = w at hgives
      by_cases hdepth : typeOf h n w = .depth
      · rw [hgives.depth hdepth, checkTypes, hdepth]
        rfl
      by_cases hbare : typeOf h n w = .bare
      · rw [checkTypes, hbare]
        intro a s' hcheck
        obtain ⟨⟨c, s₁⟩, hconvert, hcheck⟩ := bind_eq_ok hcheck
        have hlength₁ := hgives.bare hbare hconvert
        obtain ⟨s₂, hpop : pop 2 s₁ = .ok s₂, hcheck⟩ := bind_eq_ok hcheck
        have hlength₂ := pop_length hpop
        simp only [List.length_cons] at hlength₁
        split_ifs at hcheck
        · obtain ⟨s₃, hpop : pop 1 s₂ = .ok s₃, hcheck⟩ := bind_eq_ok hcheck
          have hlength₃ := pop_length hpop
          cases hcheck
          omega
        · have hlength₃ := scan_sinks hreads hcheck
          omega
      · rw [hgives.eq hdepth hbare, checkTypes_typed hdepth hbare]
        simp only [ok_bind, pop_two, pop_one, converted_type, under_any]
        split_ifs with hnil
        · rfl
        · have hsplit : (h.tables r).entries = [] ++ e :: rest := hentries
          exact scan_finds hindex hreads hsplit (by decide) (by decide)

/-! ## The elements of an array -/

theorem convertElements_eq (hreads : Reads h n convert) {k : ℕ}
    (hlength : (elements h r).length = k + left)
    (hadmits : ∀ w ∈ (elements h r).drop k, ∃ t, typeOf h n w = .of t ∧ Admits elemt t) :
    convertElements h convert i elemt left (k + 1) s
      = .ok (((elements h r).drop k).map (elementOf (valueOf h n) elemt), s) := by
  induction left generalizing k with
  | zero =>
      rw [convertElements, List.drop_eq_nil_of_le (by omega)]
      rfl
  | succ left ih =>
      have hlt : k < min (h.tables r).entries.length (intMax - 1) := by
        rw [← elements_length]
        omega
      rw [elements_drop hlt] at hadmits ⊢
      obtain ⟨t, htype, ht⟩ := hadmits _ List.mem_cons_self
      have hrest := ih (k := k + 1) (by omega) fun w hw => hadmits w (List.mem_cons_of_mem _ hw)
      rw [convertElements, luaRawgeti_eq h hindex, ok_bind,
        (hreads true (-1) elemt _ _ index_top).of_type htype, ok_bind]
      simp only [pop_one, ok_bind, hrest, List.map_cons, converted_type, htype, Walk.type]
      by_cases hunder : under elemt t = elemt
      · rw [if_pos hunder, converted_value htype, elementOf_eq _ htype hunder]
      · -- an integer in an array of floats
        obtain ⟨rfl, rfl⟩ := ht.resolve_left hunder
        obtain ⟨m, hw, hvalue⟩ := typeOf_int htype
        rw [if_neg hunder, converted_value htype, hvalue, hw]
        rfl

theorem diLuaTableToArray_eq (hreads : Reads h n convert)
    (hcheck : checkTypes (typeOf h n) (elements h r) = .yes elemt) :
    diLuaTableToArray h convert i (elements h r).length elemt s
      = .ok (.array elemt ((elements h r).map (elementOf (valueOf h n) elemt)), s) := by
  rw [diLuaTableToArray]
  split_ifs with hzero hsize
  · rw [List.length_eq_zero_iff.mp hzero]
    rfl
  · have hne : elements h r ≠ [] := fun hnil => hzero (by rw [hnil]; rfl)
    obtain ⟨ht, hall⟩ := checkTypes_yes typeOf_ne_tuple hcheck hne
    obtain ⟨k, hk, hadmits⟩ := hall _ (List.head_mem hne)
    exact absurd hsize (hadmits.sized (typeOf_mem hk) ht)
  · have hne : elements h r ≠ [] := fun hnil => hzero (by rw [hnil]; rfl)
    have hall := (checkTypes_yes typeOf_ne_tuple hcheck hne).2
    have helements := convertElements_eq hindex hreads (k := 0) (by rw [Nat.zero_add])
      (by rwa [List.drop_zero])
    rw [List.drop_zero] at helements
    rw [helements]
    rfl

/-! ## Values -/

theorem luaTypeToDiObject_eq : luaTypeToDiObject h i s = .ok (h.wrap (.table r), s) := by
  simp only [luaTypeToDiObject, hindex, pop_two, pop_one, ok_bind]
  split_ifs <;> rfl

theorem tableObject_eq (want : Bool) (t : DiType) (value : ObjRef → DiValue) :
    tableObject h want i t value s
      = .ok ({rc := 0, type := t, value := if want then value (h.wrap (.table r)) else .nil},
        s) := by
  rw [tableObject, luaTypeToDiObject_eq hindex, ok_bind]
  split_ifs <;> rfl

theorem convertTable_eq (convert : Convert) :
    convertTable h convert want i hint s = (do
      let (array, s) ← diLuaCheckarray h convert i s
      match array, (h.tables r).metatable.isSome with
      | some (nelem, elemt), false =>
          if nelem = 0 ∧ hint ≠ .array then
            if elemt ≠ .any then .error .assertion
            else tableObject h want i .emptyObject .emptyObject s
          else if want then do
            let (value, s) ← diLuaTableToArray h convert i nelem elemt s
            .ok ({rc := 0, type := .array, value}, s)
          else .ok ({rc := 0, type := .array}, s)
      | _, _ => tableObject h want i .object .object s) := by
  simp only [convertTable, luaGetmetatable, hindex]
  cases (h.tables r).metatable with
  | none => rfl
  | some m => rfl

end Checkarray

section Sinks

variable {i : ℤ}

theorem luaTypeToDiObject_length {o : ObjRef} (hobject : luaTypeToDiObject h i s = .ok (o, s')) :
    s' = s := by
  simp only [luaTypeToDiObject] at hobject
  split at hobject
  · simp only [pop_two, pop_one, ok_bind] at hobject
    split_ifs at hobject <;> cases hobject <;> rfl
  · simp only [pop_two, pop_one, ok_bind] at hobject
    split_ifs at hobject <;> cases hobject <;> rfl
  · cases hobject

theorem tableObject_length {value : ObjRef → DiValue}
    (hobject : tableObject h want i t value s = .ok (c, s')) : s'.length ≤ s.length := by
  rw [tableObject] at hobject
  split_ifs at hobject
  · obtain ⟨⟨o, s₁⟩, hwrap, hobject⟩ := bind_eq_ok hobject
    cases hobject
    rw [luaTypeToDiObject_length hwrap]
  · cases hobject
    exact le_rfl

theorem convertElements_length (hreads : Reads h n convert) {k : ℕ} {elems : List DiValue}
    (helements : convertElements h convert i elemt left k s = .ok (elems, s')) :
    s'.length ≤ s.length := by
  induction left generalizing k s elems with
  | zero =>
      cases helements
      exact le_rfl
  | succ left ih =>
      rw [convertElements] at helements
      obtain ⟨s₁, hget, helements⟩ := bind_eq_ok helements
      obtain ⟨w, rfl⟩ := luaRawgeti_push h hget
      obtain ⟨⟨c, s₂⟩, hconvert, helements⟩ := bind_eq_ok helements
      have hlength := (hreads true (-1) elemt _ w index_top).length hconvert
      obtain ⟨s₃, hpop : pop 1 s₂ = .ok s₃, helements⟩ := bind_eq_ok helements
      have hpop := pop_length hpop
      rw [List.length_cons] at hlength
      split_ifs at helements
      · obtain ⟨⟨rest, s₄⟩, hrest, helements⟩ := bind_eq_ok helements
        cases helements
        have := ih hrest
        omega
      · split at helements
        · obtain ⟨⟨rest, s₄⟩, hrest, helements⟩ := bind_eq_ok helements
          cases helements
          have := ih hrest
          omega
        · cases helements

theorem diLuaTableToArray_length (hreads : Reads h n convert) {nelem : ℕ} {a : DiValue}
    (harray : diLuaTableToArray h convert i nelem elemt s = .ok (a, s')) :
    s'.length ≤ s.length := by
  rw [diLuaTableToArray] at harray
  split_ifs at harray
  · cases harray
    exact le_rfl
  · obtain ⟨⟨elems, s₁⟩, helements, harray⟩ := bind_eq_ok harray
    cases harray
    exact convertElements_length hreads helements

variable (hindex : index i s = some (.table r))

include hindex

theorem convertTable_bare (hreads : Reads h n convert)
    (hcheck : checkTypes (typeOf h n) (elements h r) = .bare)
    (hconvert : convertTable h convert want i hint s = .ok (c, s')) :
    s'.length + 2 ≤ s.length := by
  have hfinds := diLuaCheckarray_finds hindex hreads
  rw [hcheck] at hfinds
  rw [convertTable_eq hindex] at hconvert
  obtain ⟨⟨array, s₁⟩, harray, hconvert⟩ := bind_eq_ok hconvert
  have hlength := hfinds _ _ harray
  refine le_trans (Nat.add_le_add_right ?_ 2) hlength
  rcases array with - | ⟨nelem, elemt⟩
  · exact tableObject_length hconvert
  · cases hmetatable : (h.tables r).metatable.isSome with
    | true =>
        simp only [hmetatable] at hconvert
        exact tableObject_length hconvert
    | false =>
        simp only [hmetatable] at hconvert
        split_ifs at hconvert
        · exact tableObject_length hconvert
        · obtain ⟨⟨a, s₂⟩, ha, hconvert⟩ := bind_eq_ok hconvert
          cases hconvert
          exact diLuaTableToArray_length hreads ha
        · cases hconvert
          exact le_rfl

end Sinks

/-! ## The conversion -/

theorem typeOf_table_of_no (hcheck : checkTypes (typeOf h n) (elements h r) = .no) :
    typeOf h (n + 1) (.table r) = .of .object := by
  rw [typeOf_table, hcheck]

theorem typeOf_table_of_yes (hcheck : checkTypes (typeOf h n) (elements h r) = .yes elemt) :
    typeOf h (n + 1) (.table r) = .of (if (h.tables r).metatable.isSome then .object
      else if elements h r = [] then .emptyObject else .array) := by
  rw [typeOf_table, hcheck]
  dsimp only
  split_ifs <;> rfl

section Plain

variable (hcheck : checkTypes (typeOf h n) (elements h r) = .yes elemt)
  (hmetatable : (h.tables r).metatable = none)

include hcheck hmetatable

theorem typeOf_empty (hnil : elements h r = []) :
    typeOf h (n + 1) (.table r) = .of .emptyObject := by
  rw [typeOf_table_of_yes hcheck, hmetatable, if_neg (by simp), if_pos hnil]

theorem typeOf_array (hne : elements h r ≠ []) : typeOf h (n + 1) (.table r) = .of .array := by
  rw [typeOf_table_of_yes hcheck, hmetatable, if_neg (by simp), if_neg hne]

theorem valueOf_empty (hnil : elements h r = []) (hint : DiType) :
    valueOf h (n + 1) hint (.table r)
      = if hint = .array then .array .any [] else .emptyObject (h.wrap (.table r)) := by
  rw [valueOf_table, hcheck, hmetatable]
  exact if_pos hnil

theorem valueOf_array (hne : elements h r ≠ []) (hint : DiType) :
    valueOf h (n + 1) hint (.table r)
      = .array elemt ((elements h r).map (elementOf (valueOf h n) elemt)) := by
  rw [valueOf_table, hcheck, hmetatable]
  exact if_neg hne

end Plain

theorem convertTable_array {i : ℤ} (hindex : index i s = some (.table r))
    (hreads : Reads h n convert)
    (hcheck : checkTypes (typeOf h n) (elements h r) = .yes elemt) :
    Gives h (n + 1) want hint (.table r) s
      (match some ((elements h r).length, elemt), (h.tables r).metatable.isSome with
      | some (nelem, elemt), false =>
          if nelem = 0 ∧ hint ≠ .array then
            if elemt ≠ .any then .error .assertion
            else tableObject h want i .emptyObject .emptyObject s
          else if want then do
            let (value, s) ← diLuaTableToArray h convert i nelem elemt s
            .ok ({rc := 0, type := .array, value}, s)
          else .ok ({rc := 0, type := .array}, s)
      | _, _ => tableObject h want i .object .object s) := by
  cases hmetatable : (h.tables r).metatable with
  | some m =>
      have htype : typeOf h (n + 1) (.table r) = .of .object := by
        rw [typeOf_table_of_yes hcheck, hmetatable]
        rfl
      have hunder := under_plain (show DiType.object ≠ .emptyObject by simp) hint
      simp only [Gives, converted, htype, Option.isSome_some, tableObject_eq hindex, hunder,
        valueOf_table, hcheck, hmetatable]
  | none =>
      have harray := diLuaTableToArray_eq hindex hreads hcheck
      simp only [Option.isSome_none]
      by_cases hnil : elements h r = []
      · have hvalue := valueOf_empty hcheck hmetatable hnil hint
        have htype := typeOf_empty hcheck hmetatable hnil
        rw [hnil] at hcheck harray
        obtain rfl : elemt = .any := by
          cases hcheck
          rfl
        simp only [Gives, converted, htype, hvalue, hnil]
        by_cases hhint : hint = .array
        · rw [if_neg (by simp [hhint]), if_pos hhint, harray, hhint]
          cases want <;> rfl
        · have hunder := under_of_ne hhint .emptyObject
          rw [if_pos ⟨rfl, hhint⟩, if_neg (not_not.mpr rfl), if_neg hhint, hunder,
            tableObject_eq hindex]
      · have hvalue := valueOf_array hcheck hmetatable hnil hint
        have htype := typeOf_array hcheck hmetatable hnil
        have hunder := under_plain (show DiType.array ≠ .emptyObject by simp) hint
        simp only [Gives, converted, htype, hvalue, hunder]
        rw [if_neg (by simp [hnil]), harray]
        cases want <;> rfl

theorem convertTable_gives (hreads : Reads h n convert) {i : ℤ}
    (hindex : index i s = some (.table r)) :
    Gives h (n + 1) want hint (.table r) s (convertTable h convert want i hint s) := by
  have hfinds := diLuaCheckarray_finds hindex hreads
  cases hcheck : checkTypes (typeOf h n) (elements h r) with
  | depth =>
      rw [hcheck] at hfinds
      simp only [Gives, typeOf_table, hcheck, convertTable_eq hindex]
      rw [hfinds]
      rfl
  | bare =>
      simp only [Gives, typeOf_table, hcheck]
      exact fun c s' => convertTable_bare hindex hreads hcheck
  | no =>
      rw [hcheck] at hfinds
      have htype := typeOf_table_of_no hcheck
      have hunder := under_plain (show DiType.object ≠ .emptyObject by simp) hint
      simp only [Gives, converted, htype, convertTable_eq hindex, hunder]
      rw [hfinds, ok_bind]
      simp only [tableObject_eq hindex, valueOf_table, hcheck]
  | yes elemt =>
      rw [hcheck] at hfinds
      rw [convertTable_eq hindex, hfinds, ok_bind]
      exact convertTable_array hindex hreads hcheck

section Isproxy

variable {i : ℤ} {u : ℕ} (hindex : index i s = some (.userdata u))

include hindex

theorem diLuaIsproxy_some {m : ℕ} (hmetatable : (h.userdata u).metatable = some m) :
    diLuaIsproxy h i s = .ok (decide (isProxy h m), s) := by
  simp only [diLuaIsproxy, hindex, hmetatable, pop_two, ok_bind, isProxy]
  rfl

/-- It takes two elements off the stack that it did not push. -/
theorem diLuaIsproxy_none (hmetatable : (h.userdata u).metatable = none) :
    diLuaIsproxy h i s = (do
      let s ← pop 2 s
      .ok (false, s)) := by
  simp only [diLuaIsproxy, hindex, hmetatable]

end Isproxy

/-- What the conversion does is what the walk says. -/
theorem diLuaTypeToDi_reads (n : ℕ) : Reads h n (diLuaTypeToDi h n) := by
  induction n with
  | zero => exact fun want i hint s v _ => rfl
  | succ n ih =>
      intro want i hint s v hindex
      cases v with
      | table r =>
          rw [diLuaTypeToDi, hindex]
          exact convertTable_gives ih hindex
      | userdata u =>
          rw [diLuaTypeToDi, hindex]
          cases hmetatable : (h.userdata u).metatable with
          | none =>
              simp only [Gives, typeOf_userdata, hmetatable, diLuaIsproxy_none hindex hmetatable]
              intro c s' hconvert
              obtain ⟨⟨proxy, s₁⟩, hproxy, hconvert⟩ := bind_eq_ok hconvert
              obtain ⟨s₂, hpop, hproxy⟩ := bind_eq_ok hproxy
              have hlength := pop_length hpop
              cases hproxy
              cases hconvert
              exact hlength.le
          | some m =>
              simp only [Gives, converted, typeOf_userdata, valueOf, hmetatable,
                diLuaIsproxy_some hindex hmetatable, ok_bind, decide_eq_true_eq]
              by_cases hproxy : isProxy h m
              · have hunder := under_plain (show DiType.object ≠ .emptyObject by simp) hint
                simp only [if_pos hproxy, hunder]
                rfl
              · simp only [if_neg hproxy]
      | function r =>
          have hobject : luaTypeToDiObject h i s = .ok (h.wrap (.function r), s) := by
            simp only [luaTypeToDiObject, hindex, pop_two, pop_one, ok_bind]
            split_ifs <;> rfl
          have hunder := under_plain (show DiType.object ≠ .emptyObject by simp) hint
          simp only [Gives, converted, diLuaTypeToDi, hindex, typeOf, valueOf, hunder, hobject,
            ok_bind]
          cases want <;> rfl
      | nil | boolean b | integer m | float bits | string str | lightUserdata p | thread r =>
          simp [Gives, converted, diLuaTypeToDi, hindex, typeOf, valueOf, plain, under]

end Deai.LuaReading
