import Deai.LuaReading
import Mathlib.Logic.Relation

/-!
# When the conversion returns

To tell what a table is, the conversion goes into its elements, one after the other, until two of
them do not fit together. It comes back if and only if this does not go on forever.
-/
namespace Deai.LuaTermination
open Fallible Value Numbers LuaStack LuaConversion LuaWalk LuaReading

/-! ## Where the walk stops -/

/-- A value that ends the walk through a table. -/
inductive Ends : Walk → Check → Prop
  | depth : Ends .depth .depth
  | bare : Ends .bare .bare

variable {type type' : LuaValue → Walk} {x : Walk} {y : Check} {elemt t : DiType}
  {vs before after : List LuaValue} {v w : LuaValue}

theorem scanTypes_cons_end (hends : Ends x y) (hw : type w = x) (elemt : DiType)
    (after : List LuaValue) : scanTypes type elemt (w :: after) = y := by
  cases hends <;> simp only [scanTypes, hw]

theorem typed_of_end (hends : Ends x y) (hv : type v ≠ x) {c : Check} (hc : c = y)
    (hdepth : type v = .depth → c = .depth) (hbare : type v = .bare → c = .bare) :
    type v ≠ .depth ∧ type v ≠ .bare := by
  subst hc
  constructor
  · intro h
    rw [hdepth h] at hends
    cases hends
    exact hv h
  · intro h
    rw [hbare h] at hends
    cases hends
    exact hv h

theorem typed_of_scan (hscan : scanTypes type elemt (v :: vs) = .yes t) :
    type v ≠ .depth ∧ type v ≠ .bare := by
  constructor
  · intro hv
    rw [scanTypes_cons_end .depth hv] at hscan
    cases hscan
  · intro hv
    rw [scanTypes_cons_end .bare hv] at hscan
    cases hscan

theorem scanTypes_end_iff (hends : Ends x y) :
    scanTypes type elemt vs = y ↔ ∃ before w after t, vs = before ++ w :: after ∧
      scanTypes type elemt before = .yes t ∧ type w = x := by
  induction vs generalizing elemt with
  | nil =>
      constructor
      · intro hscan
        cases hends <;> cases hscan
      · rintro ⟨before, w, after, t, hsplit, -⟩
        exact absurd hsplit.symm (List.append_ne_nil_of_right_ne_nil _ (List.cons_ne_nil w after))
  | cons v vs ih =>
      constructor
      · intro hscan
        by_cases hv : type v = x
        · exact ⟨[], v, vs, elemt, rfl, rfl, hv⟩
        · obtain ⟨hdepth, hbare⟩ := typed_of_end hends hv hscan
            (fun hv => scanTypes_cons_end .depth hv elemt vs)
            (fun hv => scanTypes_cons_end .bare hv elemt vs)
          rw [scanTypes_typed hdepth hbare] at hscan
          split at hscan
          · subst hscan
            cases hends
          · rename_i hjoin
            obtain ⟨before, w, after, t, rfl, hbefore, hw⟩ := ih.mp hscan
            refine ⟨v :: before, w, after, t, rfl, ?_, hw⟩
            rw [scanTypes_typed hdepth hbare, hjoin]
            exact hbefore
      · rintro ⟨before, w, after, t, hsplit, hbefore, hw⟩
        cases before with
        | nil =>
            cases hsplit
            exact scanTypes_cons_end hends hw elemt vs
        | cons u before =>
            cases hsplit
            obtain ⟨hdepth, hbare⟩ := typed_of_scan hbefore
            rw [scanTypes_typed hdepth hbare] at hbefore ⊢
            split at hbefore
            · cases hbefore
            · exact ih.mpr ⟨before, w, after, t, rfl, hbefore, hw⟩

theorem checkTypes_cons_end (hends : Ends x y) (hw : type w = x) (after : List LuaValue) :
    checkTypes type (w :: after) = y := by
  cases hends <;> simp only [checkTypes, hw]

theorem typed_of_check (hcheck : checkTypes type (v :: vs) = .yes t) :
    type v ≠ .depth ∧ type v ≠ .bare := by
  constructor
  · intro hv
    rw [checkTypes_cons_end .depth hv] at hcheck
    cases hcheck
  · intro hv
    rw [checkTypes_cons_end .bare hv] at hcheck
    cases hcheck

/-- A walk ends early at an element that it can get to, and nowhere else. -/
theorem checkTypes_end_iff (hends : Ends x y) :
    checkTypes type vs = y ↔ ∃ before w after t, vs = before ++ w :: after ∧
      checkTypes type before = .yes t ∧ type w = x := by
  cases vs with
  | nil =>
      constructor
      · intro hcheck
        cases hends <;> cases hcheck
      · rintro ⟨before, w, after, t, hsplit, -⟩
        exact absurd hsplit.symm (List.append_ne_nil_of_right_ne_nil _ (List.cons_ne_nil w after))
  | cons v vs =>
      constructor
      · intro hcheck
        by_cases hv : type v = x
        · exact ⟨[], v, vs, .any, rfl, rfl, hv⟩
        · obtain ⟨hdepth, hbare⟩ := typed_of_end hends hv hcheck
            (fun hv => checkTypes_cons_end .depth hv vs)
            (fun hv => checkTypes_cons_end .bare hv vs)
          rw [checkTypes_typed hdepth hbare] at hcheck
          split_ifs at hcheck with hnil
          · subst hcheck
            cases hends
          · obtain ⟨before, w, after, t, rfl, hbefore, hw⟩ := (scanTypes_end_iff hends).mp hcheck
            refine ⟨v :: before, w, after, t, rfl, ?_, hw⟩
            rw [checkTypes_typed hdepth hbare, if_neg hnil]
            exact hbefore
      · rintro ⟨before, w, after, t, hsplit, hbefore, hw⟩
        cases before with
        | nil =>
            cases hsplit
            exact checkTypes_cons_end hends hw vs
        | cons u before =>
            cases hsplit
            obtain ⟨hdepth, hbare⟩ := typed_of_check hbefore
            rw [checkTypes_typed hdepth hbare] at hbefore ⊢
            split_ifs at hbefore with hnil
            rw [if_neg hnil]
            exact (scanTypes_end_iff hends).mpr ⟨before, w, after, t, rfl, hbefore, hw⟩

/-! ## Deeper walks -/

section Stable

variable (hstable : ∀ v, type v ≠ .depth → type' v = type v)

include hstable

theorem scanTypes_stable (hscan : scanTypes type elemt vs ≠ .depth) :
    scanTypes type' elemt vs = scanTypes type elemt vs := by
  induction vs generalizing elemt with
  | nil => rfl
  | cons v vs ih =>
      have hdepth : type v ≠ .depth := fun hv => hscan (scanTypes_cons_end .depth hv elemt vs)
      have hv := hstable v hdepth
      by_cases hbare : type v = .bare
      · rw [scanTypes_cons_end .bare hbare, scanTypes_cons_end .bare (hv.trans hbare)]
      · rw [scanTypes_typed hdepth hbare] at hscan ⊢
        rw [scanTypes_typed (hv ▸ hdepth) (hv ▸ hbare), hv]
        split
        · rfl
        · rename_i hjoin
          rw [hjoin] at hscan
          exact ih hscan

theorem checkTypes_stable (hcheck : checkTypes type vs ≠ .depth) :
    checkTypes type' vs = checkTypes type vs := by
  cases vs with
  | nil => rfl
  | cons v vs =>
      have hdepth : type v ≠ .depth := fun hv => hcheck (checkTypes_cons_end .depth hv vs)
      have hv := hstable v hdepth
      by_cases hbare : type v = .bare
      · rw [checkTypes_cons_end .bare hbare, checkTypes_cons_end .bare (hv.trans hbare)]
      · rw [checkTypes_typed hdepth hbare] at hcheck ⊢
        rw [checkTypes_typed (hv ▸ hdepth) (hv ▸ hbare), hv]
        split_ifs at hcheck ⊢
        · rfl
        · exact scanTypes_stable hstable hcheck

end Stable

variable {h : Lua} {n m r : ℕ}

/-- What has been found is found again when the recursion may go deeper. -/
theorem typeOf_stable (hle : n ≤ m) (hv : typeOf h n v ≠ .depth) :
    typeOf h m v = typeOf h n v := by
  induction n generalizing m v with
  | zero => exact absurd rfl hv
  | succ n ih =>
      obtain ⟨m, rfl⟩ : ∃ k, m = k + 1 := ⟨m - 1, by omega⟩
      cases v with
      | table r =>
          have hcheck : checkTypes (typeOf h n) (elements h r) ≠ .depth := by
            intro hcheck
            rw [typeOf_table, hcheck] at hv
            exact hv rfl
          have hstable := checkTypes_stable
            (fun w hw => ih (m := m) (Nat.le_of_succ_le_succ hle) hw) hcheck
          rw [typeOf_table, typeOf_table, hstable]
      | _ => rfl

theorem typeOf_unique (hn : typeOf h n v ≠ .depth) (hm : typeOf h m v ≠ .depth) :
    typeOf h n v = typeOf h m v := by
  rw [← typeOf_stable (le_max_left n m) hn, typeOf_stable (le_max_right n m) hm]

/-- A table that is walked through to its end gets the type of the walk. -/
theorem typeOf_table_end_iff (hends : Ends x y) :
    typeOf h (n + 1) (.table r) = x ↔ checkTypes (typeOf h n) (elements h r) = y := by
  rw [typeOf_table]
  cases hcheck : checkTypes (typeOf h n) (elements h r) with
  | yes t => cases hends <;> simp only [reduceCtorEq, iff_false] <;> split_ifs <;> simp
  | _ => cases hends <;> simp

/-! ## The elements that are gone into -/

variable (h) in
/-- The walk through `v` gets to its element `w`: the elements before have a common type. -/
def Visits (w v : LuaValue) : Prop :=
  ∃ r before after n t, v = .table r ∧ elements h r = before ++ w :: after ∧
    checkTypes (typeOf h n) before = .yes t

variable (h) in
/-- The walk gets to a userdata without a metatable. -/
def MeetsBare (v : LuaValue) : Prop :=
  ∃ u, (h.userdata u).metatable = none ∧ Relation.ReflTransGen (Visits h) (.userdata u) v

theorem checkTypes_max {k : ℕ} (hcheck : checkTypes (typeOf h n) vs = .yes t) (hle : n ≤ k) :
    checkTypes (typeOf h k) vs = .yes t := by
  rw [checkTypes_stable (fun w hw => typeOf_stable hle hw) (by rw [hcheck]; simp), hcheck]

/-- One depth is enough for all elements of a table. -/
theorem exists_depth (vs : List LuaValue) (P : LuaValue → Prop)
    (hdepth : ∀ w ∈ vs, P w → ∃ n, typeOf h n w ≠ .depth) :
    ∃ n, ∀ w ∈ vs, P w → typeOf h n w ≠ .depth := by
  induction vs with
  | nil => exact ⟨0, fun w hw => absurd hw List.not_mem_nil⟩
  | cons v vs ih =>
      obtain ⟨n, hn⟩ := ih fun w hw => hdepth w (List.mem_cons_of_mem v hw)
      by_cases hv : P v
      · obtain ⟨m, hm⟩ := hdepth v List.mem_cons_self hv
        refine ⟨max n m, fun w hw hP => ?_⟩
        obtain rfl | hw := List.mem_cons.mp hw
        · rwa [typeOf_stable (le_max_right n m) hm]
        · have hne := hn w hw hP
          rwa [typeOf_stable (le_max_left n m) hne]
      · refine ⟨n, fun w hw hP => ?_⟩
        obtain rfl | hw := List.mem_cons.mp hw
        · exact absurd hP hv
        · exact hn w hw hP

theorem acc_of_typeOf (hv : typeOf h n v ≠ .depth) : Acc (Visits h) v := by
  induction n generalizing v with
  | zero => exact absurd rfl hv
  | succ n ih =>
      refine ⟨v, fun w hw => ih fun hdepth => ?_⟩
      obtain ⟨r, before, after, m, t, rfl, hsplit, hbefore⟩ := hw
      refine hv ((typeOf_table_end_iff .depth).mpr ?_)
      by_cases hcheck : checkTypes (typeOf h n) before = .depth
      · obtain ⟨before', w', after', t', rfl, hbefore', hw'⟩ :=
          (checkTypes_end_iff .depth).mp hcheck
        refine (checkTypes_end_iff .depth).mpr
          ⟨before', w', after' ++ w :: after, t', ?_, hbefore', hw'⟩
        rw [hsplit, List.append_assoc, List.cons_append]
      · have hyes : checkTypes (typeOf h n) before = .yes t := by
          rw [← checkTypes_stable (fun w hw => typeOf_stable (le_max_left n m) hw) hcheck,
            checkTypes_max hbefore (le_max_right n m)]
        exact (checkTypes_end_iff .depth).mpr ⟨before, w, after, t, hsplit, hyes, hdepth⟩

/-- The walk comes to an end if it does so for every element that it goes into. -/
theorem typeOf_iff_acc : (∃ n, typeOf h n v ≠ .depth) ↔ Acc (Visits h) v := by
  constructor
  · rintro ⟨n, hv⟩
    exact acc_of_typeOf hv
  · intro hacc
    induction hacc with
    | intro v _ ih =>
        cases v with
        | table r =>
            obtain ⟨n, hn⟩ := exists_depth (elements h r) (Visits h · (.table r)) fun w _ => ih w
            refine ⟨n + 1, fun hdepth => ?_⟩
            obtain ⟨before, w, after, t, hsplit, hbefore, hw⟩ :=
              (checkTypes_end_iff .depth).mp ((typeOf_table_end_iff .depth).mp hdepth)
            refine hn w ?_ ⟨r, before, after, n, t, rfl, hsplit, hbefore⟩ hw
            rw [hsplit]
            exact List.mem_append_right _ List.mem_cons_self
        | userdata u => exact ⟨1, typeOf_userdata_ne_depth u⟩
        | nil | boolean b | integer m | float bits | string s | lightUserdata p | function r
        | thread r => exact ⟨1, by rintro ⟨⟩⟩

theorem typeOf_bare_iff : (∃ n, typeOf h n v = .bare) ↔ MeetsBare h v := by
  constructor
  · rintro ⟨n, hv⟩
    induction n generalizing v with
    | zero => cases hv
    | succ n ih =>
        cases v with
        | table r =>
            obtain ⟨before, w, after, t, hsplit, hbefore, hw⟩ :=
              (checkTypes_end_iff .bare).mp ((typeOf_table_end_iff .bare).mp hv)
            obtain ⟨u, hu, hreach⟩ := ih hw
            exact ⟨u, hu, hreach.tail ⟨r, before, after, n, t, rfl, hsplit, hbefore⟩⟩
        | userdata u => exact ⟨u, typeOf_userdata_bare_iff.mp hv, .refl⟩
        | nil | boolean b | integer m | float bits | string s | lightUserdata p | function r
        | thread r => cases hv
  · rintro ⟨u, hu, hreach⟩
    induction hreach with
    | refl => exact ⟨1, typeOf_userdata_bare_iff.mpr hu⟩
    | tail _ hvisits ih =>
        obtain ⟨n, hn⟩ := ih
        obtain ⟨r, before, after, m, t, rfl, hsplit, hbefore⟩ := hvisits
        refine ⟨max n m + 1, (typeOf_table_end_iff .bare).mpr ((checkTypes_end_iff .bare).mpr
          ⟨before, _, after, t, hsplit, checkTypes_max hbefore (le_max_right n m), ?_⟩)⟩
        rw [typeOf_stable (le_max_left n m) (by rw [hn]; simp), hn]

/-! ## After a userdata without a metatable -/

section Bare

variable {p left : ℕ} {convert : Convert} {s s' : Stack} {hint : DiType} {want : Bool} {i : ℤ}

variable (h) in
/-- No table is so large that it is cut off. -/
def Small : Prop := ∀ r, (h.tables r).entries.length + 1 < intMax

/-- The scan fails when its table is no longer on the stack. -/
theorem scan_gone (hp : s.length < p) (left : ℕ) (elemt : DiType) :
    scan h convert p left elemt s = .error .misuse := by
  cases left with
  | zero => rfl
  | succ left =>
      simp only [scan, luaNext, slot_of_lt hp]
      rfl

/-- The scan of a table gives up, or it fails. -/
def GivesUp (result : Except Stop (Option (ℕ × DiType) × Stack)) : Prop :=
  result ≠ .error .depth ∧ ∀ a s', result = .ok (a, s') → a = none

/-- The conversion of a userdata without a metatable on top of the stack. -/
def Returns (h : Lua) (n : ℕ) (convert : Convert) : Prop :=
  ∀ want i hint s v, index i s = some v → absolute i s = s.length → typeOf h n v = .bare →
    convert want i hint s ≠ .error .depth

theorem GivesUp.misuse : GivesUp (.error .misuse) :=
  ⟨by simp, by simp⟩

theorem GivesUp.pop (s : Stack) :
    GivesUp (do
      let s ← LuaStack.pop 1 s
      .ok (none, s)) := by
  rw [LuaStack.pop]
  split_ifs
  · refine ⟨by simp [ok_bind], fun a s' hresult => ?_⟩
    cases hresult
    rfl
  · exact .misuse

/-- After the element the stack is too small for the table to be on it. -/
theorem GivesUp.bare (hreads : Reads h n convert) (hreturns : Returns h n convert)
    (hbare : typeOf h n w = .bare) {e : LuaValue × LuaValue}
    {f : Converted × Stack → Stack → Except Stop (Option (ℕ × DiType) × Stack)}
    (hf : ∀ x s', s'.length < s.length → GivesUp (f x s')) :
    GivesUp (convert true (-1) hint (w :: e.2 :: e.1 :: s) >>= fun x =>
      LuaStack.pop 2 x.2 >>= f x) := by
  have hreads := hreads true (-1) hint (w :: e.2 :: e.1 :: s) w index_top
  have hreturns := hreturns true (-1) hint (w :: e.2 :: e.1 :: s) w index_top absolute_top hbare
  cases hconvert : convert true (-1) hint (w :: e.2 :: e.1 :: s) with
  | error x =>
      rw [hconvert] at hreturns
      constructor
      · intro hresult
        cases hresult
        exact hreturns rfl
      · intro a s' hresult
        cases hresult
  | ok result =>
      obtain ⟨c, s₁⟩ := result
      have hlength := hreads.bare hbare hconvert
      simp only [List.length_cons] at hlength
      simp only [ok_bind, LuaStack.pop]
      split_ifs with hle
      · rw [ok_bind]
        refine hf _ _ ?_
        rw [List.length_drop]
        omega
      · exact .misuse

theorem scan_givesUp (hreads : Reads h n convert) (hreturns : Returns h n convert)
    (hslot : slot p s = some (.table r)) (htop : p = s.length) (hsmall : Small h)
    {before rest : List (LuaValue × LuaValue)} {e : LuaValue × LuaValue}
    (hsplit : (h.tables r).entries = before ++ e :: rest) (hpos : 0 < left)
    (hleft : left + before.length + 2 = intMax)
    (hscan : scanTypes (typeOf h n) elemt ((elements h r).drop (before.length + 1)) = .bare) :
    GivesUp (scan h convert p left elemt (e.1 :: s)) := by
  induction left generalizing elemt before e rest with
  | zero => exact absurd hpos (lt_irrefl 0)
  | succ left ih =>
      have hsmall := hsmall r
      have hlength := congrArg List.length hsplit
      cases rest with
      | nil =>
          rw [List.drop_eq_nil_of_le] at hscan
          · cases hscan
          · rw [elements_length, hlength]
            simp only [List.length_append, List.length_cons, List.length_nil]
            omega
      | cons e' rest =>
          simp only [List.length_append, List.length_cons] at hlength
          rw [elements_drop (by omega)] at hscan
          have hzero : left ≠ 0 := by omega
          generalize hw : h.element r (before.length + 1 + 1) = w at hscan
          have hdepth : typeOf h n w ≠ .depth := fun hdepth => by
            rw [scanTypes_cons_end .depth hdepth] at hscan
            cases hscan
          by_cases hbare : typeOf h n w = .bare
          · rw [scan_next hslot hsplit hleft, hw]
            refine .bare hreads hreturns hbare fun x s' hlt => ?_
            cases joinType elemt x.1.type with
            | none => exact .pop s'
            | some t =>
                simp only [if_neg hzero, scan_gone (htop ▸ hlt)]
                exact .misuse
          · rw [scan_typed hslot hreads hsplit hleft hw hdepth hbare]
            rw [scanTypes_typed hdepth hbare] at hscan
            cases hjoin : joinType elemt (under elemt (typeOf h n w).type) with
            | none =>
                rw [hjoin] at hscan
                cases hscan
            | some t =>
                rw [hjoin] at hscan
                simp only [if_neg hzero]
                have hsplit' : (h.tables r).entries = (before ++ [e]) ++ e' :: rest := by
                  rw [hsplit, List.append_assoc]
                  rfl
                have hbefore : (before ++ [e]).length = before.length + 1 := by
                  rw [List.length_append, List.length_singleton]
                exact ih hsplit' (Nat.pos_of_ne_zero hzero) (by omega) (by rwa [hbefore])

theorem diLuaCheckarray_givesUp (hreads : Reads h n convert) (hreturns : Returns h n convert)
    (hindex : index i s = some (.table r)) (htop : absolute i s = s.length) (hsmall : Small h)
    (hcheck : checkTypes (typeOf h n) (elements h r) = .bare) :
    GivesUp (diLuaCheckarray h convert i s) := by
  cases hentries : (h.tables r).entries with
  | nil =>
      have hall : elements h r = [] := by
        rw [← List.length_eq_zero_iff, elements_length, hentries]
        rfl
      rw [hall] at hcheck
      cases hcheck
  | cons e rest =>
      rw [elements_cons hentries] at hcheck
      rw [diLuaCheckarray_cons hindex hentries]
      generalize h.element r 1 = w at hcheck ⊢
      have hdepth : typeOf h n w ≠ .depth := fun hdepth => by
        rw [checkTypes_cons_end .depth hdepth] at hcheck
        cases hcheck
      by_cases hbare : typeOf h n w = .bare
      · refine .bare hreads hreturns hbare fun x s' hlt => ?_
        split_ifs
        · exact .pop s'
        · rw [scan_gone (htop ▸ hlt)]
          exact .misuse
      · rw [checkTypes_typed hdepth hbare] at hcheck
        split_ifs at hcheck with hnil
        rw [(hreads true (-1) .any _ _ index_top).eq hdepth hbare]
        simp only [ok_bind, pop_two, converted_type, under_any, if_neg hnil]
        have hsplit : (h.tables r).entries = [] ++ e :: rest := hentries
        exact scan_givesUp hreads hreturns hindex htop hsmall hsplit (by decide) (by decide) hcheck

theorem tableObject_ne_depth {value : ObjRef → DiValue} :
    tableObject h want i t value s ≠ .error .depth := by
  have hobject : ∀ x, luaTypeToDiObject h i s = .error x → x = .assertion := by
    intro x hobject
    simp only [luaTypeToDiObject] at hobject
    split at hobject
    · simp only [pop_two, pop_one, ok_bind] at hobject
      split_ifs at hobject
    · simp only [pop_two, pop_one, ok_bind] at hobject
      split_ifs at hobject
    · cases hobject
      rfl
  rw [tableObject]
  split_ifs
  · cases hwrap : luaTypeToDiObject h i s with
    | error x =>
        rw [hobject x hwrap]
        exact fun h => by cases h
    | ok result => simp [ok_bind]
  · simp

theorem diLuaTypeToDi_returns (hsmall : Small h) (n : ℕ) : Returns h n (diLuaTypeToDi h n) := by
  induction n with
  | zero => exact fun want i hint s v _ _ hbare => by cases hbare
  | succ n ih =>
      intro want i hint s v hindex htop hbare
      cases v with
      | table r =>
          have hcheck := (typeOf_table_end_iff .bare).mp hbare
          have hgivesUp := diLuaCheckarray_givesUp (diLuaTypeToDi_reads n) ih hindex htop hsmall
            hcheck
          rw [diLuaTypeToDi, hindex]
          simp only [convertTable_eq hindex]
          cases harray : diLuaCheckarray h (diLuaTypeToDi h n) i s with
          | error x =>
              rw [harray] at hgivesUp
              intro hresult
              cases hresult
              exact hgivesUp.1 rfl
          | ok result =>
              obtain ⟨array, s₁⟩ := result
              obtain rfl := hgivesUp.2 array s₁ harray
              exact tableObject_ne_depth
      | userdata u =>
          have hmetatable := typeOf_userdata_bare_iff.mp hbare
          rw [diLuaTypeToDi, hindex]
          simp only [diLuaIsproxy_none hindex hmetatable, pop]
          split_ifs <;> simp [ok_bind, error_bind]
      | nil | boolean b | integer m | float bits | string str | lightUserdata p | function r
      | thread r => cases hbare

/-- The stack is as it should be throughout the walk, or at least to where it is stopped. -/
def Sound (h : Lua) (v : LuaValue) (i : ℤ) (s : Stack) : Prop :=
  ¬ MeetsBare h v ∨ (absolute i s = s.length ∧ Small h)

theorem diLuaTypeToDi_depth_iff (hindex : index i s = some v) (hsound : Sound h v i s) :
    diLuaTypeToDi h n want i hint s = .error .depth ↔ typeOf h n v = .depth := by
  have hgives := diLuaTypeToDi_reads (h := h) n want i hint s v hindex
  constructor
  · intro hresult
    by_contra hdepth
    by_cases hbare : typeOf h n v = .bare
    · obtain hmeets | ⟨htop, hsmall⟩ := hsound
      · exact hmeets (typeOf_bare_iff.mp ⟨n, hbare⟩)
      · exact diLuaTypeToDi_returns hsmall n want i hint s v hindex htop hbare hresult
    · rw [hgives.eq hdepth hbare] at hresult
      cases hresult
  · exact hgives.depth

theorem diLuaCheckarray_depth_iff (hindex : index i s = some (.table r))
    (hsound : Sound h (.table r) i s) :
    diLuaCheckarray h (diLuaTypeToDi h n) i s = .error .depth
      ↔ typeOf h (n + 1) (.table r) = .depth := by
  rw [typeOf_table_end_iff .depth]
  have hfinds := diLuaCheckarray_finds hindex (diLuaTypeToDi_reads (h := h) n)
  cases hcheck : checkTypes (typeOf h n) (elements h r) with
  | depth =>
      rw [hcheck] at hfinds
      exact ⟨fun _ => rfl, fun _ => hfinds⟩
  | bare =>
      refine ⟨fun hresult => ?_, fun h => by cases h⟩
      obtain hmeets | ⟨htop, hsmall⟩ := hsound
      · have hbare := (typeOf_table_end_iff .bare).mpr hcheck
        exact absurd (typeOf_bare_iff.mp ⟨n + 1, hbare⟩) hmeets
      · exact absurd hresult (diLuaCheckarray_givesUp (diLuaTypeToDi_reads n)
          (diLuaTypeToDi_returns hsmall n) hindex htop hsmall hcheck).1
  | no | yes t =>
      rw [hcheck] at hfinds
      refine ⟨fun hresult => ?_, fun h => by cases h⟩
      rw [hfinds] at hresult
      cases hresult

/-- The second pass over an array that was found goes no deeper than the first. -/
theorem diLuaTableToArray_ne_depth (hindex : index i s = some (.table r)) {nelem : ℕ}
    (harray : diLuaCheckarray h (diLuaTypeToDi h n) i s = .ok (some (nelem, elemt), s)) :
    diLuaTableToArray h (diLuaTypeToDi h n) i nelem elemt s ≠ .error .depth := by
  have hreads := diLuaTypeToDi_reads (h := h) n
  have hfinds := diLuaCheckarray_finds hindex hreads
  cases hcheck : checkTypes (typeOf h n) (elements h r) with
  | depth | no =>
      rw [hcheck] at hfinds
      rw [hfinds] at harray
      cases harray
  | bare =>
      rw [hcheck] at hfinds
      have hlength := hfinds _ _ harray
      omega
  | yes t =>
      rw [hcheck] at hfinds
      rw [hfinds] at harray
      cases harray
      rw [diLuaTableToArray_eq hindex hreads hcheck]
      exact fun h => by cases h

/-- The conversion of a value returns only if it does not go into elements forever, and then it
does as long as the stack is sound. -/
theorem conversion_returns_iff (hindex : index i s = some v) (want : Bool) (hint : DiType) :
    ((∃ n, diLuaTypeToDi h n want i hint s ≠ .error .depth) → Acc (Visits h) v) ∧
    (Sound h v i s →
      ((∃ n, diLuaTypeToDi h n want i hint s ≠ .error .depth) ↔ Acc (Visits h) v)) ∧
    ∀ r, v = .table r →
      ((∃ n, diLuaCheckarray h (diLuaTypeToDi h n) i s ≠ .error .depth) → Acc (Visits h) v) ∧
      (Sound h v i s →
        ((∃ n, diLuaCheckarray h (diLuaTypeToDi h n) i s ≠ .error .depth) ↔ Acc (Visits h) v)) ∧
      ∀ n nelem elemt, diLuaCheckarray h (diLuaTypeToDi h n) i s = .ok (some (nelem, elemt), s) →
        diLuaTableToArray h (diLuaTypeToDi h n) i nelem elemt s ≠ .error .depth := by
  refine ⟨?_, ?_, ?_⟩
  · rintro ⟨n, hn⟩
    exact acc_of_typeOf fun hdepth =>
      hn ((diLuaTypeToDi_reads n want i hint s v hindex).depth hdepth)
  · intro hsound
    simp only [ne_eq, diLuaTypeToDi_depth_iff hindex hsound]
    exact typeOf_iff_acc
  · rintro r rfl
    refine ⟨?_, ?_, fun n nelem elemt => diLuaTableToArray_ne_depth hindex⟩
    · rintro ⟨n, hn⟩
      refine acc_of_typeOf (n := n + 1) fun hdepth => hn ?_
      have hfinds := diLuaCheckarray_finds hindex (diLuaTypeToDi_reads (h := h) n)
      rwa [(typeOf_table_end_iff .depth).mp hdepth] at hfinds
    · intro hsound
      simp only [ne_eq, diLuaCheckarray_depth_iff hindex hsound]
      rw [← typeOf_iff_acc]
      constructor
      · rintro ⟨n, hn⟩
        exact ⟨n + 1, hn⟩
      · rintro ⟨n, hn⟩
        refine ⟨n, ?_⟩
        rwa [typeOf_stable n.le_succ hn]

/-- A table whose only element is the table itself. -/
def selfTable : Lua where
  tables _ := {
    entries := [(.integer 1, .table 0)]
    nodup := List.nodup_singleton _
    present := by simp }
  userdata _ := {metatable := none, object := 0}
  cached _ := none
  wrap _ := 0

theorem typeOf_selfTable (n : ℕ) : typeOf selfTable n (.table 0) = .depth := by
  induction n with
  | zero => rfl
  | succ n ih =>
      rw [typeOf_table_end_iff .depth]
      have hall : elements selfTable 0 = [.table 0] := rfl
      rw [hall, checkTypes_cons_end .depth ih]

theorem selfTable_never_returns : index (-1) [.table 0] = some (.table 0) ∧
    ∀ n, diLuaTypeToDi selfTable n true (-1) .any [.table 0] = .error .depth ∧
      diLuaCheckarray selfTable (diLuaTypeToDi selfTable n) (-1) [.table 0] = .error .depth := by
  refine ⟨rfl, fun n => ⟨?_, ?_⟩⟩
  · exact (diLuaTypeToDi_reads n true (-1) .any _ _ index_top).depth (typeOf_selfTable n)
  · have hfinds := diLuaCheckarray_finds (index_top (s := []) (v := .table 0))
      (diLuaTypeToDi_reads (h := selfTable) n)
    rwa [(typeOf_table_end_iff .depth).mp (typeOf_selfTable (n + 1))] at hfinds

theorem selfTable_returns_iff :
    (∃ n, diLuaTypeToDi selfTable n true (-1) .any [.table 0] ≠ .error .depth)
      ↔ Acc (Visits selfTable) (.table 0) :=
  (conversion_returns_iff (h := selfTable) index_top true .any).2.1
    (.inr ⟨absolute_top, fun _ => (by decide : 1 + 1 < intMax)⟩)

end Bare

end Deai.LuaTermination
