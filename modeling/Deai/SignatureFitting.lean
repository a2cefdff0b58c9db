import Deai.SignatureWriting

/-!
# Inferred signatures fit their buffers

The first pass counts a variant as what it contains, and a part without a type as -1, which an array
around it makes 0. The second pass writes one character for a variant, and for an array of parts
without a type it reads what it has not written. The two passes agree on a value that has no type at
all, or that has one whose text is as long as what the first pass has counted.
-/
namespace Deai.SignatureFitting
open Fallible Value DbusMessage DbusSignatures DbusGrammar FilledBuffer SignatureBuffers SignatureReading SignatureWriting
open Conversion (typeOf)
open DbusEncoding (Trap basicType addInt typeSignatureLength typeSignatureLengths typeSignatureToBuffer
  typeSignaturesToBuffer)

/-! ## The first pass -/

mutual
/-- What the first pass counts for a value: one for a basic value, and for a variant what is in it.
An array of something without a type counts for nothing. -/
def Counts : DiValue → ℕ → Prop
  | .array _ [], _ => False
  | .array _ (e :: _), n => (Untyped e ∧ n = 0) ∨ ∃ m, Counts e m ∧ n = m + 1 ∧ (n : ℤ) ≤ intMax
  | .tuple es, n => ∃ m, CountsAll 0 0 es m ∧ n = m + 2 ∧ (n : ℤ) ≤ intMax
  | .variant v, n => Counts v n
  | v, n => (basicType (typeOf v)).isSome ∧ n = 1

/-- The elements of a tuple from the `i`th on, after `ret` characters. -/
def CountsAll : (i ret : ℕ) → List DiValue → ℕ → Prop
  | _, ret, [], n => n = ret
  | i, ret, e :: es, n => ∃ m, Counts e m ∧ ((ret + m : ℕ) : ℤ) ≤ intMax ∧ ((i + 1 : ℕ) : ℤ) ≤ intMax ∧
      CountsAll (i + 1) (ret + m) es n

/-- A value with a part that has no type (nil, an object or a pointer), not inside of an array. -/
def Untyped : DiValue → Prop
  | .array _ _ => False
  | .tuple es => UntypedAmong 0 0 es
  | .variant v => Untyped v
  | v => (basicType (typeOf v)).isNone

/-- An element of a tuple from the `i`th on is such a value, and those before it are counted. -/
def UntypedAmong : (i ret : ℕ) → List DiValue → Prop
  | _, _, [] => False
  | i, ret, e :: es => Untyped e ∨ ∃ m, Counts e m ∧ ((ret + m : ℕ) : ℤ) ≤ intMax ∧
      ((i + 1 : ℕ) : ℤ) ≤ intMax ∧ UntypedAmong (i + 1) (ret + m) es
end

/-- What comes out of the first pass. -/
def Counted (x : ℤ) (untyped : Prop) (counts : ℕ → Prop) : Prop :=
  (x = -1 ∧ untyped) ∨ ∃ n : ℕ, x = n ∧ counts n

theorem addInt_eq_ok {x y z : ℤ} : addInt x y = .ok z ↔ z = x + y ∧ z ≤ intMax := by
  unfold addInt
  split_ifs with h
  · constructor
    · intro hz
      cases hz
      exact ⟨rfl, h⟩
    · rintro ⟨rfl, -⟩
      rfl
  · constructor
    · intro hz
      cases hz
    · rintro ⟨rfl, hz⟩
      exact absurd hz h

theorem typeSignatureLength_scalar {v : DiValue} (hv : Scalar v) (x : ℤ) :
    typeSignatureLength v = .ok x ↔ Counted x (Untyped v) (Counts v) := by
  have hleft : typeSignatureLength v = .ok (if (basicType (typeOf v)).isSome then 1 else -1) := by
    cases v with
    | array t es | tuple es | variant v => exact hv.elim
    | _ => rfl
  have huntyped : Untyped v ↔ (basicType (typeOf v)).isNone := by
    cases v with
    | array t es | tuple es | variant v => exact hv.elim
    | _ => rfl
  have hcounts : ∀ n, Counts v n ↔ (basicType (typeOf v)).isSome ∧ n = 1 := by
    intro n
    cases v with
    | array t es | tuple es | variant v => exact hv.elim
    | _ => rfl
  rw [hleft, Counted, huntyped]
  simp only [hcounts, Except.ok.injEq]
  cases basicType (typeOf v) with
  | some b => simp [eq_comm]
  | none => simp [eq_comm]

/-- A tuple goes on after an element that was counted. -/
theorem typeSignatureLengths_cons {e : DiValue} {es : List DiValue} {i ret m : ℕ}
    (hm : typeSignatureLength e = .ok (m : ℤ)) (hret : ((ret + m : ℕ) : ℤ) ≤ intMax)
    (hi : ((i + 1 : ℕ) : ℤ) ≤ intMax) :
    typeSignatureLengths i ret (e :: es) = typeSignatureLengths (i + 1 : ℕ) (ret + m : ℕ) es := by
  have hsum := addInt_eq_ok.mpr ⟨Nat.cast_add ret m, hret⟩
  have hnext := addInt_eq_ok.mpr ⟨Nat.cast_add i 1, hi⟩
  rw [Nat.cast_one] at hnext
  conv_lhs => unfold typeSignatureLengths
  rw [hm, ok_bind, if_neg (by omega), hsum, ok_bind, hnext, ok_bind]

mutual
theorem typeSignatureLength_spec (v : DiValue) (x : ℤ) :
    typeSignatureLength v = .ok x ↔ Counted x (Untyped v) (Counts v) := by
  cases v with
  | array t es =>
      cases es with
      | nil => simp [typeSignatureLength, Counted, Untyped, Counts]
      | cons e es =>
          have he := typeSignatureLength_spec e
          unfold typeSignatureLength Untyped
          simp only [bind_eq_ok_iff, he, addInt_eq_ok]
          constructor
          · rintro ⟨m, ⟨rfl, huntyped⟩ | ⟨m, rfl, hcounts⟩, rfl, hmax⟩
            · exact .inr ⟨0, by norm_num, .inl ⟨huntyped, rfl⟩⟩
            · refine .inr ⟨m + 1, by push_cast; omega, .inr ⟨m, hcounts, rfl, ?_⟩⟩
              push_cast
              omega
          · rintro (⟨-, h⟩ | ⟨n, rfl, ⟨huntyped, rfl⟩ | ⟨m, hcounts, rfl, hmax⟩⟩)
            · exact h.elim
            · exact ⟨-1, .inl ⟨rfl, huntyped⟩, by norm_num, by unfold intMax; norm_num⟩
            · exact ⟨m, .inr ⟨m, rfl, hcounts⟩, by push_cast; omega, hmax⟩
  | tuple es =>
      have hes := typeSignatureLengths_spec es 0 0
      unfold typeSignatureLength
      rw [Nat.cast_zero] at hes
      simp only [bind_eq_ok_iff, hes]
      constructor
      · rintro ⟨m, ⟨rfl, huntyped⟩ | ⟨m, rfl, hcounts⟩, h⟩
        · rw [if_pos (by norm_num)] at h
          cases h
          exact .inl ⟨rfl, huntyped⟩
        · rw [if_neg (by omega), addInt_eq_ok] at h
          obtain ⟨rfl, hmax⟩ := h
          exact .inr ⟨m + 2, by push_cast; rfl, m, hcounts, rfl, by push_cast; exact hmax⟩
      · rintro (⟨rfl, huntyped⟩ | ⟨n, rfl, m, hcounts, rfl, hmax⟩)
        · exact ⟨-1, .inl ⟨rfl, huntyped⟩, by rw [if_pos (by norm_num)]⟩
        · refine ⟨m, .inr ⟨m, rfl, hcounts⟩, ?_⟩
          rw [if_neg (by omega), addInt_eq_ok]
          exact ⟨by push_cast; rfl, hmax⟩
  | variant v => exact typeSignatureLength_spec v x
  | nil | emptyObject o | bool b | nint i | nuint m | int i | uint m | float bits | pointer b | object o
  | weakObject o | string b | stringLiteral b =>
      refine typeSignatureLength_scalar ?_ x
      trivial

theorem typeSignatureLengths_spec (es : List DiValue) (i ret : ℕ) (x : ℤ) :
    typeSignatureLengths i ret es = .ok x ↔ Counted x (UntypedAmong i ret es) (CountsAll i ret es) := by
  match es with
  | [] =>
      unfold typeSignatureLengths
      simp only [Except.ok.injEq, Counted, UntypedAmong, CountsAll, and_false, false_or, exists_eq_right]
      exact eq_comm
  | e :: es =>
      have he := typeSignatureLength_spec e
      have hes := fun m => typeSignatureLengths_spec es (i + 1) (ret + m)
      constructor
      · intro h
        unfold typeSignatureLengths at h
        obtain ⟨tmp, htmp, h⟩ := bind_eq_ok h
        rcases (he tmp).mp htmp with ⟨rfl, huntyped⟩ | ⟨m, rfl, hcounts⟩
        · rw [if_pos (by norm_num)] at h
          cases h
          exact .inl ⟨rfl, .inl huntyped⟩
        · rw [if_neg (by omega)] at h
          simp only [bind_eq_ok_iff, addInt_eq_ok] at h
          obtain ⟨ret', ⟨rfl, hret⟩, i', ⟨rfl, hi⟩, h⟩ := h
          rcases (hes m x).mp (by push_cast; exact h) with ⟨rfl, huntyped⟩ | ⟨n, rfl, hrest⟩
          · exact .inl ⟨rfl, .inr ⟨m, hcounts, by push_cast; exact hret, by push_cast; exact hi, huntyped⟩⟩
          · exact .inr ⟨n, rfl, m, hcounts, by push_cast; exact hret, by push_cast; exact hi, hrest⟩
      · rintro (⟨rfl, huntyped | ⟨m, hcounts, hret, hi, hrest⟩⟩ | ⟨n, rfl, m, hcounts, hret, hi, hrest⟩)
        · unfold typeSignatureLengths
          rw [(he (-1)).mpr (.inl ⟨rfl, huntyped⟩), ok_bind, if_pos (by norm_num)]
        · rw [typeSignatureLengths_cons ((he m).mpr (.inr ⟨m, rfl, hcounts⟩)) hret hi]
          exact (hes m (-1)).mpr (.inl ⟨rfl, hrest⟩)
        · rw [typeSignatureLengths_cons ((he m).mpr (.inr ⟨m, rfl, hcounts⟩)) hret hi]
          exact (hes m n).mpr (.inr ⟨n, rfl, hrest⟩)
end

/-! ## The second pass -/

mutual
/-- The type of a value. That of an array is the type of its first element, which all its elements
have to match. -/
def HasType : DiValue → DbusType → Prop
  | .array _ [], _ => False
  | .array et (e :: es), t => ∃ elem, t = .array elem ∧ HasType e elem ∧
      DbusEncoding.verifyTypeSignature (.array et (e :: es)) (.array elem) = .ok true
  | .tuple es, t => ∃ fields, t = .struct fields ∧ HasTypes es fields ∧ (es.length : ℤ) ≤ intMax
  | .variant _, t => t = .variant
  | v, t => ∃ b, basicType (typeOf v) = some b ∧ t = .basic b

def HasTypes : List DiValue → List DbusType → Prop
  | [], fields => fields = []
  | e :: es, fields => ∃ t ts, fields = t :: ts ∧ HasType e t ∧ HasTypes es ts
end

theorem typeSignatureToBuffer_scalar_iff {v : DiValue} (hv : Scalar v) (t : DbusType) :
    typeSignatureToBuffer v = .ok (some t) ↔ HasType v t := by
  have htype : HasType v t ↔ ∃ b, basicType (typeOf v) = some b ∧ t = .basic b := by
    cases v with
    | array t es | tuple es | variant v => exact hv.elim
    | _ => rfl
  rw [typeSignatureToBuffer_scalar hv, htype]
  simp only [Except.ok.injEq, Option.map_eq_some_iff]
  exact exists_congr fun b => and_congr_right fun _ => eq_comm

mutual
theorem typeSignatureToBuffer_iff (v : DiValue) (t : DbusType) :
    typeSignatureToBuffer v = .ok (some t) ↔ HasType v t := by
  cases v with
  | array et es =>
      cases es with
      | nil => simp [typeSignatureToBuffer, HasType]
      | cons e es =>
          have he := typeSignatureToBuffer_iff e
          unfold typeSignatureToBuffer HasType
          constructor
          · intro h
            obtain ⟨elem, helem, h⟩ := bind_eq_ok h
            cases elem with
            | none => cases h
            | some elem =>
                obtain ⟨ok, hmatch, h⟩ := bind_eq_ok h
                cases ok with
                | false => cases h
                | true =>
                    cases h
                    exact ⟨elem, rfl, (he elem).mp helem, hmatch⟩
          · rintro ⟨elem, rfl, helem, hmatch⟩
            rw [(he elem).mpr helem, ok_bind]
            dsimp only
            rw [hmatch]
            rfl
  | tuple es =>
      have hes := fun fields => typeSignaturesToBuffer_iff es 0 fields
      unfold typeSignatureToBuffer HasType
      simp only [bind_eq_ok_iff]
      constructor
      · rintro ⟨fields, hfields, h⟩
        cases fields with
        | none => cases h
        | some fields =>
            cases h
            obtain ⟨htypes, hcount⟩ := (hes fields).mp hfields
            refine ⟨fields, rfl, htypes, ?_⟩
            rcases hcount with rfl | hcount
            · unfold intMax
              norm_num
            · rwa [Int.zero_add] at hcount
      · rintro ⟨fields, rfl, htypes, hcount⟩
        exact ⟨some fields, (hes fields).mpr ⟨htypes, .inr (by rwa [Int.zero_add])⟩, rfl⟩
  | variant v =>
      unfold typeSignatureToBuffer HasType
      simp [eq_comm]
  | nil | emptyObject o | bool b | nint i | nuint m | int i | uint m | float bits | pointer b | object o
  | weakObject o | string b | stringLiteral b =>
      refine typeSignatureToBuffer_scalar_iff ?_ t
      trivial

theorem typeSignaturesToBuffer_iff (es : List DiValue) (i : ℤ) (fields : List DbusType) :
    typeSignaturesToBuffer i es = .ok (some fields) ↔
      HasTypes es fields ∧ (es = [] ∨ i + es.length ≤ intMax) := by
  match es with
  | [] =>
      unfold typeSignaturesToBuffer HasTypes
      simp [eq_comm]
  | e :: es =>
      have he := typeSignatureToBuffer_iff e
      have hes := fun i fields => typeSignaturesToBuffer_iff es i fields
      unfold typeSignaturesToBuffer HasTypes
      constructor
      · intro h
        obtain ⟨t, ht, h⟩ := bind_eq_ok h
        cases t with
        | none => cases h
        | some t =>
            obtain ⟨i', hi, h⟩ := bind_eq_ok h
            obtain ⟨ts, hts, h⟩ := bind_eq_ok h
            cases ts with
            | none => cases h
            | some ts =>
                cases h
                obtain ⟨rfl, hmax⟩ := addInt_eq_ok.mp hi
                obtain ⟨htypes, hcount⟩ := (hes _ ts).mp hts
                refine ⟨⟨t, ts, rfl, (he t).mp ht, htypes⟩, .inr ?_⟩
                rw [List.length_cons]
                push_cast
                rcases hcount with rfl | hcount
                · rw [List.length_nil, Nat.cast_zero]
                  omega
                · omega
      · rintro ⟨⟨t, ts, rfl, ht, htypes⟩, hcount⟩
        rw [List.length_cons] at hcount
        push_cast at hcount
        have hcount : i + (es.length + 1) ≤ intMax := hcount.resolve_left nofun
        rw [(he t).mpr ht, ok_bind]
        dsimp only
        rw [addInt_eq_ok.mpr ⟨rfl, by omega⟩, ok_bind, (hes (i + 1) ts).mpr ⟨htypes, .inr (by omega)⟩]
        rfl
end

/-! ## Both passes -/

/-- The inference fails, or it succeeds and has written a signature of the length that the first
pass has computed, with a null character after it. -/
def SignatureFits (v : DiValue) : Prop :=
  ∃ r, typeSignatureOfDiValue v = .ok r ∧ ∀ rc b, r = some (rc, b) →
    typeSignatureLength v = .ok rc.length ∧ readByte b rc.length = .ok 0

theorem fits_of_untyped {v : DiValue} (h : Untyped v) : SignatureFits v := by
  refine ⟨none, ?_, nofun⟩
  unfold typeSignatureOfDiValue
  rw [(typeSignatureLength_spec v (-1)).mpr (.inl ⟨rfl, h⟩), ok_bind, if_pos (by norm_num)]

theorem fits_of_type {v : DiValue} {t : DbusType} (ht : HasType v t) (hcounts : Counts v (text t).length)
    (hmax : ((text t).length : ℤ) < intMax) : SignatureFits v := by
  have hlength : typeSignatureLength v = .ok ((text t).length : ℤ) :=
    (typeSignatureLength_spec v _).mpr (.inr ⟨_, rfl, hcounts⟩)
  have hsize : addInt (text t).length 1 = .ok ((text t).length + 1) := addInt_eq_ok.mpr ⟨rfl, by omega⟩
  obtain ⟨rc, b, hrc, hwritten⟩ := exists_written v t [] ((text t).length + 1)
    ((typeSignatureToBuffer_iff v t).mpr ht) (Nat.le_succ _)
  have hmemory : b = filled (text t) (0 + 1) := by
    rw [hwritten.memory, Nat.add_sub_cancel_left, List.nil_append]
  refine ⟨some (rc, filled (text t ++ [0]) 0), ?_, ?_⟩
  · unfold typeSignatureOfDiValue
    rw [hlength, ok_bind, if_neg (by omega), hsize, ok_bind]
    rw [List.length_nil, filled_nil] at hrc
    have htoNat : ((text t).length + 1 : ℤ).toNat = (text t).length + 1 := by omega
    rw [htoNat, hrc, ok_bind]
    dsimp only
    rw [if_neg (not_lt.mpr hwritten.nchild), hmemory, Int.toNat_natCast, writeByte_filled]
    rfl
  · intro rc' b' h
    cases h
    rw [hwritten.length]
    exact ⟨hlength, (at_filled_end (text t) [0] 0).read⟩

theorem type_of_fits {v : DiValue} (h : SignatureFits v) :
    Untyped v ∨ ∃ t, HasType v t ∧ Counts v (text t).length ∧ ((text t).length : ℤ) < intMax := by
  obtain ⟨r, hr, hfits⟩ := h
  unfold typeSignatureOfDiValue at hr
  obtain ⟨len, hlen, hr⟩ := bind_eq_ok hr
  rcases (typeSignatureLength_spec v len).mp hlen with ⟨rfl, huntyped⟩ | ⟨n, rfl, hcounts⟩
  · exact .inl huntyped
  · rw [if_neg (by omega)] at hr
    obtain ⟨size, hsize, hr⟩ := bind_eq_ok hr
    obtain ⟨⟨rc, b⟩, hrc, hr⟩ := bind_eq_ok hr
    dsimp only at hr
    split_ifs at hr with hnchild
    obtain ⟨b', -, hr⟩ := bind_eq_ok hr
    cases hr
    obtain ⟨hlength, -⟩ := hfits rc b' rfl
    rw [hlen] at hlength
    have hn : n = rc.length := by exact_mod_cast Except.ok.inj hlength
    obtain ⟨rfl, hmax⟩ := addInt_eq_ok.mp hsize
    rw [← filled_nil] at hrc
    rcases written_or_failed v [] _ rc b hrc with ⟨t, hwritten⟩ | hfailed
    · rw [hwritten.length] at hn
      subst hn
      exact .inr ⟨t, (typeSignatureToBuffer_iff v t).mp hwritten.type, hcounts, by omega⟩
    · exact absurd hfailed.nchild hnchild

/-- An inferred signature fits its buffer if and only if the value has a part without a type, not
inside of an array, or it has a type whose text is as long as what the first pass counts. -/
theorem signature_fits_iff (v : DiValue) :
    SignatureFits v ↔
      Untyped v ∨ ∃ t, HasType v t ∧ Counts v (text t).length ∧ ((text t).length : ℤ) < intMax := by
  constructor
  · exact type_of_fits
  · rintro (huntyped | ⟨t, ht, hcounts, hmax⟩)
    · exact fits_of_untyped huntyped
    · exact fits_of_type ht hcounts hmax

theorem not_fits_of_error {v : DiValue} {e : Trap} (h : typeSignatureOfDiValue v = .error e) :
    ¬ SignatureFits v := by
  rintro ⟨r, hr, -⟩
  cases h.symm.trans hr

/-- An empty array, an array of objects, an array of tuples of different types, and a variant with
an array in it. -/
theorem signature_does_not_fit :
    typeSignatureOfDiValue (.array .int []) = .error .badRead ∧
    typeSignatureOfDiValue (.array .object [.object 1]) = .error .badRead ∧
    typeSignatureOfDiValue (.array .tuple [.tuple [.int 1], .tuple [.string "a"]]) = .error .useAfterFree ∧
    ¬ SignatureFits (.array .int []) ∧ ¬ SignatureFits (.array .object [.object 1]) ∧
    ¬ SignatureFits (.array .tuple [.tuple [.int 1], .tuple [.string "a"]]) ∧
    ¬ SignatureFits (.variant (.array .int [.int 1])) := by
  refine ⟨rfl, rfl, rfl, not_fits_of_error rfl, not_fits_of_error rfl, not_fits_of_error rfl, ?_⟩
  rintro ⟨r, hr, hfits⟩
  cases hr
  cases (hfits _ _ rfl).1

end Deai.SignatureFitting
