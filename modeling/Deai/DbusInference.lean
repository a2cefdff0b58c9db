import Deai.DbusAppending

/-!
# Encoding with an inferred signature

The inference, the check of a value against a signature and the encoder each have their own idea of
which values fit which types. A tuple for which a signature was inferred is not always encoded with it.
-/
namespace Deai.DbusInference
open Fallible Value DbusMessage DbusSignatures DbusGrammar FilledBuffer SignatureBuffers SignatureReading SignatureWriting
  SignatureFitting DbusAppending
open Conversion (typeOf)
open DbusEncoding (Trap basicType addInt dbusSerializeStruct serializeFields)

variable (valid : DbusType → Bool)

/-! ## Values that are appended with their own types -/

theorem Counts.unique {v : DiValue} {m n : ℕ} (hm : Counts v m) (hn : Counts v n) : m = n := by
  have hm' := (typeSignatureLength_spec v m).mpr (.inr ⟨m, rfl, hm⟩)
  have hn' := (typeSignatureLength_spec v n).mpr (.inr ⟨n, rfl, hn⟩)
  exact_mod_cast Except.ok.inj (hm'.symm.trans hn')

theorem Counts.not_untyped {v : DiValue} {n : ℕ} (hn : Counts v n) : ¬ Untyped v := by
  intro huntyped
  have hn' := (typeSignatureLength_spec v n).mpr (.inr ⟨n, rfl, hn⟩)
  have hnot := (typeSignatureLength_spec v (-1)).mpr (.inl ⟨rfl, huntyped⟩)
  have heq := Except.ok.inj (hn'.symm.trans hnot)
  omega

/-- A value with a basic type has no parts. -/
theorem scalar_of_basic {v : DiValue} {b : DbusBasic} (h : HasType v (.basic b)) :
    Scalar v ∧ basicType (typeOf v) = some b := by
  cases v with
  | array t es =>
      cases es with
      | nil => exact h.elim
      | cons e es =>
          obtain ⟨elem, h, -⟩ := h
          cases h
  | tuple es =>
      obtain ⟨fields, h, -⟩ := h
      cases h
  | variant v => cases h
  | _ =>
      obtain ⟨b', hb', h⟩ := h
      cases h
      exact ⟨trivial, hb'⟩

theorem counts_scalar {v : DiValue} (hv : Scalar v) {n : ℕ} :
    Counts v n ↔ (basicType (typeOf v)).isSome ∧ n = 1 := by
  cases v with
  | array t es | tuple es | variant v => exact hv.elim
  | _ => rfl

theorem counts_basic {v : DiValue} {b : DbusBasic} (h : HasType v (.basic b)) : Counts v 1 := by
  obtain ⟨hscalar, hb⟩ := scalar_of_basic h
  rw [counts_scalar hscalar, hb]
  exact ⟨rfl, rfl⟩

theorem length_of_types {es : List DiValue} {fields : List DbusType} (h : HasTypes es fields) :
    fields.length = es.length := by
  induction es generalizing fields with
  | nil =>
      unfold HasTypes at h
      rw [h]
      rfl
  | cons e es ih =>
      obtain ⟨t, ts, rfl, -, hts⟩ := h
      exact congrArg (· + 1) (ih hts)

mutual
/-- Every variant that is appended contains something with a type. -/
theorem not_untyped (v : DiValue) (t : DbusType) (ht : HasType v t) (h : Appends valid v t) : ¬ Untyped v := by
  intro huntyped
  cases v with
  | array et es => exact huntyped
  | tuple es =>
      obtain ⟨fields, rfl, htypes, -⟩ := ht
      unfold Appends at h
      exact not_untypedAmong es fields htypes h 0 0 huntyped
  | variant v =>
      obtain rfl : t = .variant := ht
      unfold Appends at h
      obtain ⟨s, hs, -⟩ := h
      exact Counts.not_untyped hs.2.1 huntyped
  | nil | emptyObject o | bool b | nint i | nuint m | int i | uint m | float bits | pointer b | object o
  | weakObject o | string b | stringLiteral b =>
      obtain ⟨b, hb, rfl⟩ := ht
      unfold Untyped at huntyped
      rw [hb] at huntyped
      cases huntyped

theorem not_untypedAmong (es : List DiValue) (fields : List DbusType) (ht : HasTypes es fields)
    (h : AppendsFields valid es fields) (i ret : ℕ) : ¬ UntypedAmong i ret es := by
  match es with
  | [] => exact id
  | e :: es =>
      obtain ⟨t, ts, rfl, he, hes⟩ := ht
      obtain ⟨t', ts', heq, hae, haes⟩ := h
      cases heq
      rintro (huntyped | ⟨m, -, -, -, huntyped⟩)
      · exact not_untyped e t he hae huntyped
      · exact not_untypedAmong es ts hes haes (i + 1) (ret + m) huntyped
end

/-- The first element of an array that is appended. -/
theorem first_appended {t : DiType} {e : DiValue} {es : List DiValue} {elem : DbusType} (ht : HasType e elem)
    (h : Appends valid (.array t (e :: es)) (.array elem)) : Counts e 1 ∧ (text elem).length = 1 ∨
      Appends valid e elem := by
  unfold Appends at h
  rcases h.2 with ⟨⟨b, -, -, rfl⟩, -⟩ | ⟨-, h⟩
  · exact .inl ⟨counts_basic ht, rfl⟩
  · exact .inr h.1

mutual
/-- The first pass counts enough for what is appended. -/
theorem length_le_counts (v : DiValue) (t : DbusType) (ht : HasType v t) (h : Appends valid v t) (n : ℕ)
    (hn : Counts v n) : (text t).length ≤ n := by
  cases v with
  | array et es =>
      cases es with
      | nil => exact hn.elim
      | cons e es =>
          obtain ⟨elem, rfl, he, -⟩ := ht
          have hrec := length_le_counts e elem he
          rw [text, List.length_cons]
          rcases hn with ⟨huntyped, rfl⟩ | ⟨m, hm, rfl, -⟩
          · rcases first_appended valid he h with ⟨hcounts, -⟩ | happends
            · exact absurd huntyped (Counts.not_untyped hcounts)
            · exact absurd huntyped (not_untyped valid e elem he happends)
          · rcases first_appended valid he h with ⟨hcounts, hlength⟩ | happends
            · obtain rfl := Counts.unique hcounts hm
              rw [hlength]
            · exact Nat.succ_le_succ (hrec happends m hm)
  | tuple es =>
      obtain ⟨fields, rfl, htypes, -⟩ := ht
      obtain ⟨m, hm, rfl, -⟩ := hn
      unfold Appends at h
      have hfields := length_le_countsAll es fields htypes h 0 0 m hm
      rw [text, List.length_cons, List.length_append, List.length_singleton]
      omega
  | variant v =>
      obtain rfl : t = .variant := ht
      unfold Appends at h
      obtain ⟨s, hs, -⟩ := h
      obtain rfl := Counts.unique hs.2.1 hn
      exact length_text_pos s
  | nil | emptyObject o | bool b | nint i | nuint m | int i | uint m | float bits | pointer b | object o
  | weakObject o | string b | stringLiteral b =>
      obtain ⟨b, -, rfl⟩ := ht
      exact le_of_eq hn.2.symm

theorem length_le_countsAll (es : List DiValue) (fields : List DbusType) (ht : HasTypes es fields)
    (h : AppendsFields valid es fields) (i ret n : ℕ) (hn : CountsAll i ret es n) :
    ret + (texts fields).length ≤ n := by
  match es with
  | [] =>
      unfold HasTypes at ht
      unfold CountsAll at hn
      rw [ht, hn]
      exact le_refl _
  | e :: es =>
      obtain ⟨t, ts, rfl, he, hes⟩ := ht
      obtain ⟨t', ts', heq, hae, haes⟩ := h
      cases heq
      obtain ⟨m, hm, -, -, hrest⟩ := hn
      have hlength := length_le_counts e t he hae m hm
      have hlengths := length_le_countsAll es ts hes haes (i + 1) (ret + m) n hrest
      rw [texts, List.length_append]
      omega
end

/-! ## Checking a value against its own type -/

mutual
theorem verify_own_type (v : DiValue) (t : DbusType) (ht : HasType v t) (h : Appends valid v t) :
    DbusEncoding.verifyTypeSignature v t = .ok true := by
  cases v with
  | array et es =>
      cases es with
      | nil => exact ht.elim
      | cons e es =>
          obtain ⟨elem, rfl, -, hverify⟩ := ht
          exact hverify
  | tuple es =>
      obtain ⟨fields, rfl, htypes, hcount⟩ := ht
      unfold Appends at h
      exact verify_own_types es fields htypes h 0 (.inr (by rwa [Int.zero_add]))
  | variant v =>
      obtain rfl : t = .variant := ht
      rfl
  | stringLiteral x =>
      obtain ⟨b, hb, rfl⟩ := ht
      cases hb
      obtain ⟨s, hs, -⟩ : AppendsBasic (.stringLiteral x) .string := h
      cases hs
  | bool b | nint i | nuint m | int i | uint m | float bits | string b =>
      obtain ⟨b, hb, rfl⟩ := ht
      cases hb
      rfl
  | nil | emptyObject o | pointer b | object o | weakObject o =>
      obtain ⟨b, hb, -⟩ := ht
      cases hb

theorem verify_own_types (es : List DiValue) (fields : List DbusType) (ht : HasTypes es fields)
    (h : AppendsFields valid es fields) (i : ℤ) (hcount : es = [] ∨ i + es.length ≤ intMax) :
    DbusEncoding.verifyFields i es fields = .ok true := by
  match es with
  | [] =>
      unfold HasTypes at ht
      rw [ht]
      rfl
  | e :: es =>
      obtain ⟨t, ts, rfl, he, hes⟩ := ht
      obtain ⟨t', ts', heq, hae, haes⟩ := h
      cases heq
      have hcount := hcount.resolve_left nofun
      rw [List.length_cons, Nat.cast_succ] at hcount
      unfold DbusEncoding.verifyFields
      rw [verify_own_type e t he hae, ok_bind, if_pos rfl, addInt_eq_ok.mpr ⟨rfl, by omega⟩, ok_bind]
      exact verify_own_types es ts hes haes (i + 1) (.inr (by omega))
end

/-! ## Inferred signatures -/

/-- A signature that was inferred for a value. -/
theorem of_inferred {v : DiValue} {rc : Node} {b : Memory} (h : typeSignatureOfDiValue v = .ok (some (rc, b))) :
    ∃ t n, Counts v n ∧ HasType v t ∧ DictFree t ∧ (n : ℤ) < intMax ∧ (text t).length ≤ n + 1 ∧
      rc.length = (text t).length ∧ writeByte (filled (text t) (n + 1 - (text t).length)) n 0 = .ok b := by
  unfold typeSignatureOfDiValue at h
  obtain ⟨len, hlen, h⟩ := bind_eq_ok h
  rcases (typeSignatureLength_spec v len).mp hlen with ⟨rfl, -⟩ | ⟨n, rfl, hcounts⟩
  · cases h
  · rw [if_neg (by omega)] at h
    obtain ⟨size, hsize, h⟩ := bind_eq_ok h
    obtain ⟨⟨rc', b'⟩, hrc, h⟩ := bind_eq_ok h
    dsimp only at h
    split_ifs at h with hnchild
    obtain ⟨b'', hb, h⟩ := bind_eq_ok h
    cases h
    obtain ⟨rfl, hmax⟩ := addInt_eq_ok.mp hsize
    have htoNat : ((n : ℤ) + 1).toNat = n + 1 := by omega
    rw [← filled_nil, htoNat] at hrc
    rcases written_or_failed v [] _ rc b' hrc with ⟨t, hwritten⟩ | hfailed
    · refine ⟨t, n, hcounts, (typeSignatureToBuffer_iff v t).mp hwritten.type, hwritten.dictFree, by omega,
        hwritten.room, hwritten.length, ?_⟩
      rw [hwritten.memory, List.nil_append, Int.toNat_natCast] at hb
      exact hb
    · exact absurd hfailed.nchild hnchild

/-- A tuple matches the signature that was inferred for it, to its end, and is encoded. -/
def Serialized (es : List DiValue) (rc : Node) (b : Memory) : Prop :=
  verifyTypeSignature b (.tuple es) 0 = .ok (some rc.length) ∧
    ∃ body, dbusSerializeStruct valid es = .ok (some body)

/-- The text of the signature is all there, so that the tuple is checked against it. -/
theorem verify_inferred {es : List DiValue} {rc : Node} {b : Memory} {fields : List DbusType}
    (h : typeSignatureOfDiValue (.tuple es) = .ok (some (rc, b))) (htypes : HasTypes es fields)
    (hcount : (es.length : ℤ) ≤ intMax) (hfields : AppendsFields valid es fields) :
    verifyTypeSignature b (.tuple es) 0 = .ok (some rc.length) := by
  obtain ⟨t, n, hcounts, ht, hfree, -, -, hlength, hb⟩ := of_inferred h
  have hown : HasType (.tuple es) (.struct fields) := ⟨fields, rfl, htypes, hcount⟩
  have happends : Appends valid (.tuple es) (.struct fields) := by
    unfold Appends
    exact hfields
  have heq : t = .struct fields := by
    have ht' := (typeSignatureToBuffer_iff (.tuple es) t).mpr ht
    have hown' := (typeSignatureToBuffer_iff (.tuple es) _).mpr hown
    exact Option.some.inj (Except.ok.inj (ht'.symm.trans hown'))
  subst heq
  have hle := length_le_counts valid (.tuple es) _ hown happends n hcounts
  have hat : At b 0 (text (.struct fields)) :=
    (at_filled_end [] (text (.struct fields)) _).write (by simpa using hle) hb
  rw [verify_text (.tuple es) _ hfree b 0 hat, verify_own_type valid (.tuple es) _ hown happends, ok_bind, hlength,
    Nat.zero_add]
  rfl

end Deai.DbusInference
