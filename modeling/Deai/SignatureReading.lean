import Deai.SignatureBuffers
import Deai.DbusGrammar
import Deai.Fallible

/-!
# Signatures in a buffer

Reading the text of a type from a buffer is the same as looking at the type. So
`verify_type_signature` on a buffer is the function of the same name on types.
-/
namespace Deai.SignatureReading
open Fallible Value DbusMessage DbusSignatures DbusGrammar FilledBuffer SignatureBuffers
open Conversion (typeOf)
open DbusEncoding (Trap basicType addInt)

/-- The rest of a signature that does or does not match. -/
def restOf (ok : Bool) (rest : ℕ) : Option ℕ := if ok then some rest else none

/-! ## Texts in a buffer -/

/-- The text is in the buffer, at `p`. -/
def At (b : Memory) (p : ℕ) (x : Text) : Prop := ∀ i c, x[i]? = some c → b[p + i]? = some (some c)

variable {b : Memory} {p : ℕ}

theorem At.read {c : UInt8} {x : Text} (h : At b p (c :: x)) : readByte b p = .ok c := by
  have hc : b[p]? = some (some c) := h 0 c rfl
  unfold readByte readCell
  rw [hc]

theorem At.right {x y : Text} (h : At b p (x ++ y)) : At b (p + x.length) y := by
  intro i c hc
  rw [Nat.add_assoc]
  refine h (x.length + i) c ?_
  rw [List.getElem?_append_right (Nat.le_add_right _ _), Nat.add_sub_cancel_left, hc]

theorem At.left {x y : Text} (h : At b p (x ++ y)) : At b p x := by
  intro i c hc
  refine h i c ?_
  rw [List.getElem?_append_left (List.getElem?_eq_some_iff.mp hc).choose, hc]

/-- A byte that is written behind a text leaves the text as it is. -/
theorem At.write {x : Text} (h : At b p x) {q : ℕ} {c : UInt8} {b' : Memory} (hq : p + x.length ≤ q)
    (hb : writeByte b q c = .ok b') : At b' p x := by
  unfold writeByte writeCell at hb
  split_ifs at hb
  cases hb
  intro i c' hc
  have hi := (List.getElem?_eq_some_iff.mp hc).choose
  rw [List.getElem?_set_ne (by omega), h i c' hc]

theorem At.tail {c : UInt8} {x : Text} (h : At b p (c :: x)) : At b (p + 1) x := At.right (x := [c]) h

/-! ## Characters -/

theorem isBasicTypeCompatible_code (t : DiType) (b : DbusBasic) :
    isBasicTypeCompatible t (code b) = DbusEncoding.isBasicTypeCompatible t (.basic b) := by
  cases b with
  | integer i => cases i <;> rfl
  | _ => rfl

/-- The first character of a type tells whether a basic value can be converted to it. -/
theorem isBasicTypeCompatible_text (t : DiType) {ty : DbusType} (hty : DictFree ty) :
    ∃ c cs, text ty = c :: cs ∧ isBasicTypeCompatible t c = DbusEncoding.isBasicTypeCompatible t ty ∧
      (cs = [] ∨ DbusEncoding.isBasicTypeCompatible t ty ≠ .ok true) := by
  cases ty with
  | basic b => exact ⟨_, _, rfl, isBasicTypeCompatible_code t b, .inl rfl⟩
  | variant => exact ⟨_, _, rfl, rfl, .inl rfl⟩
  | array elem => exact ⟨_, _, rfl, rfl, .inr nofun⟩
  | dict key value => exact hty.elim
  | struct fields => exact ⟨_, _, rfl, rfl, .inr nofun⟩

/-- No value matches the end of a struct. -/
theorem verify_structEnd (v : DiValue) {x : Text} (h : At b p (structEnd :: x)) :
    verifyTypeSignature b v p = .ok none := by
  have hread := h.read
  cases v with
  | variant v =>
      unfold verifyTypeSignature
      rw [hread, ok_bind, if_neg (by decide), verify_structEnd v h]
  | _ =>
      unfold verifyTypeSignature
      rw [hread]
      rfl

/-! ## Values against a text -/

/-- A value that has no elements and is not a variant. -/
def Scalar : DiValue → Prop
  | .array _ _ => False
  | .tuple _ => False
  | .variant _ => False
  | _ => True

def isVariant : DbusType → Bool
  | .variant => true
  | _ => false

theorem verifyTypeSignature_scalar {v : DiValue} (hv : Scalar v) (t : DbusType) :
    DbusEncoding.verifyTypeSignature v t =
      if (basicType (typeOf v)).isSome then DbusEncoding.isBasicTypeCompatible (typeOf v) t
      else .ok (isVariant t) := by
  cases v with
  | array t es | tuple es | variant v => exact hv.elim
  | _ => cases t <;> rfl

theorem verify_scalar {v : DiValue} (hv : Scalar v) {t : DbusType} (ht : DictFree t) (h : At b p (text t)) :
    verifyTypeSignature b v p =
      DbusEncoding.verifyTypeSignature v t >>= fun ok => .ok (restOf ok (p + (text t).length)) := by
  obtain ⟨c, cs, hc, hcompatible, hcs⟩ := isBasicTypeCompatible_text (typeOf v) ht
  have hread := (hc ▸ h).read
  have hleft : verifyTypeSignature b v p =
      if (basicType (typeOf v)).isSome then
        isBasicTypeCompatible (typeOf v) c >>= fun ok => .ok (if ok then some (p + 1) else none)
      else .ok (if c = variantCode then some (p + 1) else none) := by
    cases v with
    | array t es | tuple es | variant v => exact hv.elim
    | _ =>
        unfold verifyTypeSignature
        rw [hread]
        rfl
  rw [hleft, verifyTypeSignature_scalar hv]
  split_ifs with hbasic hvariant
  · rw [hcompatible]
    cases hr : DbusEncoding.isBasicTypeCompatible (typeOf v) t with
    | error e => rfl
    | ok ok =>
        cases ok with
        | false => rfl
        | true =>
            rcases hcs with rfl | hne
            · rw [hc]
              rfl
            · exact absurd hr hne
  · subst hvariant
    obtain ⟨rfl, rfl⟩ := variant_of_text (x := []) (hc.symm.trans (List.append_nil _).symm)
    rfl
  · cases t with
    | variant => exact absurd (List.cons.inj hc).1.symm hvariant
    | _ => rfl

theorem rest_struct (p : ℕ) (fields : List DbusType) :
    p + 1 + (texts fields).length + 1 = p + (text (.struct fields)).length := by
  rw [text, List.length_cons, List.length_append, List.length_singleton]
  omega

mutual
theorem verify_text (v : DiValue) (t : DbusType) (ht : DictFree t) (b : Memory) (p : ℕ) (h : At b p (text t)) :
    verifyTypeSignature b v p =
      DbusEncoding.verifyTypeSignature v t >>= fun ok => .ok (restOf ok (p + (text t).length)) := by
  cases v with
  | variant v =>
      have hv := verify_text v t ht b p h
      unfold verifyTypeSignature DbusEncoding.verifyTypeSignature
      cases t with
      | variant =>
          rw [h.read]
          rfl
      | basic c =>
          rw [h.read, ok_bind, if_neg (code_ne not_basic_variantCode), hv]
      | array elem =>
          rw [h.read, ok_bind, if_neg (by decide), hv]
      | dict key value => exact ht.elim
      | struct fields =>
          rw [h.read, ok_bind, if_neg (by decide), hv]
  | array et es =>
      unfold verifyTypeSignature DbusEncoding.verifyTypeSignature
      cases t with
      | variant =>
          rw [h.read]
          rfl
      | basic c =>
          rw [h.read, ok_bind, if_neg (code_ne not_basic_variantCode), if_neg (code_ne not_basic_arrayCode),
            if_neg (code_ne not_basic_structBegin)]
          rfl
      | dict key value => exact ht.elim
      | struct fields =>
          have hfields := verify_fields es fields ht b (p + 1) 0 h.tail
          rw [h.read, ok_bind, if_neg (by decide), if_neg (by decide), if_pos rfl, hfields, rest_struct]
      | array elem =>
          rw [h.read, ok_bind, if_neg (by decide), if_pos rfl]
          cases es with
          | nil => rfl
          | cons e es =>
              have he := verify_text e elem ht b (p + 1) h.tail
              have hes := fun first => verify_elements es elem ht b (p + 1) h.tail first 1
              have hlength : p + 1 + (text elem).length = p + (text (.array elem)).length := by
                rw [text, List.length_cons]
                omega
              rw [hlength] at he hes
              dsimp only
              rw [he]
              cases DbusEncoding.verifyTypeSignature e elem with
              | error e => rfl
              | ok first =>
                  rw [ok_bind, ok_bind, ok_bind]
                  split_ifs
                  · exact hes first
                  · rfl
  | tuple es =>
      unfold verifyTypeSignature DbusEncoding.verifyTypeSignature
      cases t with
      | variant =>
          rw [h.read]
          rfl
      | basic c =>
          rw [h.read, ok_bind, if_neg (code_ne not_basic_variantCode), if_neg (code_ne not_basic_structBegin)]
          rfl
      | dict key value => exact ht.elim
      | array elem =>
          rw [h.read]
          rfl
      | struct fields =>
          have hfields := verify_fields es fields ht b (p + 1) 0 h.tail
          rw [h.read, ok_bind, if_neg (by decide), if_pos rfl, hfields, rest_struct]
  | nil | emptyObject o | bool x | nint i | nuint m | int i | uint m | float bits | pointer x | object o
  | weakObject o | string x | stringLiteral x =>
      refine verify_scalar ?_ ht h
      trivial

theorem verify_elements (es : List DiValue) (elem : DbusType) (ht : DictFree elem) (b : Memory) (p : ℕ)
    (h : At b p (text elem)) (first : Bool) (i : ℤ) :
    verifyElements b (restOf first (p + (text elem).length)) i es p =
      DbusEncoding.verifyElements first i es elem >>= fun ok => .ok (restOf ok (p + (text elem).length)) := by
  match es with
  | [] => rfl
  | e :: es =>
      have he := verify_text e elem ht b p h
      have hes := fun i => verify_elements es elem ht b p h first i
      unfold verifyElements DbusEncoding.verifyElements
      rw [he]
      cases DbusEncoding.verifyTypeSignature e elem with
      | error e => rfl
      | ok ok =>
          rw [ok_bind, ok_bind, ok_bind]
          cases ok with
          | false => rfl
          | true =>
              cases first with
              | false => rfl
              | true =>
                  rw [if_neg (by simp [restOf])]
                  cases addInt i 1 with
                  | error e => rfl
                  | ok i => exact hes i

theorem verify_fields (es : List DiValue) (fields : List DbusType) (hfields : DictFreeAll fields) (b : Memory)
    (p : ℕ) (i : ℤ) (h : At b p (texts fields ++ [structEnd])) :
    verifyFields b i es p =
      DbusEncoding.verifyFields i es fields >>= fun ok => .ok (restOf ok (p + (texts fields).length + 1)) := by
  match es, fields with
  | [], [] =>
      unfold verifyFields DbusEncoding.verifyFields
      rw [h.read]
      rfl
  | [], field :: fields =>
      obtain ⟨c, cs, hc, hbegins⟩ := text_begins field
      have hne : c ≠ structEnd := by
        rintro rfl
        exact not_begins_structEnd hbegins
      rw [texts, hc] at h
      unfold verifyFields DbusEncoding.verifyFields
      rw [h.read, ok_bind, if_neg hne]
      rfl
  | e :: es, [] =>
      unfold verifyFields DbusEncoding.verifyFields
      rw [verify_structEnd e h]
      rfl
  | e :: es, field :: fields =>
      rw [texts, List.append_assoc] at h
      have he := verify_text e field hfields.1 b p h.left
      have hes := fun i => verify_fields es fields hfields.2 b (p + (text field).length) i h.right
      unfold verifyFields DbusEncoding.verifyFields
      rw [he]
      cases DbusEncoding.verifyTypeSignature e field with
      | error e => rfl
      | ok ok =>
          rw [ok_bind, ok_bind, ok_bind]
          cases ok with
          | false => rfl
          | true =>
              dsimp only [restOf, if_true]
              cases addInt i 1 with
              | error e => rfl
              | ok i =>
                  have hlength : p + (text field).length + (texts fields).length =
                      p + (texts (field :: fields)).length := by
                    rw [texts, List.length_append]
                    omega
                  rw [← hlength]
                  exact hes i
end

end Deai.SignatureReading
