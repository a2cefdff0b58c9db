import Deai.SignatureReading
import Deai.DbusDecoding

/-!
# What the second pass leaves in the buffer

The second pass writes from the front, so the buffer is always a text with nothing behind it. If it
succeeds the text is that of the type of the value. If it fails the array around the value does not
match what was written either.
-/
namespace Deai.SignatureWriting
open Fallible Value DbusMessage DbusSignatures DbusGrammar FilledBuffer SignatureBuffers SignatureReading
open Conversion (typeOf)
open DbusEncoding (Trap basicType addInt typeSignatureToBuffer typeSignaturesToBuffer)

theorem writeByte_filled (s : Text) (c : UInt8) (n : ℕ) :
    writeByte (filled s (n + 1)) s.length c = .ok (filled (s ++ [c]) n) := writeCell_filled _ s c n

/-- A byte is only written where there is room for it. -/
theorem of_writeByte {s : Text} {c : UInt8} {n : ℕ} {b : Memory} (h : writeByte (filled s n) s.length c = .ok b) :
    ∃ m, n = m + 1 ∧ b = filled (s ++ [c]) m := by
  cases n with
  | zero => cases h.symm.trans (writeCell_full _ s c)
  | succ m => exact ⟨m, rfl, (Except.ok.inj (h.symm.trans (writeByte_filled s c m)))⟩

theorem at_filled_end (s x : Text) (n : ℕ) : At (filled (s ++ x) n) s.length x := by
  intro i c hc
  have hi := (List.getElem?_eq_some_iff.mp hc).choose
  unfold filled
  rw [List.map_append, List.append_assoc, List.getElem?_append_right (by simp), List.length_map,
    Nat.add_sub_cancel_left, List.getElem?_append_left (by simpa using hi), List.getElem?_map, hc]
  rfl

theorem at_filled (s x s' : Text) (n : ℕ) : At (filled (s ++ (x ++ s')) n) s.length x :=
  (at_filled_end s (x ++ s') n).left

/-! ## Outcomes -/

/-- The second pass has written the type of a value. -/
structure Written (v : DiValue) (s : Text) (n : ℕ) (t : DbusType) (node : Node) (b : Memory) : Prop where
  type : typeSignatureToBuffer v = .ok (some t)
  dictFree : DictFree t
  room : (text t).length ≤ n
  memory : b = filled (s ++ text t) (n - (text t).length)
  length : node.length = (text t).length
  nchild : 0 ≤ node.nchild

/-- The second pass has failed. -/
structure Failed (v : DiValue) (s : Text) (node : Node) (b : Memory) : Prop where
  nchild : node.nchild < 0
  memory : ∃ x n, b = filled (s ++ x) n
  unmatched : ∀ q, verifyTypeSignature b v s.length ≠ .ok (some q)

/-- The loop over the elements of a tuple has written their types and the end of the struct. -/
structure WrittenFields (i : ℤ) (es : List DiValue) (s : Text) (n : ℕ) (ret : Node) (fields : List DbusType)
    (node : Node) (b : Memory) : Prop where
  types : typeSignaturesToBuffer i es = .ok (some fields)
  dictFree : DictFreeAll fields
  room : (texts fields).length + 1 ≤ n
  memory : b = filled (s ++ (texts fields ++ [structEnd])) (n - ((texts fields).length + 1))
  length : node.length = ret.length + (texts fields).length
  nchild : node.nchild = ret.nchild
  count : es = [] ∨ i + es.length ≤ intMax

structure FailedFields (es : List DiValue) (s : Text) (node : Node) (b : Memory) : Prop where
  nchild : node.nchild < 0
  memory : ∃ x n, b = filled (s ++ x) n
  unmatched : ∀ i q, verifyFields b i es s.length ≠ .ok (some q)

/-! ## Values without elements -/

theorem toBuffer_scalar {v : DiValue} (hv : Scalar v) (p : ℕ) (b : Memory) :
    toBuffer v p b =
      match basicType (typeOf v) with
      | some dtype => writeByte b p (code dtype) >>= fun b => .ok (⟨p, 1, 0, []⟩, b)
      | none => .ok (invalidNode, b) := by
  cases v with
  | array t es | tuple es | variant v => exact hv.elim
  | _ => rfl

theorem typeSignatureToBuffer_scalar {v : DiValue} (hv : Scalar v) :
    typeSignatureToBuffer v = .ok ((basicType (typeOf v)).map .basic) := by
  cases v with
  | array t es | tuple es | variant v => exact hv.elim
  | _ => rfl

/-- Nothing was written for a value without a type, so there is nothing to match. -/
theorem verify_end {v : DiValue} (hv : Scalar v) (s : Text) (n : ℕ) :
    ∃ e, verifyTypeSignature (filled s n) v s.length = .error e := by
  obtain ⟨e, he⟩ := readCell_end Trap.badRead .uninitialized s n
  refine ⟨e, ?_⟩
  cases v with
  | array t es | tuple es | variant v => exact hv.elim
  | _ =>
      unfold verifyTypeSignature readByte
      rw [he]
      rfl

theorem written_or_failed_scalar {v : DiValue} (hv : Scalar v) {s : Text} {n : ℕ} {node : Node} {b : Memory}
    (h : toBuffer v s.length (filled s n) = .ok (node, b)) :
    (∃ t, Written v s n t node b) ∨ Failed v s node b := by
  rw [toBuffer_scalar hv] at h
  have htype := typeSignatureToBuffer_scalar hv
  cases hbasic : basicType (typeOf v) with
  | some dtype =>
      rw [hbasic] at h htype
      obtain ⟨b', hb', h⟩ := bind_eq_ok h
      obtain ⟨m, rfl, rfl⟩ := of_writeByte hb'
      cases h
      exact .inl ⟨.basic dtype, htype, trivial, by simp [text], rfl, rfl, le_refl _⟩
  | none =>
      rw [hbasic] at h
      cases h
      refine .inr ⟨by decide, ⟨[], n, by rw [List.append_nil]⟩, fun q hq => ?_⟩
      obtain ⟨e, he⟩ := verify_end hv s n
      cases he.symm.trans hq

/-! ## Arrays -/

/-- If the first element does not match, no array does. -/
theorem unmatched_elements {b : Memory} {es : List DiValue} {i : ℤ} {p q : ℕ} :
    verifyElements b none i es p ≠ .ok (some q) := by
  intro h
  cases es with
  | nil => cases h
  | cons e es =>
      unfold verifyElements at h
      obtain ⟨ret, -, h⟩ := bind_eq_ok h
      rw [if_pos (by cases ret <;> simp)] at h
      cases h

theorem unmatched_array {b : Memory} {t : DiType} {e : DiValue} {es : List DiValue} {p : ℕ} {x : Text}
    (h : At b p (arrayCode :: x)) (he : ∀ q, verifyTypeSignature b e (p + 1) ≠ .ok (some q)) (q : ℕ) :
    verifyTypeSignature b (.array t (e :: es)) p ≠ .ok (some q) := by
  intro hq
  unfold verifyTypeSignature at hq
  rw [h.read, ok_bind, if_neg (by decide), if_pos rfl] at hq
  obtain ⟨ret, hret, hq⟩ := bind_eq_ok hq
  cases ret with
  | some q' => exact he q' hret
  | none =>
      split_ifs at hq
      · exact unmatched_elements hq
      · cases hq

/-- The array around an element that was written. -/
theorem array_written {t : DiType} {e : DiValue} {es : List DiValue} {s : Text} {n : ℕ} {elem : DbusType}
    {res node : Node} {b b' : Memory} (he : Written e (s ++ [arrayCode]) n elem res b)
    (h : (verifyTypeSignature b (.array t (e :: es)) s.length >>= fun v =>
      match v with
      | none => .ok (invalidNode, b)
      | some _ => .ok (⟨s.length, res.length + 1, 1, [res]⟩, b)) = .ok (node, b')) :
    (∃ t', Written (.array t (e :: es)) s (n + 1) t' node b') ∨ Failed (.array t (e :: es)) s node b' := by
  have hmemory : b = filled (s ++ text (.array elem)) (n - (text elem).length) := by
    rw [he.memory, text, List.append_assoc]
    rfl
  have hverify := verify_text (.array t (e :: es)) (.array elem) he.dictFree b s.length
    (hmemory ▸ at_filled_end s (text (.array elem)) _)
  obtain ⟨v, hv, h⟩ := bind_eq_ok h
  rw [hv] at hverify
  cases hmatch : DbusEncoding.verifyTypeSignature (.array t (e :: es)) (.array elem) with
  | error e =>
      rw [hmatch] at hverify
      cases hverify
  | ok ok =>
      rw [hmatch, ok_bind] at hverify
      cases ok with
      | false =>
          cases hverify
          cases h
          refine .inr ⟨by decide, ⟨_, _, hmemory⟩, fun q hq => ?_⟩
          cases hv.symm.trans hq
      | true =>
          cases hverify
          cases h
          refine .inl ⟨.array elem, ?_, he.dictFree, ?_, ?_, ?_, Int.one_nonneg⟩
          · unfold typeSignatureToBuffer
            rw [he.type, ok_bind]
            dsimp only
            rw [hmatch]
            rfl
          · rw [text, List.length_cons]
            exact Nat.succ_le_succ he.room
          · rw [hmemory, text, List.length_cons, Nat.succ_sub_succ]
          · rw [text, List.length_cons, ← he.length]

/-- The array around an element that was not. -/
theorem array_failed {t : DiType} {e : DiValue} {es : List DiValue} {s : Text} {res node : Node} {b b' : Memory}
    (he : Failed e (s ++ [arrayCode]) res b)
    (h : (verifyTypeSignature b (.array t (e :: es)) s.length >>= fun v =>
      match v with
      | none => .ok (invalidNode, b)
      | some _ => .ok (⟨s.length, res.length + 1, 1, [res]⟩, b)) = .ok (node, b')) :
    Failed (.array t (e :: es)) s node b' := by
  obtain ⟨x, n, rfl⟩ := he.memory
  have hat : At (filled (s ++ [arrayCode] ++ x) n) s.length (arrayCode :: x) := by
    rw [List.append_assoc]
    exact at_filled_end s (arrayCode :: x) n
  have hunmatched : ∀ q, verifyTypeSignature _ (.array t (e :: es)) s.length ≠ .ok (some q) :=
    unmatched_array hat (by simpa using he.unmatched)
  obtain ⟨v, hv, h⟩ := bind_eq_ok h
  cases v with
  | some q => exact absurd hv (hunmatched q)
  | none =>
      cases h
      exact ⟨by decide, ⟨arrayCode :: x, n, by simp⟩, hunmatched⟩

/-! ## Tuples -/

/-- The elements of a tuple after one that was written. -/
theorem fields_written {i i' : ℤ} {e : DiValue} {es : List DiValue} {s : Text} {n : ℕ} {t : DbusType}
    {fields : List DbusType} {ret child node : Node} {b b' : Memory} (hi : addInt i 1 = .ok i')
    (he : Written e s n t child b)
    (hes : WrittenFields i' es (s ++ text t) (n - (text t).length)
      ⟨ret.start, ret.length + child.length, ret.nchild, ret.child ++ [child]⟩ fields node b') :
    WrittenFields i (e :: es) s n ret (t :: fields) node b' := by
  have hle := he.room
  have hroom := hes.room
  have hlength : (texts (t :: fields)).length = (text t).length + (texts fields).length := by
    rw [texts, List.length_append]
  refine ⟨?_, ⟨he.dictFree, hes.dictFree⟩, ?_, ?_, ?_, hes.nchild, .inr ?_⟩
  · unfold typeSignaturesToBuffer
    rw [he.type, ok_bind]
    dsimp only
    rw [hi, ok_bind, hes.types]
    rfl
  · omega
  · rw [hes.memory, texts, List.append_assoc, List.append_assoc, List.length_append]
    congr 1
    omega
  · rw [hes.length, he.length, hlength]
    dsimp only
    omega
  · unfold addInt at hi
    split_ifs at hi with hmax
    cases hi
    rw [List.length_cons]
    push_cast
    rcases hes.count with rfl | hcount
    · simpa using hmax
    · omega

theorem failed_fields_cons {e : DiValue} {es : List DiValue} {s : Text} {n : ℕ} {t : DbusType} {child node : Node}
    {b b' : Memory} (he : Written e s n t child b) (hes : FailedFields es (s ++ text t) node b') :
    FailedFields (e :: es) s node b' := by
  obtain ⟨x, m, rfl⟩ := hes.memory
  refine ⟨hes.nchild, ⟨text t ++ x, m, by rw [List.append_assoc]⟩, fun i q hq => ?_⟩
  have hat : At (filled (s ++ text t ++ x) m) s.length (text t) := by
    rw [List.append_assoc]
    exact at_filled s (text t) x m
  unfold verifyFields at hq
  rw [verify_text e t he.dictFree _ _ hat] at hq
  obtain ⟨ret, hret, hq⟩ := bind_eq_ok hq
  obtain ⟨ok, -, hret⟩ := bind_eq_ok hret
  cases hret
  cases ok with
  | false => cases hq
  | true =>
      obtain ⟨i', -, hq⟩ := bind_eq_ok hq
      rw [← List.length_append] at hq
      exact hes.unmatched i' q hq

theorem failed_fields_head {e : DiValue} {es : List DiValue} {s : Text} {child : Node} {b : Memory}
    (he : Failed e s child b) : FailedFields (e :: es) s child b := by
  refine ⟨he.nchild, he.memory, fun i q hq => ?_⟩
  unfold verifyFields at hq
  obtain ⟨ret, hret, hq⟩ := bind_eq_ok hq
  cases ret with
  | none => cases hq
  | some next => exact he.unmatched next hret

theorem toInt_nonneg {n : ℕ} (hn : (n : ℤ) ≤ intMax) : 0 ≤ toInt n := by
  unfold intMax at hn
  rw [toInt, Int.bmod_def]
  split_ifs <;> omega

theorem tuple_written {es : List DiValue} {s : Text} {n : ℕ} {fields : List DbusType} {node : Node} {b : Memory}
    (h : WrittenFields 0 es (s ++ [structBegin]) n ⟨s.length, 2, toInt es.length, []⟩ fields node b) :
    Written (.tuple es) s (n + 1) (.struct fields) node b := by
  have hlength : (text (.struct fields)).length = (texts fields).length + 2 := by
    simp [text]
  have hroom := h.room
  have hcount : (es.length : ℤ) ≤ intMax := by
    rcases h.count with rfl | hcount
    · unfold intMax
      norm_num
    · rwa [Int.zero_add] at hcount
  refine ⟨?_, h.dictFree, by omega, ?_, ?_, ?_⟩
  · unfold typeSignatureToBuffer
    rw [h.types]
    rfl
  · rw [h.memory, hlength, text, List.append_assoc]
    congr 1
    omega
  · rw [h.length, hlength]
    dsimp only
    omega
  · have hnchild := h.nchild
    dsimp only at hnchild
    rw [hnchild]
    exact toInt_nonneg hcount

theorem tuple_failed {es : List DiValue} {s : Text} {node : Node} {b : Memory}
    (h : FailedFields es (s ++ [structBegin]) node b) : Failed (.tuple es) s node b := by
  obtain ⟨x, m, rfl⟩ := h.memory
  refine ⟨h.nchild, ⟨structBegin :: x, m, by simp⟩, fun q hq => ?_⟩
  have hat : At (filled (s ++ [structBegin] ++ x) m) s.length (structBegin :: x) := by
    rw [List.append_assoc]
    exact at_filled_end s (structBegin :: x) m
  unfold verifyTypeSignature at hq
  rw [hat.read, ok_bind, if_neg (by decide), if_pos rfl] at hq
  exact h.unmatched 0 q (by simpa using hq)

/-! ## Every value -/

mutual
theorem written_or_failed (v : DiValue) (s : Text) (n : ℕ) (node : Node) (b : Memory)
    (h : toBuffer v s.length (filled s n) = .ok (node, b)) :
    (∃ t, Written v s n t node b) ∨ Failed v s node b := by
  cases v with
  | array t es =>
      cases es with
      | nil =>
          unfold toBuffer at h
          obtain ⟨b', -, h⟩ := bind_eq_ok h
          cases h
      | cons e es =>
          unfold toBuffer at h
          obtain ⟨b', hb', h⟩ := bind_eq_ok h
          obtain ⟨m, rfl, rfl⟩ := of_writeByte hb'
          obtain ⟨⟨res, b''⟩, hres, h⟩ := bind_eq_ok h
          have hlength : s.length + 1 = (s ++ [arrayCode]).length := by
            rw [List.length_append, List.length_singleton]
          rw [hlength] at hres
          rcases written_or_failed e (s ++ [arrayCode]) m res b'' hres with ⟨elem, he⟩ | he
          · exact array_written he h
          · exact .inr (array_failed he h)
  | tuple es =>
      unfold toBuffer at h
      obtain ⟨b', hb', h⟩ := bind_eq_ok h
      obtain ⟨m, rfl, rfl⟩ := of_writeByte hb'
      have hlength : s.length + 1 = (s ++ [structBegin]).length := by
        rw [List.length_append, List.length_singleton]
      rw [hlength] at h
      rcases fields_written_or_failed es 0 (s ++ [structBegin]) m _ node b h with ⟨fields, hes⟩ | hes
      · exact .inl ⟨_, tuple_written hes⟩
      · exact .inr (tuple_failed hes)
  | variant v =>
      unfold toBuffer at h
      obtain ⟨b', hb', h⟩ := bind_eq_ok h
      obtain ⟨m, rfl, rfl⟩ := of_writeByte hb'
      cases h
      exact .inl ⟨.variant, rfl, trivial, by simp [text], rfl, rfl, le_refl _⟩
  | nil | emptyObject o | bool x | nint i | nuint m | int i | uint m | float bits | pointer x | object o
  | weakObject o | string x | stringLiteral x =>
      refine written_or_failed_scalar ?_ h
      trivial

theorem fields_written_or_failed (es : List DiValue) (i : ℤ) (s : Text) (n : ℕ) (ret node : Node) (b : Memory)
    (h : fieldsToBuffer i es s.length ret (filled s n) = .ok (node, b)) :
    (∃ fields, WrittenFields i es s n ret fields node b) ∨ FailedFields es s node b := by
  match es with
  | [] =>
      unfold fieldsToBuffer at h
      obtain ⟨b', hb', h⟩ := bind_eq_ok h
      obtain ⟨m, rfl, rfl⟩ := of_writeByte hb'
      cases h
      exact .inl ⟨[], by unfold typeSignaturesToBuffer; rfl, trivial, by simp [texts], rfl, rfl, rfl, .inl rfl⟩
  | e :: es =>
      unfold fieldsToBuffer at h
      obtain ⟨⟨child, b'⟩, hchild, h⟩ := bind_eq_ok h
      dsimp only at h
      rcases written_or_failed e s n child b' hchild with ⟨t, he⟩ | he
      · rw [if_neg (not_lt.mpr he.nchild)] at h
        obtain ⟨i', hi, h⟩ := bind_eq_ok h
        rw [he.length, ← List.length_append, he.memory, ← he.length] at h
        rcases fields_written_or_failed es i' (s ++ text t) _ _ node b h with ⟨fields, hes⟩ | hes
        · rw [he.length] at hes
          exact .inl ⟨t :: fields, fields_written hi he (he.length ▸ hes)⟩
        · exact .inr (failed_fields_cons he hes)
      · rw [if_pos he.nchild] at h
        cases h
        exact .inr (failed_fields_head he)
end

/-! ## Values with a type -/

theorem array_of_element {t : DiType} {e : DiValue} {es : List DiValue} {s : Text} {n : ℕ} {elem : DbusType}
    {res : Node} {b : Memory} (he : Written e (s ++ [arrayCode]) n elem res b)
    (hmatch : DbusEncoding.verifyTypeSignature (.array t (e :: es)) (.array elem) = .ok true) :
    ∃ node b', (verifyTypeSignature b (.array t (e :: es)) s.length >>= fun v =>
      match v with
      | none => .ok (invalidNode, b)
      | some _ => .ok (⟨s.length, res.length + 1, 1, [res]⟩, b)) = .ok (node, b') ∧ 0 ≤ node.nchild := by
  have hmemory : b = filled (s ++ text (.array elem)) (n - (text elem).length) := by
    rw [he.memory, text, List.append_assoc]
    rfl
  rw [verify_text (.array t (e :: es)) (.array elem) he.dictFree b s.length
    (hmemory ▸ at_filled_end s (text (.array elem)) _), hmatch]
  exact ⟨_, _, rfl, Int.one_nonneg⟩

mutual
theorem exists_written (v : DiValue) (t : DbusType) (s : Text) (n : ℕ)
    (ht : typeSignatureToBuffer v = .ok (some t)) (hn : (text t).length ≤ n) :
    ∃ node b, toBuffer v s.length (filled s n) = .ok (node, b) ∧ Written v s n t node b := by
  have hmain : ∃ node b, toBuffer v s.length (filled s n) = .ok (node, b) ∧ 0 ≤ node.nchild := by
    cases v with
    | array et es =>
        cases es with
        | nil => cases ht
        | cons e es =>
            unfold typeSignatureToBuffer at ht
            obtain ⟨elem, helem, ht⟩ := bind_eq_ok ht
            cases elem with
            | none => cases ht
            | some elem =>
                obtain ⟨ok, hmatch, ht⟩ := bind_eq_ok ht
                cases ok with
                | false => cases ht
                | true =>
                    cases ht
                    obtain ⟨m, rfl⟩ : ∃ m, n = m + 1 := Nat.exists_eq_add_one_of_ne_zero (by
                      rw [text, List.length_cons] at hn
                      omega)
                    rw [text, List.length_cons, Nat.add_le_add_iff_right] at hn
                    obtain ⟨res, b, hres, hwritten⟩ := exists_written e elem (s ++ [arrayCode]) m helem hn
                    unfold toBuffer
                    rw [writeByte_filled, ok_bind]
                    rw [List.length_append, List.length_singleton] at hres
                    rw [hres, ok_bind]
                    exact array_of_element hwritten hmatch
    | tuple es =>
        unfold typeSignatureToBuffer at ht
        obtain ⟨fields, hfields, ht⟩ := bind_eq_ok ht
        cases fields with
        | none => cases ht
        | some fields =>
            cases ht
            have hlength : (text (.struct fields)).length = (texts fields).length + 2 := by
              simp [text]
            obtain ⟨m, rfl⟩ : ∃ m, n = m + 1 := Nat.exists_eq_add_one_of_ne_zero (by omega)
            obtain ⟨node, b, hnode, hwritten⟩ := exists_written_fields es 0 fields (s ++ [structBegin]) m
              ⟨s.length, 2, toInt es.length, []⟩ hfields (by omega)
            rw [List.length_append, List.length_singleton] at hnode
            unfold toBuffer
            rw [writeByte_filled, ok_bind, hnode]
            exact ⟨node, b, rfl, (tuple_written hwritten).nchild⟩
    | variant v =>
        cases ht
        obtain ⟨m, rfl⟩ : ∃ m, n = m + 1 := Nat.exists_eq_add_one_of_ne_zero (by
          rw [text, List.length_singleton] at hn
          omega)
        unfold toBuffer
        rw [writeByte_filled]
        exact ⟨_, _, rfl, le_refl _⟩
    | nil | emptyObject o | pointer x | object o | weakObject o => cases ht
    | bool x | nint i | nuint m | int i | uint m | float bits | string x | stringLiteral x =>
        cases ht
        obtain ⟨m, rfl⟩ : ∃ m, n = m + 1 := Nat.exists_eq_add_one_of_ne_zero (by
          rw [text, List.length_singleton] at hn
          omega)
        unfold toBuffer
        dsimp only [basicType, typeOf]
        rw [writeByte_filled]
        exact ⟨_, _, rfl, le_refl _⟩
  obtain ⟨node, b, h, hnchild⟩ := hmain
  refine ⟨node, b, h, ?_⟩
  rcases written_or_failed v s n node b h with ⟨t', hwritten⟩ | hfailed
  · have htype := hwritten.type
    rw [ht] at htype
    cases htype
    exact hwritten
  · exact absurd hfailed.nchild (not_lt.mpr hnchild)

theorem exists_written_fields (es : List DiValue) (i : ℤ) (fields : List DbusType) (s : Text) (n : ℕ) (ret : Node)
    (ht : typeSignaturesToBuffer i es = .ok (some fields)) (hn : (texts fields).length + 1 ≤ n) :
    ∃ node b, fieldsToBuffer i es s.length ret (filled s n) = .ok (node, b) ∧
      WrittenFields i es s n ret fields node b := by
  match es with
  | [] =>
      unfold typeSignaturesToBuffer at ht
      cases ht
      obtain ⟨m, rfl⟩ : ∃ m, n = m + 1 := Nat.exists_eq_add_one_of_ne_zero (by omega)
      unfold fieldsToBuffer
      rw [writeByte_filled]
      exact ⟨_, _, rfl, by unfold typeSignaturesToBuffer; rfl, trivial, by simp [texts], rfl, rfl, rfl, .inl rfl⟩
  | e :: es =>
      unfold typeSignaturesToBuffer at ht
      obtain ⟨t, htype, ht⟩ := bind_eq_ok ht
      cases t with
      | none => cases ht
      | some t =>
          obtain ⟨i', hi, ht⟩ := bind_eq_ok ht
          obtain ⟨ts, hts, ht⟩ := bind_eq_ok ht
          cases ts with
          | none => cases ht
          | some ts =>
              cases ht
              rw [texts, List.length_append] at hn
              obtain ⟨child, b, hchild, hwritten⟩ := exists_written e t s n htype (by omega)
              obtain ⟨node, b', hnode, hrest⟩ := exists_written_fields es i' ts (s ++ text t)
                (n - (text t).length)
                ⟨ret.start, ret.length + child.length, ret.nchild, ret.child ++ [child]⟩ hts (by omega)
              refine ⟨node, b', ?_, fields_written hi hwritten hrest⟩
              unfold fieldsToBuffer
              rw [hchild, ok_bind]
              dsimp only
              rw [if_neg (not_lt.mpr hwritten.nchild), hi, ok_bind, hwritten.memory]
              rw [List.length_append, ← hwritten.length] at hnode
              rw [← hwritten.length]
              exact hnode
end

end Deai.SignatureWriting
