import Deai.DbusAppending
import Deai.DbusAcceptance

/-!
# Encoding with an explicit signature

The script gives a signature, and `dbus_serialize_struct` goes through the values and the types of
the signature side by side. It stops at the last value, whatever the number of types.
-/
namespace Deai.DbusArity
open Fallible Value DbusMessage DbusSignatures DbusGrammar DbusParsing DbusEncoding DbusAppending

/-! ## The types of a tree -/

/-- The basic type with a code. -/
def basicOf (c : UInt8) : Option DbusBasic := allBasic.find? fun b => code b == c

mutual
/-- The type that the encoder takes a node for: it looks at the first character of its text, and at its
children. The rest of the text of an element is only given to libdbus, which takes at most 255
characters for a signature; so one whose text came out wrong for its length is never taken. -/
def nodeType : DbusSignature → Option DbusType
  | ⟨[], _, _⟩ => none
  | ⟨c :: _, _, child⟩ =>
      if dbusTypeIsBasic c then (basicOf c).map .basic
      else if c = variantCode then some .variant
      else if c = arrayCode then
        match nodeTypes child with
        | some [elem] => some (.array elem)
        | _ => none
      else if c = structBegin then (nodeTypes child).map .struct
      else none

def nodeTypes : List DbusSignature → Option (List DbusType)
  | [] => some []
  | node :: nodes =>
      match nodeType node, nodeTypes nodes with
      | some t, some ts => some (t :: ts)
      | _, _ => none
end

theorem basicOf_code (b : DbusBasic) : basicOf (code b) = some b := by
  cases b with
  | integer t => cases t <;> decide
  | _ => decide

mutual
/-- The trees of the parser are taken for the types that it has read. -/
theorem nodeType_parsed (t : DbusType) (ht : DictFree t) (rest : Text) : nodeType (parsed t rest) = some t := by
  cases t with
  | basic b =>
      unfold parsed text nodeType
      rw [if_pos (dbusTypeIsBasic_code b), basicOf_code]
      rfl
  | variant => rfl
  | dict key value => exact ht.elim
  | array elem =>
      unfold parsed
      rw [List.take_succ_cons, nodeType, nodeTypes, nodeType_parsed elem ht rest]
      rfl
  | struct fields =>
      unfold parsed
      rw [List.take_succ_cons, nodeType, nodeTypes_parsedAll fields ht (structEnd :: rest)]
      rfl

theorem nodeTypes_parsedAll (ts : List DbusType) (hts : DictFreeAll ts) (rest : Text) :
    nodeTypes (parsedAll ts rest) = some ts := by
  match ts with
  | [] => rfl
  | t :: ts =>
      rw [parsedAll, nodeTypes, nodeType_parsed t hts.1, nodeTypes_parsedAll ts hts.2 rest]
end

/-! ## The encoder -/

/-- What ends the program in the parser or in the encoder. -/
inductive Fault where
  | parser (stop : Stop)
  | encoder (trap : Trap)
  deriving DecidableEq

variable (valid : DbusType → Bool)

/-- The loop over the values. There is a child for every value, or memory after the children is read. -/
def serializeElementsOf : List DiValue → List DbusType → Except Trap (Option (List DbusValue))
  | [], _ => .ok (some [])
  | _ :: _, [] => .error .badRead
  | e :: es, t :: ts => do
      match ← dbusSerializeWithSignature valid e t with
      | none => .ok none
      | some d =>
          let ds ← serializeElementsOf es ts
          .ok (ds.map (d :: ·))

/-- `dbus_serialize_struct`: what is appended, or none for a negative code. The parser makes no other
trees than those that are taken for types. -/
def dbusSerializeStructWith (fuel : ℕ) (es : List DiValue) (signature : Text) :
    Except Fault (Option (List DbusValue)) :=
  if signature.length = 0 then (dbusSerializeStruct valid es).mapError .encoder
  else do
    let sig ← (parseDbusSignature fuel signature).mapError .parser
    if sig.nchild < 0 then .ok none
    else
      match nodeTypes sig.child with
      | none => .ok none
      | some ts => (serializeElementsOf valid es ts).mapError .encoder

/-! ## Arity -/

/-- The types that a signature begins with; what comes after them begins with a null character. -/
def SignatureTypes (s : Text) (ts : List DbusType) : Prop :=
  DictFreeAll ts ∧ ∃ rest, s = texts ts ++ rest ∧ Ends 0 rest

/-- The types of a signature that is accepted. -/
theorem types_of_accepted {s : Text} {fuel : ℕ} (hfuel : 2 * s.length + 1 < fuel) {node : DbusSignature}
    (hparse : parseDbusSignature fuel s = .ok node) (hnode : 0 ≤ node.nchild) :
    ∃ ts, nodeTypes node.child = some ts ∧ SignatureTypes s ts := by
  have h : LoopOutcome s 0 s [] 0 0 (parseSequence fuel s 0) :=
    (outcomes fuel).2 s 0 s [] 0 0 0 (.inl rfl) hfuel room_zero rfl
  generalize hr : parseSequence fuel s 0 = r at h
  rw [parseDbusSignature, hr] at hparse
  cases h with
  | read ts rest hts htexts hrest =>
      refine ⟨ts, ?_, hts, rest, htexts, hrest⟩
      rw [ok_bind] at hparse
      dsimp only at hparse
      rw [← nodeTypes_parsedAll ts hts rest]
      split_ifs at hparse with hzero hend
      · cases hparse
        rfl
      · cases hparse
        rfl
  | refused hnegative hrefused =>
      rw [ok_bind] at hparse
      dsimp only at hparse
      rw [if_pos hnegative.ne] at hparse
      cases hparse
      omega
  | cut ts u hstop hts hu => cases hparse
  | wide h => cases hparse

/-- The values are appended, as many as there are types and each with its type, or else a negative
code is returned. -/
def Respects (es : List DiValue) (ts : List DbusType) (r : Except Fault (Option (List DbusValue))) : Prop :=
  (∃ body, r = .ok (some body) ∧ ts.length = es.length ∧ GoodFields ts body) ∨ r = .ok none

/-- The first values are appended, as many as there are types for. -/
def AppendsFirst : List DiValue → List DbusType → Prop
  | [], _ => True
  | _ :: _, [] => False
  | e :: es, t :: ts => Appends valid e t ∧ AppendsFirst es ts

theorem appendsFields_iff {es : List DiValue} {ts : List DbusType} :
    AppendsFields valid es ts ↔ AppendsFirst valid es ts ∧ ts.length = es.length := by
  induction es generalizing ts with
  | nil =>
      unfold AppendsFields AppendsFirst
      simp
  | cons e es ih =>
      cases ts with
      | nil => simp [AppendsFields, AppendsFirst]
      | cons t ts =>
          unfold AppendsFields AppendsFirst
          simp [ih, and_assoc]

theorem outcome_elementsOf (es : List DiValue) (hes : HomogeneousAll es) (ts : List DbusType) :
    Outcome (AppendsFirst valid es ts) (DeclinesFields valid es ts) (GoodFields (ts.take es.length))
      (serializeElementsOf valid es ts) := by
  induction es generalizing ts with
  | nil =>
      unfold AppendsFirst DeclinesFields serializeElementsOf
      exact Outcome.sent ⟨rfl, trivial⟩
  | cons e es ih =>
      cases ts with
      | nil =>
          unfold AppendsFirst DeclinesFields serializeElementsOf
          exact (Outcome.trapped _).congr Iff.rfl (by simp)
      | cons t ts =>
          unfold AppendsFirst DeclinesFields serializeElementsOf
          refine Outcome.congr (D := _ ∨ _)
            ((outcome_value valid e hes.1 t).cons (ih hes.2 ts) (fun d ds hd hds => ?_) ?_ ?_ ?_) Iff.rfl ?_
          · refine ⟨?_, hd.2, hds.2⟩
            rw [DbusValue.types, hd.1, hds.1]
            rfl
          · intro x hx
            rw [hx]
            rfl
          · intro hx
            rw [hx]
            rfl
          · intro d hx
            rw [hx]
            rfl
          · simp

theorem respects_iff {es : List DiValue} (hes : HomogeneousAll es) {ts : List DbusType} :
    Respects es ts ((serializeElementsOf valid es ts).mapError .encoder) ↔
      AppendsFields valid es ts ∨ DeclinesFields valid es ts := by
  have h := outcome_elementsOf valid es hes ts
  rw [appendsFields_iff, ← h.appended, ← h.declined]
  have hgood := h.good
  unfold Respects
  match hr : serializeElementsOf valid es ts with
  | .error e => simp [Except.mapError]
  | .ok none => simp [Except.mapError]
  | .ok (some body) =>
      simp only [Except.mapError, Except.ok.injEq, Option.some.injEq, exists_eq_left', reduceCtorEq, or_false]
      constructor
      · rintro ⟨hlength, -⟩
        exact ⟨⟨body, rfl⟩, hlength⟩
      · rintro ⟨-, hlength⟩
        refine ⟨hlength, ?_⟩
        have hfields := hgood body hr
        rwa [List.take_of_length_le (le_of_eq hlength)] at hfields

end Deai.DbusArity
