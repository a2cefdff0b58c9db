import Deai.SignatureFitting

/-!
# Which values are appended

For every value and every type the encoder appends the value, refuses it with an error, or does
something that it should not. This says which, by the value and the type alone.
-/
namespace Deai.DbusAppending
open Fallible Value Numbers DbusMessage DbusSignatures SignatureFitting
open Conversion (typeOf strip integerOf diIntConversion)
open DbusEncoding

/-! ## Outcomes -/

/-- A result is there, or there is none, or neither; what is there is good. -/
structure Outcome {α : Type} (appends declines : Prop) (good : α → Prop) (r : Except Trap (Option α)) : Prop where
  appended : (∃ a, r = .ok (some a)) ↔ appends
  declined : r = .ok none ↔ declines
  good : ∀ a, r = .ok (some a) → good a

section Outcome
variable {α β : Type} {A D A' D' : Prop} {g : α → Prop} {r : Except Trap (Option α)}

theorem Outcome.trapped (e : Trap) : Outcome False False g (.error e) :=
  ⟨⟨(fun ⟨_, h⟩ => nomatch h), False.elim⟩, ⟨nofun, False.elim⟩, nofun⟩

theorem Outcome.refused : Outcome False True g (.ok none) :=
  ⟨⟨(fun ⟨_, h⟩ => nomatch h), False.elim⟩, ⟨fun _ => trivial, fun _ => rfl⟩, nofun⟩

theorem Outcome.sent {a : α} (h : g a) : Outcome True False g (.ok (some a)) := by
  refine ⟨⟨fun _ => trivial, fun _ => ⟨a, rfl⟩⟩, ⟨nofun, False.elim⟩, ?_⟩
  intro a' h'
  cases h'
  exact h

theorem Outcome.congr (h : Outcome A D g r) (hA : A' ↔ A) (hD : D' ↔ D) : Outcome A' D' g r :=
  ⟨h.appended.trans hA.symm, h.declined.trans hD.symm, h.good⟩

theorem Outcome.map {g' : β → Prop} {f : α → β} (h : Outcome A D g r) (hf : ∀ a, g a → g' (f a)) :
    Outcome A D g' (r >>= fun o => .ok (o.map f)) := by
  cases r with
  | error e => exact (Outcome.trapped e).congr (by simp [← h.appended]) (by simp [← h.declined])
  | ok o =>
      cases o with
      | none => exact Outcome.refused.congr (by simp [← h.appended]) (by simp [← h.declined])
      | some a => exact (Outcome.sent (hf a (h.good a rfl))).congr (by simp [← h.appended]) (by simp [← h.declined])

/-- One value after another, up to the first that is refused. -/
theorem Outcome.cons {gs gs' : List α → Prop} {rs r' : Except Trap (Option (List α))} (h : Outcome A D g r)
    (hs : Outcome A' D' gs rs) (hg : ∀ a as, g a → gs as → gs' (a :: as))
    (htrapped : ∀ e, r = .error e → r' = .error e) (hrefused : r = .ok none → r' = .ok none)
    (hsent : ∀ d, r = .ok (some d) → r' = rs >>= fun ds => .ok (ds.map (d :: ·))) :
    Outcome (A ∧ A') (D ∨ (A ∧ D')) gs' r' := by
  cases r with
  | error e =>
      rw [htrapped e rfl]
      exact (Outcome.trapped e).congr (by simp [← h.appended]) (by simp [← h.appended, ← h.declined])
  | ok o =>
      cases o with
      | none =>
          rw [hrefused rfl]
          exact Outcome.refused.congr (by simp [← h.appended]) (by simp [← h.appended, ← h.declined])
      | some a =>
          rw [hsent a rfl]
          have hrest := hs.map (f := (a :: ·)) (fun as has => hg a as (h.good a rfl) has)
          exact hrest.congr (by simp [← h.appended]) (by simp [← h.appended, ← h.declined])

end Outcome

/-! ## Basic values -/

def AppendsBasic (v : DiValue) : DbusBasic → Prop
  | .boolean => ∃ b, v = .bool b
  | .integer t => t ≠ .unixFd ∧ ∃ x, integerOf (strip v) = some x ∧ (signedType t).Fits (toDouble x)
  | .double => ∃ bits, v = .float bits
  | .string => ∃ s, v = .string s ∧ s ≠ ""
  | .objectPath => ∃ s, v = .string s ∧ isObjectPath (cString s) = true
  | .byte => False
  | .signature => False

def DeclinesBasic (v : DiValue) : DbusBasic → Prop
  | .boolean => ∀ b, v ≠ .bool b
  | .integer t => t = .unixFd
  | .double => ∀ bits, v ≠ .float bits
  | .string => ∀ s, v ≠ .string s
  | .objectPath => ∀ s, v ≠ .string s
  | .byte => True
  | .signature => True

/-- What is in a message has the type that the signature has for it. -/
def GoodValue (s : DbusType) (d : DbusValue) : Prop := d.type = s ∧ d.WellFormed

/-- Nothing is stored for what is not an integer. -/
theorem diIntConversion_of_not_integer {v : DiValue} (hv : integerOf (strip v) = none) (t : DbusInteger) :
    diIntConversion t.type.bits false v = .ok none ∨ ∃ e, diIntConversion t.type.bits false v = .error e := by
  unfold diIntConversion
  rw [if_pos bits_mem, Conversion.convertWith_strip (fun _ => rfl)]
  have hvariant := Conversion.strip_ne_variant v
  generalize strip v = w at hv hvariant
  by_cases hone : Conversion.OnePiece w
  · right
    refine ⟨_, Conversion.convertWith_onePiece hone ?_⟩
    cases w with
    | array t es | tuple es => rfl
    | _ => exact hone.elim
  · rw [Conversion.convertWith_plain hone hvariant]
    left
    cases w with
    | nint i | nuint n | int i | uint n => cases hv
    | _ => rfl

theorem outcome_integer (v : DiValue) (t : DbusInteger) :
    Outcome (AppendsBasic v (.integer t)) (DeclinesBasic v (.integer t)) (GoodValue (.basic (.integer t)))
      (dbusSerializeBasicWithType v (.integer t)) := by
  unfold dbusSerializeBasicWithType AppendsBasic DeclinesBasic
  dsimp only
  by_cases ht : t = .unixFd
  · subst ht
    exact Outcome.refused.congr (by simp) (by simp)
  cases hx : integerOf (strip v) with
  | some x =>
      rw [dbusSerializeInteger_eq hx ht]
      split_ifs with hfits
      · refine (Outcome.sent ⟨rfl, fits_readAs hfits⟩).congr ?_ (by simp [ht])
        exact iff_of_true ⟨ht, x, rfl, hfits⟩ trivial
      · refine (Outcome.trapped _).congr ?_ (by simp [ht])
        simp [hfits]
  | none =>
      unfold dbusSerializeInteger
      rw [if_neg ht]
      rcases diIntConversion_of_not_integer hx t with h | ⟨e, h⟩
      · rw [h]
        exact (Outcome.trapped _).congr (by simp) (by simp [ht])
      · rw [h]
        exact (Outcome.trapped _).congr (by simp) (by simp [ht])

theorem outcome_basic (v : DiValue) (b : DbusBasic) :
    Outcome (AppendsBasic v b) (DeclinesBasic v b) (GoodValue (.basic b)) (dbusSerializeBasicWithType v b) := by
  cases b with
  | integer t => exact outcome_integer v t
  | byte | signature => exact Outcome.refused
  | boolean =>
      cases v with
      | bool b => exact (Outcome.sent ⟨rfl, trivial⟩).congr (by simp [AppendsBasic]) (by simp [DeclinesBasic])
      | _ => exact Outcome.refused.congr (by simp [AppendsBasic]) (by simp [DeclinesBasic])
  | double =>
      cases v with
      | float bits => exact (Outcome.sent ⟨rfl, trivial⟩).congr (by simp [AppendsBasic]) (by simp [DeclinesBasic])
      | _ => exact Outcome.refused.congr (by simp [AppendsBasic]) (by simp [DeclinesBasic])
  | string =>
      cases v with
      | string s =>
          unfold dbusSerializeBasicWithType
          dsimp only
          split_ifs with hs
          · exact (Outcome.trapped _).congr (by simp [AppendsBasic, hs]) (by simp [DeclinesBasic])
          · exact (Outcome.sent ⟨rfl, trivial⟩).congr (by simp [AppendsBasic, hs]) (by simp [DeclinesBasic])
      | _ => exact Outcome.refused.congr (by simp [AppendsBasic]) (by simp [DeclinesBasic])
  | objectPath =>
      cases v with
      | string s =>
          unfold dbusSerializeBasicWithType
          dsimp only
          split_ifs with hs
          · exact (Outcome.sent ⟨rfl, trivial⟩).congr (by simp [AppendsBasic, hs]) (by simp [DeclinesBasic])
          · exact (Outcome.trapped _).congr (by simp [AppendsBasic, hs]) (by simp [DeclinesBasic])
      | _ => exact Outcome.refused.congr (by simp [AppendsBasic]) (by simp [DeclinesBasic])

/-! ## Values of every kind -/

/-- A value has a type whose text the inference has terminated. -/
def Terminated (v : DiValue) (s : DbusType) : Prop :=
  HasType v s ∧ Counts v (text s).length ∧ ((text s).length : ℤ) < intMax

/-- Elements that are in memory as libdbus reads them. -/
def IsNumber : DiValue → Prop
  | .nint _ => True
  | .nuint _ => True
  | .int _ => True
  | .uint _ => True
  | .float _ => True
  | _ => False

/-- The elements of an array are appended all at once. -/
def AtOnce (t : DiType) (elem : DbusType) : Prop := ∃ b, basicType t = some b ∧ b ≠ .string ∧ elem = .basic b

-- The signatures that libdbus takes for the content of a container.
variable (valid : DbusType → Bool)

def AppendsWrapped (v : DiValue) (plain : DbusType → Prop) : DbusType → Prop
  | .variant => ∃ s, Terminated v s ∧ valid s = true ∧ plain s
  | s => plain s

def DeclinesWrapped (plain : DbusType → Prop) : DbusType → Prop
  | .variant => False
  | s => plain s

/-- An array can be opened: it has an element type, and the signature for its elements is valid. -/
def Opens (t : DiType) (elem : DbusType) : Prop := (t ≠ .any ∧ t ≠ .lastType) ∧ valid elem = true

mutual
/-- The values that are appended for a type. -/
def Appends : DiValue → DbusType → Prop
  | .variant v, s =>
      match s with
      | .basic b => AppendsBasic (.variant v) b
      | .variant => ∃ s, Terminated v s ∧ valid s = true ∧ Appends v s
      | s => Appends v s
  | .array t es, s =>
      AppendsWrapped valid (.array t es) (fun
        | .basic b => AppendsBasic (.array t es) b
        | .array elem => Opens valid t elem ∧
            ((AtOnce t elem ∧ ∀ e ∈ es, IsNumber e) ∨ (¬ AtOnce t elem ∧ AppendsElements es elem))
        | .struct fields => AppendsFields es fields
        | _ => False) s
  | .tuple es, s =>
      AppendsWrapped valid (.tuple es) (fun
        | .basic b => AppendsBasic (.tuple es) b
        | .struct fields => AppendsFields es fields
        | _ => False) s
  | v, s =>
      AppendsWrapped valid v (fun
        | .basic b => AppendsBasic v b
        | _ => False) s

def AppendsElements : List DiValue → DbusType → Prop
  | [], _ => True
  | e :: es, elem => Appends e elem ∧ AppendsElements es elem

def AppendsFields : List DiValue → List DbusType → Prop
  | [], fields => fields = []
  | e :: es, fields => ∃ t ts, fields = t :: ts ∧ Appends e t ∧ AppendsFields es ts
end

mutual
/-- The values that are refused with an error. Nothing that is to become a variant is, and no array
that is appended at once. -/
def Declines : DiValue → DbusType → Prop
  | .variant v, s =>
      match s with
      | .basic b => DeclinesBasic (.variant v) b
      | .variant => False
      | s => Declines v s
  | .array t es, s =>
      DeclinesWrapped (fun
        | .basic b => DeclinesBasic (.array t es) b
        | .array elem => Opens valid t elem ∧ ¬ AtOnce t elem ∧ DeclinesElements es elem
        | .struct fields => fields.length ≠ es.length ∨ DeclinesFields es fields
        | _ => True) s
  | .tuple es, s =>
      DeclinesWrapped (fun
        | .basic b => DeclinesBasic (.tuple es) b
        | .struct fields => fields.length ≠ es.length ∨ DeclinesFields es fields
        | _ => True) s
  | v, s =>
      DeclinesWrapped (fun
        | .basic b => DeclinesBasic v b
        | .struct _ => False
        | _ => True) s

/-- The first element that is not appended is refused. -/
def DeclinesElements : List DiValue → DbusType → Prop
  | [], _ => False
  | e :: es, elem => Declines e elem ∨ (Appends valid e elem ∧ DeclinesElements es elem)

def DeclinesFields : List DiValue → List DbusType → Prop
  | [], _ => False
  | e :: es, fields => ∃ t ts, fields = t :: ts ∧ (Declines e t ∨ (Appends valid e t ∧ DeclinesFields es ts))
end

/-! ## Variants -/

mutual
theorem textLength_eq (t : DbusType) : textLength t = (text t).length := by
  cases t with
  | basic b => rfl
  | variant => rfl
  | array elem => rw [textLength, text, List.length_cons, textLength_eq elem]
  | dict key value => simp [textLength, text, textLength_eq value]
  | struct fields => simp [textLength, text, textLengths_eq fields]

theorem textLengths_eq (ts : List DbusType) : textLengths ts = (texts ts).length := by
  match ts with
  | [] => rfl
  | t :: ts => rw [textLengths, texts, List.length_append, textLength_eq t, textLengths_eq ts]
end

/-- The type that is inferred for a value. -/
theorem typeSignature_eq_ok {v : DiValue} {s : DbusType} {terminated : Bool} :
    typeSignatureOfDiValue v = .ok (some (s, terminated)) ↔
      ∃ n : ℕ, Counts v n ∧ HasType v s ∧ (n : ℤ) < intMax ∧ (text s).length ≤ n + 1 ∧
        terminated = decide (n = (text s).length) := by
  unfold typeSignatureOfDiValue
  simp only [bind_eq_ok_iff]
  constructor
  · rintro ⟨len, hlen, h⟩
    rcases (typeSignatureLength_spec v len).mp hlen with ⟨rfl, -⟩ | ⟨n, rfl, hcounts⟩
    · cases h
    · rw [if_neg (by omega)] at h
      obtain ⟨size, hsize, h⟩ := bind_eq_ok h
      obtain ⟨t, ht, h⟩ := bind_eq_ok h
      obtain ⟨rfl, hmax⟩ := addInt_eq_ok.mp hsize
      cases t with
      | none => cases h
      | some t =>
          dsimp only at h
          split_ifs at h with hsize
          cases h
          rw [textLength_eq] at hsize
          refine ⟨n, hcounts, (typeSignatureToBuffer_iff v _).mp ht, by omega, by omega, ?_⟩
          simp [textLength_eq]
  · rintro ⟨n, hcounts, ht, hmax, hroom, rfl⟩
    refine ⟨n, (typeSignatureLength_spec v n).mpr (.inr ⟨n, rfl, hcounts⟩), ?_⟩
    rw [if_neg (by omega), addInt_eq_ok.mpr ⟨rfl, by omega⟩, ok_bind,
      (typeSignatureToBuffer_iff v s).mpr ht, ok_bind]
    dsimp only
    rw [textLength_eq, if_neg (by omega)]
    simp

theorem terminated_iff {v : DiValue} {s : DbusType} :
    typeSignatureOfDiValue v = .ok (some (s, true)) ↔ Terminated v s := by
  rw [typeSignature_eq_ok]
  constructor
  · rintro ⟨n, hcounts, ht, hmax, -, hn⟩
    obtain rfl := of_decide_eq_true hn.symm
    exact ⟨ht, hcounts, hmax⟩
  · rintro ⟨ht, hcounts, hmax⟩
    exact ⟨_, hcounts, ht, hmax, Nat.le_succ _, (decide_eq_true rfl).symm⟩

theorem outcome_variant {v : DiValue} {content : DbusType → Result} {A D : DbusType → Prop}
    (h : ∀ s, Outcome (A s) (D s) (GoodValue s) (content s)) :
    Outcome (∃ s, Terminated v s ∧ valid s = true ∧ A s) False (GoodValue .variant)
      (serializeVariant valid v content) := by
  unfold serializeVariant
  cases hr : typeSignatureOfDiValue v with
  | error e =>
      refine (Outcome.trapped e).congr (iff_of_false ?_ id) Iff.rfl
      rintro ⟨s, hs, -⟩
      cases hr.symm.trans (terminated_iff.mpr hs)
  | ok o =>
      match o with
      | none =>
          refine (Outcome.trapped _).congr (iff_of_false ?_ id) Iff.rfl
          rintro ⟨s, hs, -⟩
          cases hr.symm.trans (terminated_iff.mpr hs)
      | some (s, false) =>
          refine (Outcome.trapped _).congr (iff_of_false ?_ id) Iff.rfl
          rintro ⟨s, hs, -⟩
          cases hr.symm.trans (terminated_iff.mpr hs)
      | some (s, true) =>
          have hs := terminated_iff.mp hr
          have hunique : ∀ s', Terminated v s' → s' = s := by
            intro s' hs'
            have heq := hr.symm.trans (terminated_iff.mpr hs')
            cases heq
            rfl
          rw [ok_bind]
          dsimp only
          cases hvalid : valid s with
          | false =>
              refine (Outcome.trapped _).congr (iff_of_false ?_ id) Iff.rfl
              rintro ⟨s', hs', hvalid', -⟩
              rw [hunique s' hs', hvalid] at hvalid'
              cases hvalid'
          | true =>
              have hA : (∃ s', Terminated v s' ∧ valid s' = true ∧ A s') ↔ A s := by
                constructor
                · rintro ⟨s', hs', -, hA⟩
                  exact hunique s' hs' ▸ hA
                · intro hA
                  exact ⟨s, hs, hvalid, hA⟩
              have hcontent := h s
              rw [if_pos rfl]
              generalize content s = r at hcontent
              match r, hcontent with
              | .error e, hcontent =>
                  exact (Outcome.trapped e).congr (by simp [hA, ← hcontent.appended]) Iff.rfl
              | .ok none, hcontent =>
                  exact (Outcome.trapped _).congr (by simp [hA, ← hcontent.appended]) Iff.rfl
              | .ok (some c), hcontent =>
                  exact (Outcome.sent ⟨rfl, (hcontent.good c rfl).2⟩).congr
                    (by simp [hA, ← hcontent.appended]) Iff.rfl

/-- A value that is not a variant. -/
theorem outcome_wrapped {v : DiValue} {plain : DbusType → Result} {A D : DbusType → Prop}
    (h : ∀ s, Outcome (A s) (D s) (GoodValue s) (plain s)) (s : DbusType) :
    Outcome (AppendsWrapped valid v A s) (DeclinesWrapped D s) (GoodValue s) (wrapped valid v plain s) := by
  cases s with
  | variant => exact outcome_variant valid h
  | basic b | array elem | dict key value | struct fields => exact h _

/-! ## Arrays and tuples -/

mutual
/-- The elements of an array have its element type. -/
def Homogeneous : DiValue → Prop
  | .array t es => HomogeneousElements t es
  | .tuple es => HomogeneousAll es
  | .variant v => Homogeneous v
  | _ => True

def HomogeneousElements (t : DiType) : List DiValue → Prop
  | [] => True
  | e :: es => typeOf e = t ∧ Homogeneous e ∧ HomogeneousElements t es

def HomogeneousAll : List DiValue → Prop
  | [] => True
  | e :: es => Homogeneous e ∧ HomogeneousAll es
end

theorem HomogeneousElements.all {t : DiType} {es : List DiValue} (h : HomogeneousElements t es) :
    HomogeneousAll es := by
  induction es with
  | nil => trivial
  | cons e es ih => exact ⟨h.2.1, ih h.2.2⟩

theorem fixedElement_number {e : DiValue} (he : IsNumber e) :
    ∃ d b, fixedElement e = .ok d ∧ basicType (typeOf e) = some b ∧ GoodValue (.basic b) d := by
  cases e with
  | nint i => exact ⟨_, _, rfl, rfl, rfl, Conversion.fits_of_integerOf (v := .nint i) rfl rfl⟩
  | nuint n => exact ⟨_, _, rfl, rfl, rfl, Conversion.fits_of_integerOf (v := .nuint n) rfl rfl⟩
  | int i => exact ⟨_, _, rfl, rfl, rfl, Conversion.fits_of_integerOf (v := .int i) rfl rfl⟩
  | uint n => exact ⟨_, _, rfl, rfl, rfl, Conversion.fits_of_integerOf (v := .uint n) rfl rfl⟩
  | float bits => exact ⟨_, _, rfl, rfl, rfl, trivial⟩
  | _ => exact he.elim

theorem fixedElement_of_not_number {e : DiValue} (he : ¬ IsNumber e) : fixedElement e = .error .badRead := by
  cases e with
  | nint i | nuint n | int i | uint n | float bits => exact absurd trivial he
  | _ => rfl

/-- The elements of an array that is appended at once. -/
theorem fixedElements_spec {t : DiType} {b : DbusBasic} (hb : basicType t = some b) {es : List DiValue}
    (hes : HomogeneousElements t es) :
    (∃ ds, fixedElements es = .ok ds ∧ (∀ e ∈ es, IsNumber e) ∧ DbusValue.WellFormedElements (.basic b) ds) ∨
      ((∃ e, fixedElements es = .error e) ∧ ¬ ∀ e ∈ es, IsNumber e) := by
  induction es with
  | nil => exact .inl ⟨[], rfl, nofun, trivial⟩
  | cons e es ih =>
      unfold fixedElements
      by_cases he : IsNumber e
      · obtain ⟨d, b', hd, hb', hgood⟩ := fixedElement_number he
        rw [hes.1, hb] at hb'
        cases hb'
        rcases ih hes.2.2 with ⟨ds, hds, hall, hwell⟩ | ⟨⟨e', he'⟩, hnot⟩
        · rw [hd, hds]
          refine .inl ⟨d :: ds, rfl, ?_, hgood.1, hgood.2, hwell⟩
          intro x hx
          rcases List.mem_cons.mp hx with rfl | hx
          · exact he
          · exact hall x hx
        · rw [hd, he']
          exact .inr ⟨⟨e', rfl⟩, fun hall => hnot fun x hx => hall x (List.mem_cons_of_mem _ hx)⟩
      · rw [fixedElement_of_not_number he]
        exact .inr ⟨⟨.badRead, rfl⟩, fun hall => he (hall e List.mem_cons_self)⟩

theorem outcome_array {t : DiType} {es : List DiValue} (hes : HomogeneousElements t es) (elem : DbusType)
    {elements : DbusType → Except Trap (Option (List DbusValue))} {A D : Prop}
    (h : Outcome A D (DbusValue.WellFormedElements elem) (elements elem)) :
    Outcome (Opens valid t elem ∧ ((AtOnce t elem ∧ ∀ e ∈ es, IsNumber e) ∨ (¬ AtOnce t elem ∧ A)))
      (Opens valid t elem ∧ ¬ AtOnce t elem ∧ D) (GoodValue (.array elem))
      (serializeArray valid t es elem elements) := by
  have hslow : Outcome A D (GoodValue (.array elem)) (elements elem >>= fun ds => .ok (ds.map (.array elem))) :=
    h.map fun ds hds => ⟨rfl, hds⟩
  unfold serializeArray diTypeToDbusBasic
  by_cases ht : t = .any ∨ t = .lastType
  · rw [if_pos ht]
    have hopens : ¬ Opens valid t elem := fun h => ht.elim h.1.1 h.1.2
    exact (Outcome.trapped _).congr (by simp [hopens]) (by simp [hopens])
  · rw [if_neg ht, ok_bind]
    cases hvalid : valid elem with
    | false =>
        have hopens : ¬ Opens valid t elem := by
          intro h
          rw [h.2] at hvalid
          cases hvalid
        exact (Outcome.trapped _).congr (by simp [hopens]) (by simp [hopens])
    | true =>
        have hopens : Opens valid t elem := ⟨not_or.mp ht, hvalid⟩
        rw [if_pos rfl]
        by_cases honce : AtOnce t elem
        · obtain ⟨b, hb, hstring, rfl⟩ := honce
          rw [hb]
          dsimp only
          rw [if_pos ⟨hstring, rfl⟩]
          have honce : AtOnce t (.basic b) := ⟨b, hb, hstring, rfl⟩
          rcases fixedElements_spec hb hes with ⟨ds, hds, hall, hwell⟩ | ⟨⟨e, he⟩, hnot⟩
          · rw [hds]
            exact (Outcome.sent ⟨rfl, hwell⟩).congr (iff_of_true ⟨hopens, .inl ⟨honce, hall⟩⟩ trivial)
              (iff_of_false (fun h => h.2.1 honce) id)
          · rw [he]
            refine (Outcome.trapped e).congr (iff_of_false ?_ id) (iff_of_false (fun h => h.2.1 honce) id)
            rintro ⟨-, ⟨-, hall⟩ | ⟨hnot', -⟩⟩
            · exact hnot hall
            · exact hnot' honce
        · refine Outcome.congr (A := A) (D := D) ?_ (by simp [hopens, honce]) (by simp [hopens, honce])
          split
          · next atype b hatype =>
              rw [if_neg]
              · exact hslow
              · rintro ⟨hstring, rfl⟩
                exact honce ⟨_, hatype, hstring, rfl⟩
          · exact hslow

/-- The fields of a struct, as many as the signature has. -/
def GoodFields (fields : List DbusType) (ds : List DbusValue) : Prop :=
  DbusValue.types ds = fields ∧ DbusValue.WellFormedFields ds

theorem AppendsFields.length {es : List DiValue} {fields : List DbusType} (h : AppendsFields valid es fields) :
    fields.length = es.length := by
  induction es generalizing fields with
  | nil =>
      unfold AppendsFields at h
      rw [h]
      rfl
  | cons e es ih =>
      obtain ⟨t, ts, rfl, -, hts⟩ := h
      exact congrArg (· + 1) (ih hts)

theorem outcome_struct {es : List DiValue} {fields : List DbusType}
    {elements : List DbusType → Except Trap (Option (List DbusValue))}
    (h : fields.length = es.length →
      Outcome (AppendsFields valid es fields) (DeclinesFields valid es fields) (GoodFields fields) (elements fields)) :
    Outcome (AppendsFields valid es fields) (fields.length ≠ es.length ∨ DeclinesFields valid es fields)
      (GoodValue (.struct fields)) (serializeStruct es fields elements) := by
  unfold serializeStruct
  by_cases hlength : fields.length = es.length
  · rw [if_pos hlength]
    refine ((h hlength).map fun ds hds => ⟨?_, hds.2⟩).congr Iff.rfl (by simp [hlength])
    rw [DbusValue.type, hds.1]
  · rw [if_neg hlength]
    exact Outcome.refused.congr (iff_of_false (fun h => hlength h.length) id) (by simp [hlength])

mutual
/-- A value is appended with its type, or refused, exactly as said. -/
theorem outcome_value (v : DiValue) (hv : Homogeneous v) (s : DbusType) :
    Outcome (Appends valid v s) (Declines valid v s) (GoodValue s) (dbusSerializeWithSignature valid v s) := by
  cases v with
  | variant v =>
      have hinner := outcome_value v hv
      unfold Appends Declines dbusSerializeWithSignature
      cases s with
      | basic b => exact outcome_basic (.variant v) b
      | variant => exact outcome_variant valid hinner
      | array elem | dict key value | struct fields => exact hinner _
  | array t es =>
      have helements := fun elem => outcome_elements es (HomogeneousElements.all hv) elem
      have hfields := fun fields => outcome_fields es (HomogeneousElements.all hv) fields
      unfold Appends Declines dbusSerializeWithSignature
      refine outcome_wrapped valid (fun s => ?_) s
      cases s with
      | basic b => exact outcome_basic (.array t es) b
      | array elem => exact outcome_array valid hv elem (helements elem)
      | struct fields => exact outcome_struct valid (hfields fields)
      | variant | dict key value => exact Outcome.refused
  | tuple es =>
      have hfields := fun fields => outcome_fields es hv fields
      unfold Appends Declines dbusSerializeWithSignature
      refine outcome_wrapped valid (fun s => ?_) s
      cases s with
      | basic b => exact outcome_basic (.tuple es) b
      | struct fields => exact outcome_struct valid (hfields fields)
      | array elem | variant | dict key value => exact Outcome.refused
  | nil | emptyObject o | bool x | nint i | nuint n | int i | uint n | float bits | pointer x | object o
  | weakObject o | string x | stringLiteral x =>
      unfold Appends Declines dbusSerializeWithSignature
      refine outcome_wrapped valid (fun s => ?_) s
      cases s with
      | basic b => exact outcome_basic _ b
      | struct fields => exact Outcome.trapped _
      | array elem | variant | dict key value => exact Outcome.refused

theorem outcome_elements (es : List DiValue) (hes : HomogeneousAll es) (elem : DbusType) :
    Outcome (AppendsElements valid es elem) (DeclinesElements valid es elem) (DbusValue.WellFormedElements elem)
      (serializeElements valid es elem) := by
  match es with
  | [] =>
      unfold AppendsElements DeclinesElements serializeElements
      exact Outcome.sent trivial
  | e :: es =>
      unfold AppendsElements DeclinesElements serializeElements
      refine (outcome_value e hes.1 elem).cons (outcome_elements es hes.2 elem) (fun d ds hd hds => ?_) ?_ ?_ ?_
      · exact ⟨hd.1, hd.2, hds⟩
      · intro x hx
        rw [hx]
        rfl
      · intro hx
        rw [hx]
        rfl
      · intro d hx
        rw [hx]
        rfl

theorem outcome_fields (es : List DiValue) (hes : HomogeneousAll es) (fields : List DbusType)
    (hlength : fields.length = es.length) :
    Outcome (AppendsFields valid es fields) (DeclinesFields valid es fields) (GoodFields fields)
      (serializeFields valid es fields) := by
  match es, fields with
  | [], [] =>
      unfold AppendsFields DeclinesFields serializeFields
      exact (Outcome.sent ⟨rfl, trivial⟩).congr (by simp) Iff.rfl
  | e :: es, field :: fields =>
      have hrest := outcome_fields es hes.2 fields (Nat.succ.inj hlength)
      unfold AppendsFields DeclinesFields serializeFields
      refine Outcome.congr (A := _ ∧ _) (D := _ ∨ _)
        ((outcome_value e hes.1 field).cons hrest (fun d ds hd hds => ?_) ?_ ?_ ?_) ?_ ?_
      · refine ⟨?_, hd.2, hds.2⟩
        rw [DbusValue.types, hd.1, hds.1]
      · intro x hx
        rw [hx]
        rfl
      · intro hx
        rw [hx]
        rfl
      · intro d hx
        rw [hx]
        rfl
      · simp
      · simp
end

end Deai.DbusAppending
