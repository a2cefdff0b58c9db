import Deai.DbusSignatures

/-!
# The grammar of D-Bus signatures

The signatures of the parser have no dictionaries. A type can be told from its text, whatever comes
after it, so the types that a text begins with are unique.
-/
namespace Deai.DbusGrammar
open DbusMessage DbusSignatures

mutual
/-- `T ::= b | 'v' | 'a' T | '(' T* ')'` -/
def DictFree : DbusType → Prop
  | .basic _ => True
  | .variant => True
  | .array elem => DictFree elem
  | .dict _ _ => False
  | .struct fields => DictFreeAll fields

def DictFreeAll : List DbusType → Prop
  | [] => True
  | t :: ts => DictFree t ∧ DictFreeAll ts
end

/-- Zero or more types, one after the other. -/
def Concatenation (s : Text) : Prop := ∃ ts, DictFreeAll ts ∧ s = texts ts

/-- A text that is not a concatenation, but that becomes one if more is appended to it. -/
def Truncated (s : Text) : Prop := ¬ Concatenation s ∧ ∃ u, Concatenation (s ++ u)

/-! ## Characters -/

theorem code_mem_allBasic (b : DbusBasic) : b ∈ allBasic := by
  cases b with
  | integer t => cases t <;> decide
  | _ => decide

theorem dbusTypeIsBasic_iff {c : UInt8} : dbusTypeIsBasic c = true ↔ ∃ b, code b = c := by
  rw [dbusTypeIsBasic, List.any_eq_true]
  constructor
  · rintro ⟨b, -, hb⟩
    exact ⟨b, beq_iff_eq.mp hb⟩
  · rintro ⟨b, rfl⟩
    exact ⟨b, code_mem_allBasic b, beq_self_eq_true _⟩

@[simp] theorem dbusTypeIsBasic_code (b : DbusBasic) : dbusTypeIsBasic (code b) = true :=
  dbusTypeIsBasic_iff.mpr ⟨b, rfl⟩

theorem code_injective : Function.Injective code := by
  intro b b' h
  cases b with
  | integer t =>
      cases b' with
      | integer t' => cases t <;> cases t' <;> first | rfl | exact absurd h (by decide)
      | _ => cases t <;> exact absurd h (by decide)
  | _ =>
      cases b' with
      | integer t' => cases t' <;> exact absurd h (by decide)
      | _ => first | rfl | exact absurd h (by decide)

@[simp] theorem not_basic_variantCode : dbusTypeIsBasic variantCode = false := by decide
@[simp] theorem not_basic_arrayCode : dbusTypeIsBasic arrayCode = false := by decide
@[simp] theorem not_basic_structBegin : dbusTypeIsBasic structBegin = false := by decide
@[simp] theorem not_basic_structEnd : dbusTypeIsBasic structEnd = false := by decide
@[simp] theorem not_basic_zero : dbusTypeIsBasic 0 = false := by decide

theorem code_ne {b : DbusBasic} {c : UInt8} (hc : dbusTypeIsBasic c = false) : code b ≠ c := by
  rintro rfl
  rw [dbusTypeIsBasic_code] at hc
  cases hc

/-- The characters that a type can begin with. -/
def Begins (c : UInt8) : Prop :=
  dbusTypeIsBasic c = true ∨ c = variantCode ∨ c = arrayCode ∨ c = structBegin

theorem text_begins (t : DbusType) : ∃ c cs, text t = c :: cs ∧ Begins c := by
  cases t with
  | basic b => exact ⟨_, _, rfl, .inl (dbusTypeIsBasic_code b)⟩
  | variant => exact ⟨_, _, rfl, .inr (.inl rfl)⟩
  | array elem => exact ⟨_, _, rfl, .inr (.inr (.inl rfl))⟩
  | dict key value => exact ⟨_, _, rfl, .inr (.inr (.inl rfl))⟩
  | struct fields => exact ⟨_, _, rfl, .inr (.inr (.inr rfl))⟩

theorem not_begins_structEnd : ¬ Begins structEnd := by
  unfold Begins
  decide

theorem not_begins_zero : ¬ Begins 0 := by
  unfold Begins
  decide

theorem length_text_pos (t : DbusType) : 0 < (text t).length := by
  obtain ⟨c, cs, hc, -⟩ := text_begins t
  rw [hc]
  exact Nat.succ_pos _

@[simp] theorem text_struct_append (fields : List DbusType) (x : Text) :
    text (.struct fields) ++ x = structBegin :: (texts fields ++ structEnd :: x) := by
  rw [text, List.cons_append, List.append_assoc]
  rfl

/-! ## A text has one type -/

/-- What a type is, by its first character. -/
theorem basic_of_text {b : DbusBasic} {t : DbusType} {cs x : Text} (h : code b :: cs = text t ++ x) :
    t = .basic b ∧ cs = x := by
  cases t with
  | basic b' =>
      obtain ⟨hcode, hcs⟩ := List.cons.inj h
      exact ⟨by rw [code_injective hcode], hcs⟩
  | variant => exact absurd (List.cons.inj h).1 (code_ne not_basic_variantCode)
  | array elem => exact absurd (List.cons.inj h).1 (code_ne not_basic_arrayCode)
  | dict key value => exact absurd (List.cons.inj h).1 (code_ne not_basic_arrayCode)
  | struct fields => exact absurd (List.cons.inj h).1 (code_ne not_basic_structBegin)

theorem variant_of_text {t : DbusType} {cs x : Text} (h : variantCode :: cs = text t ++ x) :
    t = .variant ∧ cs = x := by
  cases t with
  | basic b => exact absurd (List.cons.inj h).1.symm (code_ne not_basic_variantCode)
  | variant => exact ⟨rfl, (List.cons.inj h).2⟩
  | array elem => exact absurd (List.cons.inj h).1 (by decide)
  | dict key value => exact absurd (List.cons.inj h).1 (by decide)
  | struct fields => exact absurd (List.cons.inj h).1 (by decide)

theorem array_of_text {t : DbusType} (ht : DictFree t) {cs x : Text} (h : arrayCode :: cs = text t ++ x) :
    ∃ elem, t = .array elem ∧ DictFree elem ∧ cs = text elem ++ x := by
  cases t with
  | basic b => exact absurd (List.cons.inj h).1.symm (code_ne not_basic_arrayCode)
  | variant => exact absurd (List.cons.inj h).1 (by decide)
  | array elem => exact ⟨elem, rfl, ht, (List.cons.inj h).2⟩
  | dict key value => exact ht.elim
  | struct fields => exact absurd (List.cons.inj h).1 (by decide)

theorem struct_of_text {t : DbusType} (ht : DictFree t) {cs x : Text} (h : structBegin :: cs = text t ++ x) :
    ∃ fields, t = .struct fields ∧ DictFreeAll fields ∧ cs = texts fields ++ structEnd :: x := by
  cases t with
  | basic b => exact absurd (List.cons.inj h).1.symm (code_ne not_basic_structBegin)
  | variant => exact absurd (List.cons.inj h).1 (by decide)
  | array elem => exact absurd (List.cons.inj h).1 (by decide)
  | dict key value => exact ht.elim
  | struct fields =>
      rw [text_struct_append] at h
      exact ⟨fields, rfl, ht, (List.cons.inj h).2⟩

mutual
theorem text_unique (t : DbusType) (ht : DictFree t) (t' : DbusType) (ht' : DictFree t') (x y : Text)
    (h : text t ++ x = text t' ++ y) : t = t' ∧ x = y := by
  cases t with
  | basic b =>
      obtain ⟨rfl, hx⟩ := basic_of_text h
      exact ⟨rfl, hx⟩
  | variant =>
      obtain ⟨rfl, hx⟩ := variant_of_text h
      exact ⟨rfl, hx⟩
  | array elem =>
      obtain ⟨elem', rfl, helem', hcs⟩ := array_of_text ht' h
      obtain ⟨rfl, hx⟩ := text_unique elem ht elem' helem' x y hcs
      exact ⟨rfl, hx⟩
  | dict key value => exact ht.elim
  | struct fields =>
      rw [text_struct_append] at h
      obtain ⟨fields', rfl, hfields', hcs⟩ := struct_of_text ht' h
      obtain ⟨rfl, hx⟩ := texts_unique fields ht fields' hfields' x y hcs
      exact ⟨rfl, hx⟩

theorem texts_unique (ts : List DbusType) (hts : DictFreeAll ts) (ts' : List DbusType)
    (hts' : DictFreeAll ts') (x y : Text) (h : texts ts ++ structEnd :: x = texts ts' ++ structEnd :: y) :
    ts = ts' ∧ x = y := by
  match ts, ts' with
  | [], [] => exact ⟨rfl, (List.cons.inj h).2⟩
  | [], t' :: ts' =>
      obtain ⟨c, cs, hc, hbegins⟩ := text_begins t'
      rw [texts, texts, hc] at h
      exact absurd ((List.cons.inj h).1 ▸ hbegins) not_begins_structEnd
  | t :: ts, [] =>
      obtain ⟨c, cs, hc, hbegins⟩ := text_begins t
      rw [texts, texts, hc] at h
      exact absurd ((List.cons.inj h).1.symm ▸ hbegins) not_begins_structEnd
  | t :: ts, t' :: ts' =>
      rw [texts, texts, List.append_assoc, List.append_assoc] at h
      obtain ⟨rfl, hrest⟩ := text_unique t hts.1 t' hts'.1 _ _ h
      obtain ⟨rfl, hx⟩ := texts_unique ts hts.2 ts' hts'.2 x y hrest
      exact ⟨rfl, hx⟩
end

end Deai.DbusGrammar
