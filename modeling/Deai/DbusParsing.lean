import Deai.DbusGrammar
import Deai.Fallible

/-!
# Runs of the signature parser

The parser reads a text from left to right and knows after each character whether the text can still
become a signature. It does not look whether there is a character: at the end of a text that has to
go on it reads through a null pointer, or fails an assertion. The lengths of groups and the numbers
of types in them are counted in an `int`. Every text has one of four outcomes.
-/
namespace Deai.DbusParsing
open Fallible DbusMessage DbusSignatures DbusGrammar

/-! ## The trees that the parser makes -/

/-- The sum of the lengths of the texts. -/
def total (cs : List DbusSignature) : ℕ := (cs.map (·.current.length)).sum

mutual
/-- The tree that the parser makes of a type that `rest` comes after. The length of a group is
an `int`. -/
def parsed : DbusType → Text → DbusSignature
  | .basic b, _ => ⟨text (.basic b), 0, []⟩
  | .variant, _ => ⟨text .variant, 0, []⟩
  | .array elem, rest =>
      ⟨(arrayCode :: (text elem ++ rest)).take ((parsed elem rest).current.length + 1), 1, [parsed elem rest]⟩
  | .dict key value, _ => tree (.dict key value)
  | .struct fields, rest =>
      ⟨(structBegin :: (texts fields ++ structEnd :: rest)).take
          ((diSubstringInt (texts fields ++ structEnd :: rest)
            (toInt (total (parsedAll fields (structEnd :: rest))))).length + 2),
        fields.length, parsedAll fields (structEnd :: rest)⟩

def parsedAll : List DbusType → Text → List DbusSignature
  | [], _ => []
  | t :: ts, rest => parsed t (texts ts ++ rest) :: parsedAll ts rest
end

theorem parsed_nchild (t : DbusType) (rest : Text) : 0 ≤ (parsed t rest).nchild := by
  cases t <;> simp [parsed, tree]

/-- The number of children is at most the capacity, which is one less than a power of two. -/
def Room (nchild : ℕ) (capacity : ℤ) : Prop := ∃ k, k ≤ 31 ∧ capacity = 2 ^ k - 1 ∧ nchild ≤ capacity

theorem room_zero : Room 0 0 := ⟨0, by omega, by norm_num, le_refl _⟩

theorem grow_ok {n : ℕ} {capacity : ℤ} (h : Room n capacity) (hn : (n : ℤ) ≠ intMax) :
    ∃ capacity', grow n capacity = .ok capacity' ∧ Room (n + 1) capacity' := by
  obtain ⟨k, hk, rfl, hle⟩ := h
  unfold grow
  by_cases hfull : (n : ℤ) = 2 ^ k - 1
  · rw [if_pos hfull]
    have hlt : k < 31 := by
      rcases Nat.lt_or_eq_of_le hk with hlt | rfl
      · exact hlt
      · exact absurd hfull hn
    have hpow : (2 : ℤ) ^ (k + 1) ≤ 2 ^ 31 := pow_le_pow_right₀ (by norm_num) hlt
    rw [pow_succ] at hpow
    rw [if_pos (by unfold intMax; omega)]
    refine ⟨_, rfl, k + 1, hlt, ?_, ?_⟩
    · rw [pow_succ]
      omega
    · push_cast
      omega
  · rw [if_neg hfull]
    refine ⟨_, rfl, k, hk, rfl, ?_⟩
    push_cast
    omega

theorem grow_overflow {n : ℕ} {capacity : ℤ} (h : Room n capacity) (hn : (n : ℤ) = intMax) :
    grow n capacity = .error .overflow := by
  obtain ⟨k, hk, rfl, hle⟩ := h
  have hpow : (2 : ℤ) ^ k ≤ 2 ^ 31 := pow_le_pow_right₀ (by norm_num) hk
  unfold intMax at hn
  unfold grow intMax
  rw [if_pos (by omega), if_neg (by omega)]

/-! ## Texts that are read -/

/-- The ends of sequences. -/
def IsEnd (c : UInt8) : Prop := c = 0 ∨ c = structEnd

theorem IsEnd.not_begins {c : UInt8} (h : IsEnd c) : ¬ Begins c := by
  rcases h with rfl | rfl
  · exact not_begins_zero
  · exact not_begins_structEnd

/-- One round of the loop, which is entered with a type to read. -/
theorem parseSequenceLoop_round {fuel : ℕ} {curr : Text} {e c : UInt8} {cs : Text} {children : List DbusSignature}
    {capacity capacity' length nchild : ℤ} (hc : c ≠ e) (hgrow : grow nchild capacity = .ok capacity') :
    parseSequenceLoop (fuel + 1) curr e (c :: cs) children capacity length nchild =
      parseOne fuel (c :: cs) >>= fun r =>
        if r.1.nchild < 0 then .ok (r.1, [])
        else
          parseSequenceLoop fuel curr e r.2 (children ++ [r.1]) capacity'
            (toInt (length + r.1.current.length)) (nchild + 1) := by
  rw [parseSequenceLoop, if_neg (by simp [hc]), hgrow]
  rfl

theorem toInt_toInt (x : ℤ) : toInt (toInt x) = toInt x := Int.bmod_bmod

theorem toInt_toInt_add (x y : ℤ) : toInt (toInt x + y) = toInt (x + y) := Int.bmod_add_bmod

/-- The loop ends where there is no type to read. -/
theorem parseSequenceLoop_end {fuel : ℕ} {curr : Text} {e : UInt8} {rest : Text} {children : List DbusSignature}
    {capacity length nchild : ℤ} (hrest : rest = [] ∨ rest.head? = some e) :
    parseSequenceLoop (fuel + 1) curr e rest children capacity length nchild =
      .ok (⟨diSubstringInt curr length, nchild, children⟩, rest) := by
  rw [parseSequenceLoop, if_pos]
  rcases hrest with rfl | hrest
  · exact .inl rfl
  · exact .inr hrest

theorem parseOne_basic {fuel : ℕ} {c : UInt8} (cs : Text) (hc : dbusTypeIsBasic c = true ∨ c = variantCode) :
    parseOne (fuel + 1) (c :: cs) = .ok (⟨[c], 0, []⟩, cs) := if_pos hc

theorem parseOne_array (fuel : ℕ) (cs : Text) :
    parseOne (fuel + 1) (arrayCode :: cs) = parseOne fuel cs >>= fun r =>
      if r.1.nchild < 0 then .ok (r.1, [])
      else .ok (⟨(arrayCode :: cs).take (r.1.current.length + 1), 1, [r.1]⟩, r.2) := rfl

theorem parseOne_struct (fuel : ℕ) (cs : Text) :
    parseOne (fuel + 1) (structBegin :: cs) =
      parseSequenceLoop fuel cs structEnd cs [] 0 0 0 >>= fun r =>
        if r.1.nchild < 0 then .ok (r.1, [])
        else if r.2.head? = some structEnd then
          .ok (⟨(structBegin :: cs).take (r.1.current.length + 2), r.1.nchild, r.1.child⟩, r.2.drop 1)
        else .error .assertion := rfl

theorem parseOne_invalid {fuel : ℕ} {c : UInt8} (cs : Text) (hc : ¬ Begins c) :
    parseOne (fuel + 1) (c :: cs) = .ok (invalid, []) := by
  unfold Begins at hc
  push Not at hc
  have hbasic : ¬ (dbusTypeIsBasic c = true ∨ c = variantCode) := by simp [hc.1, hc.2.1]
  refine (if_neg hbasic).trans ?_
  rw [if_neg hc.2.2.1, if_neg hc.2.2.2]

theorem total_cons (c : DbusSignature) (cs : List DbusSignature) :
    (total (c :: cs) : ℤ) = c.current.length + total cs := by
  simp [total]

mutual
theorem parseOne_text (t : DbusType) (ht : DictFree t) (rest : Text) (fuel : ℕ)
    (hfuel : 2 * (text t ++ rest).length < fuel) :
    parseOne fuel (text t ++ rest) = .error .overflow ∨
      parseOne fuel (text t ++ rest) = .ok (parsed t rest, rest) := by
  obtain ⟨fuel, rfl⟩ := Nat.exists_eq_add_one_of_ne_zero (Nat.ne_zero_of_lt hfuel)
  cases t with
  | basic b => exact .inr (parseOne_basic rest (.inl (dbusTypeIsBasic_code b)))
  | variant => exact .inr (parseOne_basic rest (.inr rfl))
  | dict key value => exact ht.elim
  | array elem =>
      rw [text, List.cons_append] at hfuel ⊢
      rw [List.length_cons] at hfuel
      rw [parseOne_array]
      rcases parseOne_text elem ht rest fuel (by omega) with h | h
      · rw [h]
        exact .inl rfl
      · rw [h, ok_bind, if_neg (not_lt.mpr (parsed_nchild elem rest))]
        exact .inr rfl
  | struct fields =>
      rw [text_struct_append] at hfuel ⊢
      rw [List.length_cons] at hfuel
      rw [parseOne_struct]
      rcases parseSequenceLoop_texts fields ht (structEnd :: rest) fuel (by omega)
        (texts fields ++ structEnd :: rest) structEnd (.inr rfl) [] 0 0 0 room_zero rfl with
        h | ⟨fuel', capacity', hfuel', -, h⟩
      · rw [Nat.cast_zero] at h
        rw [h]
        exact .inl rfl
      · obtain ⟨fuel', rfl⟩ := Nat.exists_eq_add_one_of_ne_zero (Nat.ne_zero_of_lt hfuel')
        rw [Nat.cast_zero, parseSequenceLoop_end (.inr rfl), Nat.zero_add, Int.zero_add, List.nil_append] at h
        rw [h, ok_bind]
        dsimp only
        rw [if_neg (by omega), if_pos List.head?_cons]
        exact .inr rfl

theorem parseSequenceLoop_texts (ts : List DbusType) (hts : DictFreeAll ts) (rest : Text) (fuel : ℕ)
    (hfuel : 2 * (texts ts ++ rest).length + 1 < fuel) (curr : Text) (e : UInt8) (he : IsEnd e)
    (children : List DbusSignature) (capacity length : ℤ) (n : ℕ) (hroom : Room n capacity)
    (hlength : toInt length = length) :
    parseSequenceLoop fuel curr e (texts ts ++ rest) children capacity length n = .error .overflow ∨
      ∃ fuel' capacity', 2 * rest.length + 1 < fuel' ∧ Room (n + ts.length) capacity' ∧
        parseSequenceLoop fuel curr e (texts ts ++ rest) children capacity length n =
          parseSequenceLoop fuel' curr e rest (children ++ parsedAll ts rest) capacity'
            (toInt (length + total (parsedAll ts rest))) (n + ts.length : ℕ) := by
  match ts with
  | [] =>
      refine .inr ⟨fuel, capacity, hfuel, hroom, ?_⟩
      simp [texts, parsedAll, total, hlength]
  | t :: ts =>
      obtain ⟨fuel, rfl⟩ := Nat.exists_eq_add_one_of_ne_zero (Nat.ne_zero_of_lt hfuel)
      obtain ⟨c, cs, hc, hbegins⟩ := text_begins t
      have hne : c ≠ e := by
        rintro rfl
        exact he.not_begins hbegins
      have htext : texts (t :: ts) ++ rest = c :: (cs ++ (texts ts ++ rest)) := by
        rw [texts, hc, List.append_assoc, List.cons_append]
      have hone : texts (t :: ts) ++ rest = text t ++ (texts ts ++ rest) := by
        rw [texts, List.append_assoc]
      by_cases hn : (n : ℤ) = intMax
      · left
        rw [htext, parseSequenceLoop, if_neg (by simp [hne]), grow_overflow hroom hn]
        rfl
      obtain ⟨capacity', hgrow, hroom'⟩ := grow_ok hroom hn
      have hround : parseSequenceLoop (fuel + 1) curr e (text t ++ (texts ts ++ rest)) children capacity
          length n = parseOne fuel (text t ++ (texts ts ++ rest)) >>= fun r =>
        if r.1.nchild < 0 then .ok (r.1, [])
        else
          parseSequenceLoop fuel curr e r.2 (children ++ [r.1]) capacity'
            (toInt (length + r.1.current.length)) (n + 1) := by
        rw [← hone, htext]
        exact parseSequenceLoop_round hne hgrow
      rw [hone] at hfuel ⊢
      rw [hround]
      rcases parseOne_text t hts.1 (texts ts ++ rest) fuel (by omega) with h | h
      · left
        rw [h]
        rfl
      · have hshort := length_text_pos t
        have hcount : n + 1 + ts.length = n + (ts.length + 1) := by omega
        rw [List.length_append] at hfuel
        rw [h, ok_bind, if_neg (not_lt.mpr (parsed_nchild t _))]
        rcases parseSequenceLoop_texts ts hts.2 rest fuel (by omega) curr e he
          (children ++ [parsed t (texts ts ++ rest)]) capacity'
          (toInt (length + (parsed t (texts ts ++ rest)).current.length)) (n + 1) hroom' (toInt_toInt _) with
          h | ⟨fuel', capacity'', hfuel', hroom'', h⟩
        · exact .inl h
        · refine .inr ⟨fuel', capacity'', hfuel', ?_, ?_⟩
          · rw [List.length_cons, ← hcount]
            exact hroom''
          · rw [Nat.cast_succ] at h
            rw [h, toInt_toInt_add, parsedAll, List.append_assoc, total_cons, Int.add_assoc, List.length_cons,
              ← hcount]
            rfl
end

/-! ## Sequences that are too long -/

/-- Some sequence of types goes on after `INT_MAX` of them. There are `n` types already before the
text; it may begin with more, and with a group inside of which the same is true. -/
inductive Wide : UInt8 → ℕ → Text → Prop
  | full {e c : UInt8} {n : ℕ} {cs : Text} : (n : ℤ) = intMax → c ≠ e → Wide e n (c :: cs)
  | next {e : UInt8} {n : ℕ} {t : DbusType} {s : Text} : DictFree t → Wide e (n + 1) s →
      Wide e n (text t ++ s)
  | inner {e : UInt8} {n k : ℕ} {s : Text} : Wide structEnd 0 s →
      Wide e n (List.replicate k arrayCode ++ structBegin :: s)

/-- A group with such a sequence in it, or an array of such groups. -/
def WideGroup (s : Text) : Prop :=
  ∃ k s', s = List.replicate k arrayCode ++ structBegin :: s' ∧ Wide structEnd 0 s'

theorem Wide.of_group {e : UInt8} {n : ℕ} {s : Text} (h : WideGroup s) : Wide e n s := by
  obtain ⟨k, s', rfl, hs'⟩ := h
  exact .inner hs'

theorem WideGroup.array {s : Text} (h : WideGroup s) : WideGroup (arrayCode :: s) := by
  obtain ⟨k, s', rfl, hs'⟩ := h
  exact ⟨k + 1, s', rfl, hs'⟩

theorem WideGroup.struct {s : Text} (h : Wide structEnd 0 s) : WideGroup (structBegin :: s) := ⟨0, s, rfl, h⟩

/-- Only long texts have such sequences. -/
theorem Wide.length {e : UInt8} {n : ℕ} {s : Text} (h : Wide e n s) : intMax < n + s.length := by
  induction h with
  | full hn hc =>
      rw [List.length_cons]
      push_cast
      omega
  | @next e n t s ht hs ih =>
      have := length_text_pos t
      rw [List.length_append]
      push_cast at ih ⊢
      omega
  | inner hs ih =>
      rw [List.length_append, List.length_cons]
      push_cast at ih ⊢
      omega

/-- An array of groups is read up to the sequence in the group. -/
theorem parseOne_overflow {s : Text}
    (h : ∀ fuel, 2 * s.length + 1 < fuel → parseSequenceLoop fuel s structEnd s [] 0 0 0 = .error .overflow)
    {k fuel : ℕ} (hfuel : 2 * (List.replicate k arrayCode ++ structBegin :: s).length < fuel) :
    parseOne fuel (List.replicate k arrayCode ++ structBegin :: s) = .error .overflow := by
  induction k generalizing fuel with
  | zero =>
      obtain ⟨fuel, rfl⟩ := Nat.exists_eq_add_one_of_ne_zero (Nat.ne_zero_of_lt hfuel)
      rw [List.replicate_zero, List.nil_append, List.length_cons] at hfuel
      rw [List.replicate_zero, List.nil_append, parseOne_struct, h fuel (by omega)]
      rfl
  | succ k ih =>
      obtain ⟨fuel, rfl⟩ := Nat.exists_eq_add_one_of_ne_zero (Nat.ne_zero_of_lt hfuel)
      rw [List.replicate_succ, List.cons_append, List.length_cons] at hfuel
      rw [List.replicate_succ, List.cons_append, parseOne_array, ih (by omega)]
      rfl

theorem begins_replicate (k : ℕ) (s : Text) :
    ∃ c cs, List.replicate k arrayCode ++ structBegin :: s = c :: cs ∧ Begins c := by
  cases k with
  | zero => exact ⟨_, _, rfl, .inr (.inr (.inr rfl))⟩
  | succ k => exact ⟨_, _, rfl, .inr (.inr (.inl rfl))⟩

/-- The vector of the children overflows. -/
theorem Wide.overflow {e : UInt8} {n : ℕ} {s : Text} (h : Wide e n s) :
    ∀ fuel curr children capacity length, IsEnd e → 2 * s.length + 1 < fuel → Room n capacity →
      toInt length = length →
      parseSequenceLoop fuel curr e s children capacity length n = .error .overflow := by
  induction h with
  | @full e c n cs hn hc =>
      intro fuel curr children capacity length he hfuel hroom hlength
      obtain ⟨fuel, rfl⟩ := Nat.exists_eq_add_one_of_ne_zero (Nat.ne_zero_of_lt hfuel)
      rw [parseSequenceLoop, if_neg (by simp [hc]), grow_overflow hroom hn]
      rfl
  | @next e n t s ht hs ih =>
      intro fuel curr children capacity length he hfuel hroom hlength
      have htexts : text t ++ s = texts [t] ++ s := by simp [texts]
      rw [htexts] at hfuel ⊢
      rcases parseSequenceLoop_texts [t] ⟨ht, trivial⟩ s fuel hfuel curr e he children capacity length n hroom
        hlength with h | ⟨fuel', capacity', hfuel', hroom', h⟩
      · exact h
      · rw [h]
        exact ih fuel' curr _ capacity' _ he hfuel' hroom' (toInt_toInt _)
  | @inner e n k s hs ih =>
      intro fuel curr children capacity length he hfuel hroom hlength
      obtain ⟨fuel, rfl⟩ := Nat.exists_eq_add_one_of_ne_zero (Nat.ne_zero_of_lt hfuel)
      obtain ⟨c, cs, hc, hbegins⟩ := begins_replicate k s
      have hne : c ≠ e := by
        rintro rfl
        exact he.not_begins hbegins
      have hone : parseOne fuel (c :: cs) = .error .overflow := by
        rw [← hc]
        refine parseOne_overflow (fun fuel hfuel => ?_) (by omega)
        exact ih fuel s [] 0 0 (.inr rfl) hfuel room_zero rfl
      by_cases hn : (n : ℤ) = intMax
      · rw [hc, parseSequenceLoop, if_neg (by simp [hne]), grow_overflow hroom hn]
        rfl
      · obtain ⟨capacity', hgrow, -⟩ := grow_ok hroom hn
        rw [hc, parseSequenceLoop_round hne hgrow, hone]
        rfl

/-! ## Every text -/

/-- The errors at the end of a text that has to go on. -/
def AtEnd (stop : Stop) : Prop := stop = .nullPointer ∨ stop = .assertion

/-- What the parser does with a text that a type may be at the beginning of. -/
inductive OneOutcome (s : Text) : Except Stop (DbusSignature × Text) → Prop
  | read (t : DbusType) (rest : Text) (ht : DictFree t) (hs : s = text t ++ rest) :
      OneOutcome s (.ok (parsed t rest, rest))
  | refused {node : DbusSignature} (hnode : node.nchild < 0)
      (hs : ∀ u t rest, DictFree t → s ++ u ≠ text t ++ rest) : OneOutcome s (.ok (node, []))
  | cut {stop : Stop} (t : DbusType) (u : Text) (hstop : AtEnd stop) (ht : DictFree t) (hs : s ++ u = text t) :
      OneOutcome s (.error stop)
  | wide (hs : WideGroup s) : OneOutcome s (.error .overflow)

/-- Where a sequence ends. -/
def Ends (e : UInt8) (rest : Text) : Prop := rest = [] ∨ rest.head? = some e

/-- What the loop of a sequence does, after it has read `n` types. -/
inductive LoopOutcome (curr : Text) (e : UInt8) (s : Text) (children : List DbusSignature) (length : ℤ) (n : ℕ) :
    Except Stop (DbusSignature × Text) → Prop
  | read (ts : List DbusType) (rest : Text) (hts : DictFreeAll ts) (hs : s = texts ts ++ rest)
      (hrest : Ends e rest) : LoopOutcome curr e s children length n
        (.ok (⟨diSubstringInt curr (toInt (length + total (parsedAll ts rest))), (n + ts.length : ℕ),
          children ++ parsedAll ts rest⟩, rest))
  | refused {node : DbusSignature} (hnode : node.nchild < 0)
      (hs : ∀ u ts rest, DictFreeAll ts → Ends e rest → s ++ u ≠ texts ts ++ rest) :
      LoopOutcome curr e s children length n (.ok (node, []))
  | cut {stop : Stop} (ts : List DbusType) (u : Text) (hstop : AtEnd stop) (hts : DictFreeAll ts)
      (hs : s ++ u = texts ts) : LoopOutcome curr e s children length n (.error stop)
  | wide (hs : Wide e n s) : LoopOutcome curr e s children length n (.error .overflow)

/-- A text that no type is at the beginning of. -/
theorem not_texts_of_not_text {e : UInt8} {s : Text} (hs : ∀ u t rest, DictFree t → s ++ u ≠ text t ++ rest)
    (hhead : ¬ Ends e s) (u : Text) (ts : List DbusType) (rest : Text) (hts : DictFreeAll ts)
    (hrest : Ends e rest) : s ++ u ≠ texts ts ++ rest := by
  intro h
  cases ts with
  | nil =>
      rw [texts, List.nil_append] at h
      subst h
      rcases hrest with hnil | hhead'
      · exact hhead (.inl (List.append_eq_nil_iff.mp hnil).1)
      · cases s with
        | nil => exact hhead (.inl rfl)
        | cons c cs => exact hhead (.inr hhead')
  | cons t ts =>
      rw [texts, List.append_assoc] at h
      exact hs u t _ hts.1 h

/-- If what comes after a type is not a sequence, the whole is not one. -/
theorem not_texts_cons {e : UInt8} (he : IsEnd e) {t : DbusType} (ht : DictFree t) {s : Text}
    (hs : ∀ u ts rest, DictFreeAll ts → Ends e rest → s ++ u ≠ texts ts ++ rest) (u : Text) (ts : List DbusType)
    (rest : Text) (hts : DictFreeAll ts) (hrest : Ends e rest) : text t ++ s ++ u ≠ texts ts ++ rest := by
  intro h
  obtain ⟨c, cs, hc, hbegins⟩ := text_begins t
  cases ts with
  | nil =>
      rw [texts, List.nil_append, List.append_assoc, hc] at h
      subst h
      rcases hrest with hnil | hhead
      · cases hnil
      · exact he.not_begins (Option.some.inj hhead ▸ hbegins)
  | cons t' ts =>
      rw [texts, List.append_assoc, List.append_assoc] at h
      obtain ⟨-, hrest'⟩ := text_unique t ht t' hts.1 _ _ h
      exact hs u ts rest hts.2 hrest hrest'

/-- Enough fuel for a type. -/
def OneDone (fuel : ℕ) : Prop := ∀ s : Text, 2 * s.length < fuel → OneOutcome s (parseOne fuel s)

/-- Enough fuel for a sequence. -/
def LoopDone (fuel : ℕ) : Prop :=
  ∀ (curr : Text) (e : UInt8) (s : Text) (children : List DbusSignature) (capacity length : ℤ) (n : ℕ), IsEnd e →
    2 * s.length + 1 < fuel → Room n capacity → toInt length = length →
    LoopOutcome curr e s children length n (parseSequenceLoop fuel curr e s children capacity length n)

theorem oneOutcome_array {fuel : ℕ} {cs : Text} (h : OneOutcome cs (parseOne fuel cs)) :
    OneOutcome (arrayCode :: cs) (parseOne (fuel + 1) (arrayCode :: cs)) := by
  rw [parseOne_array]
  generalize parseOne fuel cs = r at h
  cases h with
  | read t rest ht hs =>
      rw [ok_bind, if_neg (not_lt.mpr (parsed_nchild t rest))]
      subst hs
      exact .read (.array t) rest ht rfl
  | refused hnode hs =>
      rw [ok_bind, if_pos hnode]
      refine .refused hnode fun u t rest ht h => ?_
      obtain ⟨elem, rfl, helem, hcs⟩ := array_of_text ht h
      exact hs u elem rest helem hcs
  | cut t u hstop ht hs =>
      refine .cut (.array t) u hstop ht ?_
      rw [List.cons_append, hs, text]
  | wide hs => exact .wide hs.array

theorem oneOutcome_struct {fuel : ℕ} {cs : Text}
    (h : LoopOutcome cs structEnd cs [] 0 0 (parseSequenceLoop fuel cs structEnd cs [] 0 0 0)) :
    OneOutcome (structBegin :: cs) (parseOne (fuel + 1) (structBegin :: cs)) := by
  rw [parseOne_struct]
  generalize parseSequenceLoop fuel cs structEnd cs [] 0 0 0 = r at h
  cases h with
  | read ts rest hts hs hrest =>
      rw [ok_bind]
      dsimp only
      rw [if_neg (by omega)]
      rcases hrest with rfl | hhead
      · -- the group is not closed
        rw [if_neg (by nofun)]
        refine .cut (.struct ts) [structEnd] (.inr rfl) hts ?_
        rw [hs, List.append_nil]
        rfl
      · rw [if_pos hhead]
        obtain ⟨rest, rfl⟩ : ∃ rest', rest = structEnd :: rest' := by
          cases rest with
          | nil => cases hhead
          | cons c rest => exact ⟨rest, by rw [Option.some.inj hhead]⟩
        have hparsed : OneOutcome (structBegin :: cs) _ := .read (.struct ts) rest hts
          (by rw [text_struct_append, hs])
        rw [parsed, ← hs] at hparsed
        rw [Nat.zero_add, Int.zero_add, List.nil_append]
        exact hparsed
  | refused hnode hs =>
      rw [ok_bind, if_pos hnode]
      refine .refused hnode fun u t rest ht h => ?_
      obtain ⟨fields, rfl, hfields, hcs⟩ := struct_of_text ht h
      exact hs u fields (structEnd :: rest) hfields (.inr rfl) hcs
  | cut ts u hstop hts hs =>
      refine .cut (.struct ts) (u ++ [structEnd]) hstop hts ?_
      rw [List.cons_append, ← List.append_assoc, hs, text]
  | wide hs => exact .wide (.struct hs)

theorem oneDone_succ {fuel : ℕ} (hone : OneDone fuel) (hloop : LoopDone fuel) : OneDone (fuel + 1) := by
  intro s hfuel
  cases s with
  | nil => exact .cut .variant (text .variant) (.inl rfl) trivial rfl
  | cons c cs =>
      rw [List.length_cons] at hfuel
      by_cases hbegins : Begins c
      · rcases hbegins with hbasic | rfl | rfl | rfl
        · obtain ⟨b, rfl⟩ := dbusTypeIsBasic_iff.mp hbasic
          rw [parseOne_basic cs (.inl hbasic)]
          exact .read (.basic b) cs trivial rfl
        · rw [parseOne_basic cs (.inr rfl)]
          exact .read .variant cs trivial rfl
        · exact oneOutcome_array (hone cs (by omega))
        · exact oneOutcome_struct (hloop cs structEnd cs [] 0 0 0 (.inr rfl) (by omega) room_zero rfl)
      · rw [parseOne_invalid cs hbegins]
        refine .refused (by decide) fun u t rest ht h => ?_
        obtain ⟨c', cs', hc', hbegins'⟩ := text_begins t
        rw [hc'] at h
        exact hbegins ((List.cons.inj h).1 ▸ hbegins')

theorem loopDone_succ {fuel : ℕ} (hone : OneDone fuel) (hloop : LoopDone fuel) : LoopDone (fuel + 1) := by
  intro curr e s children capacity length n he hfuel hroom hlength
  by_cases hends : Ends e s
  · rw [parseSequenceLoop_end hends]
    have hread : LoopOutcome curr e s children length n _ := .read [] s trivial rfl hends
    simpa [parsedAll, total, hlength] using hread
  · obtain ⟨c, cs, rfl⟩ : ∃ c cs, s = c :: cs := by
      cases s with
      | nil => exact absurd (.inl rfl) hends
      | cons c cs => exact ⟨c, cs, rfl⟩
    have hne : c ≠ e := by
      rintro rfl
      exact hends (.inr rfl)
    by_cases hn : (n : ℤ) = intMax
    · rw [parseSequenceLoop, if_neg (by simp [hne]), grow_overflow hroom hn]
      exact .wide (.full hn hne)
    obtain ⟨capacity', hgrow, hroom'⟩ := grow_ok hroom hn
    rw [parseSequenceLoop_round hne hgrow]
    have h := hone (c :: cs) (by omega)
    generalize parseOne fuel (c :: cs) = r at h
    cases h with
    | read t rest ht hs =>
        rw [ok_bind, if_neg (not_lt.mpr (parsed_nchild t rest))]
        have hshort := length_text_pos t
        rw [hs, List.length_append] at hfuel
        have h' := hloop curr e rest (children ++ [parsed t rest]) capacity'
          (toInt (length + (parsed t rest).current.length)) (n + 1) he (by omega) hroom' (toInt_toInt _)
        rw [Nat.cast_succ] at h'
        rw [hs]
        generalize parseSequenceLoop fuel curr e rest (children ++ [parsed t rest]) capacity'
          (toInt (length + (parsed t rest).current.length)) (n + 1) = r at h'
        cases h' with
        | read ts rest' hts hs' hrest =>
            have hread : LoopOutcome curr e (text t ++ rest) children length n _ :=
              .read (t :: ts) rest' ⟨ht, hts⟩ (by rw [texts, List.append_assoc, hs']) hrest
            have hcount : n + 1 + ts.length = n + (t :: ts).length := by
              rw [List.length_cons]
              omega
            rw [parsedAll, ← hs', total_cons, ← hcount] at hread
            rw [toInt_toInt_add, Int.add_assoc, List.append_assoc]
            exact hread
        | refused hnode hs' => exact .refused hnode (not_texts_cons he ht hs')
        | cut ts u hstop hts hs' =>
            refine .cut (t :: ts) u hstop ⟨ht, hts⟩ ?_
            rw [List.append_assoc, hs', texts]
        | wide hs' => exact .wide (.next ht hs')
    | refused hnode hs =>
        rw [ok_bind, if_pos hnode]
        exact .refused hnode (not_texts_of_not_text hs hends)
    | cut t u hstop ht hs =>
        refine .cut [t] u hstop ⟨ht, trivial⟩ ?_
        rw [hs, texts, texts, List.append_nil]
    | wide hs => exact .wide (.of_group hs)

theorem outcomes (fuel : ℕ) : OneDone fuel ∧ LoopDone fuel := by
  induction fuel with
  | zero => exact ⟨fun s hfuel => absurd hfuel (Nat.not_lt_zero _),
      fun curr e s children capacity length n he hfuel => absurd hfuel (Nat.not_lt_zero _)⟩
  | succ fuel ih => exact ⟨oneDone_succ ih.1 ih.2, loopDone_succ ih.1 ih.2⟩

end Deai.DbusParsing
