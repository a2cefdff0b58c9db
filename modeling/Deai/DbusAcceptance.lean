import Deai.DbusParsing

/-!
# What the signature parser accepts

A concatenation of types is accepted, but the texts in the tree are only right if the lengths of
the groups fit an `int`. A truncated text is not refused.
-/
namespace Deai.DbusAcceptance
open Fallible DbusMessage DbusSignatures DbusGrammar DbusParsing

/-! ## Trees with the right texts -/

/-- The length of a group, or of the whole text, is right as an `int`, or else it is negative and
the group is at the end. -/
def LengthFits (n : ℕ) (rest : Text) : Prop := n < 2 ^ 31 ∨ (2 ^ 31 ≤ n % 2 ^ 32 ∧ rest = [])

mutual
/-- All groups of a type that `rest` comes after have lengths that fit. -/
def Measured : DbusType → Text → Prop
  | .basic _, _ => True
  | .variant, _ => True
  | .array elem, rest => Measured elem rest
  | .dict _ _, _ => True
  | .struct fields, rest => LengthFits (texts fields).length rest ∧ MeasuredAll fields (structEnd :: rest)

def MeasuredAll : List DbusType → Text → Prop
  | [], _ => True
  | t :: ts, rest => Measured t (texts ts ++ rest) ∧ MeasuredAll ts rest
end

theorem toInt_natCast (n : ℕ) :
    toInt n = if n % 2 ^ 32 < 2 ^ 31 then ((n % 2 ^ 32 : ℕ) : ℤ) else (n % 2 ^ 32 : ℕ) - 2 ^ 32 := by
  rw [toInt, Int.bmod_def]
  split_ifs <;> omega

/-- The length of what `di_substring` returns, for a length of at most that of the text. -/
theorem length_diSubstringInt {s : Text} {n : ℕ} (hn : n ≤ s.length) :
    (diSubstringInt s (toInt n)).length = if n % 2 ^ 32 < 2 ^ 31 then n % 2 ^ 32 else s.length := by
  have hmod := Nat.mod_le n (2 ^ 32)
  have hlt := Nat.mod_lt n (Nat.two_pow_pos 32)
  rw [diSubstringInt, toInt_natCast]
  split_ifs with hsmall hneg hneg
  · omega
  · rw [diSubstring, List.drop_zero, List.length_take, Int.toNat_natCast]
    omega
  · rfl
  · omega

theorem take_append_eq_iff {α : Type} {p r : List α} {k : ℕ} :
    (p ++ r).take k = p ↔ k = p.length ∨ (p.length ≤ k ∧ r = []) := by
  constructor
  · intro h
    have hlength := congrArg List.length h
    rw [List.length_take, List.length_append] at hlength
    by_cases hk : k = p.length
    · exact .inl hk
    · refine .inr ⟨by omega, List.eq_nil_of_length_eq_zero (by omega)⟩
  · rintro (rfl | ⟨hk, rfl⟩)
    · exact List.take_left
    · rw [List.append_nil, List.take_of_length_le hk]

theorem tree_current (t : DbusType) : (tree t).current = text t := by
  cases t <;> rfl

theorem flatMap_current_trees (ts : List DbusType) : (trees ts).flatMap (·.current) = texts ts := by
  induction ts with
  | nil => rfl
  | cons t ts ih => rw [trees, List.flatMap_cons, ih, tree_current, texts]

theorem total_trees (ts : List DbusType) : total (trees ts) = (texts ts).length := by
  rw [← flatMap_current_trees, List.length_flatMap, total]

theorem struct_current_iff (fields : List DbusType) (rest : Text) :
    (structBegin :: (texts fields ++ structEnd :: rest)).take
        ((diSubstringInt (texts fields ++ structEnd :: rest) (toInt (texts fields).length)).length + 2) =
      text (.struct fields) ↔ LengthFits (texts fields).length rest := by
  have hlength : (text (.struct fields)).length = (texts fields).length + 2 := by
    simp [text]
  rw [← text_struct_append, take_append_eq_iff, hlength, length_diSubstringInt (by simp), List.length_append,
    List.length_cons, LengthFits]
  have hmod := Nat.mod_le (texts fields).length (2 ^ 32)
  split_ifs with hsmall
  · constructor
    · intro h
      have heq : (texts fields).length % 2 ^ 32 = (texts fields).length := by
        omega
      exact .inl (heq ▸ hsmall)
    · intro h
      have hlt : (texts fields).length < 2 ^ 31 := by
        omega
      exact .inl (by omega)
  · constructor
    · intro h
      refine .inr ⟨by omega, ?_⟩
      rcases h with h | h
      · omega
      · exact h.2
    · intro h
      refine .inr ⟨by omega, ?_⟩
      rcases h with h | h
      · omega
      · exact h.2

mutual
theorem parsed_eq_tree (t : DbusType) (rest : Text) : parsed t rest = tree t ↔ Measured t rest := by
  cases t with
  | basic b => exact iff_of_true rfl trivial
  | variant => exact iff_of_true rfl trivial
  | dict key value => exact iff_of_true rfl trivial
  | array elem =>
      rw [Measured, ← parsed_eq_tree elem rest, parsed, tree]
      simp only [DbusSignature.mk.injEq, List.cons.injEq, and_true, true_and]
      constructor
      · exact fun h => h.2
      · intro h
        refine ⟨?_, h⟩
        rw [h, tree_current, List.take_succ_cons, List.take_left]
        rfl
  | struct fields =>
      rw [Measured, ← parsedAll_eq_trees fields (structEnd :: rest), parsed, tree]
      simp only [DbusSignature.mk.injEq, true_and]
      refine and_congr_left fun h => ?_
      rw [h, total_trees]
      exact struct_current_iff fields rest

theorem parsedAll_eq_trees (ts : List DbusType) (rest : Text) :
    parsedAll ts rest = trees ts ↔ MeasuredAll ts rest := by
  match ts with
  | [] => exact iff_of_true rfl trivial
  | t :: ts =>
      rw [parsedAll, trees, List.cons.injEq, parsed_eq_tree t (texts ts ++ rest), parsedAll_eq_trees ts rest]
      rfl
end

/-- The tree of the whole text. -/
theorem root_eq_iff (ts : List DbusType) :
    (⟨diSubstringInt (texts ts) (toInt (total (parsedAll ts []))), (ts.length : ℕ), parsedAll ts []⟩ :
        DbusSignature) = ⟨texts ts, ts.length, trees ts⟩ ↔
      LengthFits (texts ts).length [] ∧ MeasuredAll ts [] := by
  rw [← parsedAll_eq_trees]
  simp only [DbusSignature.mk.injEq, true_and]
  refine and_congr_left fun h => ?_
  rw [h, total_trees, LengthFits]
  have hmod := Nat.mod_le (texts ts).length (2 ^ 32)
  constructor
  · intro h
    have hlength := congrArg List.length h
    rw [length_diSubstringInt (le_refl _)] at hlength
    split_ifs at hlength with hsmall
    · exact .inl (hlength ▸ hsmall)
    · exact .inr ⟨by omega, rfl⟩
  · intro h
    rw [diSubstringInt, toInt_natCast]
    rcases h with h | h
    · rw [Nat.mod_eq_of_lt (by omega), if_pos h, if_neg (by omega), Int.toNat_natCast]
      exact List.take_length
    · rw [if_neg (not_lt.mpr h.1), if_pos]
      omega

/-! ## The parser -/

/-- A concatenation of types gives its tree, and every other text a negative number of children. -/
def Parses (s : Text) (r : Except Stop DbusSignature) : Prop :=
  (∀ ts, DictFreeAll ts → s = texts ts → r = .ok ⟨s, ts.length, trees ts⟩) ∧
    (¬ Concatenation s → ∃ node, r = .ok node ∧ node.nchild < 0)

theorem Parses.ok {s : Text} {r : Except Stop DbusSignature} (h : Parses s r) : ∃ node, r = .ok node := by
  by_cases hs : Concatenation s
  · obtain ⟨ts, hts, hs⟩ := hs
    exact ⟨_, h.1 ts hts hs⟩
  · obtain ⟨node, hnode, -⟩ := h.2 hs
    exact ⟨node, hnode⟩

/-- The lengths of a concatenation fit. -/
def TextMeasured (s : Text) : Prop :=
  ∀ ts, DictFreeAll ts → s = texts ts → LengthFits s.length [] ∧ MeasuredAll ts []

theorem ends_of_no_zero {s rest : Text} {ts : List DbusType} (hs : 0 ∉ s) (h : s = texts ts ++ rest)
    (hrest : Ends 0 rest) : rest = [] := by
  rcases hrest with hnil | hhead
  · exact hnil
  · refine absurd ?_ hs
    rw [h]
    exact List.mem_append_right _ (List.mem_of_mem_head? hhead)

/-- What is left for the caller once the sequence was read. -/
theorem parseDbusSignature_texts {ts : List DbusType} {fuel : ℕ}
    (h : parseSequence fuel (texts ts) 0 =
      .ok (⟨diSubstringInt (texts ts) (toInt (total (parsedAll ts []))), ts.length, parsedAll ts []⟩, [])) :
    parseDbusSignature fuel (texts ts) =
      .ok ⟨diSubstringInt (texts ts) (toInt (total (parsedAll ts []))), ts.length, parsedAll ts []⟩ := by
  rw [parseDbusSignature, h, ok_bind]
  cases ts with
  | nil => rfl
  | cons t ts =>
      dsimp only
      rw [if_pos]
      rw [List.length_cons]
      omega

theorem parses_texts_iff {s : Text} {ts : List DbusType} (hts : DictFreeAll ts) (hs : s = texts ts) {fuel : ℕ}
    (h : parseSequence fuel s 0 =
      .ok (⟨diSubstringInt s (toInt (total (parsedAll ts []))), ts.length, parsedAll ts []⟩, [])) :
    Parses s (parseDbusSignature fuel s) ↔ TextMeasured s := by
  subst hs
  rw [parseDbusSignature_texts h]
  constructor
  · intro hparses ts' hts' heq
    have hts'' : ts = ts' := by
      have hend := congrArg (· ++ [structEnd]) heq
      exact (texts_unique ts hts ts' hts' [] [] hend).1
    subst hts''
    exact (root_eq_iff ts).mp (Except.ok.inj (hparses.1 ts hts rfl))
  · intro hmeasured
    rw [(root_eq_iff ts).mpr (hmeasured ts hts rfl)]
    refine ⟨fun ts' hts' heq => ?_, fun hnot => absurd ⟨ts, hts, rfl⟩ hnot⟩
    have hts'' : ts = ts' := by
      have hend := congrArg (· ++ [structEnd]) heq
      exact (texts_unique ts hts ts' hts' [] [] hend).1
    rw [hts'']

/-- A run that ends where the text has to go on. -/
theorem truncated_of_cut {s : Text} {fuel : ℕ} (hfuel : 2 * s.length + 1 < fuel) {stop : Stop}
    (h : parseSequence fuel s 0 = .error stop) (hstop : AtEnd stop) {ts : List DbusType} {u : Text}
    (hts : DictFreeAll ts) (hu : s ++ u = texts ts) : Truncated s := by
  refine ⟨?_, u, ts, hts, hu⟩
  rintro ⟨ts', hts', rfl⟩
  -- a concatenation is read to its end, or the vector overflows
  have hread := parseSequenceLoop_texts ts' hts' [] fuel (by rwa [List.append_nil]) (texts ts') 0 (.inl rfl) [] 0
    0 0 room_zero rfl
  rw [List.append_nil] at hread
  change parseSequence fuel (texts ts') 0 = _ ∨ _ at hread
  rcases hread with hoverflow | ⟨fuel', capacity', hfuel', -, hend⟩
  · rw [h] at hoverflow
    rw [Except.error.inj hoverflow] at hstop
    rcases hstop with hstop | hstop <;> cases hstop
  · obtain ⟨fuel', rfl⟩ := Nat.exists_eq_add_one_of_ne_zero (Nat.ne_zero_of_lt hfuel')
    rw [parseSequenceLoop_end (.inl rfl)] at hend
    cases h.symm.trans hend

theorem parses_iff {s : Text} (hs : 0 ∉ s) {fuel : ℕ} (hfuel : 2 * s.length + 1 < fuel) :
    Parses s (parseDbusSignature fuel s) ↔ ¬ Truncated s ∧ ¬ Wide 0 0 s ∧ TextMeasured s := by
  have hwide : Wide 0 0 s → parseSequence fuel s 0 = .error .overflow :=
    fun h => h.overflow fuel s [] 0 0 (.inl rfl) hfuel room_zero rfl
  have hfailed : ∀ stop, parseSequence fuel s 0 = .error stop → ¬ Parses s (parseDbusSignature fuel s) := by
    intro stop h hparses
    obtain ⟨node, hnode⟩ := hparses.ok
    rw [parseDbusSignature, h] at hnode
    cases hnode
  have h : LoopOutcome s 0 s [] 0 0 (parseSequence fuel s 0) :=
    (outcomes fuel).2 s 0 s [] 0 0 0 (.inl rfl) hfuel room_zero rfl
  generalize hr : parseSequence fuel s 0 = r at h
  cases h with
  | read ts rest hts htexts hrest =>
      obtain rfl := ends_of_no_zero hs htexts hrest
      rw [List.append_nil] at htexts
      rw [Int.zero_add, Nat.zero_add, List.nil_append] at hr
      rw [parses_texts_iff hts htexts hr]
      refine ⟨fun hmeasured => ⟨fun hcut => hcut.1 ⟨ts, hts, htexts⟩, fun h => ?_, hmeasured⟩, fun h => h.2.2⟩
      cases (hwide h).symm.trans hr
  | refused hnode hrefused =>
      have hnot : ∀ u, ¬ Concatenation (s ++ u) := by
        rintro u ⟨ts, hts, hu⟩
        exact hrefused u ts [] hts (.inl rfl) (by rw [hu, List.append_nil])
      have hnot' : ¬ Concatenation s := by
        have h := hnot []
        rwa [List.append_nil] at h
      refine iff_of_true ⟨fun ts hts htexts => absurd ⟨ts, hts, htexts⟩ hnot', fun _ => ⟨_, ?_, hnode⟩⟩
        ⟨fun hcut => ?_, fun h => ?_, fun ts hts htexts => absurd ⟨ts, hts, htexts⟩ hnot'⟩
      · rw [parseDbusSignature, hr, ok_bind]
        dsimp only
        rw [if_pos hnode.ne]
      · obtain ⟨u, hu⟩ := hcut.2
        exact hnot u hu
      · cases (hwide h).symm.trans hr
  | cut ts u hstop hts hu =>
      exact iff_of_false (hfailed _ hr) fun h => h.1 (truncated_of_cut hfuel hr hstop hts hu)
  | wide h => exact iff_of_false (hfailed _ hr) fun h' => h'.2.1 h

/-- The parser comes to an end and does with the text what the grammar says. -/
def ParsedRight (s : Text) : Prop :=
  ∀ fuel, 2 * s.length + 1 < fuel → Parses s (parseDbusSignature fuel s)

/-- A text is parsed right if and only if it is not truncated, no sequence in it goes on after `INT_MAX`
types, and the lengths of its groups fit. -/
theorem signature_parsed {s : Text} (hs : 0 ∉ s) :
    ParsedRight s ↔ ¬ Truncated s ∧ ¬ Wide 0 0 s ∧ TextMeasured s := by
  constructor
  · intro h
    exact (parses_iff hs (Nat.lt_succ_self _)).mp (h _ (Nat.lt_succ_self _))
  · intro h fuel hfuel
    exact (parses_iff hs hfuel).mpr h

/-! ## Short texts -/

mutual
theorem measured_of_length (t : DbusType) (rest : Text) (ht : (text t).length < 2 ^ 31) : Measured t rest := by
  cases t with
  | basic b => trivial
  | variant => trivial
  | dict key value => trivial
  | array elem =>
      rw [text, List.length_cons] at ht
      exact measured_of_length elem rest (Nat.lt_of_succ_lt ht)
  | struct fields =>
      rw [text, List.length_cons, List.length_append] at ht
      exact ⟨.inl (by omega), measuredAll_of_length fields (structEnd :: rest) (by omega)⟩

theorem measuredAll_of_length (ts : List DbusType) (rest : Text) (hts : (texts ts).length < 2 ^ 31) :
    MeasuredAll ts rest := by
  match ts with
  | [] => trivial
  | t :: ts =>
      rw [texts, List.length_append] at hts
      exact ⟨measured_of_length t (texts ts ++ rest) (by omega), measuredAll_of_length ts rest (by omega)⟩
end

/-- The counters only matter for a text of more than 2 GiB. -/
theorem counters_of_length {s : Text} (hs : s.length < 2 ^ 31) : ¬ Wide 0 0 s ∧ TextMeasured s := by
  refine ⟨fun h => ?_, fun ts hts htexts => ?_⟩
  · have hlength := h.length
    unfold intMax at hlength
    omega
  · rw [htexts] at hs ⊢
    exact ⟨.inl hs, measuredAll_of_length ts [] hs⟩

/-- The text `a(io)i` of the unit tests. -/
theorem signature_parsed_nested :
    0 ∉ ([97, 40, 105, 111, 41, 105] : Text) ∧ ParsedRight [97, 40, 105, 111, 41, 105] := by
  have hzero : 0 ∉ ([97, 40, 105, 111, 41, 105] : Text) := by decide
  refine ⟨hzero, (signature_parsed hzero).mpr ⟨fun h => h.1 ?_, counters_of_length (by decide)⟩⟩
  exact ⟨[.array (.struct [.basic (.integer .int32), .basic .objectPath]), .basic (.integer .int32)],
    ⟨⟨trivial, trivial, trivial⟩, trivial, trivial⟩, rfl⟩

/-- An array without an element type, a group that is not closed, and one inside of the other. -/
theorem truncated_signature_stops :
    (parseDbusSignature 20 [97] = .error .nullPointer ∧ ¬ ParsedRight [97]) ∧
    (parseDbusSignature 20 [40, 105] = .error .assertion ∧ ¬ ParsedRight [40, 105]) ∧
    (parseDbusSignature 20 [40, 97, 40, 97] = .error .nullPointer ∧ ¬ ParsedRight [40, 97, 40, 97]) := by
  have hstop : ∀ s stop, 2 * s.length + 1 < 20 → parseDbusSignature 20 s = .error stop → ¬ ParsedRight s := by
    intro s stop hfuel h hparses
    obtain ⟨node, hnode⟩ := (hparses 20 hfuel).ok
    cases h.symm.trans hnode
  exact ⟨⟨rfl, hstop _ _ (by decide) rfl⟩, ⟨rfl, hstop _ _ (by decide) rfl⟩, ⟨rfl, hstop _ _ (by decide) rfl⟩⟩

end Deai.DbusAcceptance
