import Mathlib.Data.List.TakeWhile
import Mathlib.Tactic

/-!
# The command line

How `main` reads the arguments of the method that it calls. An argument is a string with a type in
front of it, `i:`, `f:` or `s:`. The number of elements of the tuple is fixed before the arguments
are read.
-/
namespace Deai.CommandLine

/-- The bytes of a string, without the terminating NUL. -/
abbrev Text := List UInt8

def ch (c : Char) : UInt8 := .ofNat c.toNat

def chars (s : String) : Text := s.toList.map ch

/-! ## Integers -/

def isSpace (c : UInt8) : Bool := c = ch ' ' ∨ ch '\t' ≤ c ∧ c ≤ ch '\r'

def isDigit (c : UInt8) : Bool := ch '0' ≤ c ∧ c ≤ ch '9'

def digitsValue (digits : Text) : ℕ :=
  digits.foldl (fun n c => n * 10 + (c.toNat - (ch '0').toNat)) 0

/-- A number out of the range of `long long` becomes the nearest one in it. -/
def clamp (n : ℤ) : ℤ := max (-2 ^ 63) (min n (2 ^ 63 - 1))

def afterSign (t : Text) : Text :=
  if t.head? = some (ch '-') ∨ t.head? = some (ch '+') then t.tail else t

/-- `strtoll` in base 10: the number, and the text from `endptr` on. -/
def strtoll (s : Text) : ℤ × Text :=
  let t := s.dropWhile isSpace
  let digits := (afterSign t).takeWhile isDigit
  if digits = [] then (0, s)
  else
    (clamp (if t.head? = some (ch '-') then -digitsValue digits else digitsValue digits),
      (afterSign t).dropWhile isDigit)

/-- The decimal notation of an integer: white space, a sign, and at least one digit. -/
def Spells (s : Text) (n : ℤ) : Prop :=
  ∃ space digits : Text, (∀ c ∈ space, isSpace c) ∧ digits ≠ [] ∧ (∀ c ∈ digits, isDigit c) ∧
    ((s = space ++ digits ∨ s = space ++ ch '+' :: digits) ∧ n = digitsValue digits ∨
      s = space ++ ch '-' :: digits ∧ n = -digitsValue digits)

variable {s t : Text} {n : ℤ} {c : UInt8}

theorem not_isSpace_of_isDigit (h : isDigit c) : isSpace c = false := by
  simp only [isDigit, isSpace, ch, decide_eq_true_eq, decide_eq_false_iff_not, UInt8.le_iff_toNat_le,
    ← UInt8.toNat_inj] at h ⊢
  simp at h ⊢
  omega

theorem not_sign_of_isDigit (h : isDigit c) : c ≠ ch '-' ∧ c ≠ ch '+' := by
  constructor
  · rintro rfl
    revert h
    decide
  · rintro rfl
    revert h
    decide

theorem dropWhile_space_append {space : Text} (rest : Text) (hspace : ∀ c ∈ space, isSpace c)
    (hrest : ∀ c ∈ rest.head?, isSpace c = false) : (space ++ rest).dropWhile isSpace = rest := by
  rw [List.dropWhile_append_of_pos hspace]
  cases rest with
  | nil => rfl
  | cons c rest => rw [List.dropWhile_cons_of_neg (by simp [hrest c rfl])]

theorem afterSign_minus : afterSign (ch '-' :: t) = t := rfl

theorem afterSign_plus : afterSign (ch '+' :: t) = t := rfl

theorem afterSign_digit (h : isDigit c) : afterSign (c :: t) = c :: t := by
  obtain ⟨hminus, hplus⟩ := not_sign_of_isDigit h
  simp [afterSign, hminus, hplus]

theorem afterSign_cases (t : Text) :
    t = afterSign t ∨ t = ch '+' :: afterSign t ∨ t = ch '-' :: afterSign t := by
  unfold afterSign
  split_ifs with hsign
  · cases t with
    | nil => exact .inl rfl
    | cons c t =>
        simp only [List.head?_cons, Option.some.injEq] at hsign
        rcases hsign with rfl | rfl
        · exact .inr (.inr rfl)
        · exact .inr (.inl rfl)
  · exact .inl rfl

theorem takeWhile_digits {digits : Text} (h : ∀ c ∈ digits, isDigit c) :
    digits.takeWhile isDigit = digits ∧ digits.dropWhile isDigit = [] :=
  ⟨List.takeWhile_eq_self_iff.mpr h, List.dropWhile_eq_nil_iff.mpr h⟩

/-- An integer is read to its end. -/
theorem strtoll_of_spells (h : Spells s n) : strtoll s = (clamp n, []) := by
  obtain ⟨space, digits, hspace, hne, hdigits, hcase⟩ := h
  obtain ⟨htake, hdrop⟩ := takeWhile_digits hdigits
  rcases hcase with ⟨rfl | rfl, rfl⟩ | ⟨rfl, rfl⟩
  · obtain ⟨d, rest, rfl⟩ := List.exists_cons_of_ne_nil hne
    have hd := hdigits d List.mem_cons_self
    have hstart := dropWhile_space_append (d :: rest) hspace
      (by simpa using not_isSpace_of_isDigit hd)
    simp only [strtoll, hstart, afterSign_digit hd, htake, hdrop, if_neg hne, List.head?_cons,
      Option.some.injEq, (not_sign_of_isDigit hd).1, if_false]
  · have hstart := dropWhile_space_append (ch '+' :: digits) hspace (by
      rintro c ⟨⟩
      rfl)
    have hminus : ch '+' ≠ ch '-' := by decide
    simp only [strtoll, hstart, afterSign_plus, htake, hdrop, if_neg hne, List.head?_cons,
      Option.some.injEq, hminus, if_false]
  · have hstart := dropWhile_space_append (ch '-' :: digits) hspace (by
      rintro c ⟨⟩
      rfl)
    simp only [strtoll, hstart, afterSign_minus, htake, hdrop, if_neg hne, List.head?_cons, if_true]

/-- Nothing but integers and the empty text is read to its end. -/
theorem strtoll_end_iff : (strtoll s).2 = [] ↔ s = [] ∨ ∃ n, Spells s n := by
  constructor
  · intro hend
    simp only [strtoll] at hend
    by_cases hnone : (afterSign (s.dropWhile isSpace)).takeWhile isDigit = []
    · rw [if_pos hnone] at hend
      exact .inl hend
    · rw [if_neg hnone] at hend
      have hdigits := List.dropWhile_eq_nil_iff.mp hend
      have hne : afterSign (s.dropWhile isSpace) ≠ [] := by
        intro hnil
        rw [hnil] at hnone
        exact hnone rfl
      have hspace : ∀ c ∈ s.takeWhile isSpace, isSpace c := fun c hc => List.mem_takeWhile_imp hc
      have hsplit := (List.takeWhile_append_dropWhile (p := isSpace) (l := s)).symm
      right
      rcases afterSign_cases (s.dropWhile isSpace) with hsign | hsign | hsign
      · exact ⟨_, _, _, hspace, hne, hdigits, .inl ⟨.inl (hsign ▸ hsplit), rfl⟩⟩
      · exact ⟨_, _, _, hspace, hne, hdigits, .inl ⟨.inr (hsign ▸ hsplit), rfl⟩⟩
      · exact ⟨_, _, _, hspace, hne, hdigits, .inr ⟨hsign ▸ hsplit, rfl⟩⟩
  · rintro (rfl | ⟨n, hn⟩)
    · rfl
    · rw [strtoll_of_spells hn]

theorem clamp_eq_iff : clamp n = n ↔ -2 ^ 63 ≤ n ∧ n < 2 ^ 63 := by
  unfold clamp
  omega

/-! ## Arguments -/

/-- An argument in memory. What follows its terminating NUL is not part of it. -/
structure Arg where
  text : Text
  noNul : 0 ∉ text
  after : UInt8

/-- One of the first two bytes of an argument. -/
def Arg.at (arg : Arg) (i : ℕ) : UInt8 := (arg.text ++ [0, arg.after]).getD i 0

/-- What is used of the C library and of the modules. `F` are the floating point numbers and `O` the
objects; `module` is `di_get` from the core object, and `method` is `di_rawget_borrowed`. -/
structure Environment (F O : Type*) where
  strtod : Text → F × Text
  endptr : ∀ s, (strtod s).2 <:+ s
  core : O
  module : Text → Option O
  method : O → Text → Option O

/-- A `di_variant` of the tuple. -/
inductive Variant (F O : Type*) where
  | nil
  | object (o : O)
  | int (n : ℤ)
  | float (x : F)
  | string (s : Text)

/-- A message to `stderr`. -/
inductive Message where
  | invalidArgument (arg : Text)
  | invalidInteger (text : Text)
  | invalidFloat (text : Text)
  | invalidArgumentType (arg : Text)
  | moduleNotFound (modname : Text)
  | methodNotFound (method : Text) (modname : Option Text)

def Message.text : Message → Text
  | .invalidArgument arg => chars "Invalid argument: " ++ arg ++ chars "\n"
  | .invalidInteger text => chars "Invalid integer: " ++ text ++ chars "\n"
  | .invalidFloat text => chars "Invalid float: " ++ text ++ chars "\n"
  | .invalidArgumentType arg => chars "Invalid argument type: " ++ arg ++ chars "\n"
  | .moduleNotFound modname => chars "Module \"" ++ modname ++ chars "\" not found\n"
  | .methodNotFound method (some modname) =>
      chars "Method \"" ++ method ++ chars "\" not found in module \"" ++ modname ++ chars "\"\n"
  | .methodNotFound method none =>
      chars "Method \"" ++ method ++ chars "\" not found in main module\n"

variable {F O : Type*}

/-- The body of the loop over the arguments. -/
def parseArg (E : Environment F O) (arg : Arg) : Except Message (Variant F O) :=
  let text := arg.text.drop 2
  if arg.at 1 ≠ ch ':' then .error (.invalidArgument arg.text)
  else if arg.at 0 = ch 'i' then
    if (strtoll text).2.headD 0 ≠ 0 then .error (.invalidInteger text)
    else .ok (.int (strtoll text).1)
  else if arg.at 0 = ch 's' then .ok (.string text)
  else if arg.at 0 = ch 'f' then
    if (E.strtod text).2.headD 0 ≠ 0 then .error (.invalidFloat text)
    else .ok (.float (E.strtod text).1)
  else .error (.invalidArgumentType arg.text)

/-- `args` and `nargs`, and whether an argument was read beyond its end. -/
structure Args (F O : Type*) where
  elements : List (Variant F O)
  nargs : ℕ
  overrun : Bool

def parseArgs (E : Environment F O) : List Arg → Args F O → Except (Message × Bool) (Args F O)
  | [], args => .ok args
  | arg :: rest, args =>
      if arg.text = chars "--" then .ok args
      else
        -- `argv[i][1]` is behind the NUL of an empty string.
        let overrun := args.overrun || arg.text.isEmpty
        match parseArg E arg with
        | .error m => .error (m, overrun)
        | .ok v => parseArgs E rest ⟨args.elements.set args.nargs v, args.nargs + 1, overrun⟩

/-- `main` exits with a message, or it calls a method. -/
inductive Outcome (F O : Type*) where
  | exit (m : Message)
  | call (method : O) (args : List (Variant F O))

/-- The module and the method of the first argument, which is split at its first dot. -/
def findMethod (E : Environment F O) (name : Text) : Except Message (O × O) :=
  if ch '.' ∈ name then
    let modname := name.takeWhile (· ≠ ch '.')
    let method := (name.dropWhile (· ≠ ch '.')).tail
    match E.module modname with
    | none => .error (.moduleNotFound modname)
    | some mod =>
        match E.method mod method with
        | none => .error (.methodNotFound method (some modname))
        | some f => .ok (mod, f)
  else
    match E.method E.core name with
    | none => .error (.methodNotFound name none)
    | some f => .ok (E.core, f)

/-- `main` from its first argument to the call, and whether an argument was read beyond its end. -/
def main (E : Environment F O) (name : Arg) (rest : List Arg) : Outcome F O × Bool :=
  match parseArgs E rest ⟨List.replicate (rest.length + 1) .nil, 1, false⟩ with
  | .error m => (.exit m.1, m.2)
  | .ok args =>
      match findMethod E name.text with
      | .error m => (.exit m, args.overrun)
      | .ok found => (.call found.2 (args.elements.set 0 (.object found.1)), args.overrun)

/-! ## What should reach the method -/

/-- The arguments up to the first `--`. -/
def passed (rest : List Arg) : List Arg := rest.takeWhile fun arg => arg.text ≠ chars "--"

/-- The value that an argument stands for. -/
inductive Denotes (E : Environment F O) : Text → Variant F O → Prop
  | int {text : Text} {n : ℤ} : Spells text n → Denotes E (chars "i:" ++ text) (.int n)
  | float {text : Text} {x : F} : text ≠ [] → E.strtod text = (x, []) →
      Denotes E (chars "f:" ++ text) (.float x)
  | string (text : Text) : Denotes E (chars "s:" ++ text) (.string text)

/-- The module and the method that the first argument names. -/
inductive Chosen (E : Environment F O) : Text → O → O → Prop
  | core {name : Text} {f : O} : ch '.' ∉ name → E.method E.core name = some f →
      Chosen E name E.core f
  | module {modname method : Text} {mod f : O} : ch '.' ∉ modname → E.module modname = some mod →
      E.method mod method = some f → Chosen E (modname ++ ch '.' :: method) mod f

/-- `main` exits with a message or calls the method with exactly the arguments, and it does not read
an argument beyond its end. -/
structure Exact (E : Environment F O) (name : Arg) (rest : List Arg) (r : Outcome F O × Bool) :
    Prop where
  inBounds : r.2 = false
  outcome : (∃ m, r.1 = .exit m) ∨ ∃ mod f values, r.1 = .call f (.object mod :: values) ∧
    Chosen E name.text mod f ∧
    List.Forall₂ (fun arg v => Denotes E arg.text v) (passed rest) values

/-- `main` does not exit at an argument like this. -/
inductive Accepted (E : Environment F O) : Text → Prop
  | int {text : Text} : (text = [] ∨ ∃ n, Spells text n) → Accepted E (chars "i:" ++ text)
  | float {text : Text} : (E.strtod text).2 = [] → Accepted E (chars "f:" ++ text)
  | string (text : Text) : Accepted E (chars "s:" ++ text)

/-- An argument with a value. The integers have 64 bits. -/
def Representable (E : Environment F O) (text : Text) : Prop :=
  ∃ v, Denotes E text v ∧ ∀ n, v = .int n → -2 ^ 63 ≤ n ∧ n < 2 ^ 63

/-- An argument that is not empty makes `main` exit, or the module or the method is missing, or no
argument is `--` and all of them have values. -/
def Harmless (E : Environment F O) (name : Arg) (rest : List Arg) : Prop :=
  (∃ before bad behind, passed rest = before ++ bad :: behind ∧
    (∀ arg ∈ before, Accepted E arg.text) ∧ ¬ Accepted E bad.text ∧ bad.text ≠ []) ∨
  (∀ arg ∈ passed rest, Accepted E arg.text) ∧
    ((∀ mod f, ¬ Chosen E name.text mod f) ∨
      (∀ arg ∈ rest, arg.text ≠ chars "--") ∧ ∀ arg ∈ passed rest, Representable E arg.text)

/-! ## One argument -/

variable {E : Environment F O} {name arg : Arg} {rest : List Arg} {text : Text} {v : Variant F O}

theorem afterSign_suffix (t : Text) : afterSign t <:+ t := by
  unfold afterSign
  split_ifs
  · exact List.tail_suffix t
  · exact List.suffix_refl t

theorem strtoll_suffix (s : Text) : (strtoll s).2 <:+ s := by
  simp only [strtoll]
  split_ifs
  · exact List.suffix_refl s
  · exact (List.dropWhile_suffix _).trans ((afterSign_suffix _).trans (List.dropWhile_suffix _))
  · exact (List.dropWhile_suffix _).trans ((afterSign_suffix _).trans (List.dropWhile_suffix _))

/-- Only the NUL at the end is a zero. -/
theorem headD_eq_zero_iff (arg : Arg) {l : Text} (hl : l <:+ arg.text.drop 2) :
    l.headD 0 = 0 ↔ l = [] := by
  cases l with
  | nil => simp
  | cons c l =>
      have hc : c ≠ 0 := by
        rintro rfl
        exact arg.noNul (List.mem_of_mem_drop (hl.mem List.mem_cons_self))
      simp [hc]

theorem Arg.text_eq {c : UInt8} (hcolon : arg.at 1 = ch ':') (hc : arg.at 0 = c) (hne : c ≠ 0) :
    arg.text = c :: ch ':' :: arg.text.drop 2 := by
  unfold Arg.at at hcolon hc
  rcases htext : arg.text with _ | ⟨a, _ | ⟨b, text⟩⟩
  · rw [htext] at hc
    exact absurd hc.symm hne
  · rw [htext] at hcolon
    exact absurd (show 0 = ch ':' from hcolon) (by decide)
  · rw [htext] at hcolon hc
    rw [show c = a from hc.symm, show ch ':' = b from hcolon.symm]
    rfl

theorem Arg.at_of_text {a b : UInt8} (h : arg.text = a :: b :: t) :
    arg.at 0 = a ∧ arg.at 1 = b ∧ arg.text.drop 2 = t := by
  simp [Arg.at, h]

theorem accepted_of_parseArg (h : parseArg E arg = .ok v) : Accepted E arg.text := by
  simp only [parseArg] at h
  by_cases hcolon : arg.at 1 ≠ ch ':'
  · rw [if_pos hcolon] at h
    cases h
  rw [if_neg hcolon] at h
  rw [not_not] at hcolon
  split_ifs at h with hint hend hstring hfloat hend
  · rw [not_not, headD_eq_zero_iff arg (strtoll_suffix _), strtoll_end_iff] at hend
    rw [Arg.text_eq hcolon hint (by decide)]
    exact .int hend
  · rw [Arg.text_eq hcolon hstring (by decide)]
    exact .string _
  · rw [not_not, headD_eq_zero_iff arg (E.endptr _)] at hend
    rw [Arg.text_eq hcolon hfloat (by decide)]
    exact .float hend

theorem denotes_int_iff : Denotes E (chars "i:" ++ text) v ↔ ∃ n, Spells text n ∧ v = .int n := by
  constructor
  · intro h
    generalize htext : chars "i:" ++ text = t at h
    cases h with
    | int hn =>
        obtain rfl : text = _ := List.append_cancel_left htext
        exact ⟨_, hn, rfl⟩
    | float => cases htext
    | string => cases htext
  · rintro ⟨n, hn, rfl⟩
    exact .int hn

theorem denotes_float_iff :
    Denotes E (chars "f:" ++ text) v ↔ text ≠ [] ∧ ∃ x, E.strtod text = (x, []) ∧ v = .float x := by
  constructor
  · intro h
    generalize htext : chars "f:" ++ text = t at h
    cases h with
    | int => cases htext
    | float hne hx =>
        obtain rfl : text = _ := List.append_cancel_left htext
        exact ⟨hne, _, hx, rfl⟩
    | string => cases htext
  · rintro ⟨hne, x, hx, rfl⟩
    exact .float hne hx

/-- An accepted argument is stored as a value, which is the right one if there is one. -/
theorem parseArg_of_accepted (h : Accepted E arg.text) :
    ∃ v, parseArg E arg = .ok v ∧ (Denotes E arg.text v ↔ Representable E arg.text) ∧
      arg.text ≠ [] := by
  generalize htext : arg.text = t at h
  cases h with
  | @int text hend =>
      obtain ⟨hzero, hcolon, hdrop⟩ := Arg.at_of_text (a := ch 'i') (b := ch ':') (t := text) htext
      have hnul := headD_eq_zero_iff arg (strtoll_suffix _)
      rw [hdrop, strtoll_end_iff] at hnul
      refine ⟨.int (strtoll text).1, ?_, ?_, by rintro ⟨⟩⟩
      · simp only [parseArg, hcolon, hzero, hdrop, ne_eq, not_true_eq_false, if_false, if_true,
          hnul.mpr hend]
      · constructor
        · intro hv
          refine ⟨_, hv, fun m hm => ?_⟩
          rw [denotes_int_iff] at hv
          obtain ⟨n, hn, heq⟩ := hv
          cases hm
          rw [Variant.int.injEq, strtoll_of_spells hn] at heq
          rw [strtoll_of_spells hn]
          rw [show clamp n = n from heq]
          exact clamp_eq_iff.mp heq
        · rintro ⟨w, hw, hrange⟩
          have hspelled := hw
          rw [denotes_int_iff] at hspelled
          obtain ⟨n, hn, rfl⟩ := hspelled
          rw [strtoll_of_spells hn, show clamp n = n from clamp_eq_iff.mpr (hrange n rfl)]
          exact hw
  | @float text hend =>
      obtain ⟨hzero, hcolon, hdrop⟩ := Arg.at_of_text (a := ch 'f') (b := ch ':') (t := text) htext
      have hnul := headD_eq_zero_iff arg (E.endptr _)
      rw [hdrop] at hnul
      have hint : ch 'f' ≠ ch 'i' := by decide
      have hstring : ch 'f' ≠ ch 's' := by decide
      refine ⟨.float (E.strtod text).1, ?_, ?_, by rintro ⟨⟩⟩
      · simp only [parseArg, hcolon, hzero, hdrop, ne_eq, not_true_eq_false, if_false, if_true, hint,
          hstring, hnul.mpr hend]
      · constructor
        · intro hv
          refine ⟨_, hv, fun m hm => by cases hm⟩
        · rintro ⟨w, hw, -⟩
          have hspelled := hw
          rw [denotes_float_iff] at hspelled
          obtain ⟨hne, x, hx, rfl⟩ := hspelled
          rw [hx]
          exact hw
  | string text =>
      obtain ⟨hzero, hcolon, hdrop⟩ := Arg.at_of_text (a := ch 's') (b := ch ':') (t := text) htext
      have hint : ch 's' ≠ ch 'i' := by decide
      refine ⟨.string text, ?_, ?_, by rintro ⟨⟩⟩
      · simp only [parseArg, hcolon, hzero, hdrop, ne_eq, not_true_eq_false, if_false, if_true, hint]
      · exact ⟨fun hv => ⟨_, hv, fun m hm => by cases hm⟩, fun _ => .string text⟩

/-! ## All arguments -/

theorem passed_cons_of_ne (h : arg.text ≠ chars "--") :
    passed (arg :: rest) = arg :: passed rest :=
  List.takeWhile_cons_of_pos (by simpa using h)

theorem passed_cons_of_eq (h : arg.text = chars "--") : passed (arg :: rest) = [] :=
  List.takeWhile_cons_of_neg (by simpa using h)

/-- The first argument that is passed comes first, and is not `--`. -/
theorem passed_eq_cons {l : List Arg} (h : passed rest = arg :: l) :
    ∃ behind, rest = arg :: behind ∧ arg.text ≠ chars "--" ∧ passed behind = l := by
  cases rest with
  | nil => cases h
  | cons first behind =>
      by_cases hdashes : first.text = chars "--"
      · rw [passed_cons_of_eq hdashes] at h
        cases h
      · rw [passed_cons_of_ne hdashes] at h
        obtain ⟨rfl, htail⟩ := List.cons.inj h
        exact ⟨behind, rfl, hdashes, htail⟩

theorem passed_eq_iff : passed rest = rest ↔ ∀ arg ∈ rest, arg.text ≠ chars "--" := by
  rw [passed, List.takeWhile_eq_self_iff]
  simp

theorem parseArgs_dashes (h : arg.text = chars "--") (args : Args F O) :
    parseArgs E (arg :: rest) args = .ok args := if_pos h

/-- The loop goes on behind an argument that is stored. -/
theorem parseArgs_cons_of_ok (hdashes : arg.text ≠ chars "--") (hparse : parseArg E arg = .ok v)
    (args : Args F O) :
    parseArgs E (arg :: rest) args = parseArgs E rest
      ⟨args.elements.set args.nargs v, args.nargs + 1, args.overrun || arg.text.isEmpty⟩ := by
  refine (if_neg hdashes).trans ?_
  rw [hparse]

theorem parseArgs_cons_of_error {m : Message} (hdashes : arg.text ≠ chars "--")
    (hparse : parseArg E arg = .error m) (args : Args F O) :
    parseArgs E (arg :: rest) args = .error (m, args.overrun || arg.text.isEmpty) := by
  refine (if_neg hdashes).trans ?_
  rw [hparse]

/-- Accepted arguments are stored one after another; what is behind them stays empty. -/
theorem parseArgs_of_accepted (h : ∀ arg ∈ passed rest, Accepted E arg.text)
    (done : List (Variant F O)) :
    ∃ values, List.Forall₂ (fun arg v => Denotes E arg.text v ↔ Representable E arg.text)
        (passed rest) values ∧
      parseArgs E rest ⟨done ++ List.replicate rest.length Variant.nil, done.length, false⟩ =
        .ok ⟨done ++ values ++ List.replicate (rest.length - values.length) Variant.nil,
          done.length + values.length, false⟩ := by
  induction rest generalizing done with
  | nil => exact ⟨[], .nil, by simp; rfl⟩
  | cons arg rest ih =>
      by_cases hdashes : arg.text = chars "--"
      · refine ⟨[], ?_, ?_⟩
        · rw [passed_cons_of_eq hdashes]
          exact .nil
        · rw [parseArgs_dashes hdashes]
          simp
      · rw [passed_cons_of_ne hdashes] at h ⊢
        obtain ⟨v, hparse, hv, hne⟩ := parseArg_of_accepted (h arg List.mem_cons_self)
        obtain ⟨values, hvalues, hrest⟩ :=
          ih (fun a ha => h a (List.mem_cons_of_mem _ ha)) (done ++ [v])
        have hset : (done ++ List.replicate (rest.length + 1) Variant.nil).set done.length v =
            done ++ [v] ++ List.replicate rest.length Variant.nil := by
          rw [List.replicate_succ, List.set_append_right _ _ (le_refl _), Nat.sub_self,
            List.set_cons_zero, List.append_assoc, List.singleton_append]
        have hempty : (false || arg.text.isEmpty) = false := by simp [hne]
        refine ⟨v :: values, .cons hv hvalues, ?_⟩
        simp only [parseArgs_cons_of_ok hdashes hparse, List.length_cons, hset, hempty]
        rw [List.length_append, List.length_singleton] at hrest
        rw [hrest]
        simp [Nat.add_assoc, Nat.add_comm 1]

/-- The first argument that is not accepted makes `main` exit. -/
theorem parseArgs_of_bad {before behind : List Arg} {bad : Arg} {args : Args F O}
    (hsplit : passed rest = before ++ bad :: behind)
    (hbefore : ∀ arg ∈ before, Accepted E arg.text) (hbad : ¬ Accepted E bad.text)
    (hargs : args.overrun = false) :
    ∃ m, parseArgs E rest args = .error (m, bad.text.isEmpty) := by
  induction before generalizing rest args with
  | nil =>
      obtain ⟨rest, rfl, hdashes, -⟩ := passed_eq_cons hsplit
      cases hparse : parseArg E bad with
      | error m => exact ⟨m, by rw [parseArgs_cons_of_error hdashes hparse, hargs, Bool.false_or]⟩
      | ok v => exact absurd (accepted_of_parseArg hparse) hbad
  | cons arg before ih =>
      obtain ⟨rest, rfl, hdashes, htail⟩ := passed_eq_cons hsplit
      obtain ⟨v, hparse, -, hne⟩ := parseArg_of_accepted (hbefore arg List.mem_cons_self)
      rw [parseArgs_cons_of_ok hdashes hparse]
      exact ih htail (fun a ha => hbefore a (List.mem_cons_of_mem _ ha)) (by simp [hargs, hne])

/-- There is a first element without a property. -/
theorem exists_first_not {α : Type*} {P : α → Prop} {l : List α} (h : ¬ ∀ a ∈ l, P a) :
    ∃ before bad behind, l = before ++ bad :: behind ∧ (∀ a ∈ before, P a) ∧ ¬ P bad := by
  induction l with
  | nil => simp at h
  | cons a l ih =>
      by_cases ha : P a
      · have hrest : ¬ ∀ b ∈ l, P b := by
          intro hall
          exact h (List.forall_mem_cons.mpr ⟨ha, hall⟩)
        obtain ⟨before, bad, behind, rfl, hbefore, hbad⟩ := ih hrest
        exact ⟨a :: before, bad, behind, rfl, List.forall_mem_cons.mpr ⟨ha, hbefore⟩, hbad⟩
      · exact ⟨[], a, l, rfl, by simp, ha⟩

theorem findMethod_ok_iff {text : Text} {mod f : O} :
    findMethod E text = .ok (mod, f) ↔ Chosen E text mod f := by
  constructor
  · intro h
    simp only [findMethod] at h
    by_cases hdot : ch '.' ∈ text
    · rw [if_pos hdot] at h
      have hsplit := List.takeWhile_append_dropWhile (p := (· ≠ ch '.')) (l := text)
      have hne : text.dropWhile (· ≠ ch '.') ≠ [] := by
        intro hnil
        have hall := List.dropWhile_eq_nil_iff.mp hnil _ hdot
        simp at hall
      have hhead : (text.dropWhile (· ≠ ch '.')).head hne = ch '.' := by
        simpa using List.head_dropWhile_not (· ≠ ch '.') hne
      rw [← List.cons_head_tail hne, hhead] at hsplit
      have hfree : ch '.' ∉ text.takeWhile (· ≠ ch '.') := by
        intro hmem
        have htake := List.mem_takeWhile_imp hmem
        simp at htake
      split at h
      · cases h
      · rename_i mod' hmod
        split at h
        · cases h
        · rename_i f' hf
          cases h
          rw [← hsplit]
          exact .module hfree hmod hf
    · rw [if_neg hdot] at h
      split at h
      · cases h
      · rename_i f' hf
        cases h
        exact .core hdot hf
  · intro h
    cases h with
    | core hdot hf => simp only [findMethod, if_neg hdot, hf]
    | @module modname method mod f hdot hmod hf =>
        have hfree : ∀ c ∈ modname, decide (c ≠ ch '.') = true := by
          intro c hc
          rw [decide_eq_true_eq]
          rintro rfl
          exact hdot hc
        have htake : (modname ++ ch '.' :: method).takeWhile (· ≠ ch '.') = modname := by
          rw [List.takeWhile_append_of_pos hfree, List.takeWhile_cons_of_neg (by simp),
            List.append_nil]
        have hdrop : (modname ++ ch '.' :: method).dropWhile (· ≠ ch '.') = ch '.' :: method := by
          rw [List.dropWhile_append_of_pos hfree, List.dropWhile_cons_of_neg (by simp)]
        have hmem : ch '.' ∈ modname ++ ch '.' :: method := by simp
        simp only [findMethod, if_pos hmem, htake, hdrop, hmod, List.tail_cons, hf]

/-! ## The call -/

theorem main_of_bad (name : Arg) {before behind : List Arg} {bad : Arg}
    (hsplit : passed rest = before ++ bad :: behind)
    (hbefore : ∀ arg ∈ before, Accepted E arg.text) (hbad : ¬ Accepted E bad.text) :
    ∃ m, main E name rest = (.exit m, bad.text.isEmpty) := by
  have hargs : (⟨List.replicate (rest.length + 1) .nil, 1, false⟩ : Args F O).overrun = false := rfl
  obtain ⟨m, hm⟩ := parseArgs_of_bad hsplit hbefore hbad hargs
  exact ⟨m, by simp only [main, hm]⟩

/-- Accepted arguments are passed to the method, with empty elements behind them. -/
theorem main_of_accepted (name : Arg) (h : ∀ arg ∈ passed rest, Accepted E arg.text) :
    (∃ m, findMethod E name.text = .error m ∧ main E name rest = (.exit m, false)) ∨
    ∃ mod f values, findMethod E name.text = .ok (mod, f) ∧
      List.Forall₂ (fun arg v => Denotes E arg.text v ↔ Representable E arg.text) (passed rest)
        values ∧
      main E name rest = (.call f (.object mod ::
        (values ++ List.replicate (rest.length - values.length) Variant.nil)), false) := by
  obtain ⟨values, hvalues, hparse⟩ := parseArgs_of_accepted h [Variant.nil]
  rw [List.singleton_append, ← List.replicate_succ, List.length_singleton] at hparse
  cases hfind : findMethod E name.text with
  | error m => exact .inl ⟨m, rfl, by simp only [main, hparse, hfind]⟩
  | ok found =>
      refine .inr ⟨found.1, found.2, values, rfl, hvalues, ?_⟩
      simp only [main, hparse, hfind, List.cons_append, List.nil_append, List.set_cons_zero]

theorem forall₂_iff {α β : Type*} {D : α → β → Prop} {R : α → Prop} {l : List α} {values : List β}
    (h : List.Forall₂ (fun a v => D a v ↔ R a) l values) :
    List.Forall₂ D l values ↔ ∀ a ∈ l, R a := by
  induction h with
  | nil => simp
  | cons hv _ ih => rw [List.forall₂_cons, List.forall_mem_cons, ih, hv]

/-- The stored values are the right ones, if nothing was left out and every argument has a value. -/
theorem stored_iff {values : List (Variant F O)}
    (hvalues : List.Forall₂ (fun arg v => Denotes E arg.text v ↔ Representable E arg.text)
      (passed rest) values) :
    List.Forall₂ (fun arg v => Denotes E arg.text v) (passed rest)
        (values ++ List.replicate (rest.length - values.length) Variant.nil) ↔
      (∀ arg ∈ rest, arg.text ≠ chars "--") ∧ ∀ arg ∈ passed rest, Representable E arg.text := by
  have hlength := hvalues.length_eq
  have hprefix : passed rest <+: rest := List.takeWhile_prefix _
  have hall := forall₂_iff hvalues
  constructor
  · intro hforall
    have heq := hforall.length_eq
    rw [List.length_append, List.length_replicate] at heq
    have hle := hprefix.length_le
    have hpassed : passed rest = rest := hprefix.eq_of_length (by omega)
    have hnone : rest.length - values.length = 0 := by rw [← hlength, hpassed, Nat.sub_self]
    rw [hnone, List.replicate_zero, List.append_nil] at hforall
    exact ⟨passed_eq_iff.mp hpassed, hall.mp hforall⟩
  · rintro ⟨hdashes, hrepresentable⟩
    rw [← hlength, passed_eq_iff.mpr hdashes, Nat.sub_self, List.replicate_zero, List.append_nil]
    rw [passed_eq_iff.mpr hdashes] at hall hrepresentable
    exact hall.mpr hrepresentable

/-- `main` passes on exactly the arguments, if and only if the command line is harmless. -/
theorem arguments_exact_iff (E : Environment F O) (name : Arg) (rest : List Arg) :
    Exact E name rest (main E name rest) ↔ Harmless E name rest := by
  by_cases hall : ∀ arg ∈ passed rest, Accepted E arg.text
  · have hnobad : ¬ ∃ before bad behind, passed rest = before ++ bad :: behind ∧
        (∀ arg ∈ before, Accepted E arg.text) ∧ ¬ Accepted E bad.text ∧ bad.text ≠ [] := by
      rintro ⟨before, bad, behind, hsplit, -, hbad, -⟩
      exact hbad (hall bad (hsplit ▸ by simp))
    rw [Harmless, or_iff_right hnobad, and_iff_right hall]
    rcases main_of_accepted name hall with
      ⟨m, hfind, hmain⟩ | ⟨mod, f, values, hfind, hvalues, hmain⟩
    · rw [hmain]
      refine iff_of_true ⟨rfl, .inl ⟨m, rfl⟩⟩ (.inl fun mod f hchosen => ?_)
      rw [findMethod_ok_iff.mpr hchosen] at hfind
      cases hfind
    · have hchosen := findMethod_ok_iff.mp hfind
      have hsome : ¬ ∀ mod f, ¬ Chosen E name.text mod f := fun hnone => hnone mod f hchosen
      rw [hmain, or_iff_right hsome, ← stored_iff hvalues]
      constructor
      · rintro ⟨-, ⟨m, hexit⟩ | ⟨mod', f', values', hcall, -, hforall⟩⟩
        · cases hexit
        · cases hcall
          exact hforall
      · intro hforall
        exact ⟨rfl, .inr ⟨mod, f, _, rfl, hchosen, hforall⟩⟩
  · rw [Harmless, or_iff_left fun h => hall h.1]
    constructor
    · intro hexact
      obtain ⟨before, bad, behind, hsplit, hbefore, hbad⟩ := exists_first_not hall
      obtain ⟨m, hmain⟩ := main_of_bad name hsplit hbefore hbad
      refine ⟨before, bad, behind, hsplit, hbefore, hbad, ?_⟩
      rw [hmain] at hexact
      simpa using hexact.inBounds
    · rintro ⟨before, bad, behind, hsplit, hbefore, hbad, hne⟩
      obtain ⟨m, hmain⟩ := main_of_bad name hsplit hbefore hbad
      rw [hmain]
      exact ⟨by simpa using hne, .inl ⟨m, rfl⟩⟩

/-- The core object has one method, and there is nothing else. -/
def coreOnly : Environment Unit Unit where
  strtod s := ((), s)
  endptr s := List.suffix_refl s
  core := ()
  module _ := none
  method _ _ := some ()

/-- A string that is followed by another string in memory. -/
def asciiArg (s : String) (h : 0 ∉ chars s) : Arg := ⟨chars s, h, ch 's'⟩

/-- `--` leaves an empty element, and the byte behind an empty argument is read. -/
theorem arguments_not_exact :
    ¬ Exact coreOnly (asciiArg "exit" (by decide)) [asciiArg "--" (by decide)]
      (main coreOnly (asciiArg "exit" (by decide)) [asciiArg "--" (by decide)]) ∧
    ¬ Exact coreOnly (asciiArg "exit" (by decide)) [asciiArg "" (by decide)]
      (main coreOnly (asciiArg "exit" (by decide)) [asciiArg "" (by decide)]) := by
  constructor
  · rintro ⟨-, ⟨m, hexit⟩ | ⟨mod, f, values, hcall, -, hforall⟩⟩
    · cases hexit
    · cases hcall
      cases hforall
  · intro hexact
    cases hexact.inBounds

end Deai.CommandLine
