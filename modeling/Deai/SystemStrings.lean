import Deai.Value

/-!
# Strings for the operating system

Strings are handed to the operating system as copies with a NUL at the end, which one function makes:
for the vector of arguments of `spawn.run` and `exec`, and for the environment variables, which are
the members of `os.env`.
-/
namespace Deai.SystemStrings
open Value

/-- The bytes of a string. -/
abbrev Text := List UInt8

/-- A `di_string`: its `data` may be `NULL`. -/
abbrev DiString := Option Text

/-- The bytes and the NUL at the end, or `NULL`. -/
abbrev Chars := Option Text

def bytes (s : String) : Text := s.toList.map fun c => .ofNat c.toNat

def DiString.text (s : DiString) : Text := s.getD []

inductive Fault where
  | overflow
  | nullName
  | nullValue
  deriving DecidableEq

def diStringToCharsAlloc (str : DiString) : Chars :=
  if str.text.length = 0 then none else some (str.text ++ [0])

/-! ## Vectors of arguments -/

/-- The loop that fills `nargv`; its counter is an `int`. -/
def fillArgv : ℕ → List DiString → Except Fault (List Chars)
  | _, [] => .ok []
  | i, s :: rest =>
      if i + 1 = 2 ^ 31 then .error .overflow
      else do
        let nargv ← fillArgv (i + 1) rest
        .ok (diStringToCharsAlloc s :: nargv)

/-- `nargv` has one more element, which stays `NULL`. -/
def makeArgv (argv : List DiString) : Except Fault (List Chars) := do
  let nargv ← fillArgv 0 argv
  .ok (nargv ++ [none])

/-- What a call comes to: an error that is thrown, the end of the child, or `execvp`. -/
inductive Outcome where
  | threw (message : String)
  | exited (status : ℕ)
  | execvp (file : Chars) (argv : List Chars)
  deriving DecidableEq

/-- `di_exec`. -/
def diExec (argv : List DiString) : Except Fault Outcome := do
  let nargv ← makeArgv argv
  .ok (.execvp (nargv.headD none) nargv)

/-- What the system does in `di_spawn_run`. -/
structure SpawnConditions where
  deai : Bool
  forks : Bool
  dups : Bool

/-- `di_spawn_run`, in the child if there is one. -/
def diSpawnRun (C : SpawnConditions) (elemType : DiType) (argv : List DiString) :
    Except Fault Outcome :=
  if elemType ≠ .string then .ok (.threw "Invalid argv type")
  else if C.deai = false then .ok (.threw "deai is shutting down...")
  else do
    let nargv ← makeArgv argv
    if C.forks = false then .ok (.threw "Failed to fork")
    else if C.dups = false then .ok (.exited 1)
    else .ok (.execvp (nargv.headD none) nargv)

/-- The list of strings, followed by a null pointer. -/
def exactArgv (argv : List DiString) : List Chars := argv.map (fun s => some (s.text ++ [0])) ++ [none]

variable {argv : List DiString} {s : DiString}

theorem diStringToCharsAlloc_eq_iff : diStringToCharsAlloc s = some (s.text ++ [0]) ↔ s.text ≠ [] := by
  rw [diStringToCharsAlloc]
  split_ifs with hempty
  · simpa using List.length_eq_zero_iff.mp hempty
  · simpa using hempty

theorem fillArgv_eq {i : ℕ} (h : i + argv.length < 2 ^ 31) :
    fillArgv i argv = .ok (argv.map diStringToCharsAlloc) := by
  induction argv generalizing i with
  | nil => rfl
  | cons s rest ih =>
      rw [List.length_cons] at h
      rw [fillArgv, if_neg (by omega), ih (by omega)]
      rfl

theorem fillArgv_overflow {i : ℕ} (hi : i < 2 ^ 31) (h : 2 ^ 31 ≤ i + argv.length) :
    fillArgv i argv = .error .overflow := by
  induction argv generalizing i with
  | nil =>
      rw [List.length_nil] at h
      omega
  | cons s rest ih =>
      rw [fillArgv]
      split_ifs with hlast
      · rfl
      · rw [List.length_cons] at h
        rw [ih (by omega) (by omega)]
        rfl

/-- The vector is right, if no string is empty and the counter can count the strings. -/
theorem makeArgv_exact_iff :
    makeArgv argv = .ok (exactArgv argv) ↔ argv.length < 2 ^ 31 ∧ ∀ s ∈ argv, s.text ≠ [] := by
  rcases Nat.lt_or_ge argv.length (2 ^ 31) with hlength | hlength
  · rw [makeArgv, fillArgv_eq (by omega), and_iff_right hlength]
    simp only [bind, Except.bind, Except.ok.injEq, exactArgv, List.append_cancel_right_eq,
      List.map_inj_left, diStringToCharsAlloc_eq_iff]
  · rw [makeArgv, fillArgv_overflow (by omega) (by omega)]
    refine iff_of_false (by rintro ⟨⟩) fun h => ?_
    omega

theorem diExec_exact_iff :
    diExec argv = .ok (.execvp ((exactArgv argv).headD none) (exactArgv argv)) ↔
      argv.length < 2 ^ 31 ∧ ∀ s ∈ argv, s.text ≠ [] := by
  rw [← makeArgv_exact_iff, diExec]
  cases makeArgv argv with
  | error e => exact iff_of_false (by rintro ⟨⟩) (by rintro ⟨⟩)
  | ok nargv =>
      simp only [bind, Except.bind, Except.ok.injEq, Outcome.execvp.injEq, and_iff_right_iff_imp]
      rintro rfl
      rfl

/-- In the child of `spawn.run` the vector is the same. -/
theorem diSpawnRun_eq {C : SpawnConditions} (hdeai : C.deai = true) (hforks : C.forks = true)
    (hdups : C.dups = true) : diSpawnRun C .string argv = diExec argv := by
  rw [diSpawnRun, hdeai, hforks, hdups]
  rfl

/-! ## Environment variables -/

abbrev Environ := Text → Option Text

/-- What C functions see of the bytes: the string ends at the first NUL. -/
def cstring (chars : Text) : Text := chars.takeWhile (· ≠ 0)

def equalsSign : UInt8 := 61

/-- The names that `setenv` and `unsetenv` take. -/
def validName (name : Text) : Bool := name ≠ [] ∧ equalsSign ∉ name

def getenv : Chars → Environ → Except Fault (Option Text)
  | none, _ => .error .nullName
  | some name, environ => .ok (if cstring name = [] then none else environ (cstring name))

/-- An invalid name is an error that nobody looks at. -/
def setenv (name value : Chars) (environ : Environ) : Except Fault Environ :=
  match name with
  | none => .ok environ
  | some name =>
      if validName (cstring name) then
        match value with
        | none => .error .nullValue
        | some value => .ok (Function.update environ (cstring name) (some (cstring value)))
      else .ok environ

def unsetenv (name : Chars) (environ : Environ) : Environ :=
  match name with
  | none => environ
  | some name =>
      if validName (cstring name) then Function.update environ (cstring name) none else environ

def diEnvGet (name_ : DiString) (environ : Environ) : Except Fault (Option Text) :=
  if name_ = none then .ok none else getenv (diStringToCharsAlloc name_) environ

def diEnvSet (key_ val_ : DiString) (environ : Environ) : Except Fault Environ :=
  if key_ = none ∨ val_ = none then .ok environ
  else setenv (diStringToCharsAlloc key_) (diStringToCharsAlloc val_) environ

def diEnvUnset (key_ : DiString) (environ : Environ) : Environ :=
  if key_ = none then environ else unsetenv (diStringToCharsAlloc key_) environ

/-- The members that `os.env` has itself. -/
def ownMembers : List Text := [bytes "__type", bytes "__get", bytes "__set", bytes "__delete"]

/-- `di_getx` of `os.env`: a member of its own, or what `__get` returns. -/
inductive Member where
  | own
  | variable (value : Option Text)
  deriving DecidableEq

def getEnv (name : DiString) (environ : Environ) : Except Fault Member :=
  if name ∈ ownMembers.map some then .ok .own
  else do
    let value ← diEnvGet name environ
    .ok (.variable value)

/-- A write goes to `__set` or `__delete` always. -/
inductive EnvCall where
  | set (name value : DiString)
  | delete (name : DiString)

def EnvCall.name : EnvCall → DiString
  | .set name _ => name
  | .delete name => name

/-- What the variable should be after the call. -/
def EnvCall.value : EnvCall → Option Text
  | .set _ value => some value.text
  | .delete _ => none

def EnvCall.perform (environ : Environ) : EnvCall → Except Fault Environ
  | .set name value => diEnvSet name value environ
  | .delete name => .ok (diEnvUnset name environ)

def runCalls (calls : List EnvCall) (environ : Environ) : Except Fault Environ :=
  calls.foldlM EnvCall.perform environ

/-- The value that was assigned to a name last, if it has not been deleted since. -/
def lastValue (calls : List EnvCall) (environ : Environ) (name : Text) : Option Text :=
  match calls.reverse.find? fun c => c.name.text = name with
  | none => environ name
  | some c => c.value

/-- A name that the system takes as it is. -/
structure Named (name : DiString) : Prop where
  valid : validName name.text = true
  noNul : 0 ∉ name.text

/-- A call with such a name, and with a value that is not empty. -/
def EnvCall.Plain : EnvCall → Prop
  | .set name value => Named name ∧ value.text ≠ [] ∧ 0 ∉ value.text
  | .delete name => Named name

variable {environ : Environ} {calls : List EnvCall} {c : EnvCall} {key : DiString} {name : Text}

theorem cstring_append (h : 0 ∉ name) : cstring (name ++ [0]) = name := by
  rw [cstring, List.takeWhile_append_of_pos, List.takeWhile_cons_of_neg (by decide), List.append_nil]
  intro b hb
  rw [decide_eq_true_eq]
  rintro rfl
  exact h hb

theorem alloc_of_ne (h : s.text ≠ []) : diStringToCharsAlloc s = some (s.text ++ [0]) :=
  diStringToCharsAlloc_eq_iff.mpr h

theorem ne_none_of_text (h : s.text ≠ []) : s ≠ none := by
  rintro rfl
  exact h rfl

theorem Named.ne (h : Named key) : key.text ≠ [] := by
  have hvalid := h.valid
  simp only [validName, decide_eq_true_eq] at hvalid
  exact hvalid.1

theorem EnvCall.Plain.named (h : c.Plain) : Named c.name := by
  cases c with
  | set name value => exact h.1
  | delete name => exact h

/-- A call changes its own variable only. -/
theorem EnvCall.Plain.perform (h : c.Plain) :
    c.perform environ = .ok (Function.update environ c.name.text c.value) := by
  cases c with
  | set name value =>
      obtain ⟨hname, hvalue, hnul⟩ := h
      rw [EnvCall.perform, diEnvSet, if_neg (not_or.mpr ⟨ne_none_of_text hname.ne, ne_none_of_text hvalue⟩),
        alloc_of_ne hname.ne, alloc_of_ne hvalue]
      simp only [setenv, cstring_append hname.noNul, hname.valid, if_true, cstring_append hnul]
      rfl
  | delete name =>
      have hname : Named name := h
      rw [EnvCall.perform, diEnvUnset, if_neg (ne_none_of_text hname.ne), alloc_of_ne hname.ne]
      simp only [unsetenv, cstring_append hname.noNul, hname.valid, if_true]
      rfl

theorem lastValue_append (calls : List EnvCall) (environ : Environ) (c : EnvCall) :
    lastValue (calls ++ [c]) environ =
      Function.update (lastValue calls environ) c.name.text c.value := by
  funext name
  rw [lastValue, List.reverse_append, List.reverse_singleton, List.singleton_append]
  by_cases hname : c.name.text = name
  · subst hname
    rw [List.find?_cons_of_pos (by simp), Function.update_self]
  · rw [List.find?_cons_of_neg (by simpa using hname), Function.update_of_ne (Ne.symm hname), lastValue]

theorem runCalls_eq (h : ∀ c ∈ calls, c.Plain) :
    runCalls calls environ = .ok (lastValue calls environ) := by
  induction calls using List.reverseRecOn with
  | nil => rfl
  | append_singleton calls c ih =>
      have hbefore := ih fun d hd => h d (List.mem_append_left _ hd)
      have hc := h c (List.mem_append_right _ (List.mem_singleton_self c))
      rw [runCalls, List.foldlM_append, ← runCalls, hbefore]
      simp only [bind, Except.bind, List.foldlM_cons, List.foldlM_nil, hc.perform, pure, Except.pure]
      rw [lastValue_append]

theorem getEnv_eq (hkey : Named key) (hown : key.text ∉ ownMembers) :
    getEnv key environ = .ok (.variable (environ key.text)) := by
  have hnot : key ∉ ownMembers.map some := by
    intro hmem
    obtain ⟨name, hname, rfl⟩ := List.mem_map.mp hmem
    exact hown hname
  rw [getEnv, if_neg hnot, diEnvGet, if_neg (ne_none_of_text hkey.ne), alloc_of_ne hkey.ne, getenv,
    cstring_append hkey.noNul, if_neg hkey.ne]
  rfl

theorem EnvCall.Plain.ne_none {value : DiString} (h : (EnvCall.set key value).Plain) :
    diStringToCharsAlloc key ≠ none ∧ diStringToCharsAlloc value ≠ none := by
  rw [alloc_of_ne h.1.ne, alloc_of_ne h.2.1]
  exact ⟨nofun, nofun⟩

/-- The vectors are exact, if and only if no string is empty and the strings can be counted; without
empty values, every variable has the value that was assigned last. -/
theorem strings_faithful (argv : List DiString) (environ : Environ) (calls : List EnvCall) :
    ((diExec argv = .ok (.execvp ((exactArgv argv).headD none) (exactArgv argv)) ↔
        argv.length < 2 ^ 31 ∧ ∀ s ∈ argv, s.text ≠ []) ∧
      ∀ C : SpawnConditions, C.deai = true → C.forks = true → C.dups = true →
        (diSpawnRun C .string argv =
            .ok (.execvp ((exactArgv argv).headD none) (exactArgv argv)) ↔
          argv.length < 2 ^ 31 ∧ ∀ s ∈ argv, s.text ≠ [])) ∧
    ((∀ c ∈ calls, c.Plain) →
      (∀ key value, .set key value ∈ calls →
        diStringToCharsAlloc key ≠ none ∧ diStringToCharsAlloc value ≠ none) ∧
      ∃ environ', runCalls calls environ = .ok environ' ∧
        ∀ key, Named key → key.text ∉ ownMembers →
          getEnv key environ' = .ok (.variable (lastValue calls environ key.text))) := by
  refine ⟨⟨diExec_exact_iff, fun C hdeai hforks hdups => ?_⟩, fun hplain =>
    ⟨fun key value hset => (hplain _ hset).ne_none, _, runCalls_eq hplain,
      fun key hkey hown => getEnv_eq hkey hown⟩⟩
  rw [diSpawnRun_eq hdeai hforks hdups, diExec_exact_iff]

/-- A variable that is assigned twice, after another one was assigned and deleted. -/
def plainCalls : List EnvCall :=
  [.set (some (bytes "A")) (some (bytes "x")), .set (some (bytes "B")) (some (bytes "y")),
    .delete (some (bytes "B")), .set (some (bytes "A")) (some (bytes "z"))]

theorem named_A : Named (some (bytes "A")) := ⟨by decide, by decide⟩

theorem named_B : Named (some (bytes "B")) := ⟨by decide, by decide⟩

theorem plainCalls_plain : ∀ c ∈ plainCalls, c.Plain := by
  simp only [plainCalls, List.forall_mem_cons, List.not_mem_nil, false_imp_iff, implies_true, and_true]
  exact ⟨⟨named_A, by decide, by decide⟩, ⟨named_B, by decide, by decide⟩, named_B, named_A, by decide,
    by decide⟩

theorem strings_faithful_plain :
    diExec [some (bytes "ls"), some (bytes "-l")] =
      .ok (.execvp (some (bytes "ls" ++ [0])) [some (bytes "ls" ++ [0]), some (bytes "-l" ++ [0]), none]) ∧
    ∃ environ', runCalls plainCalls (fun _ => none) = .ok environ' ∧
      getEnv (some (bytes "A")) environ' = .ok (.variable (some (bytes "z"))) ∧
      getEnv (some (bytes "B")) environ' = .ok (.variable none) := by
  obtain ⟨hargv, henv⟩ := strings_faithful [some (bytes "ls"), some (bytes "-l")] (fun _ => none)
    plainCalls
  refine ⟨hargv.1.mpr ⟨by decide, by decide⟩, ?_⟩
  obtain ⟨-, environ', hrun, hget⟩ := henv plainCalls_plain
  exact ⟨environ', hrun, hget _ named_A (by decide), hget _ named_B (by decide)⟩

/-- The vector ends at an empty string, and an empty value is a null pointer. -/
theorem strings_not_faithful :
    diExec [some (bytes "sh"), some [], some (bytes "x")] =
      .ok (.execvp (some (bytes "sh" ++ [0])) [some (bytes "sh" ++ [0]), none, some (bytes "x" ++ [0]), none]) ∧
    diExec [some (bytes "sh"), some [], some (bytes "x")] ≠
      .ok (.execvp ((exactArgv [some (bytes "sh"), some [], some (bytes "x")]).headD none)
        (exactArgv [some (bytes "sh"), some [], some (bytes "x")])) ∧
    ∀ environ, runCalls [.set (some (bytes "A")) (some [])] environ = .error .nullValue := by
  refine ⟨by decide, by decide, fun environ => rfl⟩

end Deai.SystemStrings
