import Deai.SpawnStart
import Mathlib.Logic.Relation

/-!
# Descriptors of all processes

deai starts children and drops its `ChildProcess` objects, scripts open and close other files, the
children come to their programs, and these open, copy and close what they have, fork and exit. The
steps come in any order. Descriptors are not sent from one process to another.
-/
namespace Deai.SpawnRuns
open Descriptors SpawnDescriptors Value

/-- A process other than deai. While `code` lasts it is still in `di_spawn_run`. -/
structure Process where
  table : Table File
  code : List ChildCall := []
  /-- The `ChildProcess` that it or its ancestor was started as. -/
  child : ℕ

/-- A `ChildProcess`, and how many pipes there were before it. -/
structure ChildObject where
  child : Child
  live : Bool := true
  pipes : ℕ
  ignoreOutput : Bool

structure System where
  kernel : Kernel
  /-- The number of the next `ChildProcess`. -/
  started : ℕ := 0
  children : ℕ → Option ChildObject := fun _ => none
  processes : ℕ → Option Process := fun _ => none
  /-- The descriptors that the rest of deai has opened. -/
  opened : ℕ → Option ℕ

def System.setProcess (s : System) (pid : ℕ) (p : Option Process) : System :=
  {s with processes := Function.update s.processes pid p}

def System.setChild (s : System) (i : ℕ) (o : ChildObject) : System :=
  {s with children := Function.update s.children i (some o)}

def System.setTable (s : System) (t : Table File) : System := {s with kernel.table := t}

def System.setOpened (s : System) (fd : ℕ) (k : Option ℕ) : System :=
  {s with opened := Function.update s.opened fd k}

/-- A successful `di_spawn_run`. -/
def System.spawned (s : System) (k : Kernel) (c : Child) (f : Forked) (pid : ℕ)
    (ignoreOutput : Bool) : System where
  kernel := k
  started := s.started + 1
  children := Function.update s.children s.started (some ⟨c, true, s.kernel.pipes, ignoreOutput⟩)
  processes := Function.update s.processes pid (some ⟨f.table, f.code, s.started⟩)
  opened := s.opened

/-- `child_destroy`, for the object with that number. -/
def System.destroyed (s : System) (i : ℕ) (o : ChildObject) : System where
  kernel := {s.kernel with table := childDestroy o.child s.kernel.table}
  started := s.started
  children := Function.update s.children i (some {o with live := false})
  processes := s.processes
  opened := fun fd => if o.child.pty = some fd then none else s.opened fd

/-- One step of deai, of a child, or of a program. -/
inductive Step (limit : ℕ) : System → System → Prop
  | run {s refused elemType deai ignoreOutput c f k} (pid : ℕ) :
      diSpawnRun limit refused elemType deai ignoreOutput s.kernel = (.ok (c, f), k) →
      s.processes pid = none → Step limit s (s.spawned k c f pid ignoreOutput)
  | throws {s refused elemType deai ignoreOutput message k} :
      diSpawnRun limit refused elemType deai ignoreOutput s.kernel = (.error message, k) →
      Step limit s {s with kernel := k}
  | destroy {s i o} : s.children i = some o → o.live = true →
      -- A `pty` member, which only a script can set, is closed whatever it is.
      (∀ fd, o.child.pty = some fd → 3 ≤ fd ∧ ∀ n c, s.kernel.table fd ≠ some ⟨.pipeRead n, c⟩) →
      Step limit s (s.destroyed i o)
  | setPty {s i o} (pty : Option ℕ) : s.children i = some o →
      Step limit s (s.setChild i {o with child.pty := pty})
  | openOther {s k c fd t} : allocate limit ⟨.other k, c⟩ s.kernel.table = some (fd, t) →
      Step limit s ((s.setTable t).setOpened fd (some k))
  | closeOther {s fd} : 3 ≤ fd → s.opened fd ≠ none →
      Step limit s ((s.setTable (close (some fd) s.kernel.table)).setOpened fd none)
  | childCall {s pid p call calls} (fails : Bool) : s.processes pid = some p →
      p.code = call :: calls →
      Step limit s (s.setProcess pid
        ((call.run limit fails p.table).map fun t => {p with table := t, code := calls}))
  | entry {s pid p} (fd : ℕ) (e : Entry File) : s.processes pid = some p → p.code = [] →
      (Holds p.table e.file ∨ (∃ k, e.file = .other k) ∨ ∃ write, e.file = .null write) →
      Step limit s
        (s.setProcess pid (some {p with table := Function.update p.table fd (some e)}))
  | closeEntry {s pid p} (fd : ℕ) : s.processes pid = some p → p.code = [] →
      Step limit s (s.setProcess pid (some {p with table := close (some fd) p.table}))
  | fork {s pid p pid'} : s.processes pid = some p → p.code = [] → s.processes pid' = none →
      Step limit s (s.setProcess pid' (some p))
  | exec {s pid p} : s.processes pid = some p → p.code = [] →
      Step limit s (s.setProcess pid (some {p with table := Descriptors.exec p.table}))
  | exit {s pid p} : s.processes pid = some p → Step limit s (s.setProcess pid none)

/-- Before any child: whatever deai has open, its standard streams among it. -/
structure Initial (s : System) : Prop where
  standard : ∀ fd < 3, s.opened fd ≠ none
  table : ∀ fd, (s.kernel.table fd).map (·.file) = (s.opened fd).map .other
  children : ∀ i, s.children i = none
  processes : ∀ pid, s.processes pid = none

/-- The states that a run comes to. -/
def Reachable (limit : ℕ) (s : System) : Prop :=
  ∃ s₀, Initial s₀ ∧ Relation.ReflTransGen (Step limit) s₀ s

/-! ## The invariants -/

/-- The descriptors of deai: what the rest of it has opened, and the read ends of the objects that
there still are. -/
structure Kept (s : System) : Prop where
  standard : ∀ fd < 3, s.opened fd ≠ none
  opened : ∀ fd k, s.opened fd = some k → ∃ c, s.kernel.table fd = some ⟨.other k, c⟩
  read_end : ∀ i o st fd, s.children i = some o → o.live = true → o.child.fd st = some fd →
    s.kernel.table fd = some ⟨.pipeRead (pipeOf o.pipes st), true⟩
  only : ∀ fd e, s.kernel.table fd = some e → s.opened fd ≠ none ∨
    ∃ i o st, s.children i = some o ∧ o.live = true ∧ o.child.fd st = some fd

/-- Each object has pipes of its own. -/
structure Numbered (s : System) : Prop where
  started : ∀ i o, s.children i = some o → i < s.started
  pipes : ∀ i o, s.children i = some o → o.ignoreOutput = false → o.pipes + 2 ≤ s.kernel.pipes
  apart : ∀ i j o o', s.children i = some o → s.children j = some o' → i < j →
    o.ignoreOutput = false → o.pipes + 2 ≤ o'.pipes
  piped : ∀ i o st, s.children i = some o → (o.child.fd st = none ↔ o.ignoreOutput = true)
  nonblock : ∀ i o st, s.children i = some o → o.ignoreOutput = false →
    pipeOf o.pipes st ∈ s.kernel.nonblock

/-- What a child that has not come to its program does not do. -/
structure Starting (p : Process) : Prop where
  closeOnExec : ∀ fd n c, p.table fd = some ⟨.pipeRead n, c⟩ → c = true
  copied : ∀ old new, .dup2 (some old) new ∈ p.code → ∀ n c, p.table old ≠ some ⟨.pipeRead n, c⟩
  last : ∃ calls, p.code = calls ++ [ChildCall.execvp] ∧ ChildCall.execvp ∉ calls

/-- A process writes to the pipes of its own `ChildProcess` only, and its program has no read
end. -/
structure Confined (s : System) (p : Process) : Prop where
  write_end : ∀ n, Holds p.table (.pipeWrite n) →
    ∃ o st, s.children p.child = some o ∧ o.ignoreOutput = false ∧ n = pipeOf o.pipes st
  starting : p.code ≠ [] → Starting p
  running : p.code = [] → ∀ n, ¬ Holds p.table (.pipeRead n)

structure Tidy (s : System) : Prop where
  kept : Kept s
  numbered : Numbered s
  confined : ∀ pid p, s.processes pid = some p → Confined s p

section Steps
variable {limit : ℕ} {s s' : System} {p : Process} {o : ChildObject} {i pid : ℕ}

/-- The objects are those that there were, or more. -/
def MoreChildren (s s' : System) : Prop :=
  ∀ i o, s.children i = some o →
    ∃ o', s'.children i = some o' ∧ o'.ignoreOutput = o.ignoreOutput ∧ o'.pipes = o.pipes

theorem Confined.mono (h : Confined s p) (hmore : MoreChildren s s') : Confined s' p := by
  refine ⟨fun n hn => ?_, h.starting, h.running⟩
  obtain ⟨o, st, ho, hignore, rfl⟩ := h.write_end n hn
  obtain ⟨o', ho', hignore', hpipes⟩ := hmore p.child o ho
  exact ⟨o', st, ho', hignore'.trans hignore, by rw [hpipes]⟩

theorem moreChildren_of_eq (h : s'.children = s.children) : MoreChildren s s' :=
  fun i o ho => ⟨o, by rw [h, ho], rfl, rfl⟩

/-- An object is replaced by one with the same pipes. -/
theorem moreChildren_update {o' : ChildObject} (ho : s.children i = some o)
    (hchildren : s'.children = Function.update s.children i (some o'))
    (hignore : o'.ignoreOutput = o.ignoreOutput) (hpipes : o'.pipes = o.pipes) :
    MoreChildren s s' := by
  intro j oj hj
  rw [hchildren]
  by_cases hij : j = i
  · subst hij
    obtain rfl := Option.some.inj (ho.symm.trans hj)
    exact ⟨o', Function.update_self .., hignore, hpipes⟩
  · exact ⟨oj, by rw [Function.update_of_ne hij, hj], rfl, rfl⟩

/-! ### The processes -/

/-- With the objects as they are, only the process that takes the step is to be looked at. -/
theorem Tidy.setProcess (h : Tidy s) {o : Option Process} (hp : ∀ p, o = some p → Confined s p) :
    Tidy (s.setProcess pid o) := by
  refine ⟨⟨h.kept.standard, h.kept.opened, h.kept.read_end, h.kept.only⟩,
    ⟨h.numbered.started, h.numbered.pipes, h.numbered.apart, h.numbered.piped, h.numbered.nonblock⟩,
    fun pid' p' hp' => ?_⟩
  have hsame : MoreChildren s (s.setProcess pid o) := moreChildren_of_eq rfl
  change Function.update s.processes pid o pid' = some p' at hp'
  by_cases hpid : pid' = pid
  · subst hpid
    rw [Function.update_self] at hp'
    exact (hp p' hp').mono hsame
  · rw [Function.update_of_ne hpid] at hp'
    exact (h.confined pid' p' hp').mono hsame

/-- The calls before the program leave no read end where there was none. -/
theorem Starting.read_of_run {call : ChildCall} {calls : List ChildCall} {fails c : Bool}
    {t : Table File} {fd n : ℕ} (h : Starting p) (hcode : p.code = call :: calls)
    (hcall : call ≠ .execvp) (hrun : call.run limit fails p.table = some t)
    (hfd : t fd = some ⟨.pipeRead n, c⟩) : p.table fd = some ⟨.pipeRead n, c⟩ := by
  cases call with
  | close o =>
      obtain rfl := Option.some.inj hrun
      rw [close_apply] at hfd
      split_ifs at hfd
      exact hfd
  | dup2 o new =>
      rw [ChildCall.run] at hrun
      split_ifs at hrun
      obtain ⟨k, ⟨file, closeOnExec⟩, rfl, hk, -, rfl⟩ := dup2_spec hrun
      by_cases hself : k = new
      · rwa [if_pos hself] at hfd
      · rw [if_neg hself, Function.update_apply] at hfd
        split_ifs at hfd
        · obtain ⟨rfl, -⟩ := Entry.mk.injEq .. ▸ Option.some.inj hfd
          exact absurd hk (h.copied k new (hcode ▸ List.mem_cons_self) n closeOnExec)
        · exact hfd
  | setsid =>
      obtain rfl := Option.some.inj hrun
      exact hfd
  | execvp => exact absurd rfl hcall

theorem Starting.run {call : ChildCall} {calls : List ChildCall} {fails : Bool} {t : Table File}
    (h : Starting p) (hcode : p.code = call :: calls) (hne : calls ≠ [])
    (hrun : call.run limit fails p.table = some t) :
    Starting {p with table := t, code := calls} := by
  obtain ⟨before, hlast, hnot⟩ := h.last
  rw [hcode] at hlast
  cases before with
  | nil =>
      rw [List.nil_append, List.cons.injEq] at hlast
      exact absurd hlast.2 hne
  | cons call' before =>
      obtain ⟨rfl, rfl⟩ := List.cons.injEq .. ▸ hlast
      rw [List.mem_cons, not_or] at hnot
      have hcall : call ≠ .execvp := fun heq => hnot.1 heq.symm
      refine ⟨fun fd n c hfd => ?_, fun old new hmem n c hold => ?_, ⟨before, rfl, hnot.2⟩⟩
      · exact h.closeOnExec fd n c (h.read_of_run hcode hcall hrun hfd)
      · refine h.copied old new ?_ n c (h.read_of_run hcode hcall hrun hold)
        rw [hcode]
        exact List.mem_cons_of_mem _ hmem

/-- None of the calls makes a file. -/
theorem holds_of_run {call : ChildCall} {fails : Bool} {t t' : Table File} {file : File}
    (hrun : call.run limit fails t = some t') (h : Holds t' file) : Holds t file := by
  cases call with
  | close o =>
      obtain rfl := Option.some.inj hrun
      exact h.of_close
  | dup2 o new =>
      rw [ChildCall.run] at hrun
      split_ifs at hrun
      exact h.of_dup2 hrun
  | setsid =>
      obtain rfl := Option.some.inj hrun
      exact h
  | execvp =>
      rw [ChildCall.run] at hrun
      split_ifs at hrun
      obtain rfl := Option.some.inj hrun
      exact h.of_exec

theorem Confined.childCall {call : ChildCall} {calls : List ChildCall} {fails : Bool}
    {t : Table File} (h : Confined s p) (hcode : p.code = call :: calls)
    (hrun : call.run limit fails p.table = some t) :
    Confined s {p with table := t, code := calls} := by
  have hstarting := h.starting (by rw [hcode]; exact List.cons_ne_nil _ _)
  refine ⟨fun n hn => h.write_end n (holds_of_run hrun hn),
    fun hne => hstarting.run hcode hne hrun, fun hnil n hn => ?_⟩
  -- The call was the last, so the program runs now.
  obtain ⟨before, hlast, -⟩ := hstarting.last
  change calls = [] at hnil
  subst hnil
  rw [hcode] at hlast
  have hexec : call = .execvp := by
    cases before with
    | nil => exact (List.cons.inj hlast).1
    | cons call' before => simp at hlast
  subst hexec
  rw [ChildCall.run] at hrun
  split_ifs at hrun
  obtain rfl := Option.some.inj hrun
  obtain ⟨fd, ⟨file, closeOnExec⟩, hentry, rfl⟩ := hn
  obtain ⟨hentry, hopen⟩ := exec_eq_some.mp hentry
  exact absurd (hopen.symm.trans (hstarting.closeOnExec fd n closeOnExec hentry))
    Bool.false_ne_true

/-- A program has no read end, and gets none. -/
theorem Confined.program (h : Confined s p) (hcode : p.code = []) {t : Table File}
    (ht : ∀ n, (Holds t (.pipeWrite n) → Holds p.table (.pipeWrite n)) ∧
      (Holds t (.pipeRead n) → Holds p.table (.pipeRead n))) :
    Confined s {p with table := t} :=
  ⟨fun n hn => h.write_end n ((ht n).1 hn), fun hne => absurd hcode hne,
    fun _ n hn => h.running hcode n ((ht n).2 hn)⟩

theorem holds_entry {t : Table File} {fd n : ℕ} {e : Entry File} {file : File}
    (hfile : file = .pipeWrite n ∨ file = .pipeRead n)
    (he : Holds t e.file ∨ (∃ k, e.file = .other k) ∨ ∃ write, e.file = .null write)
    (h : Holds (Function.update t fd (some e)) file) : Holds t file := by
  obtain hold | rfl := h.of_update
  · exact hold
  · obtain hold | ⟨k, hk⟩ | ⟨write, hnull⟩ := he
    · exact hold
    · exact (hfile.elim (fun h => nomatch hk.symm.trans h) fun h => nomatch hk.symm.trans h)
    · exact (hfile.elim (fun h => nomatch hnull.symm.trans h) fun h => nomatch hnull.symm.trans h)
/-! ### deai -/

variable {k k' : Kernel} {c : Child} {f : Forked} {ignoreOutput : Bool}

theorem pipeOf_lt (n : ℕ) (st : Stream) : n ≤ pipeOf n st ∧ pipeOf n st < n + 2 := by
  cases st with
  | out => exact ⟨Nat.le_refl _, by rw [pipeOf]; omega⟩
  | err => exact ⟨Nat.le_succ _, Nat.lt_succ_self _⟩

/-- A descriptor of the new object was not in use. -/
theorem fd_of_spawned (h : Spawned k ignoreOutput c k') {st : Stream} {fd : ℕ}
    (hfd : c.fd st = some fd) : k.table fd = none ∧
      k'.table fd = some ⟨.pipeRead (pipeOf k.pipes st), true⟩ := by
  cases ignoreOutput with
  | false =>
      obtain ⟨fd', hfd', hnone, hentry⟩ := h.read_end st rfl
      obtain rfl := Option.some.inj (hfd.symm.trans hfd')
      exact ⟨hnone, hentry⟩
  | true => exact nomatch (h.no_read_end st rfl).symm.trans hfd

/-- What was open stays as it was. -/
theorem kept_of_spawned (h : Spawned k ignoreOutput c k') {fd : ℕ} {e : Entry File}
    (he : k.table fd = some e) : k'.table fd = some e := by
  have hnew : ∀ st, c.fd st ≠ some fd := fun st hst =>
    nomatch (fd_of_spawned h hst).1.symm.trans he
  rw [h.same fd hnew, he]

theorem Kept.spawned (h : Kept s) (hn : Numbered s) (hspawned : Spawned s.kernel ignoreOutput c k) :
    Kept (s.spawned k c f pid ignoreOutput) := by
  have hnew : ∀ j o, s.children j = some o → j ≠ s.started :=
    fun j o hj => (hn.started j o hj).ne
  refine ⟨h.standard, fun fd n hfd => ?_, fun j o st fd hj hlive hfd => ?_, fun fd e he => ?_⟩
  · obtain ⟨closeOnExec, hentry⟩ := h.opened fd n hfd
    exact ⟨closeOnExec, kept_of_spawned hspawned hentry⟩
  · change Function.update s.children s.started _ j = some o at hj
    by_cases hjs : j = s.started
    · subst hjs
      rw [Function.update_self] at hj
      obtain rfl := Option.some.inj hj
      exact (fd_of_spawned hspawned hfd).2
    · rw [Function.update_of_ne hjs] at hj
      exact kept_of_spawned hspawned (h.read_end j o st fd hj hlive hfd)
  · by_cases hown : ∃ st, c.fd st = some fd
    · obtain ⟨st, hst⟩ := hown
      exact .inr ⟨s.started, _, st, Function.update_self .., rfl, hst⟩
    · rw [not_exists] at hown
      change k.table fd = some e at he
      rw [hspawned.same fd hown] at he
      obtain hopened | ⟨j, o, st, hj, hlive, hfd⟩ := h.only fd e he
      · exact .inl hopened
      · exact .inr ⟨j, o, st, (Function.update_of_ne (hnew j o hj) ..).trans hj, hlive, hfd⟩

theorem Numbered.spawned (h : Numbered s) (hspawned : Spawned s.kernel ignoreOutput c k) :
    Numbered (s.spawned k c f pid ignoreOutput) := by
  have hcases : ∀ j o, (s.spawned k c f pid ignoreOutput).children j = some o →
      (j = s.started ∧ o = ⟨c, true, s.kernel.pipes, ignoreOutput⟩) ∨ s.children j = some o := by
    intro j o hj
    change Function.update s.children s.started _ j = some o at hj
    rw [Function.update_apply] at hj
    split_ifs at hj with hjs
    · exact .inl ⟨hjs, (Option.some.inj hj).symm⟩
    · exact .inr hj
  have hpipes : s.kernel.pipes ≤ k.pipes := by
    rw [hspawned.pipes]
    exact Nat.le_add_right _ _
  refine ⟨fun j o hj => ?_, fun j o hj hignore => ?_, fun i j o o' hi hj hij hignore => ?_,
    fun j o st hj => ?_, fun j o st hj hignore => ?_⟩
  · obtain ⟨rfl, -⟩ | hj := hcases j o hj
    · exact Nat.lt_succ_self _
    · exact (h.started j o hj).trans (Nat.lt_succ_self _)
  · obtain ⟨-, rfl⟩ | hj := hcases j o hj
    · obtain rfl : ignoreOutput = false := hignore
      exact hspawned.pipes.ge
    · exact (h.pipes j o hj hignore).trans hpipes
  · obtain ⟨rfl, -⟩ | hi := hcases i o hi
    · obtain ⟨rfl, -⟩ | hj := hcases j o' hj
      · exact absurd hij (Nat.lt_irrefl _)
      · exact absurd (h.started j o' hj) (Nat.lt_asymm hij)
    · obtain ⟨-, rfl⟩ | hj := hcases j o' hj
      · exact h.pipes i o hi hignore
      · exact h.apart i j o o' hi hj hij hignore
  · obtain ⟨-, rfl⟩ | hj := hcases j o hj
    · cases ignoreOutput with
      | true => exact iff_of_true (hspawned.no_read_end st rfl) rfl
      | false =>
          obtain ⟨fd, hfd, -⟩ := hspawned.read_end st rfl
          exact iff_of_false (fun hnone => nomatch hnone.symm.trans hfd) (by simp)
    · exact h.piped j o st hj
  · show _ ∈ k.nonblock
    rw [hspawned.nonblock]
    obtain ⟨-, rfl⟩ | hj := hcases j o hj
    · obtain rfl : ignoreOutput = false := hignore
      cases st <;> simp [pipeOf]
    · exact List.mem_append_right _ (h.nonblock j o st hj hignore)

/-- deai itself never has the write end of a pipe. -/
theorem Kept.no_write_end (h : Kept s) (n : ℕ) : ¬ Holds s.kernel.table (.pipeWrite n) := by
  rintro ⟨fd, e, hentry, hfile⟩
  obtain hopened | ⟨i, o, st, hi, hlive, hfd⟩ := h.only fd e hentry
  · obtain ⟨m, hm⟩ := Option.ne_none_iff_exists'.mp hopened
    obtain ⟨closeOnExec, hother⟩ := h.opened fd m hm
    obtain rfl := Option.some.inj (hentry.symm.trans hother)
    exact nomatch hfile
  · obtain rfl := Option.some.inj (hentry.symm.trans (h.read_end i o st fd hi hlive hfd))
    exact nomatch hfile

/-- Its read ends are close-on-exec. -/
theorem Kept.closeOnExec (h : Kept s) {fd n : ℕ} {closeOnExec : Bool}
    (hentry : s.kernel.table fd = some ⟨.pipeRead n, closeOnExec⟩) : closeOnExec = true := by
  obtain hopened | ⟨i, o, st, hi, hlive, hfd⟩ := h.only fd _ hentry
  · obtain ⟨m, hm⟩ := Option.ne_none_iff_exists'.mp hopened
    obtain ⟨c, hother⟩ := h.opened fd m hm
    exact nomatch Option.some.inj (hentry.symm.trans hother)
  · have hread := Option.some.inj (hentry.symm.trans (h.read_end i o st fd hi hlive hfd))
    exact (Entry.mk.inj hread).2

/-- What the child starts with: the descriptors of deai and the new ones. -/
theorem ready_entry {st : Setup} (h : Ready k ignoreOutput st) {fd : ℕ} {e : Entry File}
    (hentry : st.kernel.table fd = some e) :
    k.table fd = some e ∨
      (ignoreOutput = false ∧ ∃ stream, (st.fds.ends stream).1 = some fd ∧
        e = ⟨.pipeRead (pipeOf k.pipes stream), true⟩) ∨
      (∃ stream, (st.fds.ends stream).2 = some fd ∧
        e = ⟨streamFile ignoreOutput k.pipes stream, false⟩) ∨
      st.fds.ifd = some fd ∧ e = ⟨.null false, false⟩ := by
  by_cases hin : some fd ∈ st.fds.all
  · obtain ⟨stream, hfd | hfd⟩ | hfd := Fds.mem_all.mp hin
    · cases ignoreOutput with
      | true => exact nomatch hfd.trans (h.no_read_end stream rfl)
      | false =>
          obtain ⟨fd', hfd', hread⟩ := h.read_end stream rfl
          obtain rfl := Option.some.inj (hfd.trans hfd')
          exact .inr (.inl ⟨rfl, stream, hfd', Option.some.inj (hentry.symm.trans hread)⟩)
    · obtain ⟨fd', hfd', hwrite⟩ := h.write_end stream
      obtain rfl := Option.some.inj (hfd.trans hfd')
      exact .inr (.inr (.inl ⟨stream, hfd', Option.some.inj (hentry.symm.trans hwrite)⟩))
    · obtain ⟨fd', hfd', hinput⟩ := h.input
      obtain rfl := Option.some.inj (hfd.trans hfd')
      exact .inr (.inr (.inr ⟨hfd', Option.some.inj (hentry.symm.trans hinput)⟩))
  · exact .inl (by rw [← h.owned.same fd hin, hentry])

theorem streamFile_ne_read {n m : ℕ} {stream : Stream} :
    streamFile ignoreOutput n stream ≠ .pipeRead m := by
  cases ignoreOutput <;> exact fun h => nomatch h

theorem starting_of_ready {st : Setup} (h : Kept s) (hready : Ready s.kernel ignoreOutput st)
    (n : ℕ) : Starting ⟨st.kernel.table, childCode ignoreOutput st.fds, n⟩ := by
  refine ⟨fun fd m closeOnExec hentry => ?_, fun old new hmem m closeOnExec hentry => ?_, ?_⟩
  · obtain hold | ⟨-, stream, -, he⟩ | ⟨stream, -, he⟩ | ⟨-, he⟩ := ready_entry hready hentry
    · exact h.closeOnExec hold
    · exact (Entry.mk.inj he).2
    · exact absurd (Entry.mk.inj he).1.symm streamFile_ne_read
    · cases (Entry.mk.inj he).1
  · have hsource : some old = st.fds.ifd ∨ ∃ stream, some old = (st.fds.ends stream).2 := by
      simp only [childCode, List.mem_append, List.mem_cons, List.not_mem_nil, or_false] at hmem
      obtain hmem | hmem := hmem
      · cases ignoreOutput <;> simp at hmem
      · simp only [ChildCall.dup2.injEq, reduceCtorEq, or_false] at hmem
        obtain ⟨hfd, -⟩ | ⟨hfd, -⟩ | ⟨hfd, -⟩ := hmem
        · exact .inl hfd
        · exact .inr ⟨.out, hfd⟩
        · exact .inr ⟨.err, hfd⟩
    obtain hfd | ⟨stream, hfd⟩ := hsource
    · obtain ⟨fd', hfd', hinput⟩ := hready.input
      obtain rfl := Option.some.inj (hfd.trans hfd')
      cases (Entry.mk.inj (Option.some.inj (hentry.symm.trans hinput))).1
    · obtain ⟨fd', hfd', hwrite⟩ := hready.write_end stream
      obtain rfl := Option.some.inj (hfd.trans hfd')
      exact absurd (Entry.mk.inj (Option.some.inj (hentry.symm.trans hwrite))).1.symm
        streamFile_ne_read
  · refine ⟨(if ignoreOutput then [] else
        [ChildCall.close st.fds.opfds.1, .close st.fds.epfds.1]) ++
      [ChildCall.dup2 st.fds.ifd 0, .dup2 st.fds.opfds.2 1, .dup2 st.fds.epfds.2 2,
        .close st.fds.opfds.2, .close st.fds.epfds.2, .close st.fds.ifd, .setsid], ?_, ?_⟩
    · rw [List.append_assoc]
      rfl
    · cases ignoreOutput <;> simp

/-- The new process. -/
theorem confined_of_ready {st : Setup} (h : Kept s) (hready : Ready s.kernel ignoreOutput st) :
    Confined (s.spawned k c ⟨st.kernel.table, childCode ignoreOutput st.fds⟩ pid ignoreOutput)
      ⟨st.kernel.table, childCode ignoreOutput st.fds, s.started⟩ := by
  refine ⟨fun n hn => ?_, fun _ => starting_of_ready h hready _, fun hnil => ?_⟩
  · obtain ⟨fd, e, hentry, hfile⟩ := hn
    obtain hold | ⟨-, stream, -, rfl⟩ | ⟨stream, -, rfl⟩ | ⟨-, rfl⟩ := ready_entry hready hentry
    · exact absurd ⟨fd, e, hold, hfile⟩ (h.no_write_end n)
    · exact nomatch hfile
    · cases ignoreOutput with
      | true => exact nomatch hfile
      | false => exact ⟨_, stream, Function.update_self .., rfl, (File.pipeWrite.inj hfile).symm⟩
    · exact nomatch hfile
  · obtain ⟨calls, hcalls, -⟩ := (starting_of_ready (n := s.started) h hready).last
    have hne : calls ++ [ChildCall.execvp] ≠ [] :=
      List.append_ne_nil_of_right_ne_nil _ (List.cons_ne_nil _ _)
    exact absurd (hcalls.symm.trans hnil) hne

/-- An error leaves the descriptors of deai, and what there is of its pipes. -/
theorem Tidy.throws (h : Tidy s) (htable : k.table = s.kernel.table)
    (hpipes : s.kernel.pipes ≤ k.pipes) (hnonblock : s.kernel.nonblock ⊆ k.nonblock) :
    Tidy {s with kernel := k} := by
  refine ⟨⟨h.kept.standard, fun fd n hfd => ?_, fun i o st fd hi hlive hfd => ?_,
    fun fd e he => ?_⟩, ⟨h.numbered.started, fun i o hi hignore => ?_, h.numbered.apart,
    h.numbered.piped, fun i o st hi hignore => ?_⟩, fun pid p hp => ?_⟩
  · exact htable ▸ h.kept.opened fd n hfd
  · exact (congrFun htable fd).trans (h.kept.read_end i o st fd hi hlive hfd)
  · exact h.kept.only fd e ((congrFun htable fd).symm.trans he)
  · exact (h.numbered.pipes i o hi hignore).trans hpipes
  · exact hnonblock (h.numbered.nonblock i o st hi hignore)
  · exact (h.confined pid p hp).mono (moreChildren_of_eq rfl)

/-- Two objects, or two streams of one, have two pipes. -/
theorem Numbered.pipe_injective (h : Numbered s) {j : ℕ} {o' : ChildObject} {st st' : Stream}
    (hi : s.children i = some o) (hj : s.children j = some o') (hignore : o.ignoreOutput = false)
    (hignore' : o'.ignoreOutput = false) (heq : pipeOf o.pipes st = pipeOf o'.pipes st') :
    i = j ∧ st = st' := by
  have hst := pipeOf_lt o.pipes st
  have hst' := pipeOf_lt o'.pipes st'
  obtain hlt | rfl | hlt := Nat.lt_trichotomy i j
  · have hapart := h.apart i j o o' hi hj hlt hignore
    omega
  · obtain rfl := Option.some.inj (hi.symm.trans hj)
    refine ⟨rfl, ?_⟩
    cases st <;> cases st' <;> simp [pipeOf] at heq ⊢
  · have hapart := h.apart j i o' o hj hi hlt hignore'
    omega

theorem Numbered.ignoreOutput_of_fd (h : Numbered s) (hi : s.children i = some o) {st : Stream}
    {fd : ℕ} (hfd : o.child.fd st = some fd) : o.ignoreOutput = false := by
  cases hignore : o.ignoreOutput with
  | false => rfl
  | true => exact nomatch ((h.piped i o st hi).mpr hignore).symm.trans hfd

/-- No descriptor is that of two objects. -/
theorem Tidy.fd_injective (h : Tidy s) {j fd : ℕ} {o' : ChildObject} {st st' : Stream}
    (hi : s.children i = some o) (hlive : o.live = true) (hj : s.children j = some o')
    (hlive' : o'.live = true) (hfd : o.child.fd st = some fd) (hfd' : o'.child.fd st' = some fd) :
    i = j ∧ st = st' := by
  have hread := h.kept.read_end i o st fd hi hlive hfd
  have hread' := h.kept.read_end j o' st' fd hj hlive' hfd'
  have heq := Option.some.inj (hread.symm.trans hread')
  exact h.numbered.pipe_injective hi hj (h.numbered.ignoreOutput_of_fd hi hfd)
    (h.numbered.ignoreOutput_of_fd hj hfd') (File.pipeRead.inj (Entry.mk.inj heq).1)

theorem childDestroy_kept {t : Table File} {fd : ℕ} (hpty : c.pty ≠ some fd)
    (hfd : ∀ st, c.fd st ≠ some fd) : childDestroy c t fd = t fd := by
  rw [childDestroy, closeAll_apply, if_neg]
  simp only [List.mem_cons, List.not_mem_nil, or_false, not_or]
  exact ⟨hpty.symm, (hfd .out).symm, (hfd .err).symm⟩

theorem of_childDestroy {t : Table File} {fd : ℕ} {e : Entry File}
    (h : childDestroy c t fd = some e) :
    c.pty ≠ some fd ∧ (∀ st, c.fd st ≠ some fd) ∧ t fd = some e := by
  rw [childDestroy, closeAll_apply] at h
  split_ifs at h with hclosed
  simp only [List.mem_cons, List.not_mem_nil, or_false, not_or] at hclosed
  refine ⟨fun hpty => hclosed.1 hpty.symm, fun st hst => ?_, h⟩
  cases st with
  | out => exact hclosed.2.1 hst.symm
  | err => exact hclosed.2.2 hst.symm

/-- An object with the same pipes in its place. -/
theorem Numbered.update {o' : ChildObject} (h : Numbered s) (hi : s.children i = some o)
    (hstarted : s'.started = s.started)
    (hchildren : s'.children = Function.update s.children i (some o'))
    (hpipes : s'.kernel.pipes = s.kernel.pipes) (hnonblock : s'.kernel.nonblock = s.kernel.nonblock)
    (hsame : o'.pipes = o.pipes ∧ o'.ignoreOutput = o.ignoreOutput ∧ o'.child.fds = o.child.fds) :
    Numbered s' := by
  have hold : ∀ j oj, s'.children j = some oj → ∃ oj₀, s.children j = some oj₀ ∧
      oj.pipes = oj₀.pipes ∧ oj.ignoreOutput = oj₀.ignoreOutput ∧
      ∀ st, oj.child.fd st = oj₀.child.fd st := by
    intro j oj hj
    rw [hchildren] at hj
    by_cases hji : j = i
    · subst hji
      rw [Function.update_self] at hj
      obtain rfl := Option.some.inj hj
      refine ⟨o, hi, hsame.1, hsame.2.1, fun st => ?_⟩
      cases st <;> simp [Child.fd, hsame.2.2]
    · rw [Function.update_of_ne hji] at hj
      exact ⟨oj, hj, rfl, rfl, fun _ => rfl⟩
  refine ⟨fun j oj hj => ?_, fun j oj hj hignore => ?_, fun j l oj ol hj hl hjl hignore => ?_,
    fun j oj st hj => ?_, fun j oj st hj hignore => ?_⟩
  · obtain ⟨oj₀, hj₀, -⟩ := hold j oj hj
    rw [hstarted]
    exact h.started j oj₀ hj₀
  · obtain ⟨oj₀, hj₀, hp, hg, -⟩ := hold j oj hj
    rw [hp, hpipes]
    exact h.pipes j oj₀ hj₀ (hg.symm.trans hignore)
  · obtain ⟨oj₀, hj₀, hp, hg, -⟩ := hold j oj hj
    obtain ⟨ol₀, hl₀, hp', -⟩ := hold l ol hl
    rw [hp, hp']
    exact h.apart j l oj₀ ol₀ hj₀ hl₀ hjl (hg.symm.trans hignore)
  · obtain ⟨oj₀, hj₀, -, hg, hfd⟩ := hold j oj hj
    rw [hfd, hg]
    exact h.piped j oj₀ st hj₀
  · obtain ⟨oj₀, hj₀, hp, hg, -⟩ := hold j oj hj
    rw [hp, hnonblock]
    exact h.nonblock j oj₀ st hj₀ (hg.symm.trans hignore)

/-- `child_destroy` closes the descriptors of its object, and no others. -/
theorem Tidy.destroyed (h : Tidy s) (hi : s.children i = some o) (hlive : o.live = true)
    (hpty : ∀ fd, o.child.pty = some fd →
      3 ≤ fd ∧ ∀ n c, s.kernel.table fd ≠ some ⟨.pipeRead n, c⟩) :
    Tidy (s.destroyed i o) := by
  have hother : ∀ j oj, (s.destroyed i o).children j = some oj → oj.live = true →
      j ≠ i ∧ s.children j = some oj := by
    intro j oj hj hlivej
    change Function.update s.children i _ j = some oj at hj
    by_cases hji : j = i
    · subst hji
      rw [Function.update_self] at hj
      obtain rfl := Option.some.inj hj
      exact nomatch hlivej
    · exact ⟨hji, by rwa [Function.update_of_ne hji] at hj⟩
  refine ⟨⟨fun fd hfd => ?_, fun fd n hfd => ?_, fun j oj st fd hj hlivej hfd => ?_,
    fun fd e he => ?_⟩, h.numbered.update hi rfl rfl rfl rfl ⟨rfl, rfl, rfl⟩, fun pid p hp => ?_⟩
  · change (if o.child.pty = some fd then none else s.opened fd) ≠ none
    rw [if_neg fun hp => absurd (hpty fd hp).1 (by omega)]
    exact h.kept.standard fd hfd
  · change (if o.child.pty = some fd then none else s.opened fd) = some n at hfd
    split_ifs at hfd with hp
    obtain ⟨closeOnExec, hentry⟩ := h.kept.opened fd n hfd
    refine ⟨closeOnExec, ?_⟩
    show childDestroy o.child s.kernel.table fd = _
    rw [childDestroy_kept hp fun st hst => ?_, hentry]
    exact nomatch hentry.symm.trans (h.kept.read_end i o st fd hi hlive hst)
  · obtain ⟨hji, hj⟩ := hother j oj hj hlivej
    have hread := h.kept.read_end j oj st fd hj hlivej hfd
    show childDestroy o.child s.kernel.table fd = _
    rw [childDestroy_kept (fun hp => (hpty fd hp).2 _ _ hread) fun st' hst' => ?_, hread]
    exact hji (h.fd_injective hj hlivej hi hlive hfd hst').1
  · obtain ⟨hkept, hown, he⟩ := of_childDestroy he
    obtain hopened | ⟨j, oj, st, hj, hlivej, hfd⟩ := h.kept.only fd e he
    · left
      change (if o.child.pty = some fd then none else s.opened fd) ≠ none
      rwa [if_neg hkept]
    · have hji : j ≠ i := by
        rintro rfl
        obtain rfl := Option.some.inj (hi.symm.trans hj)
        exact hown st hfd
      exact .inr ⟨j, oj, st, (Function.update_of_ne hji ..).trans hj, hlivej, hfd⟩
  · exact (h.confined pid p hp).mono (moreChildren_update hi rfl rfl rfl)

theorem Tidy.setPty (h : Tidy s) (hi : s.children i = some o) (pty : Option ℕ) :
    Tidy (s.setChild i {o with child.pty := pty}) := by
  have hold : ∀ j oj, (s.setChild i {o with child.pty := pty}).children j = some oj →
      ∃ oj₀, s.children j = some oj₀ ∧ oj.live = oj₀.live ∧ oj.pipes = oj₀.pipes ∧
        ∀ st, oj.child.fd st = oj₀.child.fd st := by
    intro j oj hj
    change Function.update s.children i _ j = some oj at hj
    by_cases hji : j = i
    · subst hji
      rw [Function.update_self] at hj
      obtain rfl := Option.some.inj hj
      exact ⟨o, hi, rfl, rfl, fun st => by cases st <;> rfl⟩
    · rw [Function.update_of_ne hji] at hj
      exact ⟨oj, hj, rfl, rfl, fun _ => rfl⟩
  refine ⟨⟨h.kept.standard, h.kept.opened, fun j oj st fd hj hlive hfd => ?_, fun fd e he => ?_⟩,
    h.numbered.update hi rfl rfl rfl rfl ⟨rfl, rfl, rfl⟩,
    fun pid p hp => (h.confined pid p hp).mono (moreChildren_update hi rfl rfl rfl)⟩
  · obtain ⟨oj₀, hj₀, hl, hp, hf⟩ := hold j oj hj
    rw [hp]
    exact h.kept.read_end j oj₀ st fd hj₀ (hl.symm.trans hlive) ((hf st).symm.trans hfd)
  · obtain hopened | ⟨j, oj, st, hj, hlive, hfd⟩ := h.kept.only fd e he
    · exact .inl hopened
    · by_cases hji : j = i
      · subst hji
        obtain rfl := Option.some.inj (hi.symm.trans hj)
        exact .inr ⟨j, _, st, Function.update_self .., hlive, by cases st <;> exact hfd⟩
      · exact .inr ⟨j, oj, st, (Function.update_of_ne hji ..).trans hj, hlive, hfd⟩

theorem Tidy.openOther {n fd : ℕ} {closeOnExec : Bool} {t : Table File} (h : Tidy s)
    (hopen : allocate limit ⟨.other n, closeOnExec⟩ s.kernel.table = some (fd, t)) :
    Tidy ((s.setTable t).setOpened fd (some n)) := by
  obtain ⟨hfd, -, rfl⟩ := allocate_spec hopen
  have hne : ∀ {fd'} {e : Entry File}, s.kernel.table fd' = some e → fd' ≠ fd := by
    rintro fd' e he rfl
    exact nomatch hfd.symm.trans he
  refine ⟨⟨fun fd' hlt => ?_, fun fd' m hfd' => ?_, fun i o st fd' hi hlive hfd' => ?_,
    fun fd' e he => ?_⟩, ⟨h.numbered.started, h.numbered.pipes, h.numbered.apart, h.numbered.piped,
    h.numbered.nonblock⟩, fun pid p hp => (h.confined pid p hp).mono (moreChildren_of_eq rfl)⟩
  · change Function.update s.opened fd (some n) fd' ≠ none
    rw [Function.update_apply]
    split_ifs
    · exact Option.some_ne_none n
    · exact h.kept.standard fd' hlt
  · change Function.update s.opened fd (some n) fd' = some m at hfd'
    show ∃ c, Function.update s.kernel.table fd _ fd' = _
    by_cases heq : fd' = fd
    · subst heq
      rw [Function.update_self] at hfd' ⊢
      obtain rfl := Option.some.inj hfd'
      exact ⟨closeOnExec, rfl⟩
    · rw [Function.update_of_ne heq] at hfd' ⊢
      exact h.kept.opened fd' m hfd'
  · have hread := h.kept.read_end i o st fd' hi hlive hfd'
    exact (Function.update_of_ne (hne hread) ..).trans hread
  · change Function.update s.kernel.table fd _ fd' = some e at he
    show Function.update s.opened fd (some n) fd' ≠ none ∨ _
    by_cases heq : fd' = fd
    · subst heq
      rw [Function.update_self]
      exact .inl (Option.some_ne_none n)
    · rw [Function.update_of_ne heq] at he ⊢
      exact h.kept.only fd' e he

theorem Tidy.closeOther {fd : ℕ} (h : Tidy s) (hstandard : 3 ≤ fd) (hopened : s.opened fd ≠ none) :
    Tidy ((s.setTable (close (some fd) s.kernel.table)).setOpened fd none) := by
  obtain ⟨n, hn⟩ := Option.ne_none_iff_exists'.mp hopened
  obtain ⟨closeOnExec, hentry⟩ := h.kept.opened fd n hn
  refine ⟨⟨fun fd' hlt => ?_, fun fd' m hfd' => ?_, fun i o st fd' hi hlive hfd' => ?_,
    fun fd' e he => ?_⟩, ⟨h.numbered.started, h.numbered.pipes, h.numbered.apart, h.numbered.piped,
    h.numbered.nonblock⟩, fun pid p hp => (h.confined pid p hp).mono (moreChildren_of_eq rfl)⟩
  · exact (Function.update_of_ne (by omega) ..).trans_ne (h.kept.standard fd' hlt)
  · change Function.update s.opened fd none fd' = some m at hfd'
    rw [Function.update_apply] at hfd'
    split_ifs at hfd' with heq
    obtain ⟨c, hc⟩ := h.kept.opened fd' m hfd'
    exact ⟨c, close_some.trans ((if_neg heq).trans hc)⟩
  · have hread := h.kept.read_end i o st fd' hi hlive hfd'
    have hne : fd' ≠ fd := by
      rintro rfl
      exact nomatch Option.some.inj (hentry.symm.trans hread)
    exact close_some.trans ((if_neg hne).trans hread)
  · change close (some fd) s.kernel.table fd' = some e at he
    rw [close_some] at he
    split_ifs at he with heq
    obtain hopened' | hchild := h.kept.only fd' e he
    · exact .inl ((Function.update_of_ne heq ..).trans_ne hopened')
    · exact .inr hchild

/-- One step, whoever takes it. -/
theorem Step.tidy (hstep : Step limit s s') (h : Tidy s) : Tidy s' := by
  cases hstep with
  | @run refused elemType deai ignoreOutput c f k pid hrun hpid =>
      obtain ⟨_, herror, _⟩ | ⟨st, c', hready, hspawned, hok⟩ := diSpawnRun_cases hrun
      · exact nomatch herror
      · obtain ⟨rfl, rfl⟩ := Prod.mk.injEq .. ▸ Except.ok.inj hok
        refine ⟨h.kept.spawned h.numbered hspawned, h.numbered.spawned hspawned,
          fun pid' p hp => ?_⟩
        change Function.update s.processes pid _ pid' = some p at hp
        by_cases heq : pid' = pid
        · subst heq
          rw [Function.update_self] at hp
          obtain rfl := Option.some.inj hp
          exact confined_of_ready h.kept hready
        · rw [Function.update_of_ne heq] at hp
          refine (h.confined pid' p hp).mono fun i o hi => ⟨o, ?_, rfl, rfl⟩
          exact (Function.update_of_ne (h.numbered.started i o hi).ne ..).trans hi
  | throws hrun =>
      obtain ⟨_, _, htable, hpipes, hnonblock⟩ | ⟨_, _, _, _, hok⟩ := diSpawnRun_cases hrun
      · exact h.throws htable hpipes hnonblock
      · exact nomatch hok
  | destroy hi hlive hpty => exact h.destroyed hi hlive hpty
  | setPty pty hi => exact h.setPty hi pty
  | openOther hopen => exact h.openOther hopen
  | closeOther hstandard hopened => exact h.closeOther hstandard hopened
  | @childCall pid p call calls fails hp hcode =>
      refine h.setProcess fun p' hp' => ?_
      obtain ⟨t, ht, rfl⟩ := Option.map_eq_some_iff.mp hp'
      exact (h.confined pid p hp).childCall hcode ht
  | @entry pid p fd e hp hcode he =>
      refine h.setProcess fun p' hp' => ?_
      obtain rfl := Option.some.inj hp'
      exact (h.confined pid p hp).program hcode fun n =>
        ⟨holds_entry (.inl rfl) he, holds_entry (.inr rfl) he⟩
  | @closeEntry pid p fd hp hcode =>
      refine h.setProcess fun p' hp' => ?_
      obtain rfl := Option.some.inj hp'
      exact (h.confined pid p hp).program hcode fun n => ⟨Holds.of_close, Holds.of_close⟩
  | @fork pid p pid' hp hcode hpid =>
      refine h.setProcess fun p' hp' => ?_
      obtain rfl := Option.some.inj hp'
      exact h.confined pid p hp
  | @exec pid p hp hcode =>
      refine h.setProcess fun p' hp' => ?_
      obtain rfl := Option.some.inj hp'
      exact (h.confined pid p hp).program hcode fun n => ⟨Holds.of_exec, Holds.of_exec⟩
  | exit hp => exact h.setProcess fun p' hp' => nomatch hp'

theorem Initial.tidy (h : Initial s) : Tidy s := by
  have hentry : ∀ fd e, s.kernel.table fd = some e →
      ∃ n, s.opened fd = some n ∧ e.file = .other n := by
    intro fd e he
    have htable := h.table fd
    rw [he, Option.map_some] at htable
    obtain ⟨n, hn, hfile⟩ := Option.map_eq_some_iff.mp htable.symm
    exact ⟨n, hn, hfile.symm⟩
  refine ⟨⟨h.standard, fun fd n hfd => ?_, fun i o _ _ hi => ?_, fun fd e he => ?_⟩,
    ⟨fun i o hi => ?_, fun i o hi => ?_, fun i _ o _ hi => ?_, fun i o _ hi => ?_,
      fun i o _ hi => ?_⟩, fun pid p hp => ?_⟩
  · have htable := h.table fd
    rw [hfd, Option.map_some] at htable
    obtain ⟨⟨file, closeOnExec⟩, he, rfl⟩ := Option.map_eq_some_iff.mp htable
    exact ⟨closeOnExec, he⟩
  · exact nomatch (h.children i).symm.trans hi
  · obtain ⟨n, hn, -⟩ := hentry fd e he
    exact .inl (hn ▸ Option.some_ne_none n)
  · exact nomatch (h.children i).symm.trans hi
  · exact nomatch (h.children i).symm.trans hi
  · exact nomatch (h.children i).symm.trans hi
  · exact nomatch (h.children i).symm.trans hi
  · exact nomatch (h.children i).symm.trans hi
  · exact nomatch (h.processes pid).symm.trans hp

theorem Reachable.tidy (h : Reachable limit s) : Tidy s := by
  obtain ⟨s₀, hinitial, hsteps⟩ := h
  induction hsteps with
  | refl => exact hinitial.tidy
  | tail _ hstep ih => exact hstep.tidy ih

/-! ## In every run -/

end Steps

/-- A deai with five files open, and its first child. -/
theorem exists_reachable : ∃ s o, Reachable 12 s ∧ s.children 0 = some o ∧
    o.ignoreOutput = false ∧ o.live = true ∧ o.pipes = 0 ∧ o.child.pty = none := by
  have hfree : (if false then 2 else 4) < free 12 smallTable := by decide
  obtain ⟨⟨c, f⟩, hp⟩ := diSpawnRun_ok (k := ⟨smallTable, 0, []⟩) (fun _ => rfl) hfree
  obtain ⟨_, herror, _⟩ | ⟨_, c', _, hspawned, hok⟩ := diSpawnRun_cases (Prod.ext hp rfl)
  · exact nomatch herror
  obtain rfl := (Prod.mk.inj (Except.ok.inj hok)).1
  refine ⟨_, ⟨c, true, 0, false⟩, ⟨⟨⟨smallTable, 0, []⟩, 0, fun _ => none, fun _ => none, fun fd =>
    (smallTable fd).bind fun e => match e.file with | .other n => some n | _ => none⟩,
    ⟨by decide, fun fd => ?_, fun _ => rfl, fun _ => rfl⟩,
    .single (.run 100 (Prod.ext hp rfl) rfl)⟩, rfl, rfl, rfl, rfl, hspawned.pty⟩
  obtain hlt | hge := Nat.lt_or_ge fd 6
  · interval_cases fd <;> rfl
  · obtain ⟨fd, rfl⟩ := Nat.exists_eq_add_of_le' hge
    rfl

end Deai.SpawnRuns
