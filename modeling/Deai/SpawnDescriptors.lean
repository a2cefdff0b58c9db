import Deai.Descriptors
import Deai.Fallible
import Deai.Value

/-!
# The descriptors of a child process

`di_spawn_run` makes the pipes that the child writes to, forks, and closes what only the child is
to have. The kernel may refuse any of its system calls. A write end that stays open in deai would
keep the output of the child from coming to an end, and a read end that a child inherits would keep
that child's siblings from being told that no one listens.
-/
namespace Deai.SpawnDescriptors
open Descriptors Fallible Value

/-- What a descriptor is for. Pipes are numbered in the order in which they were made. -/
inductive File where
  | null (write : Bool)
  | pipeRead (pipe : ℕ)
  | pipeWrite (pipe : ℕ)
  | other (k : ℕ)
  deriving DecidableEq, Repr

/-- `stdout` or `stderr`. -/
inductive Stream where
  | out
  | err
  deriving DecidableEq, Repr

/-- The system calls that may fail although the descriptors suffice. -/
inductive Call where
  | pipe (stream : Stream)
  | setCloexec (stream : Stream)
  | setNonblock (stream : Stream)
  | openNull (stream : Stream)
  | openInput
  | fork
  deriving DecidableEq, Repr

/-- What the kernel keeps for deai. -/
structure Kernel where
  table : Table File
  pipes : ℕ := 0
  /-- The pipes with a read end that does not block. -/
  nonblock : List ℕ := []

/-- The variables of `di_setup_fds`. -/
structure Fds where
  opfds : Option ℕ × Option ℕ := (none, none)
  epfds : Option ℕ × Option ℕ := (none, none)
  ifd : Option ℕ := none
  deriving DecidableEq, Repr

def Fds.ends (fds : Fds) : Stream → Option ℕ × Option ℕ
  | .out => fds.opfds
  | .err => fds.epfds

def Fds.setEnds (fds : Fds) (stream : Stream) (ends : Option ℕ × Option ℕ) : Fds :=
  match stream with
  | .out => {fds with opfds := ends}
  | .err => {fds with epfds := ends}

/-- In the order in which they are closed after an error. -/
def Fds.all (fds : Fds) : List (Option ℕ) :=
  [fds.opfds.1, fds.opfds.2, fds.epfds.1, fds.epfds.2, fds.ifd]

structure Setup where
  kernel : Kernel
  fds : Fds := {}

/-- `break` with an error. -/
abbrev Failure := String × Setup

section Calls
variable (limit : ℕ) (refused : Call → Bool)

/-- `pipe`. It makes both ends or none. -/
def pipe (k : Kernel) : Option ((ℕ × ℕ) × Kernel) :=
  (allocate limit ⟨.pipeRead k.pipes, false⟩ k.table).bind fun r =>
    (allocate limit ⟨.pipeWrite k.pipes, false⟩ r.2).map fun w =>
      ((r.1, w.1), {k with table := w.2, pipes := k.pipes + 1})

def openPipe (stream : Stream) (s : Setup) : Except Failure Setup :=
  if refused (.pipe stream) then .error ("Failed to open pipe", s)
  else match pipe limit s.kernel with
    | none => .error ("Failed to open pipe", s)
    | some (ends, k) => .ok ⟨k, s.fds.setEnds stream (some ends.1, some ends.2)⟩

/-- `fcntl` with `F_SETFD`. -/
def setCloexec (stream : Stream) (s : Setup) : Except Failure Setup :=
  if refused (.setCloexec stream) then .error ("Can't set cloexec", s)
  else match (s.fds.ends stream).1.bind fun fd => (s.kernel.table fd).map fun e => (fd, e) with
    | none => .error ("Can't set cloexec", s)
    | some (fd, e) =>
        .ok {s with kernel.table :=
          Function.update s.kernel.table fd (some {e with closeOnExec := true})}

/-- `fcntl` with `F_SETFL`, for a read end. -/
def setNonblock (stream : Stream) (s : Setup) : Except Failure Setup :=
  if refused (.setNonblock stream) then .error ("Can't set non block", s)
  else match (s.fds.ends stream).1.bind s.kernel.table with
    | some ⟨.pipeRead n, _⟩ => .ok {s with kernel.nonblock := n :: s.kernel.nonblock}
    | _ => .error ("Can't set non block", s)

/-- `open` of `/dev/null` for a stream, which is looked at later. -/
def openNull (stream : Stream) (s : Setup) : Setup :=
  if refused (.openNull stream) then s
  else match allocate limit ⟨.null true, false⟩ s.kernel.table with
    | none => s
    | some (fd, t) =>
        ⟨{s.kernel with table := t}, s.fds.setEnds stream ((s.fds.ends stream).1, some fd)⟩

def openNulls (s : Setup) : Except Failure Setup :=
  let s := openNull limit refused .err (openNull limit refused .out s)
  if s.fds.opfds.2.isNone || s.fds.epfds.2.isNone then .error ("Can't open /dev/null", s) else .ok s

def openInput (s : Setup) : Except Failure Setup :=
  if refused .openInput then .error ("Can't open /dev/null", s)
  else match allocate limit ⟨.null false, false⟩ s.kernel.table with
    | none => .error ("Can't open /dev/null", s)
    | some (fd, t) => .ok ⟨{s.kernel with table := t}, {s.fds with ifd := some fd}⟩

def openPipes (s : Setup) : Except Failure Setup := do
  let s ← openPipe limit refused .out s
  let s ← openPipe limit refused .err s
  let s ← setCloexec refused .out s
  let s ← setCloexec refused .err s
  let s ← setNonblock refused .out s
  setNonblock refused .err s

/-- The body of `do` in `di_setup_fds`. -/
def openAll (ignoreOutput : Bool) (s : Setup) : Except Failure Setup := do
  let s ← if ignoreOutput then openNulls limit refused s else openPipes limit refused s
  openInput limit refused s

/-- `di_setup_fds` -/
def diSetupFds (ignoreOutput : Bool) (k : Kernel) : Except (String × Kernel) Setup :=
  match openAll limit refused ignoreOutput ⟨k, {}⟩ with
  | .ok s => .ok s
  | .error (message, s) =>
      .error (message, {s.kernel with table := closeAll s.fds.all s.kernel.table})

end Calls

/-! ## `di_spawn_run` -/

/-- What the child does before it runs the program. -/
inductive ChildCall where
  | close (fd : Option ℕ)
  | dup2 (old : Option ℕ) (new : ℕ)
  | setsid
  | execvp
  deriving DecidableEq, Repr

def childCode (ignoreOutput : Bool) (fds : Fds) : List ChildCall :=
  (if ignoreOutput then [] else [ChildCall.close fds.opfds.1, .close fds.epfds.1]) ++
    [ChildCall.dup2 fds.ifd 0, .dup2 fds.opfds.2 1, .dup2 fds.epfds.2 2,
      .close fds.opfds.2, .close fds.epfds.2, .close fds.ifd, .setsid, .execvp]

/-- The descriptors that `child_destroy` closes. -/
structure Child where
  fds : Option ℕ × Option ℕ
  /-- A member of that name. -/
  pty : Option ℕ := none
  deriving DecidableEq, Repr

/-- A new process, with what it has to do. -/
structure Forked where
  table : Table File
  code : List ChildCall

/-- `di_spawn_run`, in deai. -/
def diSpawnRun (limit : ℕ) (refused : Call → Bool) (elemType : DiType) (deai ignoreOutput : Bool)
    (k : Kernel) : Except String (Child × Forked) × Kernel :=
  if elemType ≠ .string then (.error "Invalid argv type", k)
  else if deai = false then (.error "deai is shutting down...", k)
  else match diSetupFds limit refused ignoreOutput k with
    | .error (message, k) => (.error message, k)
    | .ok s =>
        let forked : Forked := ⟨s.kernel.table, childCode ignoreOutput s.fds⟩
        let t := closeAll [s.fds.ifd, s.fds.opfds.2, s.fds.epfds.2] s.kernel.table
        if refused .fork then
          (.error "Failed to fork",
            {s.kernel with table := closeAll [s.fds.opfds.1, s.fds.epfds.1] t})
        else (.ok (⟨(s.fds.opfds.1, s.fds.epfds.1), none⟩, forked), {s.kernel with table := t})

/-- One of these calls. When it fails the child exits. -/
def ChildCall.run (limit : ℕ) (fails : Bool) : ChildCall → Table File → Option (Table File)
  | .close fd, t => some (Descriptors.close fd t)
  | .dup2 old new, t => if fails then none else Descriptors.dup2 limit old new t
  | .setsid, t => some t
  | .execvp, t => if fails then none else some (exec t)

/-- The child up to the program that it runs. -/
def runChild (limit : ℕ) (fails : ChildCall → Bool) :
    List ChildCall → Table File → Option (Table File)
  | [], t => some t
  | call :: calls, t => (call.run limit (fails call) t).bind (runChild limit fails calls)

/-- `child_destroy` -/
def childDestroy (c : Child) (t : Table File) : Table File := closeAll [c.pty, c.fds.1, c.fds.2] t

/-! ## What is open after each call -/

/-- The variable has a descriptor for that file. -/
def Opens (t : Table File) (fd : Option ℕ) (e : Entry File) : Prop :=
  ∃ k, fd = some k ∧ t k = some e

section Opens
variable {t : Table File} {fd o : Option ℕ} {e e' x : Entry File} {k : ℕ}

/-- A number that was not in use is not one of them. -/
theorem Opens.allocated (h : Opens t fd e) (hk : t k = none) :
    Opens (Function.update t k x) fd e := by
  obtain ⟨j, rfl, hj⟩ := h
  have hne : j ≠ k := by
    rintro rfl
    exact nomatch hk ▸ hj
  exact ⟨j, rfl, by rw [Function.update_of_ne hne, hj]⟩

theorem Opens.replaced (h : Opens t fd e) (hk : t k = some e') (hne : e ≠ e') :
    Opens (Function.update t k x) fd e := by
  obtain ⟨j, rfl, hj⟩ := h
  have hjk : j ≠ k := by
    rintro rfl
    exact hne (Option.some.inj (hj ▸ hk))
  exact ⟨j, rfl, by rw [Function.update_of_ne hjk, hj]⟩

theorem Opens.closed (h : Opens t fd e) (hne : fd ≠ o) : Opens (close o t) fd e := by
  obtain ⟨j, rfl, hj⟩ := h
  exact ⟨j, rfl, by rw [close_apply, if_neg hne.symm, hj]⟩

/-- One descriptor is not for two files. -/
theorem Opens.ne (h : Opens t fd e) (h' : Opens t o e') (hne : e ≠ e') : fd ≠ o := by
  rintro rfl
  obtain ⟨j, rfl, hj⟩ := h
  obtain ⟨j', hfd, hj'⟩ := h'
  obtain rfl := Option.some.inj hfd
  exact hne (Option.some.inj (hj ▸ hj'))

end Opens

/-- The variables hold all descriptors that there were not in the table before. -/
structure Owned (t₀ : Table File) (s : Setup) : Prop where
  fresh : ∀ fd, some fd ∈ s.fds.all → t₀ fd = none
  same : ∀ fd, some fd ∉ s.fds.all → s.kernel.table fd = t₀ fd

theorem Owned.fresh_of_unused {t₀ : Table File} {s : Setup} {fd : ℕ} (h : Owned t₀ s)
    (hfd : s.kernel.table fd = none) : t₀ fd = none := by
  by_cases hin : some fd ∈ s.fds.all
  · exact h.fresh fd hin
  · rw [← h.same fd hin, hfd]

/-- Closing them all leaves the table as it was. -/
theorem Owned.closeAll {t₀ : Table File} {s : Setup} (h : Owned t₀ s) :
    closeAll s.fds.all s.kernel.table = t₀ := by
  funext fd
  rw [closeAll_apply]
  by_cases hin : some fd ∈ s.fds.all
  · rw [if_pos hin, h.fresh fd hin]
  · rw [if_neg hin, h.same fd hin]

/-- They may be closed in two parts. -/
theorem Owned.closeAll_parts {t₀ : Table File} {s : Setup} (h : Owned t₀ s)
    {fds fds' : List (Option ℕ)} (hparts : ∀ o, o ∈ fds ++ fds' ↔ o ∈ s.fds.all) :
    Descriptors.closeAll fds' (Descriptors.closeAll fds s.kernel.table) = t₀ := by
  rw [← closeAll_append, closeAll_congr hparts, h.closeAll]

theorem owned_start (k : Kernel) : Owned k.table ⟨k, {}⟩ :=
  ⟨fun fd hfd => by simp [Fds.all] at hfd, fun _ _ => rfl⟩

/-! ## The calls of `di_setup_fds` -/

/-- The pipe that was made for a stream, when there were `n` pipes before. -/
def pipeOf (n : ℕ) : Stream → ℕ
  | .out => n
  | .err => n + 1

/-- For each stream, whether it has a pipe, and whether its read end is close-on-exec. -/
abbrev Stage := Stream → Option Bool

/-- How far the calls have come. -/
structure Staged (k : Kernel) (stage : Stage) (made : ℕ) (nonblock : List ℕ) (s : Setup) :
    Prop where
  owned : Owned k.table s
  unmade : ∀ st, stage st = none → s.fds.ends st = (none, none)
  read_end : ∀ st c, stage st = some c →
    Opens s.kernel.table (s.fds.ends st).1 ⟨.pipeRead (pipeOf k.pipes st), c⟩
  write_end : ∀ st c, stage st = some c →
    Opens s.kernel.table (s.fds.ends st).2 ⟨.pipeWrite (pipeOf k.pipes st), false⟩
  input : s.fds.ifd = none
  pipes : s.kernel.pipes = k.pipes + made
  nonblock : s.kernel.nonblock = nonblock ++ k.nonblock

/-- What holds after an error, before the descriptors are closed. -/
structure Failed (k : Kernel) (s : Setup) : Prop where
  owned : Owned k.table s
  pipes : k.pipes ≤ s.kernel.pipes
  nonblock : k.nonblock ⊆ s.kernel.nonblock

section Stages
variable {limit : ℕ} {refused : Call → Bool} {k k' : Kernel} {s : Setup} {stage : Stage} {made : ℕ}
  {nonblock : List ℕ} {st : Stream} {c : Bool} {r w fd : ℕ}

theorem Staged.failed (h : Staged k stage made nonblock s) : Failed k s :=
  ⟨h.owned, by rw [h.pipes]; exact Nat.le_add_right _ _,
    by rw [h.nonblock]; exact List.subset_append_right _ _⟩

theorem Fds.ends_setEnds (fds : Fds) (st st' : Stream) (ends : Option ℕ × Option ℕ) :
    (fds.setEnds st ends).ends st' = if st' = st then ends else fds.ends st' := by
  cases st <;> cases st' <;> rfl

theorem Fds.setEnds_ifd (fds : Fds) (st : Stream) (ends : Option ℕ × Option ℕ) :
    (fds.setEnds st ends).ifd = fds.ifd := by
  cases st <;> rfl

theorem Fds.mem_all {fds : Fds} {o : Option ℕ} :
    o ∈ fds.all ↔ (∃ st, o = (fds.ends st).1 ∨ o = (fds.ends st).2) ∨ o = fds.ifd := by
  constructor
  · intro h
    simp only [Fds.all, List.mem_cons, List.not_mem_nil, or_false] at h
    obtain h | h | h | h | h := h
    · exact .inl ⟨.out, .inl h⟩
    · exact .inl ⟨.out, .inr h⟩
    · exact .inl ⟨.err, .inl h⟩
    · exact .inl ⟨.err, .inr h⟩
    · exact .inr h
  · simp only [Fds.all, List.mem_cons, List.not_mem_nil, or_false]
    rintro (⟨_ | _, h | h⟩ | h)
    · exact .inl h
    · exact .inr (.inl h)
    · exact .inr (.inr (.inl h))
    · exact .inr (.inr (.inr (.inl h)))
    · exact .inr (.inr (.inr (.inr h)))

/-- A stream that had no descriptors gets some. -/
theorem Fds.mem_all_setEnds {fds : Fds} (hnone : fds.ends st = (none, none))
    {ends : Option ℕ × Option ℕ} :
    some fd ∈ (fds.setEnds st ends).all ↔
      some fd = ends.1 ∨ some fd = ends.2 ∨ some fd ∈ fds.all := by
  cases st <;>
    simp only [Fds.ends] at hnone <;>
    simp [Fds.all, Fds.setEnds, hnone]
  tauto

theorem pipe_spec (h : pipe limit k = some ((r, w), k')) :
    k.table r = none ∧ k.table w = none ∧ r ≠ w ∧
      k' = {k with
        table := Function.update (Function.update k.table r (some ⟨.pipeRead k.pipes, false⟩)) w
          (some ⟨.pipeWrite k.pipes, false⟩)
        pipes := k.pipes + 1} := by
  obtain ⟨⟨r', t⟩, hread, h⟩ := Option.bind_eq_some_iff.mp h
  obtain ⟨⟨w', t'⟩, hwrite, hpair⟩ := Option.map_eq_some_iff.mp h
  obtain ⟨⟨rfl, rfl⟩, rfl⟩ : (r' = r ∧ w' = w) ∧ _ = k' := by simpa using hpair
  obtain ⟨hr, -, rfl⟩ := allocate_spec hread
  obtain ⟨hw, -, rfl⟩ := allocate_spec hwrite
  have hne : r' ≠ w' := by
    rintro rfl
    simp at hw
  simp only [Function.update_of_ne hne.symm] at hw
  exact ⟨hr, hw, hne, rfl⟩

theorem openPipe_staged (h : Staged k stage made nonblock s) (hst : stage st = none)
    (hmade : k.pipes + made = pipeOf k.pipes st) :
    EndsIn (Staged k (Function.update stage st (some false)) (made + 1) nonblock)
      (fun f => Failed k f.2) (openPipe limit refused st s) := by
  rw [openPipe]
  split_ifs
  · exact h.failed
  cases hpipe : pipe limit s.kernel with
  | none => exact h.failed
  | some p =>
      obtain ⟨⟨r, w⟩, k'⟩ := p
      obtain ⟨hr, hw, hne, rfl⟩ := pipe_spec hpipe
      have hw' : Function.update s.kernel.table r (some ⟨.pipeRead s.kernel.pipes, false⟩) w =
          none := by rw [Function.update_of_ne hne.symm, hw]
      have hnone := h.unmade st hst
      have hpipe : s.kernel.pipes = pipeOf k.pipes st := by rw [h.pipes, hmade]
      refine ⟨⟨fun fd hfd => ?_, fun fd hfd => ?_⟩, fun st' hst' => ?_, fun st' c hst' => ?_,
        fun st' c hst' => ?_, ?_, ?_, h.nonblock⟩
      · obtain hfd | hfd | hfd := (Fds.mem_all_setEnds hnone).mp hfd
        · exact Option.some.inj hfd ▸ h.owned.fresh_of_unused hr
        · exact Option.some.inj hfd ▸ h.owned.fresh_of_unused hw
        · exact h.owned.fresh fd hfd
      · rw [Fds.mem_all_setEnds hnone, not_or, not_or] at hfd
        have hfdr : fd ≠ r := fun heq => hfd.1 (congrArg some heq)
        have hfdw : fd ≠ w := fun heq => hfd.2.1 (congrArg some heq)
        simp only [Function.update_of_ne hfdw, Function.update_of_ne hfdr]
        exact h.owned.same fd hfd.2.2
      · have hne' : st' ≠ st := by
          rintro rfl
          simp at hst'
        rw [Function.update_of_ne hne'] at hst'
        rw [Fds.ends_setEnds, if_neg hne', h.unmade st' hst']
      · rw [Fds.ends_setEnds]
        by_cases heq : st' = st
        · subst heq
          rw [Function.update_self] at hst'
          obtain rfl := Option.some.inj hst'
          rw [if_pos rfl, ← hpipe]
          exact ⟨r, rfl, by simp only [Function.update_of_ne hne, Function.update_self]⟩
        · rw [Function.update_of_ne heq] at hst'
          rw [if_neg heq]
          exact ((h.read_end st' c hst').allocated hr).allocated hw'
      · rw [Fds.ends_setEnds]
        by_cases heq : st' = st
        · subst heq
          rw [if_pos rfl, ← hpipe]
          exact ⟨w, rfl, Function.update_self ..⟩
        · rw [Function.update_of_ne heq] at hst'
          rw [if_neg heq]
          exact ((h.write_end st' c hst').allocated hr).allocated hw'
      · rw [Fds.setEnds_ifd, h.input]
      · show s.kernel.pipes + 1 = _
        rw [h.pipes, Nat.add_assoc]

theorem setCloexec_staged (h : Staged k stage made nonblock s) (hst : stage st = some c) :
    EndsIn (Staged k (Function.update stage st (some true)) made nonblock)
      (fun f => Failed k f.2) (setCloexec refused st s) := by
  rw [setCloexec]
  split_ifs
  · exact h.failed
  obtain ⟨r, hends, hentry⟩ := h.read_end st c hst
  rw [hends, Option.bind_some, hentry, Option.map_some]
  have hmem : some r ∈ s.fds.all := Fds.mem_all.mpr (.inl ⟨st, .inl hends.symm⟩)
  refine ⟨⟨h.owned.fresh, fun fd hfd => ?_⟩, fun st' hst' => ?_, fun st' c' hst' => ?_,
    fun st' c' hst' => ?_, h.input, h.pipes, h.nonblock⟩
  · have hne : fd ≠ r := by
      rintro rfl
      exact hfd hmem
    simp only [Function.update_of_ne hne]
    exact h.owned.same fd hfd
  · have hne : st' ≠ st := by
      rintro rfl
      simp at hst'
    exact h.unmade st' (by rwa [Function.update_of_ne hne] at hst')
  · by_cases heq : st' = st
    · subst heq
      rw [Function.update_self] at hst'
      obtain rfl := Option.some.inj hst'
      exact ⟨r, hends, Function.update_self ..⟩
    · rw [Function.update_of_ne heq] at hst'
      refine (h.read_end st' c' hst').replaced hentry fun he => ?_
      cases st <;> cases st' <;> simp [pipeOf] at he heq
  · obtain ⟨c₀, hst₀⟩ : ∃ c₀, stage st' = some c₀ := by
      by_cases heq : st' = st
      · exact ⟨c, heq ▸ hst⟩
      · exact ⟨c', by rwa [Function.update_of_ne heq] at hst'⟩
    exact (h.write_end st' c₀ hst₀).replaced hentry (by simp)

theorem setNonblock_staged (h : Staged k stage made nonblock s) (hst : stage st = some c) :
    EndsIn (Staged k stage made (pipeOf k.pipes st :: nonblock)) (fun f => Failed k f.2)
      (setNonblock refused st s) := by
  rw [setNonblock]
  split_ifs
  · exact h.failed
  obtain ⟨r, hends, hentry⟩ := h.read_end st c hst
  rw [hends, Option.bind_some, hentry]
  exact ⟨⟨h.owned.fresh, h.owned.same⟩, h.unmade, h.read_end, h.write_end, h.input, h.pipes,
    congrArg (_ :: ·) h.nonblock⟩

/-- `/dev/null` for a stream that has no pipe. Without it the variable stays `-1`. -/
theorem openNull_cases (limit : ℕ) (refused : Call → Bool) (s : Setup) (st : Stream)
    (hnone : s.fds.ends st = (none, none)) :
    openNull limit refused st s = s ∨
      ∃ fd, s.kernel.table fd = none ∧ openNull limit refused st s =
        ⟨{s.kernel with table := Function.update s.kernel.table fd (some ⟨.null true, false⟩)},
          s.fds.setEnds st (none, some fd)⟩ := by
  rw [openNull]
  split_ifs
  · exact .inl rfl
  cases hopen : allocate limit ⟨.null true, false⟩ s.kernel.table with
  | none => exact .inl rfl
  | some p =>
      obtain ⟨fd, t⟩ := p
      obtain ⟨hfd, -, rfl⟩ := allocate_spec hopen
      exact .inr ⟨fd, hfd, by rw [hnone]⟩

end Stages

/-- What `di_setup_fds` leaves when it succeeds. -/
structure Ready (k : Kernel) (ignoreOutput : Bool) (s : Setup) : Prop where
  owned : Owned k.table s
  read_end : ∀ st, ignoreOutput = false →
    Opens s.kernel.table (s.fds.ends st).1 ⟨.pipeRead (pipeOf k.pipes st), true⟩
  no_read_end : ∀ st, ignoreOutput = true → (s.fds.ends st).1 = none
  write_end : ∀ st, Opens s.kernel.table (s.fds.ends st).2
    ⟨if ignoreOutput then .null true else .pipeWrite (pipeOf k.pipes st), false⟩
  input : Opens s.kernel.table s.fds.ifd ⟨.null false, false⟩
  pipes : s.kernel.pipes = k.pipes + if ignoreOutput then 0 else 2
  nonblock : s.kernel.nonblock =
    (if ignoreOutput then [] else [k.pipes + 1, k.pipes]) ++ k.nonblock

section Setup
variable {limit : ℕ} {refused : Call → Bool} {k : Kernel} {s : Setup} {ignoreOutput : Bool}

theorem staged_start (k : Kernel) : Staged k (fun _ => none) 0 [] ⟨k, {}⟩ where
  owned := owned_start k
  unmade := fun st _ => by cases st <;> rfl
  read_end := fun _ _ h => nomatch h
  write_end := fun _ _ h => nomatch h
  input := rfl
  pipes := rfl
  nonblock := rfl

/-- The two pipes. -/
theorem openPipes_spec : EndsIn (Staged k (fun _ => some true) 2 [k.pipes + 1, k.pipes])
    (fun f => Failed k f.2) (openPipes limit refused ⟨k, {}⟩) := by
  refine (openPipe_staged (staged_start k) rfl rfl).bind fun s h => ?_
  refine (openPipe_staged h rfl rfl).bind fun s h => ?_
  refine (setCloexec_staged (c := false) h rfl).bind fun s h => ?_
  refine (setCloexec_staged (c := false) h rfl).bind fun s h => ?_
  refine (setNonblock_staged (c := true) h rfl).bind fun s h => ?_
  have hstage : Function.update (Function.update (Function.update (Function.update
      (fun _ : Stream => (none : Option Bool)) .out (some false)) .err (some false)) .out
      (some true)) .err (some true) = fun _ => some true := by
    funext st
    cases st <;> rfl
  rw [hstage] at h
  exact setNonblock_staged (c := true) h rfl

/-- `/dev/null` for both streams. -/
structure Nulls (k : Kernel) (s : Setup) : Prop where
  owned : Owned k.table s
  no_read_end : ∀ st, (s.fds.ends st).1 = none
  write_end : ∀ st, Opens s.kernel.table (s.fds.ends st).2 ⟨.null true, false⟩
  input : s.fds.ifd = none
  kernel : s.kernel = {k with table := s.kernel.table}

/-- What one `open` for a stream leaves, whether it succeeds or not. -/
structure NullTried (k : Kernel) (tried : Stream → Bool) (s : Setup) : Prop where
  owned : Owned k.table s
  untried : ∀ st, tried st = false → s.fds.ends st = (none, none)
  no_read_end : ∀ st, (s.fds.ends st).1 = none
  write_end : ∀ st, (s.fds.ends st).2 ≠ none →
    Opens s.kernel.table (s.fds.ends st).2 ⟨.null true, false⟩
  input : s.fds.ifd = none
  kernel : s.kernel = {k with table := s.kernel.table}

theorem NullTried.failed {tried : Stream → Bool} (h : NullTried k tried s) : Failed k s :=
  ⟨h.owned, by rw [h.kernel], by rw [h.kernel]; exact List.Subset.refl _⟩

theorem nullTried_start (k : Kernel) : NullTried k (fun _ => false) ⟨k, {}⟩ where
  owned := owned_start k
  untried := fun st _ => by cases st <;> rfl
  no_read_end := fun st => by cases st <;> rfl
  write_end := fun st hne => absurd (by cases st <;> rfl) hne
  input := rfl
  kernel := rfl

theorem openNull_tried (limit : ℕ) (refused : Call → Bool) {tried : Stream → Bool}
    (st : Stream) (h : NullTried k tried s) (hst : tried st = false) :
    NullTried k (Function.update tried st true) (openNull limit refused st s) := by
  have huntried : ∀ st', Function.update tried st true st' = false →
      st' ≠ st ∧ tried st' = false := by
    intro st' hst'
    by_cases heq : st' = st
    · subst heq
      simp at hst'
    · exact ⟨heq, by rwa [Function.update_of_ne heq] at hst'⟩
  have hnone := h.untried st hst
  obtain heq | ⟨fd, hfd, heq⟩ := openNull_cases limit refused s st hnone
  · rw [heq]
    exact {h with untried := fun st' hst' => h.untried st' (huntried st' hst').2}
  rw [heq]
  have hfresh := h.owned.fresh_of_unused hfd
  refine ⟨⟨fun fd' hfd' => ?_, fun fd' hfd' => ?_⟩, fun st' hst' => ?_, fun st' => ?_,
    fun st' hst' => ?_, ?_, ?_⟩
  · obtain hfd' | hfd' | hfd' := (Fds.mem_all_setEnds hnone).mp hfd'
    · exact nomatch hfd'
    · exact Option.some.inj hfd' ▸ hfresh
    · exact h.owned.fresh fd' hfd'
  · rw [Fds.mem_all_setEnds hnone, not_or, not_or] at hfd'
    have hne : fd' ≠ fd := fun heq => hfd'.2.1 (congrArg some heq)
    simp only [Function.update_of_ne hne]
    exact h.owned.same fd' hfd'.2.2
  · obtain ⟨hne, hst'⟩ := huntried st' hst'
    rw [Fds.ends_setEnds, if_neg hne, h.untried st' hst']
  · rw [Fds.ends_setEnds]
    split_ifs
    · rfl
    · exact h.no_read_end st'
  · rw [Fds.ends_setEnds] at hst' ⊢
    by_cases heq : st' = st
    · rw [if_pos heq]
      exact ⟨fd, rfl, Function.update_self ..⟩
    · rw [if_neg heq] at hst' ⊢
      exact (h.write_end st' hst').allocated hfd
  · rw [Fds.setEnds_ifd, h.input]
  · rw [h.kernel]

theorem openNulls_spec :
    EndsIn (Nulls k) (fun f => Failed k f.2) (openNulls limit refused ⟨k, {}⟩) := by
  have hout := openNull_tried limit refused .out (nullTried_start k) rfl
  have htried := openNull_tried limit refused .err hout rfl
  rw [openNulls]
  split_ifs with hnone
  · exact htried.failed
  · rw [Bool.or_eq_true, not_or, Option.isNone_iff_eq_none, Option.isNone_iff_eq_none] at hnone
    refine ⟨htried.owned, htried.no_read_end, fun st => htried.write_end st ?_, htried.input,
      htried.kernel⟩
    cases st with
    | out => exact hnone.1
    | err => exact hnone.2

/-- The descriptor for the standard input comes last. -/
theorem openInput_spec (hfailed : Failed k s) (hinput : s.fds.ifd = none)
    (hready : ∀ fd, s.kernel.table fd = none → Owned k.table
        ⟨{s.kernel with table := Function.update s.kernel.table fd (some ⟨.null false, false⟩)},
          {s.fds with ifd := some fd}⟩ →
      Ready k ignoreOutput
        ⟨{s.kernel with table := Function.update s.kernel.table fd (some ⟨.null false, false⟩)},
          {s.fds with ifd := some fd}⟩) :
    EndsIn (Ready k ignoreOutput) (fun f => Failed k f.2) (openInput limit refused s) := by
  rw [openInput]
  split_ifs
  · exact hfailed
  cases hopen : allocate limit ⟨.null false, false⟩ s.kernel.table with
  | none => exact hfailed
  | some p =>
      obtain ⟨fd, t⟩ := p
      obtain ⟨hfd, -, rfl⟩ := allocate_spec hopen
      have hfresh := hfailed.owned.fresh_of_unused hfd
      have hall : ∀ fd', some fd' ∈ Fds.all {s.fds with ifd := some fd} ↔
          fd' = fd ∨ some fd' ∈ s.fds.all := by
        intro fd'
        simp only [Fds.all, hinput, List.mem_cons, Option.some.injEq, List.not_mem_nil, or_false,
          reduceCtorEq]
        tauto
      refine hready fd hfd ⟨fun fd' hfd' => ?_, fun fd' hfd' => ?_⟩
      · obtain rfl | hfd' := (hall fd').mp hfd'
        · exact hfresh
        · exact hfailed.owned.fresh fd' hfd'
      · rw [hall, not_or] at hfd'
        simp only [Function.update_of_ne hfd'.1]
        exact hfailed.owned.same fd' hfd'.2

/-- All descriptors are there, or whatever has been opened is in the variables. -/
theorem openAll_spec (limit : ℕ) (refused : Call → Bool) (k : Kernel) (ignoreOutput : Bool) :
    EndsIn (Ready k ignoreOutput) (fun f => Failed k f.2)
    (openAll limit refused ignoreOutput ⟨k, {}⟩) := by
  cases ignoreOutput with
  | false =>
      refine openPipes_spec.bind fun s h => openInput_spec h.failed h.input fun fd hfd howned => ?_
      exact ⟨howned, fun st _ => (h.read_end st true rfl).allocated hfd, fun _ h => (nomatch h),
        fun st => (h.write_end st true rfl).allocated hfd, ⟨fd, rfl, Function.update_self ..⟩,
        h.pipes, h.nonblock⟩
  | true =>
      refine openNulls_spec.bind fun s h => ?_
      have hfailed : Failed k s :=
        ⟨h.owned, by rw [h.kernel], by rw [h.kernel]; exact List.Subset.refl _⟩
      refine openInput_spec hfailed h.input fun fd hfd howned => ?_
      exact ⟨howned, fun _ h => (nomatch h), fun st _ => h.no_read_end st,
        fun st => (h.write_end st).allocated hfd, ⟨fd, rfl, Function.update_self ..⟩,
        by rw [h.kernel]; rfl, by rw [h.kernel]; rfl⟩

/-- `di_setup_fds` leaves no descriptor behind when it throws. -/
theorem diSetupFds_spec (limit : ℕ) (refused : Call → Bool) (k : Kernel) (ignoreOutput : Bool) :
    EndsIn (Ready k ignoreOutput)
    (fun f => f.2.table = k.table ∧ k.pipes ≤ f.2.pipes ∧ k.nonblock ⊆ f.2.nonblock)
    (diSetupFds limit refused ignoreOutput k) := by
  have hspec := openAll_spec limit refused k ignoreOutput
  rw [diSetupFds]
  cases hopen : openAll limit refused ignoreOutput ⟨k, {}⟩ with
  | ok s =>
      rw [hopen] at hspec
      exact hspec
  | error f =>
      obtain ⟨message, s⟩ := f
      rw [hopen] at hspec
      exact ⟨hspec.owned.closeAll, hspec.pipes, hspec.nonblock⟩

end Setup

end Deai.SpawnDescriptors
