import Deai.SpawnDescriptors

/-!
# Starting a child

What `di_spawn_run` leaves in deai when it has started a child and when it has not, and what the
child has when it comes to its program.
-/
namespace Deai.SpawnDescriptors
open Descriptors Fallible Value

/-! ## `di_spawn_run`, in deai -/

def Child.fd (c : Child) : Stream → Option ℕ
  | .out => c.fds.1
  | .err => c.fds.2

/-- What a child that has been started leaves in deai. -/
structure Spawned (k : Kernel) (ignoreOutput : Bool) (c : Child) (k' : Kernel) : Prop where
  read_end : ∀ st, ignoreOutput = false → ∃ fd, c.fd st = some fd ∧ k.table fd = none ∧
    k'.table fd = some ⟨.pipeRead (pipeOf k.pipes st), true⟩
  no_read_end : ∀ st, ignoreOutput = true → c.fd st = none
  same : ∀ fd, (∀ st, c.fd st ≠ some fd) → k'.table fd = k.table fd
  pipes : k'.pipes = k.pipes + if ignoreOutput then 0 else 2
  nonblock : k'.nonblock = (if ignoreOutput then [] else [k.pipes + 1, k.pipes]) ++ k.nonblock
  pty : c.pty = none

section Spawn
variable {limit : ℕ} {refused : Call → Bool} {k k' : Kernel} {s : Setup} {ignoreOutput deai : Bool}
  {elemType : DiType} {c : Child} {f : Forked} {message : String}

theorem Ready.read_ne_write (h : Ready k ignoreOutput s) {st : Stream} {fd : ℕ}
    (hfd : (s.fds.ends st).1 = some fd) (st' : Stream) : (s.fds.ends st').2 ≠ some fd := by
  cases ignoreOutput with
  | false =>
      rw [← hfd]
      exact (h.write_end st').ne (h.read_end st rfl) (by simp)
  | true => exact nomatch (h.no_read_end st rfl).symm.trans hfd

theorem Ready.read_ne_input (h : Ready k ignoreOutput s) {st : Stream} {fd : ℕ}
    (hfd : (s.fds.ends st).1 = some fd) : s.fds.ifd ≠ some fd := by
  cases ignoreOutput with
  | false =>
      rw [← hfd]
      exact h.input.ne (h.read_end st rfl) (by simp)
  | true => exact nomatch (h.no_read_end st rfl).symm.trans hfd

/-- The parent keeps the read ends and what it had. -/
theorem Ready.spawned (h : Ready k ignoreOutput s) :
    Spawned k ignoreOutput ⟨(s.fds.opfds.1, s.fds.epfds.1), none⟩
      {s.kernel with
        table := closeAll [s.fds.ifd, s.fds.opfds.2, s.fds.epfds.2] s.kernel.table} := by
  have hfd : ∀ st, Child.fd ⟨(s.fds.opfds.1, s.fds.epfds.1), none⟩ st = (s.fds.ends st).1 := by
    intro st
    cases st <;> rfl
  refine ⟨fun st hi => ?_, fun st hi => ?_, fun fd hne => ?_, h.pipes, h.nonblock, rfl⟩
  · obtain ⟨fd, hends, hentry⟩ := h.read_end st hi
    have hout := h.read_ne_write hends .out
    have herr := h.read_ne_write hends .err
    have hkept : some fd ∉ [s.fds.ifd, s.fds.opfds.2, s.fds.epfds.2] := by
      simp only [List.mem_cons, List.not_mem_nil, or_false, not_or]
      exact ⟨(h.read_ne_input hends).symm, hout.symm, herr.symm⟩
    refine ⟨fd, (hfd st).trans hends, ?_, ?_⟩
    · exact h.owned.fresh fd (Fds.mem_all.mpr (.inl ⟨st, .inl hends.symm⟩))
    · show closeAll _ _ fd = _
      rw [closeAll_apply, if_neg hkept, hentry]
  · rw [hfd, h.no_read_end st hi]
  · show closeAll _ _ fd = _
    rw [closeAll_apply]
    split_ifs with hclosed
    · refine (h.owned.fresh fd ?_).symm
      simp only [List.mem_cons, List.not_mem_nil, or_false] at hclosed
      obtain hin | hin | hin := hclosed
      · exact Fds.mem_all.mpr (.inr hin)
      · exact Fds.mem_all.mpr (.inl ⟨.out, .inr hin⟩)
      · exact Fds.mem_all.mpr (.inl ⟨.err, .inr hin⟩)
    · refine h.owned.same fd fun hin => ?_
      simp only [List.mem_cons, List.not_mem_nil, or_false, not_or] at hclosed
      obtain ⟨st, hin | hin⟩ | hin := Fds.mem_all.mp hin
      · exact hne st ((hfd st).trans hin.symm)
      · cases st with
        | out => exact hclosed.2.1 hin
        | err => exact hclosed.2.2 hin
      · exact hclosed.1 hin

/-- `di_spawn_run` starts a child and keeps its read ends, or throws and leaves the table as it
was. -/
theorem diSpawnRun_cases {r : Except String (Child × Forked)}
    (h : diSpawnRun limit refused elemType deai ignoreOutput k = (r, k')) :
    (∃ message, r = .error message ∧ k'.table = k.table ∧ k.pipes ≤ k'.pipes ∧
        k.nonblock ⊆ k'.nonblock) ∨
      ∃ s c, Ready k ignoreOutput s ∧ Spawned k ignoreOutput c k' ∧
        r = .ok (c, ⟨s.kernel.table, childCode ignoreOutput s.fds⟩) := by
  rw [diSpawnRun] at h
  by_cases helem : elemType ≠ .string
  · rw [if_pos helem] at h
    obtain ⟨rfl, rfl⟩ := Prod.mk.injEq .. ▸ h
    exact .inl ⟨_, rfl, rfl, Nat.le_refl _, List.Subset.refl _⟩
  rw [if_neg helem] at h
  by_cases hdeai : deai = false
  · rw [if_pos hdeai] at h
    obtain ⟨rfl, rfl⟩ := Prod.mk.injEq .. ▸ h
    exact .inl ⟨_, rfl, rfl, Nat.le_refl _, List.Subset.refl _⟩
  rw [if_neg hdeai] at h
  have hspec := diSetupFds_spec limit refused k ignoreOutput
  cases hsetup : diSetupFds limit refused ignoreOutput k with
  | error f =>
      rw [hsetup] at h hspec
      obtain ⟨rfl, rfl⟩ := Prod.mk.injEq .. ▸ h
      exact .inl ⟨_, rfl, hspec⟩
  | ok s =>
      rw [hsetup] at h hspec
      have hready : Ready k ignoreOutput s := hspec
      simp only at h
      split_ifs at h
      · obtain ⟨rfl, rfl⟩ := Prod.mk.injEq .. ▸ h
        refine .inl ⟨_, rfl, ?_, ?_, ?_⟩
        · refine hready.owned.closeAll_parts fun o => ?_
          simp [Fds.all, or_comm, or_left_comm]
        · show k.pipes ≤ s.kernel.pipes
          rw [hready.pipes]
          exact Nat.le_add_right _ _
        · show k.nonblock ⊆ s.kernel.nonblock
          rw [hready.nonblock]
          exact List.subset_append_right _ _
      · obtain ⟨rfl, rfl⟩ := Prod.mk.injEq .. ▸ h
        exact .inr ⟨s, _, hready, hready.spawned, rfl⟩

/-! ## The child -/

/-- What the standard streams of the child are. -/
def streamFile (ignoreOutput : Bool) (pipes : ℕ) (st : Stream) : File :=
  if ignoreOutput then .null true else .pipeWrite (pipeOf pipes st)

/-- The table of the program that the child runs: its standard streams, and what it inherits. -/
def childTable (k : Kernel) (ignoreOutput : Bool) : Table File
  | 0 => some ⟨.null false, false⟩
  | 1 => some ⟨streamFile ignoreOutput k.pipes .out, false⟩
  | 2 => some ⟨streamFile ignoreOutput k.pipes .err, false⟩
  | fd + 3 => exec k.table (fd + 3)

/-- A child that gets as far as the program made no call that failed. -/
theorem runChild_unfailing {fails : ChildCall → Bool} {calls : List ChildCall} {t t' : Table File}
    (h : runChild limit fails calls t = some t') :
    runChild limit (fun _ => false) calls t = some t' := by
  induction calls generalizing t with
  | nil => exact h
  | cons call calls ih =>
      rw [runChild] at h ⊢
      obtain ⟨t₁, hcall, hrest⟩ := Option.bind_eq_some_iff.mp h
      have hrun : call.run limit false t = some t₁ := by
        cases call with
        | close fd => exact hcall
        | setsid => exact hcall
        | dup2 old new =>
            rw [ChildCall.run] at hcall
            split_ifs at hcall
            exact hcall
        | execvp =>
            rw [ChildCall.run] at hcall
            split_ifs at hcall
            exact hcall
      rw [hrun, Option.bind_some]
      exact ih hrest

theorem runChild_append {fails : ChildCall → Bool} (calls calls' : List ChildCall)
    (t : Table File) :
    runChild limit fails (calls ++ calls') t =
      (runChild limit fails calls t).bind (runChild limit fails calls') := by
  induction calls generalizing t with
  | nil => rfl
  | cons call calls ih =>
      rw [List.cons_append, runChild, runChild]
      cases call.run limit (fails call) t with
      | none => rfl
      | some t' => exact ih t'

/-- The read ends are closed, if there are any. -/
theorem runChild_reads (h : Ready k ignoreOutput s) (t : Table File) :
    runChild limit (fun _ => false)
        (if ignoreOutput then [] else [.close s.fds.opfds.1, .close s.fds.epfds.1]) t =
      some (closeAll [s.fds.opfds.1, s.fds.epfds.1] t) := by
  cases ignoreOutput with
  | false => rfl
  | true =>
      have hout : s.fds.opfds.1 = none := h.no_read_end .out rfl
      have herr : s.fds.epfds.1 = none := h.no_read_end .err rfl
      rw [hout, herr]
      rfl

/-- A descriptor that was not in use is none of the standard ones. -/
theorem Ready.standard (h : Ready k ignoreOutput s) (hopen : ∀ fd < 3, k.table fd ≠ none) {fd : ℕ}
    (hfd : some fd ∈ s.fds.all) : 3 ≤ fd := by
  by_contra hlt
  exact hopen fd (by omega) (h.owned.fresh fd hfd)

/-- The child runs the program with its standard streams, and with nothing of what deai keeps to
itself. -/
theorem runChild_ready (h : Ready k ignoreOutput s) (hopen : ∀ fd < 3, k.table fd ≠ none)
    (hlimit : 2 < limit) :
    runChild limit (fun _ => false) (childCode ignoreOutput s.fds) s.kernel.table =
      some (childTable k ignoreOutput) := by
  obtain ⟨i, hi, hientry⟩ := h.input
  obtain ⟨o, ho, hoentry⟩ := h.write_end .out
  obtain ⟨e, he, heentry⟩ := h.write_end .err
  have hi₃ := h.standard hopen (Fds.mem_all.mpr (.inr hi.symm))
  have ho₃ := h.standard hopen (Fds.mem_all.mpr (.inl ⟨.out, .inr ho.symm⟩))
  have he₃ := h.standard hopen (Fds.mem_all.mpr (.inl ⟨.err, .inr he.symm⟩))
  have hkept : ∀ {fd}, (∀ st, (s.fds.ends st).1 ≠ some fd) →
      closeAll [s.fds.opfds.1, s.fds.epfds.1] s.kernel.table fd = s.kernel.table fd := by
    intro fd hne
    rw [closeAll_apply, if_neg]
    simp only [List.mem_cons, List.not_mem_nil, or_false, not_or]
    exact ⟨(hne .out).symm, (hne .err).symm⟩
  have hi₁ := (hkept fun st hst => h.read_ne_input hst hi).trans hientry
  have ho₁ := (hkept fun st hst => h.read_ne_write hst .out ho).trans hoentry
  have he₁ := (hkept fun st hst => h.read_ne_write hst .err he).trans heentry
  change s.fds.opfds.2 = some o at ho
  change s.fds.epfds.2 = some e at he
  rw [childCode, runChild_append, runChild_reads h, Option.bind_some]
  generalize ht₁ : closeAll [s.fds.opfds.1, s.fds.epfds.1] s.kernel.table = t₁ at hi₁ ho₁ he₁
  have hin : dup2 limit s.fds.ifd 0 t₁ =
      some (Function.update t₁ 0 (some ⟨.null false, false⟩)) := by
    rw [hi]
    exact dup2_open hi₁ (by omega) (by omega)
  generalize ht₂ : Function.update t₁ 0 (some ⟨.null false, false⟩) = t₂ at hin
  have ho₂ : t₂ o = t₁ o := by rw [← ht₂, Function.update_of_ne (by omega)]
  have hout : dup2 limit s.fds.opfds.2 1 t₂ =
      some (Function.update t₂ 1 (some ⟨streamFile ignoreOutput k.pipes .out, false⟩)) := by
    rw [ho]
    exact dup2_open (ho₂.trans ho₁) (by omega) (by omega)
  generalize ht₃ : Function.update t₂ 1 (some ⟨streamFile ignoreOutput k.pipes .out, false⟩) = t₃
    at hout
  have he₃' : t₃ e = t₁ e := by
    rw [← ht₃, Function.update_of_ne (by omega), ← ht₂, Function.update_of_ne (by omega)]
  have herr : dup2 limit s.fds.epfds.2 2 t₃ =
      some (Function.update t₃ 2 (some ⟨streamFile ignoreOutput k.pipes .err, false⟩)) := by
    rw [he]
    exact dup2_open (he₃'.trans he₁) (by omega) (by omega)
  generalize ht₄ : Function.update t₃ 2 (some ⟨streamFile ignoreOutput k.pipes .err, false⟩) = t₄
    at herr
  have hrun : runChild limit (fun _ => false) [ChildCall.dup2 s.fds.ifd 0, .dup2 s.fds.opfds.2 1,
      .dup2 s.fds.epfds.2 2, .close s.fds.opfds.2, .close s.fds.epfds.2, .close s.fds.ifd, .setsid,
      .execvp] t₁ =
      some (exec (closeAll [s.fds.opfds.2, s.fds.epfds.2, s.fds.ifd] t₄)) := by
    simp only [runChild, ChildCall.run, Bool.false_eq_true, if_false, hin, hout, herr,
      Option.bind_some]
    rfl
  rw [hrun, Option.some.injEq]
  funext fd
  obtain hlt | hge := Nat.lt_or_ge fd 3
  · have hopened : some fd ∉ [s.fds.opfds.2, s.fds.epfds.2, s.fds.ifd] := by
      rw [ho, he, hi]
      simp only [List.mem_cons, Option.some.injEq, List.not_mem_nil, or_false, not_or]
      omega
    rw [exec, closeAll_apply, if_neg hopened, ← ht₄, ← ht₃, ← ht₂]
    interval_cases fd <;> rfl
  · obtain ⟨fd, rfl⟩ := Nat.exists_eq_add_of_le' hge
    have hsame : t₄ (fd + 3) = t₁ (fd + 3) := by
      rw [← ht₄, Function.update_of_ne (by omega), ← ht₃, Function.update_of_ne (by omega), ← ht₂,
        Function.update_of_ne (by omega)]
    have hclosed : closeAll [s.fds.opfds.2, s.fds.epfds.2, s.fds.ifd] t₁ = k.table := by
      rw [← ht₁]
      refine h.owned.closeAll_parts fun o => ?_
      simp [Fds.all, or_comm, or_left_comm]
    rw [childTable, exec, exec, closeAll_apply, hsame, ← closeAll_apply, hclosed]

end Spawn

/-! ## When the descriptors suffice -/

section Success
variable {limit : ℕ} {refused : Call → Bool} {k : Kernel} {s : Setup} {ignoreOutput : Bool}
  {st : Stream} {n : ℕ} {c : Bool}

theorem openPipe_ok (s : Setup) (hok : refused (.pipe st) = false)
    (hfree : 2 ≤ free limit s.kernel.table) :
    ∃ s', openPipe limit refused st s = .ok s' ∧
      free limit s'.kernel.table + 2 = free limit s.kernel.table := by
  obtain ⟨r, hr, hrnone, hread⟩ :=
    exists_allocate s.kernel.table ⟨.pipeRead s.kernel.pipes, false⟩ (Nat.zero_lt_of_lt hfree)
  have hleft := free_update ⟨.pipeRead s.kernel.pipes, false⟩ hrnone hr
  obtain ⟨w, hw, hwnone, hwrite⟩ := exists_allocate
    (Function.update s.kernel.table r (some ⟨.pipeRead s.kernel.pipes, false⟩))
    ⟨.pipeWrite s.kernel.pipes, false⟩ (show 0 < free limit _ by omega)
  have hleft' := free_update ⟨.pipeWrite s.kernel.pipes, false⟩ hwnone hw
  rw [openPipe, if_neg (by rw [hok]; exact Bool.false_ne_true), pipe, hread, Option.bind_some,
    hwrite]
  exact ⟨_, rfl, by simp only; omega⟩

theorem setCloexec_ok (limit : ℕ) (hok : refused (.setCloexec st) = false)
    (h : Opens s.kernel.table (s.fds.ends st).1 ⟨.pipeRead n, c⟩) :
    ∃ s', setCloexec refused st s = .ok s' ∧
      free limit s'.kernel.table = free limit s.kernel.table := by
  obtain ⟨fd, hfd, hentry⟩ := h
  rw [setCloexec, if_neg (by rw [hok]; exact Bool.false_ne_true), hfd, Option.bind_some, hentry,
    Option.map_some]
  exact ⟨_, rfl, free_replaced hentry _⟩

theorem setNonblock_ok (hok : refused (.setNonblock st) = false)
    (h : Opens s.kernel.table (s.fds.ends st).1 ⟨.pipeRead n, c⟩) :
    ∃ s', setNonblock refused st s = .ok s' ∧ s'.kernel.table = s.kernel.table := by
  obtain ⟨fd, hfd, hentry⟩ := h
  rw [setNonblock, if_neg (by rw [hok]; exact Bool.false_ne_true), hfd, Option.bind_some, hentry]
  exact ⟨_, rfl, rfl⟩

theorem openNull_ok (s : Setup) (hok : refused (.openNull st) = false)
    (hfree : 0 < free limit s.kernel.table) :
    (∃ fd, openNull limit refused st s =
        ⟨{s.kernel with table := Function.update s.kernel.table fd (some ⟨.null true, false⟩)},
          s.fds.setEnds st ((s.fds.ends st).1, some fd)⟩) ∧
      free limit (openNull limit refused st s).kernel.table + 1 = free limit s.kernel.table := by
  obtain ⟨fd, hlt, hfd, hopen⟩ :=
    exists_allocate s.kernel.table ⟨.null true, false⟩ hfree
  rw [openNull, if_neg (by rw [hok]; exact Bool.false_ne_true), hopen]
  exact ⟨⟨fd, rfl⟩, free_update ⟨.null true, false⟩ hfd hlt⟩

theorem openInput_ok (hok : refused .openInput = false) (hfree : 0 < free limit s.kernel.table) :
    ∃ s', openInput limit refused s = .ok s' := by
  obtain ⟨fd, hlt, hfd, hopen⟩ :=
    exists_allocate s.kernel.table ⟨.null false, false⟩ hfree
  rw [openInput, if_neg (by rw [hok]; exact Bool.false_ne_true), hopen]
  exact ⟨_, rfl⟩

theorem openPipes_ok (hok : ∀ call, refused call = false) (hfree : 4 < free limit k.table) :
    ∃ s, openPipes limit refused ⟨k, {}⟩ = .ok s ∧ 0 < free limit s.kernel.table := by
  obtain ⟨s₁, h₁, hfree₁⟩ := openPipe_ok ⟨k, {}⟩ (hok (.pipe .out))
    (show 2 ≤ free limit k.table by omega)
  have hst₁ := (openPipe_staged (staged_start k) rfl rfl).of_ok h₁
  obtain ⟨s₂, h₂, hfree₂⟩ := openPipe_ok s₁ (hok (.pipe .err))
    (show 2 ≤ free limit s₁.kernel.table by simp only at hfree₁; omega)
  have hst₂ := (openPipe_staged hst₁ rfl rfl).of_ok h₂
  obtain ⟨s₃, h₃, hfree₃⟩ := setCloexec_ok limit (hok _) (hst₂.read_end .out false rfl)
  have hst₃ := (setCloexec_staged (c := false) hst₂ rfl).of_ok h₃
  obtain ⟨s₄, h₄, hfree₄⟩ := setCloexec_ok limit (hok _) (hst₃.read_end .err false rfl)
  have hst₄ := (setCloexec_staged (c := false) hst₃ rfl).of_ok h₄
  obtain ⟨s₅, h₅, ht₅⟩ := setNonblock_ok (hok _) (hst₄.read_end .out true rfl)
  have hst₅ := (setNonblock_staged (c := true) hst₄ rfl).of_ok h₅
  obtain ⟨s₆, h₆, ht₆⟩ := setNonblock_ok (hok _) (hst₅.read_end .err true rfl)
  refine ⟨s₆, ?_, ?_⟩
  · rw [openPipes, h₁, ok_bind, h₂, ok_bind, h₃, ok_bind, h₄, ok_bind, h₅, ok_bind, h₆]
  · rw [ht₆, ht₅]
    simp only at hfree₁
    omega

theorem openNulls_ok (hok : ∀ call, refused call = false) (hfree : 2 < free limit k.table) :
    ∃ s, openNulls limit refused ⟨k, {}⟩ = .ok s ∧ 0 < free limit s.kernel.table := by
  obtain ⟨⟨o, hout⟩, hfree₁⟩ := openNull_ok ⟨k, {}⟩ (hok (.openNull .out))
    (show 0 < free limit k.table by omega)
  simp only at hfree₁
  have hleft₁ : 0 < free limit (openNull limit refused .out ⟨k, {}⟩).kernel.table := by omega
  obtain ⟨⟨e, herr⟩, hfree₂⟩ := openNull_ok _ (hok (.openNull .err)) hleft₁
  have hleft : 0 < free limit (openNull limit refused .err
      (openNull limit refused .out ⟨k, {}⟩)).kernel.table := by omega
  refine ⟨_, ?_, hleft⟩
  rw [openNulls, if_neg]
  rw [herr, hout]
  simp [Fds.setEnds]

/-- With as many descriptors as it takes, and nothing refused, the child is started. -/
theorem diSpawnRun_ok {k : Kernel} (hok : ∀ call, refused call = false)
    (hfree : (if ignoreOutput then 2 else 4) < free limit k.table) :
    ∃ p, (diSpawnRun limit refused .string true ignoreOutput k).1 = .ok p := by
  have hall : ∃ s, openAll limit refused ignoreOutput ⟨k, {}⟩ = .ok s := by
    cases ignoreOutput with
    | false =>
        obtain ⟨s, hs, hleft⟩ := openPipes_ok hok hfree
        obtain ⟨s', hs'⟩ := openInput_ok (s := s) (hok _) hleft
        exact ⟨s', by simp only [openAll, Bool.false_eq_true, if_false, hs, ok_bind, hs']⟩
    | true =>
        obtain ⟨s, hs, hleft⟩ := openNulls_ok hok hfree
        obtain ⟨s', hs'⟩ := openInput_ok (s := s) (hok _) hleft
        exact ⟨s', by simp only [openAll, if_true, hs, ok_bind, hs']⟩
  obtain ⟨s, hs⟩ := hall
  rw [diSpawnRun, if_neg (by simp), if_neg (by simp), diSetupFds, hs]
  simp [hok]

end Success

/-- Descriptors 0 to 2 and two more are open, of eight. -/
def smallTable : Table File
  | 0 | 1 | 2 => some ⟨.other 0, false⟩
  | 3 => some ⟨.other 1, true⟩
  | 5 => some ⟨.other 2, false⟩
  | _ => none

end Deai.SpawnDescriptors
