import Deai.ChildLines

/-!
# The last line of the output of a child process

The text after the last line break is lost if the end of the output is noticed. If it is not, the text is
emitted when the child exits, even if it is empty.
-/
namespace Deai.ChildExit
open Fallible FilledBuffer StringBuffer Lines ChildOutput ChildLines

variable {react : List Emission → Fin 2 → Change} {id k : Fin 2} {c c' : Child}

/-! ## What is left in the buffer -/

/-- What was emitted for an output when the exit is: the lines, and the rest if the end of the output was not
noticed, unless nothing was read at all. -/
def Delivered (k : Fin 2) (noticed : Prop) (s : Bytes) (c : Child) : Prop :=
  Alive c ∧ ∃ ls r, Split newline s ls r ∧
    (((noticed ∨ s = []) ∧ linesOf k c.trace = ls) ∨ (¬ (noticed ∨ s = []) ∧ linesOf k c.trace = ls ++ [r]))

theorem Delivered.progress {noticed : Prop} {s : Bytes} (h : Delivered k noticed s c)
    (hp : Progress react id c c') (hk : id ≠ k) : Delivered k noticed s c' := by
  obtain ⟨halive, ls, r, hsplit, hlines⟩ := h
  refine ⟨halive.progress hp, ls, r, hsplit, ?_⟩
  rw [linesOf_progress hp hk]
  exact hlines

/-- What is in the buffer is emitted. -/
def flush (react : List Emission → Fin 2 → Change) (id : Fin 2) (c : Child) : Except Fault Child :=
  match c.outputBuf id with
  | none => .ok c
  | some buf =>
      if stringBufIsEmpty buf then .ok c
      else do
        let (block, buf) ← stringBufDump buf
        let out ← readString block
        .ok (diEmit react (c.setBuf id (some buf)) (.line id out))

theorem finishOutput_eq (id : Fin 2) (pieces : List Bytes) (eof : Bool) (c : Child) :
    finishOutput react id pieces eof c =
      if (c.outputBuf id).isNone then .ok c else outputHandler react id eof pieces c >>= flush react id := rfl

theorem flush_eq {buf : StringBuf} {r : Bytes} (hbuf : c.outputBuf id = some buf) (hholds : Holds buf r)
    (hne : buf ≠ []) : flush react id c = .ok (diEmit react (c.setBuf id (some [])) (.line id r)) := by
  have hempty : ¬ stringBufIsEmpty buf = true := by
    cases buf with
    | nil => exact absurd rfl hne
    | cons node nodes => exact Bool.false_ne_true
  unfold flush
  rw [hbuf]
  dsimp only
  rw [if_neg hempty, stringBufDump_holds hholds, ok_bind]
  dsimp only
  rw [readString_filled hholds.no_zero, ok_bind]

theorem flush_nil (hbuf : c.outputBuf id = some []) : flush react id c = .ok c := by
  unfold flush
  rw [hbuf]
  rfl

theorem flush_none (hbuf : c.outputBuf id = none) : flush react id c = .ok c := by
  unfold flush
  rw [hbuf]

variable (react id) in
theorem flush_progress (h : Clean c) : ∃ c', flush react id c = .ok c' ∧ Progress react id c c' := by
  cases hbuf : c.outputBuf id with
  | none => exact ⟨c, flush_none hbuf, Progress.refl h⟩
  | some buf =>
      obtain ⟨r, hholds⟩ := h id buf hbuf
      by_cases hne : buf = []
      · subst hne
        exact ⟨c, flush_nil hbuf, Progress.refl h⟩
      · refine ⟨_, flush_eq hbuf hholds hne, ?_⟩
        exact (Progress.setBuf h Holds.nil).trans (Progress.diEmit (h.setBuf Holds.nil id) r)

variable (react id) in
theorem finishOutput_progress (pieces : List Bytes) (hpieces : Pieces pieces) (eof : Bool) (h : Clean c) :
    ∃ c', finishOutput react id pieces eof c = .ok c' ∧ Progress react id c c' := by
  rw [finishOutput_eq]
  by_cases hnone : (c.outputBuf id).isNone
  · rw [if_pos hnone]
    exact ⟨c, rfl, Progress.refl h⟩
  · have hattached : (c.outputBuf id).isSome := by
      rwa [Option.isSome_iff_ne_none, ne_eq, ← Option.isNone_iff_eq_none]
    obtain ⟨c', hrun, hprogress⟩ := outputHandler_progress react eof pieces hpieces h hattached
    obtain ⟨c'', hflush, hprogress'⟩ := flush_progress react id hprogress.clean
    rw [if_neg hnone, hrun, ok_bind]
    exact ⟨c'', hflush, hprogress.trans hprogress'⟩

/-- The rest of the output is emitted if its end was not noticed, even if it is empty. -/
theorem flush_delivers {noticed : Prop} {s : Bytes} (h : State k noticed s c) :
    ∃ c', flush react k c = .ok c' ∧ Delivered k noticed s c' := by
  rcases h with ⟨hnot, halive, buf, r, htracks, hbuf⟩ | ⟨hyes, halive, hnone, r, hsplit⟩
  · by_cases hs : s = []
    · obtain rfl := hbuf.mpr hs
      exact ⟨c, flush_nil htracks.attached, halive, _, r, htracks.split, .inl ⟨.inr hs, rfl⟩⟩
    · obtain ⟨c', hflush, hprogress⟩ := flush_progress react k halive.clean
      refine ⟨c', hflush, halive.progress hprogress, _, r, htracks.split, .inr ⟨by simp [hnot, hs], ?_⟩⟩
      rw [flush_eq htracks.attached htracks.holds fun h => hs (hbuf.mp h)] at hflush
      cases hflush
      rw [diEmit_trace, setBuf_trace, linesOf_append]
      congr 1
      exact linesOf_self k [r]
  · exact ⟨c, flush_none hnone, halive, _, r, hsplit, .inl ⟨.inl hyes, rfl⟩⟩

theorem finishOutput_delivers (hstays : Stays react k) {noticed : Prop} {s : Bytes} (h : State k noticed s c)
    {pieces : List Bytes} (hpieces : Pieces pieces) (hnone : (c.outputBuf k).isNone → pieces = []) (eof : Bool) :
    ∃ c', finishOutput react k pieces eof c = .ok c' ∧
      Delivered k (noticed ∨ eof = true) (s ++ pieces.flatten) c' := by
  rw [finishOutput_eq]
  rcases h with ⟨hnot, hfollowing⟩ | ⟨hyes, halive, hgone, r, hsplit⟩
  · obtain ⟨-, buf, r, htracks, -⟩ := id hfollowing
    obtain ⟨c', hrun, hstate⟩ := outputHandler_state hstays eof hpieces hfollowing
    have hstate' : State k (noticed ∨ eof = true) (s ++ pieces.flatten) c' := hstate.congr (by simp [hnot])
    obtain ⟨c'', hflush, hdelivered⟩ := flush_delivers hstate'
    refine ⟨c'', ?_, hdelivered⟩
    rw [if_neg (by simp [htracks.attached]), hrun, ok_bind, hflush]
  · have hpieces' := hnone (by simp [hgone])
    rw [if_pos (by simp [hgone]), hpieces', List.flatten_nil, List.append_nil]
    exact ⟨c, rfl, halive, _, r, hsplit, .inl ⟨.inl (.inl hyes), rfl⟩⟩

theorem sigchldHandler_eq (rstatus : ℕ) {pieces : Fin 2 → List Bytes} {eof : Fin 2 → Bool} {c₁ c₂ : Child}
    (h : finishOutput react 0 (pieces 0) (eof 0) c = .ok c₁)
    (h' : finishOutput react 1 (pieces 1) (eof 1) c₁ = .ok c₂) :
    ∃ c', sigchldHandler react rstatus pieces eof c = .ok c' ∧
      c'.trace = c₂.trace ++ [Emission.exit (exitStatus rstatus) (termSignal rstatus)] := by
  unfold sigchldHandler
  rw [h, ok_bind, h', ok_bind]
  exact ⟨_, rfl, rfl⟩

/-- The exit is emitted after everything else. -/
theorem sigchld_delivers (hstays : Stays react k) {noticed : Prop} {s : Bytes} (h : State k noticed s c)
    {rstatus : ℕ} {pieces : Fin 2 → List Bytes} {eof : Fin 2 → Bool}
    (henabled : Enabled c (.sigchld rstatus pieces eof)) :
    ∃ c' c'', sigchldHandler react rstatus pieces eof c = .ok c' ∧
      c'.trace = c''.trace ++ [Emission.exit (exitStatus rstatus) (termSignal rstatus)] ∧
      Delivered k (noticed ∨ eof k = true) (s ++ (pieces k).flatten) c'' := by
  obtain ⟨-, hpieces⟩ := henabled
  match k with
  | 0 =>
      obtain ⟨c₁, hrun, hdelivered⟩ := finishOutput_delivers hstays h (hpieces 0).1 (hpieces 0).2 (eof 0)
      obtain ⟨c₂, hrun', hprogress⟩ :=
        finishOutput_progress react 1 (pieces 1) (hpieces 1).1 (eof 1) hdelivered.1.clean
      obtain ⟨c', hc', htrace⟩ := sigchldHandler_eq rstatus hrun hrun'
      exact ⟨c', c₂, hc', htrace, hdelivered.progress hprogress (by decide)⟩
  | 1 =>
      obtain ⟨c₁, hrun, hprogress⟩ := finishOutput_progress react 0 (pieces 0) (hpieces 0).1 (eof 0) h.clean
      have hstate := h.progress hstays hprogress (by decide)
      have hnone : (c₁.outputBuf 1).isNone → pieces 1 = [] := by
        rw [hprogress.frame 1 (by decide) hstays]
        exact (hpieces 1).2
      obtain ⟨c₂, hrun', hdelivered⟩ := finishOutput_delivers hstays hstate (hpieces 1).1 hnone (eof 1)
      obtain ⟨c', hc', htrace⟩ := sigchldHandler_eq rstatus hrun hrun'
      exact ⟨c', c₂, hc', htrace, hdelivered⟩

/-- Before the exit, the lines of an output were emitted, and what comes after its last line break unless it is
empty. -/
def LastLineOnce (k : Fin 2) (s : Bytes) (trace : List Emission) : Prop :=
  ∃ before exitCode signal, trace = before ++ [.exit exitCode signal] ∧ OnlyLines before ∧
    ∀ ls r, s.splitOn newline = ls ++ [r] → linesOf k before = if r = [] then ls else ls ++ [r]

theorem lastLineOnce_iff {noticed : Prop} {s : Bytes} {exitCode signal : ℕ} (h : Delivered k noticed s c) :
    LastLineOnce k s (c.trace ++ [Emission.exit exitCode signal]) ↔
      (noticed → s = [] ∨ s.getLast? = some newline) ∧ (¬ noticed → s = [] ∨ s.getLast? ≠ some newline) := by
  obtain ⟨halive, ls, r, hsplit, hlines⟩ := h
  have hrest := hsplit.rest_eq_nil_iff
  have hiff : LastLineOnce k s (c.trace ++ [Emission.exit exitCode signal]) ↔
      linesOf k c.trace = if r = [] then ls else ls ++ [r] := by
    constructor
    · rintro ⟨before, exitCode', signal', heq, -, hall⟩
      obtain ⟨rfl, -⟩ := List.append_inj' heq rfl
      exact hall ls r hsplit.splitOn
    · intro heq
      refine ⟨c.trace, exitCode, signal, rfl, halive.trace, fun ls' r' h' => ?_⟩
      obtain ⟨rfl, hr⟩ := List.append_inj' (hsplit.splitOn.symm.trans h') rfl
      obtain rfl : r = r' := List.singleton_inj.mp hr
      exact heq
  rw [hiff]
  rcases hlines with ⟨hlast, hlines⟩ | ⟨hlast, hlines⟩
  · rw [hlines]
    by_cases hr : r = []
    · rw [if_pos hr]
      refine iff_of_true rfl ⟨fun _ => hrest.mp hr, fun hnot => .inl (hlast.resolve_left hnot)⟩
    · rw [if_neg hr]
      have hs : s ≠ [] := fun hs => hr (hrest.mpr (.inl hs))
      refine iff_of_false (by simp) fun hall => ?_
      exact hr (hrest.mpr (hall.1 (hlast.resolve_right hs)))
  · rw [hlines]
    rw [not_or] at hlast
    by_cases hr : r = []
    · rw [if_pos hr]
      refine iff_of_false (by simp) fun hall => ?_
      rcases hrest.mp hr with hs | hend
      · exact hlast.2 hs
      · exact (hall.2 hlast.1).elim hlast.2 fun h => h hend
    · rw [if_neg hr]
      refine iff_of_true rfl ⟨fun hnoticed => absurd hnoticed hlast.1, fun _ => .inr fun hend => ?_⟩
      exact hr (hrest.mpr (.inr hend))

theorem run_append {c : Child} {es es' : List Event} (h : run react c es = .ok c') :
    run react c (es ++ es') = run react c' es' := by
  induction es generalizing c with
  | nil =>
      cases h
      rfl
  | cons e es ih =>
      rw [run] at h
      obtain ⟨c₁, hstep, h⟩ := bind_eq_ok h
      rw [List.cons_append, run, hstep, ok_bind, ih h]

theorem Admissible.left {es es' : List Event} (h : Admissible react c (es ++ es')) : Admissible react c es := by
  induction es generalizing c with
  | nil => trivial
  | cons e es ih => exact ⟨h.1, fun c' hc' => ih (h.2 c' hc')⟩

theorem Admissible.right {es es' : List Event} (h : Admissible react c (es ++ es')) (hrun : run react c es = .ok c') :
    Admissible react c' es' := by
  induction es generalizing c with
  | nil =>
      cases hrun
      exact h
  | cons e es ih =>
      rw [run] at hrun
      obtain ⟨c₁, hstep, hrun⟩ := bind_eq_ok hrun
      exact ih (h.2 c₁ hstep) hrun

/-- The end of the output is noticed at some time. -/
def Noticed (k : Fin 2) (es : List Event) : Prop := ∃ e ∈ es, Notices k e

/-- The last line is delivered once if and only if the output is empty, or it ends with a line break and its
end is noticed up to the exit, or it does not and its end is not noticed. -/
theorem last_line_delivered (hstays : Stays react k) (hc : Started k c) {es : List Event}
    (hes : ∀ e ∈ es, Untouched k e) {rstatus : ℕ} {pieces : Fin 2 → List Bytes} {eof : Fin 2 → Bool}
    {all : List Event} (hall : all = es ++ [.sigchld rstatus pieces eof]) (hadmissible : Admissible react c all) :
    ∃ c', run react c all = .ok c' ∧
      (LastLineOnce k (stream k all) c'.trace ↔
        (Noticed k all → stream k all = [] ∨ (stream k all).getLast? = some newline) ∧
        (¬ Noticed k all → stream k all = [] ∨ (stream k all).getLast? ≠ some newline)) := by
  subst hall
  obtain ⟨c₁, hrun, hstate⟩ := run_state hstays hc.state hes (Admissible.left hadmissible)
  have henabled := (Admissible.right hadmissible hrun).1
  obtain ⟨c₂, c₃, hsigchld, htrace, hdelivered⟩ := sigchld_delivers hstays hstate henabled
  have hstream : stream k (es ++ [.sigchld rstatus pieces eof]) = [] ++ stream k es ++ (pieces k).flatten := by
    rw [stream, List.flatMap_append, List.nil_append]
    simp [stream, Event.bytes]
  have hnoticed : Noticed k (es ++ [.sigchld rstatus pieces eof]) ↔
      (False ∨ ∃ e ∈ es, Notices k e) ∨ eof k = true := by
    simp [Noticed, Notices, or_and_right, exists_or]
  refine ⟨c₂, ?_, ?_⟩
  · rw [run_append hrun, run]
    change (sigchldHandler react rstatus pieces eof c₁ >>= fun c => run react c []) = _
    rw [hsigchld]
    rfl
  · rw [htrace, hstream, hnoticed]
    exact lastLineOnce_iff hdelivered

/-- The exit of a child, with what is left of its first output. -/
def exitWith (pieces : List Bytes) (eof : Bool) : Event :=
  .sigchld 0 (fun id => if id.val = 0 then pieces else []) fun id => if id.val = 0 then eof else false

/-- A line, in two pieces, whose end is noticed when the child exits. -/
theorem last_line_delivered_line :
    ∃ c', run (fun _ _ => .keep) listening [.readable 0 [[97]] false, exitWith [[10]] true] = .ok c' ∧
      LastLineOnce 0 (stream 0 [.readable 0 [[97]] false, exitWith [[10]] true]) c'.trace := by
  have hpieces : ∀ id : Fin 2, Pieces (if id.val = 0 then [[10]] else []) := by
    unfold Pieces
    decide
  have hadmissible : Admissible (fun _ _ => .keep) listening [.readable 0 [[97]] false, exitWith [[10]] true] := by
    refine ⟨⟨rfl, by unfold Pieces; decide⟩, fun c' h => ?_⟩
    cases h
    exact ⟨⟨rfl, fun id => ⟨hpieces id, fun h => by match id with | 0 => cases h | 1 => rfl⟩⟩, fun _ _ => trivial⟩
  have hes : ∀ e ∈ [Event.readable 0 [[97]] false], Untouched 0 e := by simp [Untouched]
  obtain ⟨c', hrun, hiff⟩ := last_line_delivered (fun _ => rfl) (listening_started 0) hes rfl hadmissible
  refine ⟨c', hrun, hiff.mpr ⟨fun _ => .inr rfl, fun hnot => absurd ?_ hnot⟩⟩
  exact ⟨_, List.mem_cons_of_mem _ List.mem_cons_self, rfl⟩

/-- The text `a` is lost if the end of the output is noticed when the child exits. If it is not, a line is
followed by an empty line. -/
theorem last_line_lost :
    (run (fun _ _ => .keep) listening [exitWith [[97]] true]).map Child.trace = .ok [.exit 0 0] ∧
    ¬ LastLineOnce 0 [97] [.exit 0 0] ∧
    (run (fun _ _ => .keep) listening [exitWith [[97, 10]] false]).map Child.trace =
      .ok [.line 0 [97], .line 0 [], .exit 0 0] ∧
    ¬ LastLineOnce 0 [97, 10] [.line 0 [97], .line 0 [], .exit 0 0] := by
  refine ⟨rfl, ?_, rfl, ?_⟩
  · rintro ⟨before, exitCode, signal, heq, -, hall⟩
    have hbefore : [] ++ [Emission.exit 0 0] = before ++ [.exit exitCode signal] := heq
    obtain ⟨rfl, -⟩ := List.append_inj' hbefore rfl
    cases hall [] [97] rfl
  · rintro ⟨before, exitCode, signal, heq, -, hall⟩
    have hbefore : [.line 0 [97], .line 0 []] ++ [Emission.exit 0 0] = before ++ [.exit exitCode signal] := heq
    obtain ⟨rfl, -⟩ := List.append_inj' hbefore rfl
    cases hall [[97]] [] rfl

end Deai.ChildExit
