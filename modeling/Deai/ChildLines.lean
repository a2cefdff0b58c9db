import Deai.ChildOutput

/-!
# Lines of the output of a child process

The lines that are emitted do not depend on how the output was cut into pieces.
-/
namespace Deai.ChildLines
open Fallible FilledBuffer StringBuffer Lines ChildOutput

variable {react : List Emission → Fin 2 → Change} {id k : Fin 2} {c c' : Child}

/-! ## Emissions -/

@[simp] theorem setBuf_self (c : Child) (id : Fin 2) (buf : Option StringBuf) :
    (c.setBuf id buf).outputBuf id = buf := Function.update_self ..

@[simp] theorem setBuf_trace (c : Child) (id : Fin 2) (buf : Option StringBuf) :
    (c.setBuf id buf).trace = c.trace := rfl

theorem setBuf_of_ne (h : k ≠ id) (buf : Option StringBuf) : (c.setBuf id buf).outputBuf k = c.outputBuf k :=
  Function.update_of_ne h ..

@[simp] theorem diEmit_trace (c : Child) (e : Emission) : (diEmit react c e).trace = c.trace ++ [e] := rfl

theorem diEmit_outputBuf (c : Child) (e : Emission) (k : Fin 2) :
    (diEmit react c e).outputBuf k = (react (c.trace ++ [e]) k).apply (c.outputBuf k) := rfl

/-- The listeners of an output stay. -/
def Stays (react : List Emission → Fin 2 → Change) (k : Fin 2) : Prop := ∀ trace, react trace k = .keep

theorem Stays.diEmit (h : Stays react k) (c : Child) (e : Emission) :
    (diEmit react c e).outputBuf k = c.outputBuf k := by
  rw [diEmit_outputBuf, h]
  rfl

theorem linesOf_append (k : Fin 2) (es es' : List Emission) : linesOf k (es ++ es') = linesOf k es ++ linesOf k es' := by
  induction es with
  | nil => rfl
  | cons e es ih =>
      cases e with
      | line id text =>
          rw [List.cons_append, linesOf, linesOf, ih]
          split_ifs
          · rfl
          · rfl
      | exit exitCode signal => exact ih

theorem linesOf_self (id : Fin 2) (texts : List Bytes) : linesOf id (texts.map (.line id)) = texts := by
  induction texts with
  | nil => rfl
  | cons text texts ih =>
      rw [List.map_cons, linesOf, if_pos rfl, ih]

theorem linesOf_of_ne (h : id ≠ k) (texts : List Bytes) : linesOf k (texts.map (.line id)) = [] := by
  induction texts with
  | nil => rfl
  | cons text texts ih =>
      rw [List.map_cons, linesOf, if_neg h, ih]

/-! ## No faults -/

/-- Every buffer holds pieces without null bytes. -/
def Clean (c : Child) : Prop := ∀ id buf, c.outputBuf id = some buf → ∃ r, Holds buf r

theorem Clean.script (h : Clean c) (change : Fin 2 → Change) : Clean (c.script change) := by
  intro id buf hbuf
  change (change id).apply (c.outputBuf id) = some buf at hbuf
  cases hchange : change id with
  | keep =>
      rw [hchange] at hbuf
      exact h id buf hbuf
  | removed =>
      rw [hchange] at hbuf
      cases hbuf
  | renewed =>
      rw [hchange] at hbuf
      cases hbuf
      exact ⟨[], Holds.nil⟩

theorem Clean.diEmit (h : Clean c) (e : Emission) : Clean (diEmit react c e) := by
  unfold ChildOutput.diEmit
  exact Clean.script (c := { c with trace := c.trace ++ [e] }) h _

theorem Clean.setBuf (h : Clean c) {buf : StringBuf} {r : Bytes} (hbuf : Holds buf r) (id : Fin 2) :
    Clean (c.setBuf id (some buf)) := by
  intro k buf' hbuf'
  by_cases hk : k = id
  · subst hk
    rw [setBuf_self] at hbuf'
    cases hbuf'
    exact ⟨r, hbuf⟩
  · rw [setBuf_of_ne hk] at hbuf'
    exact h k buf' hbuf'

theorem Clean.setNone (h : Clean c) (id : Fin 2) : Clean (c.setBuf id none) := by
  intro k buf' hbuf'
  by_cases hk : k = id
  · subst hk
    rw [setBuf_self] at hbuf'
    cases hbuf'
  · rw [setBuf_of_ne hk] at hbuf'
    exact h k buf' hbuf'

/-- The text of a line is emitted behind what is in the buffer, which is empty then. -/
theorem emitLine_eq {buf : StringBuf} {r line : Bytes} (hbuf : c.outputBuf id = some buf) (hholds : Holds buf r)
    (hline : 0 ∉ line) :
    emitLine react id line c = .ok (diEmit react (c.setBuf id (some [])) (.line id (r ++ line))) := by
  unfold emitLine
  rw [hbuf]
  dsimp only
  cases buf with
  | nil =>
      have hr : r = [] := by
        obtain ⟨ts, -, hnodes, rfl⟩ := hholds
        rw [List.map_eq_nil_iff.mp hnodes.symm]
        rfl
      have hsame : c.setBuf id (some []) = c := by
        unfold Child.setBuf
        rw [← hbuf, Function.update_eq_self]
      have hempty : stringBufIsEmpty [] = true := rfl
      rw [if_pos hempty, cString_of_no_zero hline, hr, hsame, List.nil_append]
  | cons node nodes =>
      have hnew := hholds.append hline
      rw [if_neg (by simp [stringBufIsEmpty]), stringBufPush_eq hline, stringBufDump_holds hnew, ok_bind]
      dsimp only
      rw [readString_filled hnew.no_zero, ok_bind]

/-- What the handlers may do: they emit lines of one output, and leave the other one as it is. -/
structure Progress (react : List Emission → Fin 2 → Change) (id : Fin 2) (c c' : Child) : Prop where
  clean : Clean c'
  trace : ∃ texts : List Bytes, c'.trace = c.trace ++ texts.map (.line id)
  frame : ∀ k, k ≠ id → Stays react k → c'.outputBuf k = c.outputBuf k

theorem Progress.refl (h : Clean c) : Progress react id c c := ⟨h, ⟨[], by simp⟩, fun _ _ _ => rfl⟩

theorem Progress.trans {c'' : Child} (h : Progress react id c c') (h' : Progress react id c' c'') :
    Progress react id c c'' := by
  obtain ⟨texts, htexts⟩ := h.trace
  obtain ⟨texts', htexts'⟩ := h'.trace
  refine ⟨h'.clean, ⟨texts ++ texts', ?_⟩, fun k hk hstays => ?_⟩
  · rw [htexts', htexts, List.map_append, List.append_assoc]
  · rw [h'.frame k hk hstays, h.frame k hk hstays]

theorem Progress.setBuf (h : Clean c) {buf : StringBuf} {r : Bytes} (hbuf : Holds buf r) :
    Progress react id c (c.setBuf id (some buf)) :=
  ⟨h.setBuf hbuf id, ⟨[], by simp⟩, fun _ hk _ => setBuf_of_ne hk _⟩

theorem Progress.setNone (h : Clean c) : Progress react id c (c.setBuf id none) :=
  ⟨h.setNone id, ⟨[], by simp⟩, fun _ hk _ => setBuf_of_ne hk _⟩

theorem Progress.diEmit (h : Clean c) (text : Bytes) : Progress react id c (diEmit react c (.line id text)) :=
  ⟨h.diEmit _, ⟨[text], rfl⟩, fun _ _ hstays => hstays.diEmit c _⟩

variable (react) in
theorem emitLine_progress (h : Clean c) (hattached : (c.outputBuf id).isSome) {line : Bytes} (hline : 0 ∉ line) :
    ∃ c', emitLine react id line c = .ok c' ∧ Progress react id c c' := by
  obtain ⟨buf, hbuf⟩ := Option.isSome_iff_exists.mp hattached
  obtain ⟨r, hholds⟩ := h id buf hbuf
  refine ⟨_, emitLine_eq hbuf hholds hline, ?_⟩
  exact (Progress.setBuf h Holds.nil).trans (Progress.diEmit (h.setBuf Holds.nil id) _)

/-- One round of the loop. -/
theorem lineLoop_cons {fuel : ℕ} {line rest : Bytes} (hline : newline ∉ line) :
    lineLoop react id (fuel + 1) (line ++ newline :: rest) c =
      emitLine react id line c >>= fun c =>
        if (c.outputBuf id).isNone then .ok (c, true) else lineLoop react id fuel rest c := by
  have hmem : newline ∈ line ++ newline :: rest := List.mem_append_right _ List.mem_cons_self
  have heol : (line ++ newline :: rest).idxOf newline = line.length := by
    rw [List.idxOf_append_of_notMem hline, List.idxOf_cons_self, Nat.add_zero]
  have hdrop : (line ++ newline :: rest).drop (line.length + 1) = rest := by
    rw [List.drop_append, Nat.add_sub_cancel_left]
    simp
  rw [lineLoop, if_pos hmem]
  dsimp only
  rw [heol, List.take_left, hdrop]

/-- The end of the loop. -/
theorem lineLoop_last {fuel : ℕ} {buf : StringBuf} {rest : Bytes} (hbuf : c.outputBuf id = some buf)
    (hzero : 0 ∉ rest) (hrest : newline ∉ rest) :
    lineLoop react id (fuel + 1) rest c = .ok (c.setBuf id (some (buf ++ [nodeOf rest])), false) := by
  rw [lineLoop, if_neg hrest, hbuf]
  dsimp only
  rw [stringBufLpush_eq hzero]

variable (react) in
theorem lineLoop_progress (fuel : ℕ) (rest : Bytes) (hfuel : rest.length < fuel) (hzero : 0 ∉ rest) (h : Clean c)
    (hattached : (c.outputBuf id).isSome) :
    ∃ c' stopped, lineLoop react id fuel rest c = .ok (c', stopped) ∧ Progress react id c c' ∧
      (stopped = false → (c'.outputBuf id).isSome) := by
  induction fuel generalizing rest c with
  | zero => exact absurd hfuel (Nat.not_lt_zero _)
  | succ fuel ih =>
      by_cases hmem : newline ∈ rest
      · obtain ⟨line, rest', rfl, hline⟩ := List.eq_append_cons_of_mem hmem
        rw [List.mem_append, not_or] at hzero
        rw [List.length_append, List.length_cons] at hfuel
        obtain ⟨c', hc', hprogress⟩ := emitLine_progress react h hattached hzero.1
        rw [lineLoop_cons hline, hc', ok_bind]
        by_cases hgone : (c'.outputBuf id).isNone
        · rw [if_pos hgone]
          exact ⟨c', true, rfl, hprogress, nofun⟩
        · rw [if_neg hgone]
          have hsome : (c'.outputBuf id).isSome := by
            rwa [Option.isSome_iff_ne_none, ne_eq, ← Option.isNone_iff_eq_none]
          obtain ⟨c'', stopped, hrun, hprogress', hstop⟩ :=
            ih rest' (by omega) (fun hmem => hzero.2 (List.mem_cons_of_mem _ hmem)) hprogress.clean hsome
          exact ⟨c'', stopped, hrun, hprogress.trans hprogress', hstop⟩
      · obtain ⟨buf, hbuf⟩ := Option.isSome_iff_exists.mp hattached
        obtain ⟨r, hholds⟩ := h id buf hbuf
        exact ⟨_, false, lineLoop_last hbuf hzero hmem, Progress.setBuf h (hholds.append hzero), fun _ => by simp⟩

variable (react) in
theorem outputHandler_progress (eof : Bool) (pieces : List Bytes) (hpieces : Pieces pieces) (h : Clean c)
    (hattached : (c.outputBuf id).isSome) :
    ∃ c', outputHandler react id eof pieces c = .ok c' ∧ Progress react id c c' := by
  induction pieces generalizing c with
  | nil =>
      cases eof with
      | false => exact ⟨c, rfl, Progress.refl h⟩
      | true => exact ⟨_, rfl, Progress.setNone h⟩
  | cons piece pieces ih =>
      have hpiece := hpieces piece List.mem_cons_self
      obtain ⟨c', stopped, hrun, hprogress, hstop⟩ :=
        lineLoop_progress react (piece.length + 1) piece (Nat.lt_succ_self _) hpiece.2.2 h hattached
      rw [outputHandler, hrun, ok_bind]
      dsimp only
      cases stopped with
      | true => exact ⟨c', rfl, hprogress⟩
      | false =>
          obtain ⟨c'', hrun', hprogress'⟩ :=
            ih (fun p hp => hpieces p (List.mem_cons_of_mem _ hp)) hprogress.clean (hstop rfl)
          exact ⟨c'', hrun', hprogress.trans hprogress'⟩

/-! ## Lines -/

/-- The lines of a text were emitted, and the rest of it is in the buffer. -/
structure Tracks (k : Fin 2) (s : Bytes) (c : Child) (buf : StringBuf) (r : Bytes) : Prop where
  attached : c.outputBuf k = some buf
  holds : Holds buf r
  split : Split newline s (linesOf k c.trace) r

theorem emitLine_tracks (hstays : Stays react k) {s line : Bytes} {buf : StringBuf} {r : Bytes}
    (h : Tracks k s c buf r) (hzero : 0 ∉ line) (hline : newline ∉ line) :
    ∃ c', emitLine react k line c = .ok c' ∧ Tracks k (s ++ (line ++ [newline])) c' [] [] := by
  refine ⟨_, emitLine_eq h.attached h.holds hzero, ?_, Holds.nil, ?_⟩
  · rw [hstays.diEmit, setBuf_self]
  · rw [diEmit_trace, setBuf_trace, linesOf_append, ← List.append_assoc]
    have hlines : linesOf k [Emission.line k (r ++ line)] = [r ++ line] := linesOf_self k [r ++ line]
    rw [hlines]
    exact (h.split.extend hline).close

theorem lineLoop_tracks (hstays : Stays react k) (fuel : ℕ) (rest : Bytes) (hfuel : rest.length < fuel)
    (hzero : 0 ∉ rest) {s : Bytes} {buf : StringBuf} {r : Bytes} (h : Tracks k s c buf r) :
    ∃ c' buf' r', lineLoop react k fuel rest c = .ok (c', false) ∧ Tracks k (s ++ rest) c' buf' r' ∧ buf' ≠ [] := by
  induction fuel generalizing rest c s buf r with
  | zero => exact absurd hfuel (Nat.not_lt_zero _)
  | succ fuel ih =>
      by_cases hmem : newline ∈ rest
      · obtain ⟨line, rest', rfl, hline⟩ := List.eq_append_cons_of_mem hmem
        rw [List.mem_append, not_or] at hzero
        rw [List.length_append, List.length_cons] at hfuel
        obtain ⟨c', hc', htracks⟩ := emitLine_tracks hstays h hzero.1 hline
        obtain ⟨c'', buf', r', hrun, htracks', hne⟩ :=
          ih rest' (by omega) (fun hmem => hzero.2 (List.mem_cons_of_mem _ hmem)) htracks
        refine ⟨c'', buf', r', ?_, ?_, hne⟩
        · rw [lineLoop_cons hline, hc', ok_bind, if_neg (by simp [htracks.attached]), hrun]
        · have htext : s ++ (line ++ newline :: rest') = s ++ (line ++ [newline]) ++ rest' := by simp
          rw [htext]
          exact htracks'
      · refine ⟨_, buf ++ [nodeOf rest], r ++ rest, lineLoop_last h.attached hzero hmem, ?_, by simp⟩
        exact ⟨setBuf_self c k _, h.holds.append hzero, h.split.extend hmem⟩

/-- The pieces of an output are read as one text. -/
theorem outputHandler_tracks (hstays : Stays react k) (eof : Bool) (pieces : List Bytes) (hpieces : Pieces pieces)
    {s : Bytes} {buf : StringBuf} {r : Bytes} (h : Tracks k s c buf r) (hbuf : buf = [] ↔ s = []) :
    ∃ c' buf' r', outputHandler react k eof pieces c = .ok (if eof then c'.setBuf k none else c') ∧
      Tracks k (s ++ pieces.flatten) c' buf' r' ∧ (buf' = [] ↔ s ++ pieces.flatten = []) := by
  induction pieces generalizing c s buf r with
  | nil =>
      refine ⟨c, buf, r, rfl, ?_, ?_⟩
      · rw [List.flatten_nil, List.append_nil]
        exact h
      · rw [List.flatten_nil, List.append_nil]
        exact hbuf
  | cons piece pieces ih =>
      obtain ⟨hnil, -, hzero⟩ := hpieces piece List.mem_cons_self
      obtain ⟨c', buf', r', hrun, htracks, hne⟩ :=
        lineLoop_tracks hstays (piece.length + 1) piece (Nat.lt_succ_self _) hzero h
      have hbuf' : buf' = [] ↔ s ++ piece = [] := iff_of_false hne (by simp [hnil])
      obtain ⟨c'', buf'', r'', hrun', htracks', hbuf''⟩ :=
        ih (fun p hp => hpieces p (List.mem_cons_of_mem _ hp)) htracks hbuf'
      refine ⟨c'', buf'', r'', ?_, ?_, ?_⟩
      · rw [outputHandler, hrun, ok_bind]
        exact hrun'
      · rw [List.flatten_cons, ← List.append_assoc]
        exact htracks'
      · rw [List.flatten_cons, ← List.append_assoc]
        exact hbuf''

/-! ## Runs -/

/-- Nothing but lines was emitted. -/
def OnlyLines (trace : List Emission) : Prop := ∀ e ∈ trace, ∃ id text, e = .line id text

theorem OnlyLines.append {trace : List Emission} (h : OnlyLines trace) (id : Fin 2) (texts : List Bytes) :
    OnlyLines (trace ++ texts.map (Emission.line id)) := by
  intro e he
  rcases List.mem_append.mp he with he | he
  · exact h e he
  · obtain ⟨text, -, rfl⟩ := List.mem_map.mp he
    exact ⟨id, text, rfl⟩

/-- A state before the exit. -/
structure Alive (c : Child) : Prop where
  clean : Clean c
  trace : OnlyLines c.trace

theorem Alive.progress (h : Alive c) (hp : Progress react id c c') : Alive c' := by
  obtain ⟨texts, htexts⟩ := hp.trace
  refine ⟨hp.clean, ?_⟩
  rw [htexts]
  exact h.trace.append id texts

/-- The output is read, and has the text so far. -/
def Following (k : Fin 2) (s : Bytes) (c : Child) : Prop :=
  Alive c ∧ ∃ buf r, Tracks k s c buf r ∧ (buf = [] ↔ s = [])

/-- The end of the output was noticed. -/
def Ended (k : Fin 2) (s : Bytes) (c : Child) : Prop :=
  Alive c ∧ c.outputBuf k = none ∧ ∃ r, Split newline s (linesOf k c.trace) r

/-- Reading the other output changes nothing. -/
theorem linesOf_progress (hp : Progress react id c c') (hk : id ≠ k) : linesOf k c'.trace = linesOf k c.trace := by
  obtain ⟨texts, htexts⟩ := hp.trace
  rw [htexts, linesOf_append, linesOf_of_ne hk, List.append_nil]

theorem Following.progress {s : Bytes} (h : Following k s c) (hstays : Stays react k) (hp : Progress react id c c')
    (hk : id ≠ k) : Following k s c' := by
  obtain ⟨halive, buf, r, htracks, hbuf⟩ := h
  refine ⟨halive.progress hp, buf, r, ⟨?_, htracks.holds, ?_⟩, hbuf⟩
  · rw [hp.frame k hk.symm hstays, htracks.attached]
  · rw [linesOf_progress hp hk]
    exact htracks.split

theorem Ended.progress {s : Bytes} (h : Ended k s c) (hstays : Stays react k) (hp : Progress react id c c')
    (hk : id ≠ k) : Ended k s c' := by
  obtain ⟨halive, hnone, r, hsplit⟩ := h
  refine ⟨halive.progress hp, ?_, r, ?_⟩
  · rw [hp.frame k hk.symm hstays, hnone]
  · rw [linesOf_progress hp hk]
    exact hsplit

/-- An output with some text, whose end was or was not noticed. -/
def State (k : Fin 2) (noticed : Prop) (s : Bytes) (c : Child) : Prop :=
  (¬ noticed ∧ Following k s c) ∨ (noticed ∧ Ended k s c)

theorem outputHandler_state (hstays : Stays react k) (eof : Bool) {pieces : List Bytes} (hpieces : Pieces pieces)
    {s : Bytes} (h : Following k s c) :
    ∃ c', outputHandler react k eof pieces c = .ok c' ∧ State k (eof = true) (s ++ pieces.flatten) c' := by
  obtain ⟨halive, buf, r, htracks, hbuf⟩ := h
  have hattached : (c.outputBuf k).isSome := by
    rw [htracks.attached]
    rfl
  obtain ⟨c', hrun, hprogress⟩ := outputHandler_progress react eof pieces hpieces halive.clean hattached
  obtain ⟨c'', buf'', r'', hrun', htracks', hbuf'⟩ := outputHandler_tracks hstays eof pieces hpieces htracks hbuf
  have heq : c' = if eof then c''.setBuf k none else c'' := Except.ok.inj (hrun.symm.trans hrun')
  refine ⟨c', hrun, ?_⟩
  cases eof with
  | false =>
      obtain rfl : c' = c'' := heq
      exact .inl ⟨nofun, halive.progress hprogress, buf'', r'', htracks', hbuf'⟩
  | true =>
      obtain rfl : c' = c''.setBuf k none := heq
      exact .inr ⟨rfl, halive.progress hprogress, setBuf_self c'' k none, r'', htracks'.split⟩

/-- The events up to the exit; the listeners of the output are left alone. -/
def Untouched (k : Fin 2) : Event → Prop
  | .readable _ _ _ => True
  | .sigchld _ _ _ => False
  | .script change => change k = .keep

/-- The end of the output is noticed. -/
def Notices (k : Fin 2) : Event → Prop
  | .readable id _ eof => id = k ∧ eof = true
  | .sigchld _ _ eof => eof k = true
  | .script _ => False

theorem State.congr {noticed noticed' : Prop} {s : Bytes} (h : State k noticed s c) (hiff : noticed' ↔ noticed) :
    State k noticed' s c := by
  rwa [State, hiff]

theorem State.script {noticed : Prop} {s : Bytes} (h : State k noticed s c) {change : Fin 2 → Change}
    (hkeep : change k = .keep) : State k noticed s (c.script change) := by
  have hsame : (c.script change).outputBuf k = c.outputBuf k := by
    change (change k).apply (c.outputBuf k) = c.outputBuf k
    rw [hkeep]
    rfl
  rcases h with ⟨hnot, halive, buf, r, htracks, hbuf⟩ | ⟨hyes, halive, hnone, hsplit⟩
  · exact .inl ⟨hnot, ⟨halive.clean.script change, halive.trace⟩, buf, r,
      ⟨hsame.trans htracks.attached, htracks.holds, htracks.split⟩, hbuf⟩
  · exact .inr ⟨hyes, ⟨halive.clean.script change, halive.trace⟩, hsame.trans hnone, hsplit⟩

theorem State.clean {noticed : Prop} {s : Bytes} (h : State k noticed s c) : Clean c := by
  rcases h with ⟨-, halive, -⟩ | ⟨-, halive, -⟩
  · exact halive.clean
  · exact halive.clean

theorem State.progress {noticed : Prop} {s : Bytes} (h : State k noticed s c) (hstays : Stays react k)
    (hp : Progress react id c c') (hk : id ≠ k) : State k noticed s c' := by
  rcases h with ⟨hnot, h⟩ | ⟨hyes, h⟩
  · exact .inl ⟨hnot, h.progress hstays hp hk⟩
  · exact .inr ⟨hyes, h.progress hstays hp hk⟩

/-- One event before the exit. -/
theorem step_state (hstays : Stays react k) {noticed : Prop} {s : Bytes} (h : State k noticed s c) {e : Event}
    (he : Untouched k e) (henabled : Enabled c e) :
    ∃ c', step react c e = .ok c' ∧ State k (noticed ∨ Notices k e) (s ++ e.bytes k) c' := by
  cases e with
  | sigchld rstatus pieces eof => exact he.elim
  | script change =>
      refine ⟨_, rfl, ?_⟩
      rw [Event.bytes, List.append_nil]
      exact (h.script he).congr (by simp [Notices])
  | readable id pieces eof =>
      obtain ⟨hattached, hpieces⟩ := henabled
      have hcb : step react c (.readable id pieces eof) = outputHandler react id eof pieces c := by
        unfold step outputCb
        dsimp only
        rw [if_neg]
        rw [Option.isNone_iff_eq_none]
        exact Option.isSome_iff_ne_none.mp hattached
      rw [hcb]
      by_cases hk : id = k
      · subst hk
        rcases h with ⟨hnot, hfollowing⟩ | ⟨-, -, hnone, -⟩
        · obtain ⟨c', hrun, hstate⟩ := outputHandler_state hstays eof hpieces hfollowing
          refine ⟨c', hrun, ?_⟩
          rw [Event.bytes, if_pos rfl]
          exact hstate.congr (by simp [Notices, hnot])
        · rw [hnone] at hattached
          cases hattached
      · obtain ⟨c', hrun, hprogress⟩ := outputHandler_progress react eof pieces hpieces h.clean hattached
        refine ⟨c', hrun, ?_⟩
        rw [Event.bytes, if_neg hk, List.append_nil]
        exact (h.progress hstays hprogress hk).congr (by simp [Notices, hk])

/-- All events before the exit. -/
theorem run_state (hstays : Stays react k) {noticed : Prop} {s : Bytes} (h : State k noticed s c) {es : List Event}
    (hes : ∀ e ∈ es, Untouched k e) (hadmissible : Admissible react c es) :
    ∃ c', run react c es = .ok c' ∧ State k (noticed ∨ ∃ e ∈ es, Notices k e) (s ++ stream k es) c' := by
  induction es generalizing c noticed s with
  | nil =>
      refine ⟨c, rfl, ?_⟩
      rw [stream, List.flatMap_nil, List.append_nil]
      exact h.congr (by simp)
  | cons e es ih =>
      obtain ⟨c', hstep, hstate⟩ := step_state hstays h (hes e List.mem_cons_self) hadmissible.1
      obtain ⟨c'', hrun, hstate'⟩ :=
        ih hstate (fun e' he' => hes e' (List.mem_cons_of_mem _ he')) (hadmissible.2 c' hstep)
      refine ⟨c'', ?_, ?_⟩
      · rw [run, hstep, ok_bind, hrun]
      · rw [stream, List.flatMap_cons, ← List.append_assoc]
        exact hstate'.congr (by simp [or_assoc])

/-- Nothing was read yet, and somebody listens to the output. -/
structure Started (k : Fin 2) (c : Child) : Prop where
  attached : c.outputBuf k = some []
  others : ∀ id, c.outputBuf id = none ∨ c.outputBuf id = some []
  trace : c.trace = []

theorem Started.state (h : Started k c) : State k False [] c := by
  refine .inl ⟨id, ⟨fun id buf hbuf => ?_, ?_⟩, [], [], ⟨h.attached, Holds.nil, ?_⟩, by simp⟩
  · rcases h.others id with hnone | hnew
    · rw [hnone] at hbuf
      cases hbuf
    · rw [hnew] at hbuf
      cases hbuf
      exact ⟨[], Holds.nil⟩
  · rw [h.trace]
    nofun
  · rw [h.trace]
    exact Split.nil

/-- While the listeners stay, the lines that were emitted and what is in the buffer are the text that was
read, split at its line breaks. -/
theorem lines_emitted (hstays : Stays react k) (hc : Started k c) {es : List Event}
    (hes : ∀ e ∈ es, Untouched k e ∧ ¬ Notices k e) (hadmissible : Admissible react c es) :
    ∃ c' buf, run react c es = .ok c' ∧ c'.outputBuf k = some buf ∧
      (stream k es).splitOn newline = linesOf k c'.trace ++ [contents buf] := by
  obtain ⟨c', hrun, hstate⟩ := run_state hstays hc.state (fun e he => (hes e he).1) hadmissible
  rcases hstate with ⟨-, -, buf, r, htracks, -⟩ | ⟨hnoticed, -⟩
  · refine ⟨c', buf, hrun, htracks.attached, ?_⟩
    rw [htracks.holds.contents_eq]
    exact htracks.split.splitOn
  · obtain ⟨e, he, hnotices⟩ := hnoticed.resolve_left id
    exact absurd hnotices (hes e he).2

/-- A child whose outputs both have listeners. -/
def listening : Child := ⟨fun _ => some [], true, []⟩

theorem listening_started (k : Fin 2) : Started k listening := ⟨rfl, fun _ => .inr rfl, rfl⟩

/-- The text `hi`, a line break, `a` and a line break, in three pieces. -/
theorem lines_emitted_pieces :
    ∃ c' buf, run (fun _ _ => .keep) listening
        [.readable 0 [[104], [105, 10, 97]] false, .readable 0 [[10]] false] = .ok c' ∧
      c'.outputBuf 0 = some buf ∧
      (stream 0 [.readable 0 [[104], [105, 10, 97]] false, .readable 0 [[10]] false]).splitOn newline =
        linesOf 0 c'.trace ++ [contents buf] := by
  refine lines_emitted (fun _ => rfl) (listening_started 0) ?_ ?_
  · intro e he
    simp only [List.mem_cons, List.not_mem_nil, or_false] at he
    rcases he with rfl | rfl
    · exact ⟨trivial, fun h => nomatch h.2⟩
    · exact ⟨trivial, fun h => nomatch h.2⟩
  · refine ⟨⟨rfl, by unfold Pieces; decide⟩, fun c' h => ?_⟩
    cases h
    exact ⟨⟨rfl, by unfold Pieces; decide⟩, fun _ _ => trivial⟩

end Deai.ChildLines
