import Deai.Fallible
import Deai.FileWatch

/-!
# File events

`di_file_ioev` of the module `file`. One read gives a buffer of events; each is looked up by its
descriptor, and every bit of its mask emits a signal with the path of the entry. The handlers are
user code, which may add and remove watches, also the one whose event is delivered.
-/
namespace Deai.FileEvents
open Fallible FileWatch

/-! ## The buffer -/

/-- An event of inotify. The name has its padding. -/
structure Event where
  wd : UInt32
  mask : UInt32
  cookie : UInt32
  name : List UInt8
  short : name.length < 2 ^ 32

def bytes32 (w : UInt32) : List UInt8 :=
  [.ofNat (w.toNat % 256), .ofNat (w.toNat / 2 ^ 8 % 256), .ofNat (w.toNat / 2 ^ 16 % 256),
    .ofNat (w.toNat / 2 ^ 24 % 256)]

/-- `struct inotify_event`, as the kernel writes it. -/
def encode (ev : Event) : List UInt8 :=
  bytes32 ev.wd ++ bytes32 ev.mask ++ bytes32 ev.cookie ++
    bytes32 (.ofNat ev.name.length) ++ ev.name

def word32 (b : List UInt8) (off : ℕ) : UInt32 :=
  .ofNat ((b.getD off 0).toNat + (b.getD (off + 1) 0).toNat * 2 ^ 8 +
    (b.getD (off + 2) 0).toNat * 2 ^ 16 + (b.getD (off + 3) 0).toNat * 2 ^ 24)

/-- The event at an offset: 16 bytes, and `len` bytes behind them. -/
def eventAt (buf : List UInt8) (off : ℕ) : Event where
  wd := word32 buf off
  mask := word32 buf (off + 4)
  cookie := word32 buf (off + 8)
  name := (buf.drop (off + 16)).take (word32 buf (off + 12)).toNat
  short := (List.length_take_le _ _).trans_lt (UInt32.toNat_lt _)

/-! ## The delivery -/

/-- A call of a handler: whether it reads its arguments, and what it does with the watch. -/
structure Call where
  readsArguments : Bool
  ops : List Op

/-- The calls of the handlers, for each event of the buffer and each signal. A signal that nobody
listens to has none. -/
abbrev Behaviour := ℕ → String → List Call

/-- The masks with their signals; the last two pass the cookie too. -/
def signals : List (UInt32 × String × Bool) :=
  [(0x100, "create", false), (0x1, "access", false), (0x4, "attrib", false),
    (0x8, "close-write", false), (0x10, "close-nowrite", false), (0x200, "delete", false),
    (0x400, "delete-self", false), (0x2, "modify", false), (0x800, "move-self", false),
    (0x20, "open", false), (0x40, "moved-from", true), (0x80, "moved-to", true)]

structure Emission where
  signal : String
  fname : String
  path : List UInt8
  cookie : Option UInt32

/-- The watch entry or its file name is used after it has been freed. -/
inductive Failure where
  | freed
  deriving DecidableEq

structure Delivery where
  watch : State
  -- history
  parsed : List Event := []
  emitted : List Emission := []

/-- The entry, or its file name, is read. -/
def useEntry (we : Entry) (d : Delivery) : Except Failure Unit :=
  if we ∈ d.watch.byname then .ok () else .error .freed

/-- `di_call_object_catch` on a handler. The file name is passed as a pointer. -/
def callHandler (F : HashFind) (we : Entry) (d : Delivery) (c : Call) :
    Except Failure Delivery := do
  if c.readsArguments then useEntry we d
  .ok {d with watch := c.ops.foldl (fun s a => (exec F s a).2) d.watch}

/-- `di_emit`. -/
def emit (F : HashFind) (B : Behaviour) (i : ℕ) (we : Entry) (ev : Event) (d : Delivery)
    (x : UInt32 × String × Bool) : Except Failure Delivery := do
  if ev.mask &&& x.1 = 0 then .ok d
  else
    useEntry we d
    let path := ev.name.takeWhile (· ≠ 0)
    let e := ⟨x.2.1, we.fname, path, if x.2.2 then some ev.cookie else none⟩
    (B i x.2.1).foldlM (callHandler F we) {d with emitted := d.emitted ++ [e]}

def deliver (F : HashFind) (B : Behaviour) (i : ℕ) (ev : Event) (d : Delivery) :
    Except Failure Delivery :=
  let d := {d with parsed := d.parsed ++ [ev]}
  match F.find (fun e => e.wd = ev.wd) d.watch.bywd with
  | none => .ok d
  | some we => signals.foldlM (emit F B i we ev) d

/-- The loop over the buffer. -/
def loop (F : HashFind) (B : Behaviour) (buf : List UInt8) (i off : ℕ) (d : Delivery) :
    Except Failure Delivery :=
  if off < buf.length then do
    let d ← deliver F B i (eventAt buf off) d
    loop F B buf (i + 1) (off + 16 + (word32 buf (off + 12)).toNat) d
  else .ok d
termination_by buf.length - off

/-- `read` gives a buffer, or nothing when it fails. -/
def diFileIoev (F : HashFind) (B : Behaviour) (read : Option (List UInt8)) (s : State) :
    Except Failure Delivery :=
  match read with
  | none => .ok {watch := s}
  | some buf => loop F B buf 0 0 {watch := s}

/-! ## The steps of a delivery -/

/-- The entry of the event is used, or a handler calls a function of the watch. -/
inductive Step where
  | use
  | act (a : Op)

def callSteps (c : Call) : List Step :=
  (if c.readsArguments then [.use] else []) ++ c.ops.map .act

/-- All steps of an event: for each of its bits the file name is read, and then the handlers of the
signal are called. -/
def steps (B : Behaviour) (i : ℕ) (ev : Event) : List Step :=
  (signals.filter fun x => ev.mask &&& x.1 ≠ 0).flatMap fun x =>
    .use :: (B i x.2.1).flatMap callSteps

def after (F : HashFind) (s : State) : Step → State
  | .use => s
  | .act a => (exec F s a).2

/-- The call removes the entry. -/
def Frees (F : HashFind) (we : Entry) (s : State) : Op → Prop
  | .remove (some path) => F.find (fun e => e.fname = path) s.byname = some we
  | _ => False

/-- Nothing uses the entry behind a call that removes it. -/
def UnusedAfterwards (F : HashFind) (we : Entry) : List Step → State → Prop
  | [], _ => True
  | .use :: l, s => UnusedAfterwards F we l s
  | .act a :: l, s => (Frees F we s a → .use ∉ l) ∧ UnusedAfterwards F we l (exec F s a).2

/-- For each event of the buffer: when a handler removes the path of the event, it is called for
the last bit of the mask, and no later handler reads its arguments. -/
def LastRemoves (F : HashFind) (B : Behaviour) : ℕ → List Event → State → Prop
  | _, [], _ => True
  | i, ev :: events, s =>
      match F.find (fun e => e.wd = ev.wd) s.bywd with
      | none => LastRemoves F B (i + 1) events s
      | some we => UnusedAfterwards F we (steps B i ev) s ∧
          LastRemoves F B (i + 1) events ((steps B i ev).foldl (after F) s)

/-! ## Parsing -/

theorem toNat_bytes (n : ℕ) (h : n < 2 ^ 32) :
    (UInt8.ofNat (n % 256)).toNat + (UInt8.ofNat (n / 2 ^ 8 % 256)).toNat * 2 ^ 8 +
      (UInt8.ofNat (n / 2 ^ 16 % 256)).toNat * 2 ^ 16 +
      (UInt8.ofNat (n / 2 ^ 24 % 256)).toNat * 2 ^ 24 = n := by
  simp only [UInt8.toNat_ofNat']
  omega

/-- A word that lies somewhere in a buffer is read back. -/
theorem word32_bytes32 (pre rest : List UInt8) (w : UInt32) {off : ℕ} (h : off = pre.length) :
    word32 (pre ++ (bytes32 w ++ rest)) off = w := by
  subst h
  have hbyte : ∀ k, (pre ++ (bytes32 w ++ rest)).getD (pre.length + k) 0 =
      (bytes32 w ++ rest).getD k 0 := by
    intro k
    rw [List.getD_eq_getElem?_getD, List.getElem?_append_right (Nat.le_add_right _ _),
      Nat.add_sub_cancel_left, List.getD_eq_getElem?_getD]
  have hzero := hbyte 0
  rw [Nat.add_zero] at hzero
  rw [word32, hzero, hbyte, hbyte, hbyte]
  change UInt32.ofNat ((UInt8.ofNat _).toNat + (UInt8.ofNat _).toNat * 2 ^ 8 +
    (UInt8.ofNat _).toNat * 2 ^ 16 + (UInt8.ofNat _).toNat * 2 ^ 24) = w
  rw [toNat_bytes _ w.toNat_lt]
  exact UInt32.ofNat_toNat

theorem length_encode (ev : Event) : (encode ev).length = 16 + ev.name.length := by
  simp only [encode, bytes32, List.length_append, List.length_cons, List.length_nil]

section
variable (pre rest : List UInt8) (ev : Event)

theorem lengthAt_encode :
    (word32 (pre ++ (encode ev ++ rest)) (pre.length + 12)).toNat = ev.name.length := by
  have hsplit : pre ++ (encode ev ++ rest) =
      (pre ++ (bytes32 ev.wd ++ bytes32 ev.mask ++ bytes32 ev.cookie)) ++
        (bytes32 (.ofNat ev.name.length) ++ (ev.name ++ rest)) := by
    simp only [encode, List.append_assoc]
  rw [hsplit, word32_bytes32 _ _ _ (by simp [bytes32])]
  exact UInt32.toNat_ofNat_of_lt' ev.short

/-- The event at its offset is the one that the kernel wrote. -/
theorem eventAt_encode : eventAt (pre ++ (encode ev ++ rest)) pre.length = ev := by
  have hwd : word32 (pre ++ (encode ev ++ rest)) pre.length = ev.wd := by
    simp only [encode, List.append_assoc]
    exact word32_bytes32 _ _ _ rfl
  have hmask : word32 (pre ++ (encode ev ++ rest)) (pre.length + 4) = ev.mask := by
    have hsplit : pre ++ (encode ev ++ rest) = (pre ++ bytes32 ev.wd) ++ (bytes32 ev.mask ++
        (bytes32 ev.cookie ++ bytes32 (.ofNat ev.name.length) ++ ev.name ++ rest)) := by
      simp only [encode, List.append_assoc]
    rw [hsplit, word32_bytes32 _ _ _ (by simp [bytes32])]
  have hcookie : word32 (pre ++ (encode ev ++ rest)) (pre.length + 8) = ev.cookie := by
    have hsplit : pre ++ (encode ev ++ rest) = (pre ++ (bytes32 ev.wd ++ bytes32 ev.mask)) ++
        (bytes32 ev.cookie ++ (bytes32 (.ofNat ev.name.length) ++ ev.name ++ rest)) := by
      simp only [encode, List.append_assoc]
    rw [hsplit, word32_bytes32 _ _ _ (by simp [bytes32])]
  have hname : ((pre ++ (encode ev ++ rest)).drop (pre.length + 16)).take ev.name.length =
      ev.name := by
    have hsplit : pre ++ (encode ev ++ rest) = (pre ++ (bytes32 ev.wd ++ bytes32 ev.mask ++
        bytes32 ev.cookie ++ bytes32 (.ofNat ev.name.length))) ++ (ev.name ++ rest) := by
      simp only [encode, List.append_assoc]
    rw [hsplit, List.drop_left' (by simp [bytes32]), List.take_left]
  obtain ⟨wd, mask, cookie, name, short⟩ := ev
  simp only [eventAt, hwd, hmask, hcookie, lengthAt_encode, hname]

end

/-! ## Running the steps -/

def runSteps (F : HashFind) (we : Entry) : List Step → State → Except Failure State
  | [], s => .ok s
  | .use :: l, s => if we ∈ s.byname then runSteps F we l s else .error .freed
  | .act a :: l, s => runSteps F we l (exec F s a).2

/-- The emissions of an event, when no use fails. -/
def emissions (we : Entry) (ev : Event) : List Emission :=
  (signals.filter fun x => ev.mask &&& x.1 ≠ 0).map fun x =>
    ⟨x.2.1, we.fname, ev.name.takeWhile (· ≠ 0), if x.2.2 then some ev.cookie else none⟩

section
variable {F : HashFind} {B : Behaviour} {we : Entry} {s s' : State}

theorem runSteps_append (l₁ l₂ : List Step) (s : State) :
    runSteps F we (l₁ ++ l₂) s = runSteps F we l₁ s >>= runSteps F we l₂ := by
  induction l₁ generalizing s with
  | nil => rfl
  | cons x l₁ ih =>
      cases x with
      | use =>
          simp only [List.cons_append, runSteps]
          split_ifs
          · exact ih s
          · rfl
      | act a => exact ih _

theorem runSteps_acts (we : Entry) (ops : List Op) (s : State) :
    runSteps F we (ops.map .act) s = .ok (ops.foldl (fun s a => (exec F s a).2) s) := by
  induction ops generalizing s with
  | nil => rfl
  | cons a ops ih => exact ih _

theorem callHandler_eq (d : Delivery) (c : Call) :
    callHandler F we d c =
      (runSteps F we (callSteps c) d.watch).map fun s => {d with watch := s} := by
  have hacts := congrArg (Except.map fun s => {d with watch := s}) (runSteps_acts (F := F)
    we c.ops d.watch)
  by_cases hreads : c.readsArguments = true
  · simp only [callHandler, callSteps, if_pos hreads, List.singleton_append, runSteps, useEntry]
    by_cases hmem : we ∈ d.watch.byname
    · rw [if_pos hmem, if_pos hmem]
      exact hacts.symm
    · rw [if_neg hmem, if_neg hmem]
      rfl
  · simp only [callHandler, callSteps, if_neg hreads, List.nil_append]
    exact hacts.symm

theorem callHandlers_eq (l : List Call) (d : Delivery) :
    l.foldlM (callHandler F we) d =
      (runSteps F we (l.flatMap callSteps) d.watch).map fun s => {d with watch := s} := by
  induction l generalizing d with
  | nil => rfl
  | cons c l ih =>
      rw [List.foldlM_cons, callHandler_eq, List.flatMap_cons, runSteps_append]
      cases runSteps F we (callSteps c) d.watch with
      | error e => rfl
      | ok s => exact ih _

/-- The signals of an event run its steps. -/
theorem emitAll_eq (i : ℕ) (ev : Event) (l : List (UInt32 × String × Bool)) (d : Delivery) :
    l.foldlM (emit F B i we ev) d =
      (runSteps F we ((l.filter fun x => ev.mask &&& x.1 ≠ 0).flatMap fun x =>
        .use :: (B i x.2.1).flatMap callSteps) d.watch).map fun s =>
          {d with
            watch := s
            emitted := d.emitted ++ (l.filter fun x => ev.mask &&& x.1 ≠ 0).map fun x =>
              ⟨x.2.1, we.fname, ev.name.takeWhile (· ≠ 0),
                if x.2.2 then some ev.cookie else none⟩} := by
  induction l generalizing d with
  | nil => simp [runSteps, Except.map, pure, Except.pure]
  | cons x l ih =>
      rw [List.foldlM_cons, emit]
      by_cases hbit : ev.mask &&& x.1 = 0
      · rw [if_pos hbit, List.filter_cons_of_neg (by simpa using hbit)]
        exact ih d
      · rw [if_neg hbit, List.filter_cons_of_pos (by simpa using hbit), List.flatMap_cons,
          List.cons_append, useEntry, runSteps]
        by_cases hmem : we ∈ d.watch.byname
        · rw [if_pos hmem, if_pos hmem]
          change (B i x.2.1).foldlM (callHandler F we) _ >>= _ = _
          rw [callHandlers_eq, runSteps_append]
          cases runSteps F we ((B i x.2.1).flatMap callSteps) d.watch with
          | error e => rfl
          | ok s =>
              refine (ih _).trans ?_
              rw [List.map_cons, ok_bind]
              simp only [List.append_assoc, List.singleton_append]
        · rw [if_neg hmem, if_neg hmem]
          rfl

theorem deliver_eq (i : ℕ) (ev : Event) (d : Delivery) :
    deliver F B i ev d =
      match F.find (fun e => e.wd = ev.wd) d.watch.bywd with
      | none => .ok {d with parsed := d.parsed ++ [ev]}
      | some we => (runSteps F we (steps B i ev) d.watch).map fun s =>
          ⟨s, d.parsed ++ [ev], d.emitted ++ emissions we ev⟩ := by
  simp only [deliver]
  cases F.find (fun e => e.wd = ev.wd) d.watch.bywd with
  | none => rfl
  | some we => exact emitAll_eq i ev signals _

/-! ## Uses of a freed entry -/

/-- An entry that exists stays unless it is freed, and one that was freed does not come back, since
the entries of an addition are new. -/
structure Keeps (we : Entry) (s s' : State) : Prop where
  mem : we ∈ s'.byname ↔ we ∈ s.byname
  created : s.created ≤ s'.created

theorem keeps_addWatch (path : Option String) (x : Option Target) (hid : we.id < s.created) :
    Keeps we s (diFileAddWatch path x s).2 := by
  rcases addWatch_cases path x s with ⟨-, hsame⟩ | ⟨p, t, wd, active, -, -, -, -, hrun⟩
  · rw [hsame]
    exact ⟨Iff.rfl, le_rfl⟩
  · rw [hrun]
    refine ⟨?_, Nat.le_succ _⟩
    simp only [added, List.mem_append, List.mem_singleton, or_iff_left_iff_imp]
    rintro rfl
    exact absurd hid (lt_irrefl _)

theorem keeps_addAll (l : List (Option String × Option Target)) (hid : we.id < s.created) :
    Keeps we s (addAll l s).2 := by
  induction l generalizing s with
  | nil => exact ⟨Iff.rfl, le_rfl⟩
  | cons q rest ih =>
      obtain ⟨path, x⟩ := q
      have hfirst := keeps_addWatch path x hid
      simp only [addAll]
      split_ifs
      · exact hfirst
      · have hrest := ih (hid.trans_le hfirst.created)
        exact ⟨hrest.mem.trans hfirst.mem, hfirst.created.trans hrest.created⟩

/-- What a call of a handler does to an entry that has been allocated. -/
theorem exec_mem_iff (h : Linked s) (hid : we.id < s.created) (a : Op) :
    (we ∈ (exec F s a).2.byname ↔ we ∈ s.byname ∧ ¬ Frees F we s a) ∧
      s.created ≤ (exec F s a).2.created := by
  have hkeeps : ∀ {s'}, Keeps we s s' →
      (we ∈ s'.byname ↔ we ∈ s.byname ∧ ¬ False) ∧ s.created ≤ s'.created :=
    fun hk => ⟨by rw [hk.mem, not_false_eq_true, and_true], hk.created⟩
  have hsame : Keeps we s s := ⟨Iff.rfl, le_rfl⟩
  cases a with
  | addOne path x => exact hkeeps (keeps_addWatch path x hid)
  | add paths =>
      cases paths with
      | strings l => exact hkeeps (keeps_addAll l hid)
      | literals l => exact hkeeps (keeps_addAll _ hid)
      | other elemType n =>
          simp only [exec, diFileAddManyWatch]
          split_ifs
          · exact hkeeps hsame
          · exact hkeeps hsame
  | remove path =>
      cases path with
      | none => exact hkeeps hsame
      | some p =>
          simp only [exec, diFileRmWatch, Frees]
          cases hfind : F.find (fun e => e.fname = p) s.byname with
          | none => simp
          | some we' =>
              refine ⟨?_, le_rfl⟩
              change we ∈ s.byname.erase we' ↔ _
              rw [h.nodup.of_map.mem_erase_iff, Option.some.injEq, and_comm, ne_comm]

theorem UnusedAfterwards.of_gone (h : Linked s) (hid : we.id < s.created) (hgone : we ∉ s.byname)
    (l : List Step) : UnusedAfterwards F we l s := by
  induction l generalizing s with
  | nil => trivial
  | cons x l ih =>
      cases x with
      | use => exact ih h hid hgone
      | act a =>
          obtain ⟨hmem, hcreated⟩ := exec_mem_iff (F := F) h hid a
          refine ⟨fun hfrees => ?_, ih (h.exec a) (hid.trans_le hcreated) fun hin =>
            hgone (hmem.mp hin).1⟩
          cases a with
          | remove path =>
              cases path with
              | none => exact hfrees.elim
              | some p => exact absurd (F.found hfrees).1 hgone
          | addOne path x => exact hfrees.elim
          | add paths => exact hfrees.elim

/-- Once the entry is gone, there must be no use. -/
theorem runSteps_of_gone (h : Linked s) (hid : we.id < s.created) (hgone : we ∉ s.byname)
    (l : List Step) : runSteps F we l s = .ok s' ↔ .use ∉ l ∧ s' = l.foldl (after F) s := by
  induction l generalizing s with
  | nil => simp [runSteps, eq_comm]
  | cons x l ih =>
      cases x with
      | use => simp [runSteps, hgone]
      | act a =>
          obtain ⟨hmem, hcreated⟩ := exec_mem_iff (F := F) h hid a
          rw [runSteps, ih (h.exec a) (hid.trans_le hcreated) fun hin => hgone (hmem.mp hin).1]
          simp [after]

/-- The steps go through if and only if nothing uses the entry after it has been removed. -/
theorem runSteps_eq_ok_iff (h : Linked s) (hin : we ∈ s.byname) (l : List Step) :
    runSteps F we l s = .ok s' ↔ UnusedAfterwards F we l s ∧ s' = l.foldl (after F) s := by
  induction l generalizing s with
  | nil => simp [runSteps, UnusedAfterwards, eq_comm]
  | cons x l ih =>
      cases x with
      | use =>
          rw [runSteps, if_pos hin]
          exact ih h hin
      | act a =>
          have hid := h.bound we hin
          obtain ⟨hmem, hcreated⟩ := exec_mem_iff (F := F) h hid a
          rw [runSteps, UnusedAfterwards, List.foldl_cons]
          by_cases hfrees : Frees F we s a
          · have hgone : we ∉ (exec F s a).2.byname := fun hin' => (hmem.mp hin').2 hfrees
            have hrest := UnusedAfterwards.of_gone (F := F) (h.exec a) (hid.trans_le hcreated)
              hgone l
            rw [runSteps_of_gone (h.exec a) (hid.trans_le hcreated) hgone]
            simp only [hfrees, hrest, forall_const, and_true]
            rfl
          · rw [ih (h.exec a) (hmem.mpr ⟨hin, hfrees⟩)]
            simp only [hfrees, false_implies, true_and]
            rfl

theorem linked_after (h : Linked s) (l : List Step) : Linked (l.foldl (after F) s) := by
  induction l generalizing s with
  | nil => exact h
  | cons x l ih =>
      cases x with
      | use => exact ih h
      | act a => exact ih (h.exec a)

/-! ## The whole buffer -/

def deliverAll (F : HashFind) (B : Behaviour) : ℕ → List Event → Delivery →
    Except Failure Delivery
  | _, [], d => .ok d
  | i, ev :: events, d => do
      let d ← deliver F B i ev d
      deliverAll F B (i + 1) events d

/-- The loop parses each event of the buffer once. -/
theorem loop_eq (pre : List UInt8) (events : List Event) (i : ℕ) (d : Delivery) :
    loop F B (pre ++ events.flatMap encode) i pre.length d = deliverAll F B i events d := by
  induction events generalizing pre i d with
  | nil =>
      rw [loop, if_neg (by simp)]
      rfl
  | cons ev events ih =>
      rw [List.flatMap_cons, loop, if_pos (by simp [length_encode]), eventAt_encode,
        lengthAt_encode, deliverAll]
      congr 1
      funext d'
      have hpre := ih (pre ++ encode ev) (i + 1) d'
      rwa [List.append_assoc, List.length_append, length_encode, ← Nat.add_assoc] at hpre

theorem deliverAll_iff {d : Delivery} (h : Linked d.watch) (i : ℕ) (events : List Event) :
    (∃ d', deliverAll F B i events d = .ok d' ∧ d'.parsed = d.parsed ++ events) ↔
      LastRemoves F B i events d.watch := by
  induction events generalizing i d with
  | nil => simp [deliverAll, LastRemoves]
  | cons ev events ih =>
      rw [deliverAll, LastRemoves, deliver_eq]
      cases hfind : F.find (fun e => e.wd = ev.wd) d.watch.bywd with
      | none =>
          have hrest := ih (d := {d with parsed := d.parsed ++ [ev]}) h (i + 1)
          simp only [List.append_assoc, List.singleton_append] at hrest
          exact hrest
      | some we =>
          have hin : we ∈ d.watch.byname := h.tables ▸ (F.found hfind).1
          simp only
          cases hrun : runSteps F we (steps B i ev) d.watch with
          | error e =>
              refine iff_of_false ?_ fun hall => ?_
              · rintro ⟨d', hd, -⟩
                cases hd
              · rw [(runSteps_eq_ok_iff h hin _).mpr ⟨hall.1, rfl⟩] at hrun
                cases hrun
          | ok s =>
              obtain ⟨hunused, rfl⟩ := (runSteps_eq_ok_iff h hin _).mp hrun
              have hrest := ih (d := ⟨(steps B i ev).foldl (after F) d.watch, d.parsed ++ [ev],
                d.emitted ++ emissions we ev⟩) (linked_after h _) (i + 1)
              simp only [List.append_assoc, List.singleton_append] at hrest
              rw [and_iff_right hunused]
              exact hrest

/-- After any calls, for each buffer of events and all handlers: every event is parsed once and no
entry is used after it was freed, if and only if the removals come last. -/
theorem delivery_survives_iff {l : List (Op × State)} (h : Run F l s) (events : List Event) :
    (∃ d, diFileIoev F B (some (events.flatMap encode)) s = .ok d ∧ d.parsed = events) ↔
      LastRemoves F B 0 events s := by
  have hall := deliverAll_iff (F := F) (B := B) (d := {watch := s}) h.linked 0 events
  rw [← loop_eq []] at hall
  exact hall

end

/-- A modification of the file with the descriptor 1. -/
def modified : Event := ⟨1, 0x2, 0, [], by decide⟩

/-- Only one signal has handlers. -/
def handlersOf (signal : String) (l : List Call) : Behaviour :=
  fun _ name => if name = signal then l else []

/-- The path is removed by the handler that is called last. -/
theorem delivery_survives_removal : ∃ l s d, Run firstFound l s ∧
    diFileIoev firstFound (handlersOf "modify" [⟨true, []⟩, ⟨true, [.remove (some "a")]⟩])
      (some ([modified, modified].flatMap encode)) s = .ok d ∧
    d.parsed = [modified, modified] := by
  have hrun := (Run.init (F := firstFound)).step (.addOne (some "a") (some ⟨1, 1⟩))
  obtain ⟨d, hd⟩ := (delivery_survives_iff (B := handlersOf "modify" [⟨true, []⟩,
    ⟨true, [.remove (some "a")]⟩]) hrun [modified, modified]).mpr
      ⟨⟨fun _ => List.not_mem_nil, trivial⟩, trivial⟩
  exact ⟨_, _, d, hrun, hd⟩

/-- The first handler removes the path, and the second one reads it. With two bits in the mask, one
handler is enough. -/
theorem freed_entry_used : ∃ l s, Run firstFound l s ∧
    diFileIoev firstFound (handlersOf "modify" [⟨false, [.remove (some "a")]⟩, ⟨true, []⟩])
      (some ([modified].flatMap encode)) s = .error .freed ∧
    diFileIoev firstFound (handlersOf "access" [⟨true, [.remove (some "a")]⟩])
      (some ([{modified with mask := 0x3}].flatMap encode)) s = .error .freed := by
  have hrun := (Run.init (F := firstFound)).step (.addOne (some "a") (some ⟨1, 1⟩))
  refine ⟨_, _, hrun, ?_, ?_⟩
  · exact (loop_eq [] [modified] 0 _).trans rfl
  · exact (loop_eq [] [{modified with mask := 0x3}] 0 _).trans rfl

end Deai.FileEvents
