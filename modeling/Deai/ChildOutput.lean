import Deai.Lines
import Deai.StringBuffer
import Mathlib.Data.Fintype.Basic

/-!
# The output of a child process

`spawn.c` reads the output of a child process in pieces and emits a signal for every line. What comes
after the last line break of a piece is kept in a string buffer. The buffer is there as long as the
signal has listeners; at the end of the output the signal is deleted, and the buffer with it. When
the child has exited the rest of the output is read, and what is in the buffer is emitted.
-/
namespace Deai.ChildOutput
open Fallible FilledBuffer StringBuffer Lines

def newline : UInt8 := 10

/-- What a child process emits: lines of its two outputs, and its exit. -/
inductive Emission where
  | line (id : Fin 2) (text : Bytes)
  | exit (exitCode signal : ℕ)
  deriving DecidableEq

/-- A `struct child`: the buffers, which are null pointers for outputs that nobody listens to, and what
was emitted. -/
structure Child where
  outputBuf : Fin 2 → Option StringBuf
  exitSignal : Bool
  trace : List Emission

def Child.setBuf (c : Child) (id : Fin 2) (buf : Option StringBuf) : Child :=
  { c with outputBuf := Function.update c.outputBuf id buf }

/-- What a script does to the listeners of an output. -/
inductive Change where
  | keep
  | removed
  | renewed

/-- The deleter of the signal frees the buffer, and the setter makes a new one. -/
def Change.apply : Change → Option StringBuf → Option StringBuf
  | .keep, buf => buf
  | .removed, _ => none
  | .renewed, _ => some []

def Child.script (c : Child) (change : Fin 2 → Change) : Child :=
  { c with outputBuf := fun id => (change id).apply (c.outputBuf id) }

-- What the listeners do to the outputs, after everything that was emitted.
variable (react : List Emission → Fin 2 → Change)

/-- `di_emit` -/
def diEmit (c : Child) (e : Emission) : Child :=
  ({ c with trace := c.trace ++ [e] } : Child).script (react (c.trace ++ [e]))

/-! ## Reading -/

/-- A line of the piece that was read, up to the line break, which was replaced by a null byte. -/
def emitLine (id : Fin 2) (line : Bytes) (c : Child) : Except Fault Child :=
  match c.outputBuf id with
  | none => .error .nullPointer
  | some buf =>
      if stringBufIsEmpty buf then .ok (diEmit react c (.line id (cString line)))
      else do
        let (block, buf) ← stringBufDump (stringBufPush buf line)
        let out ← readString block
        .ok (diEmit react (c.setBuf id (some buf)) (.line id out))

/-- The inner loop of `output_handler`, for what is left of a piece. It returns whether there are no
listeners any more. -/
def lineLoop (id : Fin 2) : ℕ → Bytes → Child → Except Fault (Child × Bool)
  | 0, _, _ => .error .running
  | fuel + 1, rest, c =>
      if newline ∈ rest then do
        let eol := rest.idxOf newline
        let c ← emitLine react id (rest.take eol) c
        if (c.outputBuf id).isNone then .ok (c, true) else lineLoop id fuel (rest.drop (eol + 1)) c
      else
        match c.outputBuf id with
        | none => .error .nullPointer
        | some buf => .ok (c.setBuf id (some (stringBufLpush buf rest)), false)

/-- `output_handler`: `read` returns some pieces, and then 0 at the end of the output or else an error. -/
def outputHandler (id : Fin 2) (eof : Bool) : List Bytes → Child → Except Fault Child
  | [], c => .ok (if eof then c.setBuf id none else c)
  | piece :: pieces, c => do
      let (c, stopped) ← lineLoop react id (piece.length + 1) piece c
      if stopped then .ok c else outputHandler id eof pieces c

/-- `output_cb` -/
def outputCb (id : Fin 2) (pieces : List Bytes) (eof : Bool) (c : Child) : Except Fault Child :=
  if (c.outputBuf id).isNone then .error .assertion else outputHandler react id eof pieces c

/-! ## Exit -/

/-- What `sigchld_handler` does for one output. -/
def finishOutput (id : Fin 2) (pieces : List Bytes) (eof : Bool) (c : Child) : Except Fault Child :=
  if (c.outputBuf id).isNone then .ok c
  else do
    let c ← outputHandler react id eof pieces c
    match c.outputBuf id with
    | none => .ok c
    | some buf =>
        if stringBufIsEmpty buf then .ok c
        else do
          let (block, buf) ← stringBufDump buf
          let out ← readString block
          .ok (diEmit react (c.setBuf id (some buf)) (.line id out))

/-- `WTERMSIG`, if `WIFSIGNALED`. -/
def termSignal (rstatus : ℕ) : ℕ := if rstatus % 128 = 127 then 0 else rstatus % 128

/-- `WEXITSTATUS` -/
def exitStatus (rstatus : ℕ) : ℕ := rstatus / 256 % 256

/-- `sigchld_handler`. All signals are deleted at its end. -/
def sigchldHandler (rstatus : ℕ) (pieces : Fin 2 → List Bytes) (eof : Fin 2 → Bool) (c : Child) :
    Except Fault Child := do
  let c ← finishOutput react 0 (pieces 0) (eof 0) c
  let c ← finishOutput react 1 (pieces 1) (eof 1) c
  let c := diEmit react c (.exit (exitStatus rstatus) (termSignal rstatus))
  .ok { c with outputBuf := fun _ => none, exitSignal := false }

/-! ## Runs -/

/-- What the event loop does with a child process: there is something to read, the child has exited, or
a script runs that has nothing to do with it. -/
inductive Event where
  | readable (id : Fin 2) (pieces : List Bytes) (eof : Bool)
  | sigchld (rstatus : ℕ) (pieces : Fin 2 → List Bytes) (eof : Fin 2 → Bool)
  | script (change : Fin 2 → Change)

def step (c : Child) : Event → Except Fault Child
  | .readable id pieces eof => outputCb react id pieces eof c
  | .sigchld rstatus pieces eof => sigchldHandler react rstatus pieces eof c
  | .script change => .ok (c.script change)

def run (c : Child) : List Event → Except Fault Child
  | [] => .ok c
  | e :: es => do
      let c ← step react c e
      run c es

/-- The pieces that `read` returns for a buffer of 4096 bytes, without null bytes. -/
def Pieces (pieces : List Bytes) : Prop := ∀ piece ∈ pieces, piece ≠ [] ∧ piece.length ≤ 4096 ∧ 0 ∉ piece

/-- Outputs without listeners are not read, and the exit of a child is only noticed once. -/
def Enabled (c : Child) : Event → Prop
  | .readable id pieces _ => (c.outputBuf id).isSome ∧ Pieces pieces
  | .sigchld _ pieces _ => c.exitSignal = true ∧
      ∀ id, Pieces (pieces id) ∧ ((c.outputBuf id).isNone → pieces id = [])
  | .script _ => True

def Admissible (c : Child) : List Event → Prop
  | [] => True
  | e :: es => Enabled c e ∧ ∀ c', step react c e = .ok c' → Admissible c' es

/-- The lines that were emitted for an output. -/
def linesOf (id : Fin 2) : List Emission → List Bytes
  | [] => []
  | .line id' text :: es => if id' = id then text :: linesOf id es else linesOf id es
  | .exit _ _ :: es => linesOf id es

/-- What is read from an output. -/
def Event.bytes (id : Fin 2) : Event → Bytes
  | .readable id' pieces _ => if id' = id then pieces.flatten else []
  | .sigchld _ pieces _ => (pieces id).flatten
  | .script _ => []

def stream (id : Fin 2) (es : List Event) : Bytes := es.flatMap (Event.bytes id)

end Deai.ChildOutput
