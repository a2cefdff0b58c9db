import Deai.Fallible
import Deai.FilledBuffer
import Mathlib.Data.List.TakeWhile
import Mathlib.Algebra.Order.BigOperators.Group.List
import Mathlib.Algebra.Order.Ring.Nat

/-!
# The string buffer

`string_buf.c` keeps pieces of a text in a list, each in a block of its own. A piece is stored up to
its first null byte, but with the length that the caller has given for it. `string_buf_dump` takes
the size of the whole text from the blocks, and copies as much as the lengths say.
-/
namespace Deai.StringBuffer
open Fallible FilledBuffer

/-- The bytes of a text. -/
abbrev Bytes := List UInt8

/-- What a C string has before its null byte. -/
def cString (s : Bytes) : Bytes := s.takeWhile (· ≠ 0)

def strlen (block : Bytes) : ℕ := (cString block).length

/-- A `struct string_buf_node`: the block that `str` points to, and `len`. The nodes are in a list. -/
structure StringBufNode where
  str : Bytes
  len : ℕ
  deriving DecidableEq

/-- A `struct string_buf`. Its `tail` is where the next node goes, at the end of the list. -/
abbrev StringBuf := List StringBufNode

/-- `string_buf_push`: `strdup` makes the block, and `strlen` the length. -/
def stringBufPush (buf : StringBuf) (str : Bytes) : StringBuf := buf ++ [⟨cString str ++ [0], strlen str⟩]

/-- `string_buf_lpush` for the `len` bytes at `str`: `strndup` makes the block. -/
def stringBufLpush (buf : StringBuf) (str : Bytes) : StringBuf := buf ++ [⟨cString str ++ [0], str.length⟩]

/-- `string_buf_is_empty` -/
def stringBufIsEmpty (buf : StringBuf) : Bool := buf.isEmpty

/-- Reading or writing where there is nothing, an assertion, or a loop that is not over. -/
inductive Fault where
  | badRead
  | badWrite
  | uninitialized
  | nullPointer
  | assertion
  | running
  deriving DecidableEq

/-- `memcpy` of `n` bytes to `pos`. -/
def memcpy (b : Buffer UInt8) : (pos : ℕ) → (src : Bytes) → (n : ℕ) → Except Fault (Buffer UInt8)
  | _, _, 0 => .ok b
  | _, [], _ + 1 => .error .badRead
  | pos, c :: src, n + 1 => do
      let b ← writeCell .badWrite b pos c
      memcpy b (pos + 1) src n

/-- The second loop of `string_buf_dump`: the memory, and the position after the last piece. -/
def copyNodes (b : Buffer UInt8) (pos : ℕ) : StringBuf → Except Fault (Buffer UInt8 × ℕ)
  | [] => .ok (b, pos)
  | node :: nodes => do
      let b ← memcpy b pos node.str node.len
      copyNodes b (pos + node.len) nodes

/-- `string_buf_dump`: the block that it returns, and the buffer afterwards. -/
def stringBufDump (buf : StringBuf) : Except Fault (Buffer UInt8 × StringBuf) := do
  let len := (buf.map fun node => strlen node.str).sum
  let (ret, pos) ← copyNodes (fresh (len + 1)) 0 buf
  let ret ← writeCell .badWrite ret pos 0
  .ok (ret, [])

/-- The C string in a block of memory. -/
def readString : Buffer UInt8 → Except Fault Bytes
  | [] => .error .badRead
  | none :: _ => .error .uninitialized
  | some c :: b => if c = 0 then .ok [] else do
      let s ← readString b
      .ok (c :: s)

/-! ## Pieces without null bytes -/

/-- The node of a piece. -/
def nodeOf (t : Bytes) : StringBufNode := ⟨t ++ [0], t.length⟩

theorem cString_of_no_zero {t : Bytes} (ht : 0 ∉ t) : cString t = t := by
  refine List.takeWhile_eq_self_iff.mpr fun c hc => ?_
  have hne : c ≠ 0 := fun h => ht (h ▸ hc)
  simpa using hne

theorem zero_not_mem_cString (t : Bytes) : 0 ∉ cString t := by
  intro h
  have hne := List.mem_takeWhile_imp h
  simp at hne

theorem cString_append_zero {t : Bytes} (ht : 0 ∉ t) (s : Bytes) : cString (t ++ 0 :: s) = t := by
  induction t with
  | nil => rfl
  | cons c t ih =>
      have hne : c ≠ 0 := fun h => ht (h ▸ List.mem_cons_self)
      have hrest := ih fun h => ht (List.mem_cons_of_mem _ h)
      unfold cString at hrest ⊢
      rw [List.cons_append, List.takeWhile_cons_of_pos (by simpa using hne), hrest]

@[simp] theorem strlen_cString (t : Bytes) : strlen (cString t ++ [0]) = (cString t).length := by
  unfold strlen
  rw [cString_append_zero (zero_not_mem_cString t)]

/-- The buffer holds a text in pieces without null bytes. -/
def Holds (buf : StringBuf) (s : Bytes) : Prop :=
  ∃ ts : List Bytes, (∀ t ∈ ts, 0 ∉ t) ∧ buf = ts.map nodeOf ∧ s = ts.flatten

theorem Holds.nil : Holds [] [] := ⟨[], nofun, rfl, rfl⟩

theorem Holds.append {buf : StringBuf} {s t : Bytes} (h : Holds buf s) (ht : 0 ∉ t) :
    Holds (buf ++ [nodeOf t]) (s ++ t) := by
  obtain ⟨ts, hts, rfl, rfl⟩ := h
  refine ⟨ts ++ [t], ?_, by simp, by simp⟩
  intro t' ht'
  rcases List.mem_append.mp ht' with ht' | ht'
  · exact hts t' ht'
  · rw [List.mem_singleton.mp ht']
    exact ht

theorem stringBufPush_eq {buf : StringBuf} {t : Bytes} (ht : 0 ∉ t) : stringBufPush buf t = buf ++ [nodeOf t] := by
  unfold stringBufPush nodeOf strlen
  rw [cString_of_no_zero ht]

theorem stringBufLpush_eq {buf : StringBuf} {t : Bytes} (ht : 0 ∉ t) : stringBufLpush buf t = buf ++ [nodeOf t] := by
  unfold stringBufLpush nodeOf
  rw [cString_of_no_zero ht]

/-! ## Copying -/

/-- Bytes that are there, into a block that has room for them. -/
theorem memcpy_filled (s t rest : Bytes) (n : ℕ) :
    memcpy (filled s (t.length + n)) s.length (t ++ rest) t.length = .ok (filled (s ++ t) n) := by
  induction t generalizing s with
  | nil => simp [memcpy]
  | cons c t ih =>
      have hroom : (c :: t).length + n = t.length + n + 1 := by
        rw [List.length_cons]
        omega
      have hlength : s.length + 1 = (s ++ [c]).length := by simp
      rw [hroom, List.cons_append, List.length_cons, memcpy, writeCell_filled]
      have hrest := ih (s ++ [c])
      rw [List.append_assoc, List.singleton_append] at hrest
      rw [hlength]
      exact hrest

theorem copyNodes_filled (s : Bytes) (ts : List Bytes) (n : ℕ) :
    copyNodes (filled s (ts.flatten.length + n)) s.length (ts.map nodeOf) =
      .ok (filled (s ++ ts.flatten) n, (s ++ ts.flatten).length) := by
  induction ts generalizing s with
  | nil => simp [copyNodes]
  | cons t ts ih =>
      have hroom : (t :: ts).flatten.length + n = t.length + (ts.flatten.length + n) := by
        simp only [List.flatten_cons, List.length_append]
        omega
      have hlength : s.length + t.length = (s ++ t).length := by simp
      rw [List.map_cons, copyNodes, hroom]
      dsimp only [nodeOf]
      rw [memcpy_filled]
      have hrest := ih (s ++ t)
      rw [List.append_assoc] at hrest
      rw [List.flatten_cons, hlength]
      exact hrest

theorem sum_strlen {ts : List Bytes} (hts : ∀ t ∈ ts, 0 ∉ t) :
    ((ts.map nodeOf).map fun node => strlen node.str).sum = ts.flatten.length := by
  induction ts with
  | nil => rfl
  | cons t ts ih =>
      have ht := cString_append_zero (hts t List.mem_cons_self) []
      have hrest := ih fun t' ht' => hts t' (List.mem_cons_of_mem _ ht')
      rw [List.map_cons, List.map_cons, List.sum_cons, hrest, List.flatten_cons, List.length_append]
      unfold nodeOf strlen
      rw [ht]

/-- A buffer without null bytes is dumped into a block that just holds its text. -/
theorem stringBufDump_holds {buf : StringBuf} {s : Bytes} (h : Holds buf s) :
    stringBufDump buf = .ok (filled (s ++ [0]) 0, []) := by
  obtain ⟨ts, hts, rfl, rfl⟩ := h
  have hcopy := copyNodes_filled [] ts 1
  rw [filled_nil, List.nil_append, List.length_nil] at hcopy
  unfold stringBufDump
  rw [sum_strlen hts]
  dsimp only
  rw [hcopy, ok_bind]
  dsimp only
  rw [writeCell_filled, ok_bind]

/-- What is read from such a block. -/
theorem readString_filled {s : Bytes} (hs : 0 ∉ s) (n : ℕ) : readString (filled (s ++ [0]) n) = .ok s := by
  induction s with
  | nil => rfl
  | cons c s ih =>
      have hne : c ≠ 0 := fun h => hs (h ▸ List.mem_cons_self)
      have hrest := ih fun h => hs (List.mem_cons_of_mem _ h)
      unfold filled at hrest ⊢
      rw [List.cons_append, List.map_cons, List.cons_append, readString, if_neg hne, hrest]
      rfl

/-- The text that is in a buffer. -/
def contents (buf : StringBuf) : Bytes := buf.flatMap fun node => node.str.take node.len

theorem Holds.contents_eq {buf : StringBuf} {s : Bytes} (h : Holds buf s) : contents buf = s := by
  obtain ⟨ts, -, rfl, rfl⟩ := h
  induction ts with
  | nil => rfl
  | cons t ts ih =>
      unfold contents at ih ⊢
      rw [List.map_cons, List.flatMap_cons, ih, List.flatten_cons]
      unfold nodeOf
      rw [List.take_left]

theorem Holds.no_zero {buf : StringBuf} {s : Bytes} (h : Holds buf s) : 0 ∉ s := by
  obtain ⟨ts, hts, -, rfl⟩ := h
  rw [List.mem_flatten]
  rintro ⟨t, ht, hzero⟩
  exact hts t ht hzero

/-! ## Any pieces -/

/-- A call that appends to the buffer. -/
inductive Call where
  | push (str : Bytes)
  | lpush (str : Bytes)

def Call.apply (buf : StringBuf) : Call → StringBuf
  | .push str => stringBufPush buf str
  | .lpush str => stringBufLpush buf str

/-- What is pushed: a string up to its null byte, or up to the first null byte of those that are given. -/
def Call.text : Call → Bytes
  | .push str => cString str
  | .lpush str => cString str

/-- The buffer after some calls on a new one. -/
def pushAll (calls : List Call) : StringBuf := calls.foldl Call.apply []

def Call.node : Call → StringBufNode
  | .push str => ⟨cString str ++ [0], strlen str⟩
  | .lpush str => ⟨cString str ++ [0], str.length⟩

theorem pushAll_eq (calls : List Call) : pushAll calls = calls.map Call.node := by
  have happly : ∀ buf, calls.foldl Call.apply buf = buf ++ calls.map Call.node := by
    induction calls with
    | nil => simp
    | cons call calls ih =>
        intro buf
        rw [List.foldl_cons, ih, List.map_cons]
        cases call with
        | push str => simp [Call.apply, stringBufPush, Call.node]
        | lpush str => simp [Call.apply, stringBufLpush, Call.node]
  rw [pushAll, happly, List.nil_append]

/-- A call that gives no null byte with a length. -/
def Call.Clean : Call → Prop
  | .push _ => True
  | .lpush str => 0 ∉ str

theorem Call.Clean.node_eq {call : Call} (h : call.Clean) : call.node = nodeOf call.text := by
  cases call with
  | push str => rfl
  | lpush str =>
      have hstr : 0 ∉ str := h
      simp only [Call.node, nodeOf, Call.text, cString_of_no_zero hstr]

theorem Call.zero_not_mem_text (call : Call) : 0 ∉ call.text := by
  cases call with
  | push str => exact zero_not_mem_cString str
  | lpush str => exact zero_not_mem_cString str

/-- Without such null bytes the buffer holds what was pushed. -/
theorem holds_pushAll {calls : List Call} (h : ∀ call ∈ calls, call.Clean) :
    Holds (pushAll calls) (calls.flatMap Call.text) := by
  refine ⟨calls.map Call.text, ?_, ?_, List.flatMap_def⟩
  · intro t ht
    obtain ⟨call, -, rfl⟩ := List.mem_map.mp ht
    exact call.zero_not_mem_text
  · rw [pushAll_eq, List.map_map]
    exact List.map_congr_left fun call hcall => (h call hcall).node_eq

theorem length_of_writeCell {b b' : Buffer UInt8} {p : ℕ} {c : UInt8} (h : writeCell Fault.badWrite b p c = .ok b') :
    b'.length = b.length ∧ p < b.length := by
  unfold writeCell at h
  split_ifs at h with hp
  cases h
  exact ⟨List.length_set, hp⟩

theorem length_of_memcpy {b b' : Buffer UInt8} {p : ℕ} {src : Bytes} {n : ℕ} (h : memcpy b p src n = .ok b') :
    b'.length = b.length := by
  induction n generalizing b p src with
  | zero =>
      cases src <;> cases h <;> rfl
  | succ n ih =>
      cases src with
      | nil => cases h
      | cons c src =>
          unfold memcpy at h
          obtain ⟨b'', hwrite, h⟩ := bind_eq_ok h
          rw [ih h, (length_of_writeCell hwrite).1]

theorem of_copyNodes {b : Buffer UInt8} {p : ℕ} {buf : StringBuf} {r : Buffer UInt8 × ℕ}
    (h : copyNodes b p buf = .ok r) : r.1.length = b.length ∧ r.2 = p + (buf.map (·.len)).sum := by
  induction buf generalizing b p with
  | nil =>
      cases h
      exact ⟨rfl, by simp⟩
  | cons node buf ih =>
      unfold copyNodes at h
      obtain ⟨b', hcopy, h⟩ := bind_eq_ok h
      obtain ⟨hlength, hpos⟩ := ih h
      refine ⟨hlength.trans (length_of_memcpy hcopy), ?_⟩
      rw [hpos, List.map_cons, List.sum_cons, Nat.add_assoc]

/-- The lengths say no more than what is in the blocks, or the block that is returned is too small. -/
theorem sum_len_of_dump {buf : StringBuf} {r : Buffer UInt8 × StringBuf} (h : stringBufDump buf = .ok r) :
    (buf.map (·.len)).sum ≤ (buf.map fun node => strlen node.str).sum := by
  unfold stringBufDump at h
  obtain ⟨copied, hcopy, h⟩ := bind_eq_ok h
  obtain ⟨ret, hwrite, -⟩ := bind_eq_ok h
  obtain ⟨hlength, hpos⟩ := of_copyNodes hcopy
  have hlt := (length_of_writeCell hwrite).2
  rw [hlength, hpos, fresh, List.length_replicate] at hlt
  omega

theorem Call.strlen_le_len (call : Call) : strlen call.node.str ≤ call.node.len := by
  cases call with
  | push str => exact le_of_eq (strlen_cString str)
  | lpush str =>
      simp only [Call.node, strlen_cString]
      exact (List.takeWhile_prefix _).length_le

theorem Call.clean_of_len_le {call : Call} (h : call.node.len ≤ strlen call.node.str) : call.Clean := by
  cases call with
  | push str => trivial
  | lpush str =>
      simp only [Call.node, strlen_cString] at h
      have hall : cString str = str := (List.takeWhile_prefix _).eq_of_length_le h
      intro hzero
      exact zero_not_mem_cString str (hall.symm ▸ hzero)

theorem clean_of_sum_le {calls : List Call}
    (h : ((calls.map Call.node).map (·.len)).sum ≤ ((calls.map Call.node).map fun node => strlen node.str).sum) :
    ∀ call ∈ calls, call.Clean := by
  induction calls with
  | nil => nofun
  | cons call calls ih =>
      simp only [List.map_cons, List.sum_cons] at h
      have hfirst := call.strlen_le_len
      have hrest : ((calls.map Call.node).map fun node => strlen node.str).sum ≤
          ((calls.map Call.node).map (·.len)).sum := by
        rw [List.map_map, List.map_map]
        exact List.sum_le_sum fun call _ => call.strlen_le_len
      intro call' hcall'
      rcases List.mem_cons.mp hcall' with rfl | hcall'
      · exact Call.clean_of_len_le (by omega)
      · exact ih (by omega) call' hcall'

/-- The dump stays inside of the memory, returns the concatenation of what was pushed, and leaves the
buffer empty. -/
def Dumps (calls : List Call) : Prop :=
  stringBufDump (pushAll calls) = .ok (filled (calls.flatMap Call.text ++ [0]) 0, [])

/-- A buffer is dumped right if and only if no null byte was pushed with a length. -/
theorem dumps_iff (calls : List Call) : Dumps calls ↔ ∀ str, .lpush str ∈ calls → 0 ∉ str := by
  constructor
  · intro h str hstr
    have hsum := sum_len_of_dump h
    rw [pushAll_eq] at hsum
    exact clean_of_sum_le hsum _ hstr
  · intro h
    refine stringBufDump_holds (holds_pushAll fun call hcall => ?_)
    cases call with
    | push str => trivial
    | lpush str => exact h str hcall

/-- A null byte at the end is one byte too many for the block, and one in the middle is read behind. -/
theorem not_dumps :
    stringBufDump (pushAll [.lpush [97, 0]]) = .error .badWrite ∧
    stringBufDump (pushAll [.lpush [97, 0, 98]]) = .error .badRead ∧
    ¬ Dumps [.lpush [97, 0]] ∧ ¬ Dumps [.lpush [97, 0, 98]] := by
  have hend : stringBufDump (pushAll [.lpush [97, 0]]) = .error .badWrite := rfl
  have hmiddle : stringBufDump (pushAll [.lpush [97, 0, 98]]) = .error .badRead := rfl
  refine ⟨hend, hmiddle, fun h => ?_, fun h => ?_⟩
  · cases hend.symm.trans h
  · cases hmiddle.symm.trans h

end Deai.StringBuffer
