import Deai.LinkedNodes
import Mathlib.Data.List.Range
import Mathlib.Data.Nat.Bitwise

/-!
# Intrusive hash tables

The tables of `uthash.h`. An element carries a handle with two kinds of links. One kind keeps the
elements in the order they were added, the other kind chains those in one bucket. The macros are
functions on the handles of all elements, the head, and the table. All handles of a hash point at
the same table, so it stands beside the head.

A loop gets fuel, and whether an allocation of a size succeeds is up to the caller. A failed
allocation is fatal, as `HASH_NONFATAL_OOM` is not defined.
-/
namespace Deai.UtHash

abbrev Key := List UInt8

/-- Why a call does not return. -/
inductive Stop where
  | exited | outOfFuel
  deriving DecidableEq, Repr

/-! ## The hash function -/

/-- `HASH_JEN_MIX` -/
def hashJenMix (a b c : UInt32) : UInt32 × UInt32 × UInt32 :=
  let a := (a - b - c) ^^^ (c >>> 13)
  let b := (b - c - a) ^^^ (a <<< 8)
  let c := (c - a - b) ^^^ (b >>> 13)
  let a := (a - b - c) ^^^ (c >>> 12)
  let b := (b - c - a) ^^^ (a <<< 16)
  let c := (c - a - b) ^^^ (b >>> 5)
  let a := (a - b - c) ^^^ (c >>> 3)
  let b := (b - c - a) ^^^ (a <<< 10)
  let c := (c - a - b) ^^^ (b >>> 15)
  (a, b, c)

/-- Four bytes of the key as a word. Bytes past the end of the key count as zero. -/
def word (key : Key) (i : ℕ) : UInt32 :=
  let byte (j : ℕ) : UInt32 := ((key[i + j]?).getD 0).toUInt32
  byte 0 + (byte 1 <<< 8) + (byte 2 <<< 16) + (byte 3 <<< 24)

/-- The `while` of `HASH_JEN`, over the bytes that are left. -/
def hashJenLoop (key : Key) (i j hashv : UInt32) : Key × UInt32 × UInt32 × UInt32 :=
  match key with
  | _ :: _ :: _ :: _ :: _ :: _ :: _ :: _ :: _ :: _ :: _ :: _ :: rest =>
      let mixed := hashJenMix (i + word key 0) (j + word key 4) (hashv + word key 8)
      hashJenLoop rest mixed.1 mixed.2.1 mixed.2.2
  | _ => (key, i, j, hashv)

/-- `HASH_JEN`. The length is cut down to `unsigned` before any byte is read. -/
def hashJen (key : Key) : ℕ :=
  let keylen := key.length % 2 ^ 32
  let r := hashJenLoop (key.take keylen) 0x9e3779b9 0x9e3779b9 0xfeedbeef
  -- The lowest byte of the last word is left to the length.
  let hashv := r.2.2.2 + UInt32.ofNat keylen + (word (0 :: r.1.drop 8) 0)
  (hashJenMix (r.2.1 + word r.1 0) (r.2.2.1 + word r.1 4) hashv).2.2.toNat

/-! ## The memory -/

/-- `UT_hash_handle` -/
structure Handle (N : Type*) where
  prev : Option N
  next : Option N
  hhPrev : Option N
  hhNext : Option N
  key : Key
  keylen : ℕ
  hashv : ℕ

/-- `UT_hash_bucket` -/
structure Bucket (N : Type*) where
  hhHead : Option N := none
  count : ℕ := 0
  expandMult : ℕ := 0

/-- `UT_hash_table` -/
structure Table (N : Type*) where
  buckets : ℕ → Bucket N := fun _ => {}
  numBuckets : ℕ := 0
  log2NumBuckets : ℕ := 0
  numItems : ℕ := 0
  tail : Option N := none
  idealChainMaxlen : ℕ := 0
  nonidealItems : ℕ := 0
  ineffExpands : ℕ := 0
  noexpand : Bool := false

/-- The handles of all elements, and a hash. Without a head the table is not there. -/
structure Hash (N : Type*) where
  hh : N → Handle N
  head : Option N
  tbl : Table N

variable {N : Type*} [DecidableEq N]

/-- A write to memory. What is written is known before the write. -/
@[noinline] def write {A B : Type*} [DecidableEq A] (mem : A → B) (a : A) (b : B) : A → B :=
  Function.update mem a b

/-- A write to the handle that a pointer points at. There is none through null. -/
def Hash.put (s : Hash N) (p : Option N) (f : Handle N → Handle N) : Hash N :=
  match p with
  | none => s
  | some x => {s with hh := write s.hh x (f (s.hh x))}

section
variable (s : Hash N) (p : Option N) (f : Handle N → Handle N)

@[simp] theorem put_head : (s.put p f).head = s.head := by cases p <;> rfl
@[simp] theorem put_tbl : (s.put p f).tbl = s.tbl := by cases p <;> rfl

theorem put_hh (y : N) : (s.put p f).hh y = if some y = p then f (s.hh y) else s.hh y := by
  cases p with
  | none => rfl
  | some x =>
      by_cases hy : y = x
      · rw [hy, if_pos rfl]
        exact Function.update_self ..
      · rw [if_neg fun h => hy (Option.some.inj h)]
        exact Function.update_of_ne hy ..

end

/-- `++` on `unsigned` -/
def incr (n : ℕ) : ℕ := if n = 2 ^ 32 - 1 then 0 else n + 1

/-- `--` on `unsigned` -/
def decr (n : ℕ) : ℕ := if n = 0 then 2 ^ 32 - 1 else n - 1

/-- `HASH_TO_BKT` -/
def hashToBkt (hashv numBkts : ℕ) : ℕ := hashv &&& decr numBkts

def Table.putBucket (t : Table N) (bkt : ℕ) (b : Bucket N) : Table N :=
  {t with buckets := write t.buckets bkt b}

/-! ## Adding an element -/

/-- `HASH_MAKE_TABLE` -/
def hashMakeTable (malloc : ℕ → Bool) (add : N) : Except Stop (Table N) :=
  if !malloc 64 then .error .exited
  else if !malloc (32 * 16) then .error .exited
  else .ok {tail := some add, numBuckets := 32, log2NumBuckets := 5}

/-- `HASH_APPEND_LIST` -/
def hashAppendList (s : Hash N) (add : N) : Hash N :=
  let s := s.put (some add) fun h => {h with next := none, prev := s.tbl.tail}
  let s := s.put s.tbl.tail fun h => {h with next := some add}
  {s with tbl := {s.tbl with tail := some add}}

/-- What the new buckets hold so far, while a table is expanded. -/
structure Expansion (N : Type*) where
  hash : Hash N
  newBuckets : ℕ → Bucket N
  nonidealItems : ℕ

/-- One element goes to its new bucket. -/
def hashExpandItem (ideal numBuckets : ℕ) (e : Expansion N) (thh : N) : Expansion N :=
  let bkt := hashToBkt (e.hash.hh thh).hashv (numBuckets * 2 % 2 ^ 32)
  let newbkt := e.newBuckets bkt
  let count := incr newbkt.count
  let nonideal := decide (ideal < count)
  let mult := nonideal && decide (newbkt.expandMult * ideal % 2 ^ 32 < count)
  let s := e.hash.put (some thh) fun h => {h with hhPrev := none, hhNext := newbkt.hhHead}
  let s := s.put newbkt.hhHead fun h => {h with hhPrev := some thh}
  {hash := s
   newBuckets := write e.newBuckets bkt
     {hhHead := some thh, count := count
      expandMult := if mult then incr newbkt.expandMult else newbkt.expandMult}
   nonidealItems := if nonideal then incr e.nonidealItems else e.nonidealItems}

/-- The inner loop of `HASH_EXPAND_BUCKETS`. The next element is read before this one moves. -/
def hashExpandChain (ideal numBuckets : ℕ) :
    ℕ → Expansion N → Option N → Except Stop (Expansion N)
  | _, e, none => .ok e
  | 0, _, some _ => .error .outOfFuel
  | fuel + 1, e, some thh =>
      hashExpandChain ideal numBuckets fuel (hashExpandItem ideal numBuckets e thh)
        (e.hash.hh thh).hhNext

/-- `HASH_EXPAND_BUCKETS` -/
def hashExpandBuckets (malloc : ℕ → Bool) (fuel : ℕ) (s : Hash N) : Except Stop (Hash N) :=
  let t := s.tbl
  if !malloc (2 * t.numBuckets * 16) then .error .exited
  else
    let ideal := (t.numItems >>> (t.log2NumBuckets + 1) +
      if t.numItems &&& decr (t.numBuckets * 2 % 2 ^ 32) ≠ 0 then 1 else 0) % 2 ^ 32
    let e : Expansion N := {hash := s, newBuckets := fun _ => {}, nonidealItems := 0}
    ((List.range t.numBuckets).foldlM
      (fun e i => hashExpandChain ideal t.numBuckets fuel e (t.buckets i).hhHead) e).map fun e =>
        let ineff := if t.numItems >>> 1 < e.nonidealItems then incr t.ineffExpands else 0
        {e.hash with
          tbl := {t with
            buckets := e.newBuckets
            numBuckets := t.numBuckets * 2 % 2 ^ 32
            log2NumBuckets := incr t.log2NumBuckets
            idealChainMaxlen := ideal
            nonidealItems := e.nonidealItems
            ineffExpands := ineff
            noexpand := t.noexpand || decide (1 < ineff)}}

/-- `HASH_ADD_TO_BKT` -/
def hashAddToBkt (malloc : ℕ → Bool) (fuel : ℕ) (s : Hash N) (bkt : ℕ) (add : N) :
    Except Stop (Hash N) :=
  let b := s.tbl.buckets bkt
  let count := incr b.count
  let s := s.put (some add) fun h => {h with hhNext := b.hhHead, hhPrev := none}
  let s := s.put b.hhHead fun h => {h with hhPrev := some add}
  let s := {s with tbl := s.tbl.putBucket bkt {b with hhHead := some add, count := count}}
  if incr b.expandMult * 10 % 2 ^ 32 ≤ count ∧ !s.tbl.noexpand then
    hashExpandBuckets malloc fuel s
  else .ok s

/-- `HASH_ADD_TO_TABLE` -/
def hashAddToTable (malloc : ℕ → Bool) (fuel : ℕ) (s : Hash N) (hashv : ℕ) (add : N) :
    Except Stop (Hash N) :=
  let t := {s.tbl with numItems := incr s.tbl.numItems}
  hashAddToBkt malloc fuel {s with tbl := t} (hashToBkt hashv t.numBuckets) add

/-- `HASH_ADD_KEYPTR` -/
def hashAddKeyptr (malloc : ℕ → Bool) (fuel : ℕ) (s : Hash N) (key : Key) (add : N) :
    Except Stop (Hash N) :=
  let hashv := hashJen key
  let s := s.put (some add) fun h =>
    {h with hashv := hashv, key := key, keylen := key.length % 2 ^ 32}
  match s.head with
  | none =>
      let s := s.put (some add) fun h => {h with next := none, prev := none}
      (hashMakeTable malloc add).bind fun t =>
        hashAddToTable malloc fuel {s with head := some add, tbl := t} hashv add
  | some _ => hashAddToTable malloc fuel (hashAppendList s add) hashv add

/-! ## Finding an element -/

/-- `HASH_FIND_IN_BKT` -/
def hashFindInBkt (hh : N → Handle N) (key : Key) (hashval : ℕ) :
    ℕ → Option N → Except Stop (Option N)
  | _, none => .ok none
  | 0, some _ => .error .outOfFuel
  | fuel + 1, some out =>
      if ((hh out).hashv = hashval ∧ (hh out).keylen = key.length) ∧
          (hh out).key.take key.length = key then .ok (some out)
      else hashFindInBkt hh key hashval fuel (hh out).hhNext

/-- `HASH_FIND` -/
def hashFind (fuel : ℕ) (s : Hash N) (key : Key) : Except Stop (Option N) :=
  match s.head with
  | none => .ok none
  | some _ =>
      let hashv := hashJen key
      hashFindInBkt s.hh key hashv fuel (s.tbl.buckets (hashToBkt hashv s.tbl.numBuckets)).hhHead

/-! ## Deleting an element -/

/-- `HASH_DEL_IN_BKT` -/
def hashDelInBkt (s : Hash N) (bkt : ℕ) (del : N) : Hash N :=
  let b := s.tbl.buckets bkt
  let b := {b with count := decr b.count}
  let b := if b.hhHead = some del then {b with hhHead := (s.hh del).hhNext} else b
  let s := {s with tbl := s.tbl.putBucket bkt b}
  let s := s.put (s.hh del).hhPrev fun h => {h with hhNext := (s.hh del).hhNext}
  s.put (s.hh del).hhNext fun h => {h with hhPrev := (s.hh del).hhPrev}

/-- `HASH_DELETE`. Freeing the table leaves the hash without a head. -/
def hashDelete (s : Hash N) (del : N) : Hash N :=
  if (s.hh del).prev = none ∧ (s.hh del).next = none then {s with head := none}
  else
    let s := if s.tbl.tail = some del then
        {s with tbl := {s.tbl with tail := (s.hh del).prev}} else s
    let s := if (s.hh del).prev ≠ none then
        s.put (s.hh del).prev fun h => {h with next := (s.hh del).next}
      else {s with head := (s.hh del).next}
    let s := s.put (s.hh del).next fun h => {h with prev := (s.hh del).prev}
    let s := hashDelInBkt s (hashToBkt (s.hh del).hashv s.tbl.numBuckets) del
    {s with tbl := {s.tbl with numItems := decr s.tbl.numItems}}

/-! ## Walking the table -/

/-- `HASH_CNT` -/
def hashCnt (s : Hash N) : ℕ := if s.head.isSome then s.tbl.numItems else 0

/-- The rounds of `HASH_ITER`. The element after this one is known before the body runs. -/
def hashIterRounds {S : Type*} (hash : S → Hash N) (body : N → S → Except Stop S) :
    ℕ → S → Option N → Option N → Except Stop S
  | _, st, none, _ => .ok st
  | 0, _, some _, _ => .error .outOfFuel
  | fuel + 1, st, some el, tmp =>
      (body el st).bind fun st =>
        hashIterRounds hash body fuel st tmp (tmp.bind fun t => ((hash st).hh t).next)

/-- `HASH_ITER` over the hash in a state. -/
def hashIter {S : Type*} (hash : S → Hash N) (body : N → S → Except Stop S) (fuel : ℕ) (st : S) :
    Except Stop S :=
  hashIterRounds hash body fuel st (hash st).head
    ((hash st).head.bind fun h => ((hash st).hh h).next)

/-- A loop of `HASH_FSCK`: how many elements there are, if the links back are right. -/
def hashFsckLoop (prev next : N → Option N) :
    ℕ → Option N → Option N → ℕ → Except Stop (Option ℕ)
  | _, _, none, count => .ok (some count)
  | 0, _, some _, _ => .error .outOfFuel
  | fuel + 1, before, some thh, count =>
      if before ≠ prev thh then .ok none
      else hashFsckLoop prev next fuel (some thh) (next thh) (incr count)

/-- One bucket in `HASH_FSCK`. -/
def hashFsckBucket (s : Hash N) (fuel : ℕ) (count : Option ℕ) (i : ℕ) :
    Except Stop (Option ℕ) :=
  match count with
  | none => .ok none
  | some count =>
      (hashFsckLoop (fun x => (s.hh x).hhPrev) (fun x => (s.hh x).hhNext) fuel none
        (s.tbl.buckets i).hhHead 0).map fun found =>
        found.bind fun n =>
          if (s.tbl.buckets i).count ≠ n then none else some ((count + n) % 2 ^ 32)

/-- `HASH_FSCK`, and whether it has nothing to complain about. -/
def hashFsck (fuel : ℕ) (s : Hash N) : Except Stop Bool :=
  match s.head with
  | none => .ok true
  | some _ =>
      ((List.range s.tbl.numBuckets).foldlM (hashFsckBucket s fuel) (some 0)).bind fun count =>
        if count ≠ some s.tbl.numItems then .ok false
        else (hashFsckLoop (fun x => (s.hh x).prev) (fun x => (s.hh x).next) fuel none
          s.head 0).map fun count => decide (count = some s.tbl.numItems)

end Deai.UtHash
