import Deai.CountedLoop
import Deai.DifferenceSystem
import Mathlib.Algebra.Order.Group.Int
import Mathlib.Data.Finset.Range

/-!
# The solver for difference constraints

`difference_constraints` of the module `misc`. The variables are relaxed in the order of a queue,
and the number of edges that are looked at is limited. All counters are `unsigned int`.
-/
namespace Deai.DifferenceConstraints
open CountedLoop

/-- A call that has not returned a vector: it is still running, a sum has left the range of
`int64_t`, or an exception was thrown. -/
inductive Stop where
  | running
  | overflow
  | invalidArgument (message : String)
  deriving DecidableEq

structure State where
  ret : ℕ → ℤ
  isInqueue : ℕ → Bool
  queue : List ℕ
  iter : ℕ

/-- The sum of two `int64_t`. -/
def addInt64 (a b : ℤ) : Except Stop ℤ :=
  if -2 ^ 63 ≤ a + b ∧ a + b < 2 ^ 63 then .ok (a + b) else .error .overflow

/-- An `int64_t` that is stored in an `unsigned int`. -/
def toUnsigned (x : ℤ) : ℕ := (x % 2 ^ 32).toNat

/-! ## The checks of the input -/

/-- The pairs of the constraints on one variable. -/
def checkPairs (n i : ℕ) : List ℤ → Except Stop Unit
  | j :: k :: rest =>
      if j ≥ n ∨ j < 0 then .error (.invalidArgument "Invalid constraints, index out of bounds")
      else if j = i ∧ k < 0 then
        .error (.invalidArgument ("Invalid constraints: x_" ++ toString i ++ " - x_" ++ toString i ++
          " <= " ++ toString k ++ " is impossible"))
      else checkPairs n i rest
  | _ => .ok ()

/-- One round of the first loop; the state is the queue and the number of edges. -/
def checkVariable (constraintsList : List (List ℤ)) (i : ℕ) (s : List ℕ × ℕ) :
    Except Stop (List ℕ × ℕ) := do
  let constraints := constraintsList.getD i []
  if constraints.length % 2 ≠ 0 then
    .error (.invalidArgument "Invalid constraints, must be pairs of integers")
  else do
    checkPairs constraintsList.length i constraints
    .ok (s.1 ++ [i], (s.2 + constraints.length / 2) % 2 ^ 32)

/-! ## Relaxation -/

/-- `x_j - x_i <= k` -/
def relax (i j : ℕ) (k : ℤ) (s : State) : Except Stop State := do
  let sum ← addInt64 (s.ret i) k
  if s.ret j > sum then
    if s.isInqueue j = false then
      .ok {s with
        ret := Function.update s.ret j sum
        queue := s.queue ++ [j]
        isInqueue := Function.update s.isInqueue j true}
    else .ok {s with ret := Function.update s.ret j sum}
  else .ok s

def relaxPair (i : ℕ) (constraints : List ℤ) (c : ℕ) (s : State) : Except Stop State :=
  relax i (toUnsigned (constraints.getD c 0)) (constraints.getD (c + 1) 0) {s with iter := s.iter - 1}

def relaxQueue (constraintsList : List (List ℤ)) : ℕ → State → Except Stop State
  | 0, _ => .error .running
  | fuel + 1, s =>
      match s.queue with
      | [] => .ok s
      | i :: rest =>
          if s.iter = 0 then .ok s
          else do
            let constraints := constraintsList.getD i []
            let s ← countedLoop .running 32 2 constraints.length (fun s => 0 < s.iter)
              (relaxPair i constraints) fuel 0
              {s with queue := rest, isInqueue := Function.update s.isInqueue i false}
            relaxQueue constraintsList fuel s

/-! ## The check of the result -/

def verifyPair (ret : ℕ → ℤ) (i : ℕ) (constraints : List ℤ) (c : ℕ) (_ : Unit) : Except Stop Unit := do
  let sum ← addInt64 (ret i) (constraints.getD (c + 1) 0)
  if sum < ret (toUnsigned (constraints.getD c 0)) then
    .error (.invalidArgument "Failed to satisfy all constraints")
  else .ok ()

def verifyVariable (constraintsList : List (List ℤ)) (ret : ℕ → ℤ) (fuel i : ℕ) (_ : Unit) :
    Except Stop Unit :=
  let constraints := constraintsList.getD i []
  countedLoop .running 32 2 constraints.length (fun _ => true) (verifyPair ret i constraints) fuel 0 ()

/-- The number of edges that are looked at, `(n - 1) * nedges` as an `unsigned int`. -/
def budget (n nedges : ℕ) : ℕ := ((n + (2 ^ 64 - 1)) % 2 ^ 64 * nedges) % 2 ^ 64 % 2 ^ 32

def differenceConstraints (fuel : ℕ) (constraintsList : List (List ℤ)) :
    Except Stop (List ℤ) := do
  let n := constraintsList.length
  let (queue, nedges) ← countedLoop .running 32 1 n (fun _ => true) (checkVariable constraintsList)
    fuel 0 ([], 0)
  let s ← relaxQueue constraintsList fuel
    {ret := fun _ => 0, isInqueue := fun i => i < n, queue := queue, iter := budget n nedges}
  countedLoop .running 32 1 n (fun _ => true) (verifyVariable constraintsList s.ret fuel) fuel 0 ()
  .ok ((List.range n).map s.ret)

end Deai.DifferenceConstraints
