import Deai.CountedLoop
import Deai.DifferenceConstraints

/-!
# The search for a bipartite matching

`bipartite_match` of the module `misc`. The graph has one list for each node on the left, with the
indices of its neighbours on the right. An access outside a vector stops the model.
-/
namespace Deai.BipartiteMatch
open CountedLoop
open DifferenceConstraints (toUnsigned)

/-- A call that has not returned a vector: it is still running, it has made an access outside a
vector or a sum outside `int64_t`, or an exception was thrown. -/
inductive Stop where
  | running
  | outOfBounds
  | overflow
  | lengthError
  | invalidArgument (message : String)
  deriving DecidableEq

structure State where
  ret : List ℤ
  right : List ℤ
  visited : List Bool

/-- An `int64_t` that is used as an index. -/
def toSize (x : ℤ) : ℕ := (x % 2 ^ 64).toNat

def readAt {α : Type} (xs : List α) (i : ℕ) : Except Stop α :=
  match xs[i]? with
  | some x => .ok x
  | none => .error .outOfBounds

def writeAt {α : Type} (xs : List α) (i : ℕ) (x : α) : Except Stop (List α) :=
  if i < xs.length then .ok (xs.set i x) else .error .outOfBounds

/-! ## The check of the input -/

/-- `right.resize(j + 1, -1)`, for a vector that is shorter. -/
def resize (right : List ℤ) (j : ℤ) : Except Stop (List ℤ) :=
  if 2 ^ 63 ≤ j + 1 then .error .overflow
  else if 2 ^ 60 ≤ j + 1 then .error .lengthError
  else .ok (right ++ List.replicate (toSize (j + 1) - right.length) (-1))

def checkEdges : List ℤ → List ℤ → Except Stop (List ℤ)
  | [], right => .ok right
  | j :: rest, right =>
      if j < 0 then .error (.invalidArgument "Invalid graph, index out of bounds")
      else if right.length ≤ toSize j then do
        let right ← resize right j
        checkEdges rest right
      else checkEdges rest right

def checkNode (graph : List (List ℤ)) (i : ℕ) (right : List ℤ) : Except Stop (List ℤ) := do
  let edges ← readAt graph i
  checkEdges edges right

/-! ## The search -/

/-- `ret[curr] = j; right[j] = curr; return true;` -/
def take (curr : ℕ) (j : ℤ) (s : State) : Except Stop (Bool × State) := do
  let ret ← writeAt s.ret curr j
  let right ← writeAt s.right (toSize j) curr
  .ok (true, {s with ret := ret, right := right})

/-- The loop of `dfs` over the edges of `curr`. -/
def scan (dfs : ℕ → State → Except Stop (Bool × State)) (curr : ℕ) :
    List ℤ → State → Except Stop (Bool × State)
  | [], s => .ok (false, s)
  | j :: rest, s => do
      let seen ← readAt s.visited (toSize j)
      if seen = true then scan dfs curr rest s
      else do
        let visited ← writeAt s.visited (toSize j) true
        let owner ← readAt s.right (toSize j)
        if owner = -1 then take curr j {s with visited := visited}
        else do
          let (found, s) ← dfs (toUnsigned owner) {s with visited := visited}
          if found = true then take curr j s else scan dfs curr rest s

def dfs (graph : List (List ℤ)) : ℕ → ℕ → State → Except Stop (Bool × State)
  | 0, _, _ => .error .running
  | fuel + 1, curr, s => do
      let edges ← readAt graph curr
      scan (dfs graph fuel) curr edges s

def searchFrom (graph : List (List ℤ)) (fuel i : ℕ) (s : State) : Except Stop State := do
  let (_, s) ← dfs graph fuel i {s with visited := List.replicate s.visited.length false}
  .ok s

def bipartiteMatch (fuel : ℕ) (graph : List (List ℤ)) : Except Stop (List ℤ) := do
  let n := graph.length
  let right ← countedLoop .running 32 1 n (fun _ => true) (checkNode graph) fuel 0 []
  let s ← countedLoop .running 32 1 n (fun _ => true) (searchFrom graph fuel) fuel 0
    {ret := List.replicate n (-1), right := right, visited := List.replicate n false}
  .ok s.ret

end Deai.BipartiteMatch
