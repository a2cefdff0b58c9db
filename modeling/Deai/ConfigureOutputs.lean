import Deai.BipartiteMatch
import Deai.OutputModes

/-!
# The configuration of outputs

`configure_outputs` of the built-in script of the xorg plugin. What the X server answers is a function
of the write requests that were sent before, so that nothing is said about how it obeys them. Tables
are lists in the order in which the script goes through them; numbers of the script start at 1.
-/
namespace Deai.ConfigureOutputs
open OutputModes

/-- Errors of the script. -/
inductive LuaError where
  | nilIndex
  | nilArithmetic
  | nilCompare
  | nilCall
  | badArgument
  | lengthError
  | thrown (message : String)
  deriving DecidableEq

/-- A call that has not returned: it is still running, a module it calls has done something undefined,
or an error was raised. -/
inductive Stop where
  | running
  | crash
  | raised (e : LuaError)
  deriving DecidableEq

/-! ## What is read from the server -/

structure Monitor where
  name : String
  model : Option String
  make : Option String
  serial : Option String
  output : ℕ

structure OutputInfo where
  name : String
  modes : List Mode
  numPreferred : ℕ
  mmWidth : UInt32
  mmHeight : UInt32

structure ViewConfig where
  x : ℤ
  y : ℤ
  width : ℕ
  height : ℕ

/-- The answers of the server. There is no info for an output, and no configuration of a view, when the
query fails. -/
structure Screen where
  monitors : List Monitor
  info : ℕ → Option OutputInfo
  views : ℕ → List ℕ
  allViews : List ℕ
  outputs : List ℕ
  currentView : ℕ → Option ℕ
  viewConfig : ℕ → Option ViewConfig

/-- A request that changes the configuration of a view or the size of the screen. -/
inductive Write where
  | viewConfig (view : ℕ) (x y : ℤ) (mode : ℕ) (outputs : List ℕ)
  | screenSize (width height mmWidth mmHeight : ℤ)
  deriving DecidableEq

/-! ## The argument -/

/-- How a configuration names an output. -/
inductive Match where
  | name (name : String)
  | info (model make serial : Option String)

inductive Direction where
  | left
  | right
  | up
  | down
  deriving DecidableEq

structure OutputConfig where
  matched : Match
  left : Option (List Match)
  right : Option (List Match)
  up : Option (List Match)
  down : Option (List Match)
  width : Option ℤ
  height : Option ℤ

def OutputConfig.get (config : OutputConfig) : Direction → Option (List Match)
  | .left => config.left
  | .right => config.right
  | .up => config.up
  | .down => config.down

/-- The numbers of a direction: -1 for x and 0 for y, and 0 to the left or up and 1 to the right or
down. -/
def dirs : Direction → ℤ × ℤ
  | .left => (-1, 0)
  | .right => (-1, 1)
  | .up => (0, 0)
  | .down => (0, 1)

/-- The orders in which `pairs` goes through the directions, for each configuration. -/
def Traversal : Type := {order : ℕ → List Direction // ∀ i, (order i).Perm [.left, .right, .up, .down]}

/-! ## Tables -/

/-- What a table becomes that is passed to a module: at most `INT_MAX - 1` elements are kept. -/
def toArray {α : Type} (table : List α) : List α := table.take (2 ^ 31 - 2)

/-- The value of `t[x]` after `t[xs[i]] = i` for all `i`. -/
def indexOf (x : ℕ) : ℕ → List ℕ → Option ℕ
  | _, [] => none
  | i, y :: rest => (indexOf x (i + 1) rest).or (if y = x then some i else none)

/-- `table.insert(tables[k], x)` -/
def insertInto (tables : List (List ℤ)) (k x : ℤ) : Except Stop (List (List ℤ)) :=
  if 0 < k ∧ k ≤ tables.length then .ok (tables.modify (k.toNat - 1) (· ++ [x]))
  else .error (.raised .badArgument)

/-! ## Step 1: outputs and modes -/

def matchesInfo (m : Monitor) (model make serial : Option String) : Bool :=
  (model = none ∨ model = m.model) ∧ (make = none ∨ make = m.make) ∧ (serial = none ∨ serial = m.serial)

def findOutputImpl (monitors : List Monitor) : Match → Except Stop (Option ℕ)
  | .name name =>
      match monitors.find? fun m => m.name = name with
      | some m => .ok (some m.output)
      | none => .error (.raised .nilIndex)
  | .info model make serial => .ok ((monitors.find? fun m => matchesInfo m model make serial).map (·.output))

def selectOutput (screen : Screen) (config : OutputConfig) : Except Stop ℕ := do
  match ← findOutputImpl screen.monitors config.matched with
  | some output => .ok output
  | none => .error (.raised .nilIndex)

structure OutputSize where
  width : ℕ
  height : ℕ
  mmWidth : ℕ
  mmHeight : ℕ
  mode : Mode

/-- The numbers of a size by their index. -/
def OutputSize.get (size : OutputSize) (k : ℤ) : ℤ :=
  if k = 1 then size.width else if k = 2 then size.height
  else if k = 3 then size.mmWidth else size.mmHeight

def sizeOf (info : OutputInfo) (mode : Mode) : OutputSize :=
  ⟨mode.width.toNat, mode.height.toNat, info.mmWidth.toNat, info.mmHeight.toNat, mode⟩

def selectSize (screen : Screen) (output : ℕ) (config : OutputConfig) : Except Stop OutputSize :=
  match config.width, config.height with
  | some width, some height =>
      match screen.info output with
      | none => .error (.raised .badArgument)
      | some info =>
          match sizedMode info.modes width height with
          | some mode => .ok (sizeOf info mode)
          | none => .error (.raised .nilIndex)
  | _, _ =>
      match screen.info output with
      | none => .error (.raised .nilCall)
      | some info =>
          match preferredMode info.modes info.numPreferred with
          | some mode => .ok (sizeOf info mode)
          | none => .error (.raised .nilIndex)

def selectSizes (screen : Screen) : List ℕ → List OutputConfig → Except Stop (List OutputSize)
  | output :: outputs, config :: configs => do
      let size ← selectSize screen output config
      let sizes ← selectSizes screen outputs configs
      .ok (size :: sizes)
  | _, _ => .ok []

/-! ## Step 2: constraints -/

def sizeAt (sizes : List OutputSize) (i : ℕ) : Except Stop OutputSize :=
  match sizes[i - 1]? with
  | some size => .ok size
  | none => .error (.raised .nilIndex)

/-- The two constraints of a relation between the outputs `i` and `otherIndex`. -/
def addConstraints (sizes : List OutputSize) (i : ℕ) (k : Direction) (otherIndex : ℕ)
    (constraints : List (List ℤ)) : Except Stop (List (List ℤ)) := do
  let v := dirs k
  let size ← sizeAt sizes i
  let otherSize ← sizeAt sizes otherIndex
  let diff1 := size.get (v.1 + 2) * v.2 + otherSize.get (v.1 + 2) * (1 - v.2)
  let diff2 := size.get (v.1 + 4) * v.2 + otherSize.get (v.1 + 4) * (1 - v.2)
  if v.2 = 0 then do
    let constraints ← insertInto constraints (4 * i + v.1 - 2) (4 * otherIndex + v.1 - 2 - 1)
    let constraints ← insertInto constraints (4 * i + v.1 - 2) (-diff1)
    let constraints ← insertInto constraints (4 * i + v.1) (4 * otherIndex + v.1 - 1)
    insertInto constraints (4 * i + v.1) (-diff2)
  else do
    let constraints ← insertInto constraints (4 * otherIndex + v.1 - 2) (4 * i + v.1 - 2 - 1)
    let constraints ← insertInto constraints (4 * otherIndex + v.1 - 2) (-diff1)
    let constraints ← insertInto constraints (4 * otherIndex + v.1) (4 * i + v.1 - 1)
    insertInto constraints (4 * otherIndex + v.1) (-diff2)

def addRelation (screen : Screen) (outputs : List ℕ) (sizes : List OutputSize) (i : ℕ) (k : Direction)
    (constraints : List (List ℤ)) (other : Match) : Except Stop (List (List ℤ)) := do
  match ← findOutputImpl screen.monitors other with
  | none => .error (.raised .nilIndex)
  | some otherOutput =>
      match indexOf otherOutput 1 outputs with
      | none => .error (.raised .nilIndex)
      | some otherIndex => addConstraints sizes i k otherIndex constraints

def addDirection (screen : Screen) (outputs : List ℕ) (sizes : List OutputSize) (i : ℕ)
    (config : OutputConfig) (constraints : List (List ℤ)) (k : Direction) :
    Except Stop (List (List ℤ)) :=
  ((config.get k).getD []).foldlM (addRelation screen outputs sizes i k) constraints

def addConfigs (order : Traversal) (screen : Screen) (outputs : List ℕ) (sizes : List OutputSize) :
    ℕ → List OutputConfig → List (List ℤ) → Except Stop (List (List ℤ))
  | _, [], constraints => .ok constraints
  | i, config :: configs, constraints => do
      let constraints ← (order.1 i).foldlM (addDirection screen outputs sizes i config) constraints
      addConfigs order screen outputs sizes (i + 1) configs constraints

/-! ## Step 2.5: positions -/

def solve (fuel : ℕ) (constraints : List (List ℤ)) : Except Stop (List ℤ) :=
  match DifferenceConstraints.differenceConstraints fuel (toArray (constraints.map toArray)) with
  | .ok solution => .ok solution
  | .error .running => .error .running
  | .error .overflow => .error .crash
  | .error (.invalidArgument message) => .error (.raised (.thrown message))

/-! ## Step 3: views -/

def viewIndex (screen : Screen) (view : ℕ) : Except Stop ℤ :=
  match indexOf view 1 screen.allViews with
  | some index => .ok (index - 1)
  | none => .error (.raised .nilArithmetic)

def matchViews (fuel : ℕ) (possibleViews : List (List ℤ)) : Except Stop (List ℤ) :=
  match BipartiteMatch.bipartiteMatch fuel (toArray (possibleViews.map toArray)) with
  | .ok selected => .ok selected
  | .error .running => .error .running
  | .error .outOfBounds => .error .crash
  | .error .overflow => .error .crash
  | .error .lengthError => .error (.raised .lengthError)
  | .error (.invalidArgument message) => .error (.raised (.thrown message))

/-- The view of an output, from its entry in the result of the match. -/
def selectView (screen : Screen) (output : ℕ) (view : ℤ) : Except Stop ℕ :=
  if view = -1 then
    match screen.info output with
    | some info => .error (.raised (.thrown ("Unable to allocate view for output " ++ info.name)))
    | none => .error (.raised .nilIndex)
  else
    match screen.allViews[view.toNat]? with
    | some view => .ok view
    | none => .error (.raised .nilIndex)

def selectViews (screen : Screen) : List ℕ → List ℤ → Except Stop (List ℕ)
  | output :: outputs, view :: views => do
      let selected ← selectView screen output view
      let rest ← selectViews screen outputs views
      .ok (selected :: rest)
  | _, _ => .ok []

def allocateViews (fuel : ℕ) (screen : Screen) (outputs : List ℕ) : Except Stop (List ℕ) := do
  if screen.allViews = [] then .error (.raised .badArgument)
  else do
    let possibleViews ← outputs.mapM fun output => (screen.views output).mapM (viewIndex screen)
    let selected ← matchViews fuel possibleViews
    selectViews screen outputs selected

/-! ## Step 4: the size of the screen -/

/-- The tables `min` and `max`. -/
structure Bounds where
  min : ℕ → Option ℤ
  max : ℕ → Option ℤ

/-- The body of the loop for the number `a` of the output `i`, where `a` is `4 - k`. -/
def boundNumber (solution : List ℤ) (size : OutputSize) (i : ℕ) (bounds : Bounds) (a : ℕ) :
    Except Stop Bounds :=
  match solution[4 * i - (4 - a) - 1]?, bounds.min a, bounds.max a with
  | none, none, _ => .error (.raised .nilArithmetic)
  | none, some _, _ => .error (.raised .nilCompare)
  | some s, min, max =>
      .ok ⟨Function.update bounds.min a (if min.all (s < ·) then some s else min),
        Function.update bounds.max a (if max.all (s + size.get a > ·) then some (s + size.get a) else max)⟩

def boundOutputs (solution : List ℤ) : ℕ → List OutputSize → Bounds → Except Stop Bounds
  | _, [], bounds => .ok bounds
  | i, size :: sizes, bounds => do
      let bounds ← [4, 3, 2, 1].foldlM (boundNumber solution size i) bounds
      boundOutputs solution (i + 1) sizes bounds

structure Plan where
  outputs : List ℕ
  sizes : List OutputSize
  solution : List ℤ
  selectedViews : List ℕ
  bounds : Bounds

/-- Everything before the first write. -/
def planOutputs (fuel : ℕ) (order : Traversal) (screen : Screen) (configs : List OutputConfig) :
    Except Stop Plan := do
  let outputs ← configs.mapM (selectOutput screen)
  let sizes ← selectSizes screen outputs configs
  let constraints ← addConfigs order screen outputs sizes 1 configs (List.replicate (4 * configs.length) [])
  let solution ← solve fuel constraints
  let selectedViews ← allocateViews fuel screen outputs
  let bounds ← boundOutputs solution 1 sizes ⟨fun _ => none, fun _ => none⟩
  .ok ⟨outputs, sizes, solution, selectedViews, bounds⟩

/-- `max[a] - min[a]` -/
def Plan.extent (plan : Plan) (a : ℕ) : Except Stop ℤ :=
  match plan.bounds.max a, plan.bounds.min a with
  | some max, some min => .ok (max - min)
  | _, _ => .error (.raised .nilArithmetic)

/-- The view selected for an output. -/
def Plan.viewOf (plan : Plan) (output : ℕ) : Option ℕ :=
  (indexOf output 1 plan.outputs).bind fun i => plan.selectedViews[i - 1]?

/-- Whether the view that drives an output is turned off. -/
def Plan.turnsOff (plan : Plan) (output view : ℕ) (config : ViewConfig) : Except Stop Bool :=
  if config.x < 0 then .ok true
  else do
    let width ← plan.extent 1
    if config.x + config.width > width then .ok true
    else if config.y < 0 then .ok true
    else do
      let height ← plan.extent 2
      if config.y + config.height > height then .ok true
      else
        match plan.viewOf output with
        | none => .error (.raised .nilIndex)
        | some selected => .ok (selected ≠ view)

/-- The loop that turns off outputs; `writes` are the requests sent so far. -/
def turnOffOutputs (server : List Write → Screen) (plan : Plan) :
    List ℕ → List Write → List Write × Except Stop Unit
  | [], writes => (writes, .ok ())
  | output :: outputs, writes =>
      match (server writes).currentView output with
      | none => turnOffOutputs server plan outputs writes
      | some view =>
          match (server writes).viewConfig view with
          | none => (writes, .error (.raised .nilCompare))
          | some config =>
              match plan.turnsOff output view config with
              | .error e => (writes, .error e)
              | .ok false => turnOffOutputs server plan outputs writes
              | .ok true => turnOffOutputs server plan outputs (writes ++ [.viewConfig view 0 0 0 []])

def screenSize (plan : Plan) : Except Stop Write := do
  let width ← plan.extent 1
  let height ← plan.extent 2
  let mmWidth ← plan.extent 3
  let mmHeight ← plan.extent 4
  .ok (.screenSize width height mmWidth mmHeight)

/-- The number `a` of the position of the output `i`: x, y, x_mm and y_mm. -/
def Plan.position (plan : Plan) (i a : ℕ) : ℤ :=
  plan.solution.getD (4 * i - (4 - a) - 1) 0 - (plan.bounds.min a).getD 0

/-- The last loop. -/
def placeOutputs (plan : Plan) : ℕ → List ℕ → List OutputSize → List ℕ → List Write
  | i, output :: outputs, size :: sizes, view :: views =>
      .viewConfig view (plan.position i 1) (plan.position i 2) size.mode.id [output] ::
        placeOutputs plan (i + 1) outputs sizes views
  | _, _, _, _ => []

/-- The requests that are sent, and how the call ends. -/
def configureOutputs (fuel : ℕ) (order : Traversal) (server : List Write → Screen)
    (configs : List OutputConfig) : List Write × Except Stop Unit :=
  match planOutputs fuel order (server []) configs with
  | .error e => ([], .error e)
  | .ok plan =>
      if (server []).outputs = [] then ([], .error (.raised .badArgument))
      else
        match turnOffOutputs server plan (server []).outputs [] with
        | (writes, .error e) => (writes, .error e)
        | (writes, .ok ()) =>
            match screenSize plan with
            | .error e => (writes, .error e)
            | .ok size =>
                (writes ++ size :: placeOutputs plan 1 plan.outputs plan.sizes plan.selectedViews, .ok ())

end Deai.ConfigureOutputs
