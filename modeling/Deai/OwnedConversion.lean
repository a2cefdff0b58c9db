import Deai.Conversion

/-!
# Who owns what in a conversion

The instance of `DeaiVariantConverter` that moves: it takes the value over, an operator moves
parts of it into the result, and the destructor frees what the field `type` says is left. Here
a value comes with the blocks of memory it lies in. A conversion reports what it has released
and what it has acquired: blocks of memory, and strong and weak references.
-/
namespace Deai.OwnedConversion
open Value Numbers Conversion

abbrev Block := ℕ

/-- The values that own nothing. -/
inductive Scalar where
  | nil
  | bool (b : Bool)
  | nint (i : Int32)
  | nuint (n : UInt32)
  | int (i : Int64)
  | uint (n : UInt64)
  | float (bits : UInt64)
  | pointer (p : UInt64)
  | stringLiteral (s : String)

/-- A value with its memory: the characters of a string, the elements of an array, the elements
of a tuple and the value that each of them points to, and the value that a variant points to.
Null pointers own nothing. -/
inductive Owned where
  | scalar (s : Scalar)
  | emptyObject (o : ObjRef)
  | object (o : ObjRef)
  | weakObject (o : ObjRef)
  | string (data : Option Block) (s : String)
  | array (elemType : DiType) (arr : Option Block) (elems : List Owned)
  | tuple (elements : Option Block) (cells : List (Option Block × Owned))
  | variant (value : Option Block) (v : Owned)

inductive Resource where
  | block (b : Block)
  | ref (r : Ref)
  deriving DecidableEq

/-- What `free` releases. -/
def block (b : Option Block) : List Resource := b.toList.map .block

def Scalar.erase : Scalar → DiValue
  | .nil => .nil
  | .bool b => .bool b
  | .nint i => .nint i
  | .nuint n => .nuint n
  | .int i => .int i
  | .uint n => .uint n
  | .float bits => .float bits
  | .pointer p => .pointer p
  | .stringLiteral s => .stringLiteral s

namespace Owned

mutual
/-- The value without its memory. -/
def erase : Owned → DiValue
  | .scalar s => s.erase
  | .emptyObject o => .emptyObject o
  | .object o => .object o
  | .weakObject o => .weakObject o
  | .string _ s => .string s
  | .array t _ es => .array t (eraseList es)
  | .tuple _ cs => .tuple (eraseCells cs)
  | .variant _ v => .variant v.erase

def eraseList : List Owned → List DiValue
  | [] => []
  | v :: vs => v.erase :: eraseList vs

def eraseCells : List (Option Block × Owned) → List DiValue
  | [] => []
  | (_, v) :: cs => v.erase :: eraseCells cs
end

mutual
/-- What `di_free_value` releases. -/
def resources : Owned → List Resource
  | .scalar _ => []
  | .emptyObject o => [.ref (.strong o)]
  | .object o => [.ref (.strong o)]
  | .weakObject o => [.ref (.weak o)]
  | .string b _ => block b
  | .array _ b es => resourcesList es ++ block b
  | .tuple b cs => resourcesCells cs ++ block b
  | .variant b v => v.resources ++ block b

def resourcesList : List Owned → List Resource
  | [] => []
  | v :: vs => v.resources ++ resourcesList vs

def resourcesCells : List (Option Block × Owned) → List Resource
  | [] => []
  | (b, v) :: cs => v.resources ++ block b ++ resourcesCells cs
end

def type (v : Owned) : DiType := typeOf v.erase

mutual
/-- The elements of an array have its element type, and an empty array has no memory. -/
def WellFormed : Owned → Prop
  | .array t b es => (∀ e ∈ es, e.type = t) ∧ (es = [] → b = none) ∧ WellFormedList es
  | .tuple _ cs => WellFormedCells cs
  | .variant _ v => v.WellFormed
  | _ => True

def WellFormedList : List Owned → Prop
  | [] => True
  | v :: vs => v.WellFormed ∧ WellFormedList vs

def WellFormedCells : List (Option Block × Owned) → Prop
  | [] => True
  | (_, v) :: cs => v.WellFormed ∧ WellFormedCells cs
end

end Owned

/-! ## The converter -/

/-- An operator: what it returns, what it leaves to the destructor, and what it has freed and
acquired itself. -/
structure Move where
  result : Option Owned
  left : Owned := .scalar .nil
  freed : List Resource := []
  acquired : List Resource := []

structure Report where
  result : Option Owned
  released : List Resource
  acquired : List Resource

/-- The destructor of the converter. -/
def Move.finish (m : Move) : Report :=
  ⟨m.result, m.freed ++ m.left.resources, m.acquired⟩

abbrev OwnedOperator := Owned → Option (Except Trap Move)

section
variable (E : Env) (next : Block)

/-- A scalar of the target type. -/
def ofScalar : DiValue → Scalar
  | .bool b => .bool b
  | .nint i => .nint i
  | .nuint n => .nuint n
  | .int i => .int i
  | .uint n => .uint n
  | .float bits => .float bits
  | .pointer p => .pointer p
  | .stringLiteral s => .stringLiteral s
  | _ => .nil

/-- The operators for numbers, booleans, string literals and pointers have nothing to own. -/
def scalarOperator (op : Operator DiValue) : OwnedOperator := fun v =>
  (op v.erase).map fun r => r.map fun w => {result := w.map fun x => .scalar (ofScalar x), left := v}

def stringOperator : OwnedOperator
  | .string b s => some (.ok {result := some (.string b s)})
  | .scalar (.stringLiteral s) =>
      some (.ok {
        result := some (.string (some next) s)
        left := .scalar (.stringLiteral s)
        acquired := block (some next)})
  | _ => none

/-- `tuple_to_array`. A tuple with one element lends its memory to the array. -/
def tupleToArray (b : Option Block) (cells : List (Option Block × Owned)) : Move :=
  match cells with
  | [] => {result := some (.array .nil none []), left := .tuple b []}
  | [(c, x)] => {result := some (.array x.type c [x]), left := .tuple b [(c, x)]}
  | (c, x) :: cs =>
      if cs.all (fun y => y.2.type = x.type) then
        {result := some (.array x.type (some next) (x :: cs.map (·.2)))
         freed := block c ++ cs.flatMap (fun y => block y.1) ++ block b
         acquired := block (some next)}
      else {result := none, left := .tuple b ((c, x) :: cs)}

/-- The elements get new memory of their own, from `next` on. -/
def cellsOf (next : Block) : List Owned → List (Option Block × Owned)
  | [] => []
  | v :: vs => (some next, v) :: cellsOf (next + 1) vs

def arrayToTuple (t : DiType) (b : Option Block) (es : List Owned) : Move :=
  match es with
  | [] => {result := some (.tuple none []), left := .array t b []}
  | es =>
      {result := some (.tuple (some next) (cellsOf (next + 1) es))
       freed := block b
       acquired := (List.range' next (es.length + 1)).map .block}

def arrayOperator : OwnedOperator
  | .array t b es => some (.ok {result := some (.array t b es)})
  | .scalar .nil => some (.ok {result := some (.array .nil none [])})
  | .emptyObject o => some (.ok {result := some (.array .nil none []), left := .emptyObject o})
  | .tuple b cells => some (.ok (tupleToArray next b cells))
  | _ => none

def tupleOperator : OwnedOperator
  | .tuple b cells => some (.ok {result := some (.tuple b cells)})
  | .scalar .nil => some (.ok {result := some (.tuple none [])})
  | .emptyObject o => some (.ok {result := some (.tuple none []), left := .emptyObject o})
  | .array t b es => some (.ok (arrayToTuple next t b es))
  | _ => none

def objectOperator : OwnedOperator
  | .object o => some (.ok {result := some (.object o)})
  | .emptyObject o => some (.ok {result := some (.object o)})
  | .weakObject o =>
      some (.ok
        (if E.upgradable o then
          {result := some (.object o), left := .weakObject o, acquired := [.ref (.strong o)]}
        else {result := none, left := .weakObject o}))
  | _ => none

/-- No reference is taken to the object of `dead_weak_ref`. -/
def weakObjectOperator : OwnedOperator
  | .weakObject o => some (.ok {result := some (.weakObject o)})
  | .object o =>
      some (.ok
        {result := some (.weakObject o), left := .object o, acquired := [.ref (.weak o)]})
  | .emptyObject o =>
      some (.ok
        {result := some (.weakObject o), left := .emptyObject o, acquired := [.ref (.weak o)]})
  | .scalar .nil => some (.ok {result := some (.weakObject E.deadWeakRef)})
  | _ => none

/-- The field `type` keeps its value, so the destructor frees what the variant points to. -/
def variantOperator : OwnedOperator := fun v =>
  some (.ok {result := some (.variant (some next) v), left := v, acquired := block (some next)})

def ownedOperatorFor (t : DiType) : OwnedOperator :=
  match t with
  | .int | .uint | .nint | .nuint | .float | .bool | .stringLiteral | .pointer =>
      scalarOperator (operatorFor E false t)
  | .string => stringOperator next
  | .array => arrayOperator next
  | .tuple => tupleOperator next
  | .object => objectOperator E
  | .weakObject => weakObjectOperator E
  | .variant => variantOperator next
  | .nil | .emptyObject | .any | .lastType => fun v => some (.ok {result := none, left := v})

end

def Report.free (rs : List Resource) (r : Report) : Report := {r with released := rs ++ r.released}

/-- `try_from_inner` frees the memory around the inner value, which it has copied. -/
def convertOwned (op : OwnedOperator) : Owned → Except Trap Report
  | .variant b x =>
      ((op (.variant b x)).map fun r => r.map Move.finish).getD
        ((convertOwned op x).map (·.free (block b)))
  | .tuple b [(c, x)] =>
      ((op (.tuple b [(c, x)])).map fun r => r.map Move.finish).getD
        ((convertOwned op x).map (·.free (block b ++ block c)))
  | .array t b [x] =>
      ((op (.array t b [x])).map fun r => r.map Move.finish).getD
        ((convertOwned op x).map (·.free (block b)))
  | v =>
      ((op v).map fun r => r.map Move.finish).getD
        (.ok (Move.finish {result := none, left := v}))

/-- The induction over the values that `try_from_inner` looks into. -/
theorem inner_induction {motive : Owned → Prop} (variant : ∀ b x, motive x → motive (.variant b x))
    (tuple : ∀ b c x, motive x → motive (.tuple b [(c, x)]))
    (array : ∀ t b x, motive x → motive (.array t b [x]))
    (other : ∀ v, (∀ b x, v = .variant b x → False) → (∀ b c x, v = .tuple b [(c, x)] → False) →
      (∀ t b x, v = .array t b [x] → False) → motive v) (v : Owned) : motive v := by
  induction v using convertOwned.induct with
  | case1 b x ih => exact variant b x ih
  | case2 b c x ih => exact tuple b c x ih
  | case3 t b x ih => exact array t b x ih
  | case4 v hvariant htuple harray => exact other v hvariant htuple harray

theorem convertOwned_variant (op : OwnedOperator) (b : Option Block) (x : Owned) :
    convertOwned op (.variant b x) = ((op (.variant b x)).map fun r => r.map Move.finish).getD
      ((convertOwned op x).map (·.free (block b))) := rfl

theorem convertOwned_tuple (op : OwnedOperator) (b c : Option Block) (x : Owned) :
    convertOwned op (.tuple b [(c, x)]) =
      ((op (.tuple b [(c, x)])).map fun r => r.map Move.finish).getD
        ((convertOwned op x).map (·.free (block b ++ block c))) := rfl

theorem convertOwned_array (op : OwnedOperator) (t : DiType) (b : Option Block) (x : Owned) :
    convertOwned op (.array t b [x]) = ((op (.array t b [x])).map fun r => r.map Move.finish).getD
      ((convertOwned op x).map (·.free (block b))) := rfl

theorem convertOwned_other (op : OwnedOperator) {v : Owned} (hvariant : ∀ b x, v = .variant b x → False)
    (htuple : ∀ b c x, v = .tuple b [(c, x)] → False)
    (harray : ∀ t b x, v = .array t b [x] → False) :
    convertOwned op v = ((op v).map fun r => r.map Move.finish).getD
      (.ok (Move.finish {result := none, left := v})) := by
  rw [convertOwned]
  · exact hvariant
  · exact htuple
  · exact harray

/-- `di_type_conversion` with `borrowing` false; `next` is where `malloc` finds free memory. -/
def diTypeConversionOwned (E : Env) (next : Block) (toType : DiType) (v : Owned) :
    Except Trap Report :=
  if v.type = toType then .ok ⟨some v, [], []⟩
  else convertOwned (ownedOperatorFor E next toType) v

/-! ## What is conserved -/

/-- The resources of the result of a conversion. -/
def Report.held (r : Report) : List Resource := (r.result.map Owned.resources).getD []

/-- Freeing the result releases what freeing the source would have released, each block and each
reference once. A result has the target type; if there is none, nothing was acquired. -/
structure Conserves (target : DiType) (v : Owned) (r : Report) : Prop where
  balance : ∀ x, r.released.count x + r.held.count x = v.resources.count x + r.acquired.count x
  refused : r.result = none → r.acquired = []
  result : ∀ w, r.result = some w → w.type = target ∧ w.WellFormed

/-- The value inside all variants around it. -/
def stripOwned : Owned → Owned
  | .variant _ x => stripOwned x
  | v => v

/-- The value inside all that `try_from_inner` unwraps. -/
def core : Owned → Owned
  | .variant _ x => core x
  | .tuple _ [(_, x)] => core x
  | .array _ _ [x] => core x
  | v => v

/-- When a conversion conserves what the source owns: a value becomes a variant only if it owns
nothing, a tuple with one element becomes an array only if the element owns nothing, nil does
not become a weak reference, and integers become doubles that the target type can hold. -/
def Conservable (target : DiType) (v : Owned) : Prop :=
  match target with
  | .variant => v.resources = []
  | .array => ∀ b c x, stripOwned v = .tuple b [(c, x)] → c = none ∧ x.resources = []
  | .weakObject => core v ≠ .scalar .nil
  | .int | .uint | .nint | .nuint => ∀ t x, intType target = some t →
      integerOf (core v).erase = some x → t.Fits (toDouble x)
  | _ => True

section
variable {E : Env} {next : Block} {target : DiType} {v w : Owned} {r : Report}

/-- A refusal that leaves everything to the destructor. -/
theorem conserves_refused (v : Owned) : Conserves target v (Move.finish {result := none, left := v}) where
  balance x := by simp [Move.finish, Report.held]
  refused _ := rfl
  result := nofun

/-- A result that the whole source has moved into. -/
theorem conserves_moved (htype : w.type = target) (hwf : w.WellFormed)
    (hres : w.resources = v.resources) : Conserves target v (Move.finish {result := some w}) where
  balance x := by simp [Move.finish, Report.held, Owned.resources, hres]
  refused := nofun
  result := by
    rintro _ ⟨⟩
    exact ⟨htype, hwf⟩

/-- A result that owns nothing, while the source is left to the destructor. -/
theorem conserves_unowned (htype : w.type = target) (hwf : w.WellFormed) (hres : w.resources = []) :
    Conserves target v (Move.finish {result := some w, left := v}) where
  balance x := by simp [Move.finish, Report.held, hres]
  refused := nofun
  result := by
    rintro _ ⟨⟩
    exact ⟨htype, hwf⟩

/-- A result with references of its own. -/
theorem conserves_acquired (htype : w.type = target) (hwf : w.WellFormed) :
    Conserves target v (Move.finish {result := some w, left := v, acquired := w.resources}) where
  balance x := by simp [Move.finish, Report.held]
  refused := nofun
  result := by
    rintro _ ⟨⟩
    exact ⟨htype, hwf⟩

/-- Memory around the inner value is freed, and nothing else is different. -/
theorem conserves_free {rs : List Resource}
    (hres : ∀ x, v.resources.count x = rs.count x + w.resources.count x) :
    Conserves target v (r.free rs) ↔ Conserves target w r := by
  constructor
  · intro h
    refine ⟨fun x => ?_, h.refused, h.result⟩
    have hb := h.balance x
    simp only [Report.free, Report.held, List.count_append] at hb ⊢
    have hx := hres x
    omega
  · intro h
    refine ⟨fun x => ?_, h.refused, h.result⟩
    have hb := h.balance x
    simp only [Report.free, Report.held, List.count_append] at hb ⊢
    have hx := hres x
    omega

/-- An operator that converts the value itself conserves it exactly when it can. -/
def Exact (E : Env) (next : Block) (target : DiType) (w : Owned) : Prop :=
  ∀ r, ownedOperatorFor E next target w = some r →
    ((∃ m, r = .ok m ∧ Conserves target w m.finish) ↔ Conservable target w)

theorem exact_of_conserves (hsound : Conservable target w)
    (h : ∀ r, ownedOperatorFor E next target w = some r → ∃ m, r = .ok m ∧
      Conserves target w m.finish) : Exact E next target w :=
  fun r hr => iff_of_true (h r hr) hsound

theorem conserves_scalar {d : DiValue} (htype : typeOf d = target) (hd : (ofScalar d).erase = d) :
    Conserves target v (Move.finish {result := some (.scalar (ofScalar d)), left := v}) := by
  have hscalar : (Owned.scalar (ofScalar d)).type = target := by
    change typeOf (ofScalar d).erase = target
    rw [hd, htype]
  exact conserves_unowned hscalar trivial rfl

/-- A scalar of an integer type, which the operators for numbers convert. -/
theorem exact_integer {ty : IntType} (hty : intType target = some ty) (w : Owned) :
    Exact E next target w := by
  have hop : operatorFor E false target =
      numberOperator (fun x => (checkedInt ty x).map (ofInteger target)) fun _ => none := by
    unfold intType at hty
    split at hty <;> cases hty <;> rfl
  have howned : ownedOperatorFor E next target = scalarOperator (operatorFor E false target) := by
    unfold intType at hty
    split at hty <;> cases hty <;> rfl
  have hcond : ∀ w, Conservable target w ↔ ∀ x, integerOf (core w).erase = some x →
      ty.Fits (toDouble x) := by
    intro w
    have hunfold : Conservable target w ↔ ∀ t x, intType target = some t →
        integerOf (core w).erase = some x → t.Fits (toDouble x) := by
      unfold intType at hty
      split at hty <;> cases hty <;> rfl
    rw [hunfold]
    exact ⟨fun h x => h ty x hty, fun h t x ht => by cases hty.symm.trans ht; exact h x⟩
  have hstore : ∀ x, typeOf (ofInteger target x) = target ∧
      (ofScalar (ofInteger target x)).erase = ofInteger target x := by
    intro x
    unfold intType at hty
    split at hty <;> cases hty <;> exact ⟨rfl, rfl⟩
  intro r hr
  rw [howned, scalarOperator, hop] at hr
  -- an integer `x` is converted
  have hnumber : ∀ x, integerOf w.erase = some x → core w = w →
      r = (((checkedInt ty x).map (ofInteger target)).map some).map
        (fun d => {result := d.map fun x => .scalar (ofScalar x), left := w}) →
      ((∃ m, r = .ok m ∧ Conserves target w m.finish) ↔ Conservable target w) := by
    intro x hx hcore heq
    rw [hcond, hcore, hx]
    unfold checkedInt at heq
    by_cases hfits : ty.Fits (toDouble x)
    · rw [if_pos hfits] at heq
      subst heq
      refine iff_of_true ⟨_, rfl, ?_⟩ ?_
      · exact conserves_scalar (hstore _).1 (hstore _).2
      · rintro _ ⟨⟩
        exact hfits
    · rw [if_neg hfits] at heq
      subst heq
      refine iff_of_false ?_ fun h => hfits (h x rfl)
      rintro ⟨m, hm, -⟩
      cases hm
  cases w with
  | scalar s =>
      cases s with
      | nint i => exact hnumber i.toInt rfl rfl (Option.some.inj hr).symm
      | nuint n => exact hnumber n.toNat rfl rfl (Option.some.inj hr).symm
      | int i => exact hnumber i.toInt rfl rfl (Option.some.inj hr).symm
      | uint n => exact hnumber n.toNat rfl rfl (Option.some.inj hr).symm
      | float bits =>
          cases hr
          exact iff_of_true ⟨_, rfl, conserves_refused _⟩ ((hcond _).mpr nofun)
      | nil | bool | pointer | stringLiteral => cases hr
  | emptyObject | object | weakObject | string | array | tuple | variant => cases hr

theorem exact_float (w : Owned) : Exact E next .float w := by
  refine exact_of_conserves trivial fun r hr => ?_
  cases w with
  | scalar s =>
      cases s with
      | nint | nuint | int | uint | float =>
          cases hr
          exact ⟨_, rfl, conserves_scalar rfl rfl⟩
      | nil | bool | pointer | stringLiteral => cases hr
  | emptyObject | object | weakObject | string | array | tuple | variant => cases hr

theorem exact_scalar {t : DiType} (ht : t = .bool ∨ t = .stringLiteral ∨ t = .pointer) (w : Owned) :
    Exact E next t w := by
  have hsound : Conservable t w := by
    rcases ht with rfl | rfl | rfl <;> trivial
  refine exact_of_conserves hsound fun r hr => ?_
  rcases ht with rfl | rfl | rfl
  · cases w with
    | scalar s =>
        cases s with
        | bool b =>
            cases hr
            exact ⟨_, rfl, conserves_scalar rfl rfl⟩
        | _ => cases hr
    | _ => cases hr
  · cases w with
    | scalar s =>
        cases s with
        | stringLiteral s =>
            cases hr
            exact ⟨_, rfl, conserves_scalar rfl rfl⟩
        | _ => cases hr
    | _ => cases hr
  · cases w with
    | scalar s =>
        cases s with
        | nil | pointer =>
            cases hr
            exact ⟨_, rfl, conserves_scalar rfl rfl⟩
        | _ => cases hr
    | _ => cases hr

theorem exact_string (w : Owned) : Exact E next .string w := by
  refine exact_of_conserves trivial fun r hr => ?_
  cases w with
  | string b s =>
      cases hr
      exact ⟨_, rfl, conserves_moved rfl trivial rfl⟩
  | scalar s =>
      cases s with
      | stringLiteral s =>
          cases hr
          exact ⟨_, rfl, conserves_acquired rfl trivial⟩
      | _ => cases hr
  | _ => cases hr

theorem exact_object (w : Owned) : Exact E next .object w := by
  refine exact_of_conserves trivial fun r hr => ?_
  cases w with
  | object o | emptyObject o =>
      cases hr
      exact ⟨_, rfl, conserves_moved rfl trivial rfl⟩
  | weakObject o =>
      cases hr
      refine ⟨_, rfl, ?_⟩
      split_ifs
      · exact conserves_acquired (w := .object o) rfl trivial
      · exact conserves_refused _
  | _ => cases hr

theorem exact_weakObject (w : Owned) : Exact E next .weakObject w := by
  intro r hr
  cases w with
  | weakObject o =>
      cases hr
      exact iff_of_true ⟨_, rfl, conserves_moved rfl trivial rfl⟩ nofun
  | object o | emptyObject o =>
      cases hr
      refine iff_of_true ⟨_, rfl, ?_⟩ nofun
      exact conserves_acquired (w := .weakObject o) rfl trivial
  | scalar s =>
      cases s with
      | nil =>
          cases hr
          refine iff_of_false ?_ fun h => h rfl
          rintro ⟨m, hm, h⟩
          cases hm
          -- the weak reference of the result is one too many
          have hbalance := h.balance (.ref (.weak E.deadWeakRef))
          simp [Move.finish, Report.held, Owned.resources] at hbalance
      | _ => cases hr
  | _ => cases hr

theorem exact_variant (w : Owned) (hwf : w.WellFormed) : Exact E next .variant w := by
  intro r hr
  cases hr
  constructor
  · rintro ⟨m, hm, h⟩
    cases hm
    refine List.eq_nil_iff_forall_not_mem.mpr fun x hx => ?_
    have hpos := List.count_pos_iff.mpr hx
    have hbalance := h.balance x
    simp only [Move.finish, Report.held, Option.map_some, Option.getD_some, Owned.resources,
      List.count_append, List.nil_append] at hbalance
    omega
  · intro h
    have hnil : w.resources = [] := h
    refine ⟨_, rfl, ?_, nofun, ?_⟩
    · intro x
      simp [Move.finish, Report.held, Owned.resources, hnil]
    · rintro _ ⟨⟩
      exact ⟨rfl, hwf⟩

theorem count_resourcesCells (cs : List (Option Block × Owned)) (x : Resource) :
    (Owned.resourcesCells cs).count x =
      (Owned.resourcesList (cs.map (·.2))).count x + (cs.flatMap fun y => block y.1).count x := by
  induction cs with
  | nil => rfl
  | cons y cs ih =>
      obtain ⟨c, y⟩ := y
      simp only [Owned.resourcesCells, Owned.resourcesList, List.map_cons, List.flatMap_cons,
        List.count_append, ih]
      omega

theorem wellFormedList_of_cells {cs : List (Option Block × Owned)} (h : Owned.WellFormedCells cs) :
    Owned.WellFormedList (cs.map (·.2)) := by
  induction cs with
  | nil => trivial
  | cons y cs ih => exact ⟨h.1, ih h.2⟩

theorem count_cellsOf (n : Block) (es : List Owned) (x : Resource) :
    (Owned.resourcesCells (cellsOf n es)).count x =
      (Owned.resourcesList es).count x + ((List.range' n es.length).map Resource.block).count x := by
  induction es generalizing n with
  | nil => rfl
  | cons e es ih =>
      simp only [cellsOf, Owned.resourcesCells, Owned.resourcesList, List.count_append, ih (n + 1),
        List.length_cons, List.range'_succ, List.map_cons, List.count_cons, block,
        Option.toList_some, List.map_nil, List.count_nil]
      omega

theorem wellFormedCells_cellsOf {n : Block} {es : List Owned} (h : Owned.WellFormedList es) :
    Owned.WellFormedCells (cellsOf n es) := by
  induction es generalizing n with
  | nil => trivial
  | cons e es ih => exact ⟨h.1, ih h.2⟩

/-- The array and the tuple with one element both own the element. -/
theorem conserves_lent_iff {b c : Option Block} {x : Owned} (hwf : x.WellFormed) :
    Conserves .array (.tuple b [(c, x)])
        (Move.finish {result := some (.array x.type c [x]), left := .tuple b [(c, x)]}) ↔
      c = none ∧ x.resources = [] := by
  constructor
  · intro h
    have htwice : ∀ y, y ∉ x.resources ++ block c := by
      intro y hy
      have hpos := List.count_pos_iff.mpr hy
      have hbalance := h.balance y
      simp only [Move.finish, Report.held, Option.map_some, Option.getD_some, Owned.resources,
        Owned.resourcesCells, Owned.resourcesList, List.count_append, List.count_nil] at hbalance hpos
      omega
    refine ⟨?_, List.eq_nil_iff_forall_not_mem.mpr fun y hy =>
      htwice y (List.mem_append_left _ hy)⟩
    cases c with
    | none => rfl
    | some c => exact absurd (List.mem_append_right _ (by simp [block])) (htwice (.block c))
  · rintro ⟨rfl, hnil⟩
    refine conserves_unowned (w := .array x.type none [x]) rfl ?_ ?_
    · exact ⟨fun e he => by cases List.mem_singleton.mp he; rfl, fun _ => rfl, hwf, trivial⟩
    · simp [Owned.resources, Owned.resourcesList, hnil, block]

theorem conserves_tupleToArray {b c d : Option Block} {x y : Owned}
    {cs : List (Option Block × Owned)} (hwf : (Owned.tuple b ((c, x) :: (d, y) :: cs)).WellFormed) :
    Conserves .array (.tuple b ((c, x) :: (d, y) :: cs))
      (tupleToArray next b ((c, x) :: (d, y) :: cs)).finish := by
  unfold tupleToArray
  dsimp only
  split_ifs with hall
  · refine ⟨fun z => ?_, nofun, ?_⟩
    · have hcount := count_resourcesCells ((c, x) :: (d, y) :: cs) z
      simp only [Move.finish, Report.held, Option.map_some, Option.getD_some, Owned.resources,
        List.count_append, List.count_nil, List.map_cons, List.flatMap_cons] at hcount ⊢
      omega
    · rintro _ ⟨⟩
      refine ⟨rfl, fun e he => ?_, nofun, wellFormedList_of_cells hwf⟩
      rcases List.mem_cons.mp he with rfl | he
      · rfl
      · obtain ⟨cell, hcell, rfl⟩ := List.mem_map.mp he
        simpa using List.all_eq_true.mp hall cell hcell
  · exact conserves_refused _

theorem exact_array (w : Owned) (hwf : w.WellFormed) : Exact E next .array w := by
  intro r hr
  cases w with
  | array t b es =>
      cases hr
      exact iff_of_true ⟨_, rfl, conserves_moved rfl hwf rfl⟩ nofun
  | emptyObject o =>
      cases hr
      exact iff_of_true ⟨_, rfl, conserves_unowned rfl ⟨nofun, fun _ => rfl, trivial⟩ rfl⟩ nofun
  | tuple b cells =>
      cases hr
      match cells, hwf with
      | [], _ =>
          exact iff_of_true ⟨_, rfl, conserves_unowned rfl ⟨nofun, fun _ => rfl, trivial⟩ rfl⟩ nofun
      | [(c, x)], hwf =>
          have hcond : Conservable .array (.tuple b [(c, x)]) ↔ c = none ∧ x.resources = [] := by
            constructor
            · exact fun h => h b c x rfl
            · rintro h _ _ _ ⟨⟩
              exact h
          rw [hcond, ← conserves_lent_iff (b := b) hwf.1]
          exact ⟨fun ⟨m, hm, h⟩ => by cases hm; exact h, fun h => ⟨_, rfl, h⟩⟩
      | (c, x) :: (d, y) :: cs, hwf =>
          exact iff_of_true ⟨_, rfl, conserves_tupleToArray hwf⟩ nofun
  | scalar s =>
      cases s with
      | nil =>
          cases hr
          exact iff_of_true ⟨_, rfl, conserves_moved rfl ⟨nofun, fun _ => rfl, trivial⟩ rfl⟩ nofun
      | _ => cases hr
  | _ => cases hr

theorem conserves_arrayToTuple {t : DiType} {b : Option Block} {e : Owned} {es : List Owned}
    (hwf : (Owned.array t b (e :: es)).WellFormed) :
    Conserves .tuple (.array t b (e :: es)) (arrayToTuple next t b (e :: es)).finish := by
  refine ⟨fun z => ?_, nofun, ?_⟩
  · have hcount := count_cellsOf (next + 1) (e :: es) z
    simp only [arrayToTuple, Move.finish, Report.held, Option.map_some, Option.getD_some,
      Owned.resources, List.count_append, List.count_nil, List.range'_succ, List.length_cons,
      List.map_cons, List.count_cons, block, Option.toList_some, List.map_nil] at hcount ⊢
    omega
  · rintro _ ⟨⟩
    exact ⟨rfl, wellFormedCells_cellsOf hwf.2.2⟩

theorem exact_tuple (w : Owned) (hwf : w.WellFormed) : Exact E next .tuple w := by
  refine exact_of_conserves trivial fun r hr => ?_
  cases w with
  | tuple b cells =>
      cases hr
      exact ⟨_, rfl, conserves_moved rfl hwf rfl⟩
  | emptyObject o =>
      cases hr
      exact ⟨_, rfl, conserves_unowned rfl trivial rfl⟩
  | array t b es =>
      cases hr
      match es, hwf with
      | [], _ => exact ⟨_, rfl, conserves_unowned rfl trivial rfl⟩
      | e :: es, hwf => exact ⟨_, rfl, conserves_arrayToTuple hwf⟩
  | scalar s =>
      cases s with
      | nil =>
          cases hr
          exact ⟨_, rfl, conserves_moved rfl trivial rfl⟩
      | _ => cases hr
  | _ => cases hr

theorem exact_all (target : DiType) (w : Owned) (hwf : w.WellFormed) : Exact E next target w := by
  cases target with
  | int | uint | nint | nuint => exact exact_integer rfl w
  | float => exact exact_float w
  | bool => exact exact_scalar (.inl rfl) w
  | stringLiteral => exact exact_scalar (.inr (.inl rfl)) w
  | pointer => exact exact_scalar (.inr (.inr rfl)) w
  | string => exact exact_string w
  | array => exact exact_array w hwf
  | tuple => exact exact_tuple w hwf
  | object => exact exact_object w
  | weakObject => exact exact_weakObject w
  | variant => exact exact_variant w hwf
  | nil | emptyObject | any | lastType =>
      refine exact_of_conserves trivial fun r hr => ?_
      cases hr
      exact ⟨_, rfl, conserves_refused _⟩

/-- Where an operator knows nothing and there is nothing to unwrap. -/
theorem conservable_of_stop (hop : ownedOperatorFor E next target w = none)
    (hplain : core w = w) (hvar : ∀ b x, w ≠ .variant b x) : Conservable target w := by
  cases target with
  | int | uint | nint | nuint =>
      intro t x _ hx
      rw [hplain] at hx
      cases w with
      | scalar s => cases s <;> first | (cases hx; done) | cases hop
      | _ => cases hx
  | array =>
      cases w with
      | tuple => cases hop
      | variant b x => exact absurd rfl (hvar b x)
      | _ => exact nofun
  | weakObject =>
      change core w ≠ .scalar .nil
      rw [hplain]
      rintro rfl
      cases hop
  | variant => cases hop
  | _ => trivial

/-- The conversion by an operator that knows a value. -/
theorem conserves_iff_of_some (hwf : w.WellFormed) {q : Except Trap Move}
    {other : Except Trap Report} (hop : ownedOperatorFor E next target w = some q) :
    (∃ r, ((ownedOperatorFor E next target w).map fun r => r.map Move.finish).getD other = .ok r ∧
      Conserves target w r) ↔ Conservable target w := by
  rw [← exact_all target w hwf q hop, hop]
  constructor
  · rintro ⟨r, hr, h⟩
    cases q with
    | error e => cases hr
    | ok m =>
        cases hr
        exact ⟨m, rfl, h⟩
  · rintro ⟨m, rfl, h⟩
    exact ⟨_, rfl, h⟩

/-- The conversion of what is inside, with the memory around it freed. -/
theorem conserves_iff_of_none {rs : List Resource} {x : Owned}
    (hop : ownedOperatorFor E next target w = none)
    (hres : ∀ y, w.resources.count y = rs.count y + x.resources.count y)
    (hsame : Conservable target w ↔ Conservable target x)
    (ih : (∃ r, convertOwned (ownedOperatorFor E next target) x = .ok r ∧ Conserves target x r) ↔
      Conservable target x) :
    (∃ r, ((ownedOperatorFor E next target w).map fun r => r.map Move.finish).getD
        ((convertOwned (ownedOperatorFor E next target) x).map (·.free rs)) = .ok r ∧
      Conserves target w r) ↔ Conservable target w := by
  rw [hsame, ← ih, hop]
  cases hconv : convertOwned (ownedOperatorFor E next target) x with
  | error e =>
      constructor
      · rintro ⟨r, hr, -⟩
        cases hr
      · rintro ⟨r, hr, -⟩
        cases hr
  | ok r =>
      constructor
      · rintro ⟨_, ⟨⟩, h⟩
        exact ⟨r, rfl, (conserves_free hres).mp h⟩
      · rintro ⟨_, ⟨⟩, h⟩
        exact ⟨_, rfl, (conserves_free hres).mpr h⟩

/-- A condition on what is inside is one on the whole. -/
theorem conservable_inner {x : Owned} (hcore : core w = core x)
    (hvariant : target ≠ .variant) (harray : target = .array → stripOwned w = stripOwned x) :
    Conservable target w ↔ Conservable target x := by
  cases target with
  | variant => exact absurd rfl hvariant
  | array =>
      unfold Conservable
      rw [harray rfl]
  | weakObject | int | uint | nint | nuint =>
      unfold Conservable
      rw [hcore]
  | _ => exact Iff.rfl

theorem convertOwned_conserves_iff (v : Owned) (hwf : v.WellFormed) :
    (∃ r, convertOwned (ownedOperatorFor E next target) v = .ok r ∧ Conserves target v r) ↔
      Conservable target v := by
  induction v using inner_induction with
  | variant b x ih =>
      rw [convertOwned_variant]
      cases hop : ownedOperatorFor E next target (.variant b x) with
      | some q =>
          rw [← hop]
          exact conserves_iff_of_some hwf hop
      | none =>
          rw [← hop]
          refine conserves_iff_of_none hop (fun y => ?_) ?_ (ih hwf)
          · simp only [Owned.resources, List.count_append]
            omega
          · exact conservable_inner rfl (by rintro rfl; cases hop) fun _ => rfl
  | tuple b c x ih =>
      rw [convertOwned_tuple]
      cases hop : ownedOperatorFor E next target (.tuple b [(c, x)]) with
      | some q =>
          rw [← hop]
          exact conserves_iff_of_some hwf hop
      | none =>
          rw [← hop]
          refine conserves_iff_of_none hop (fun y => ?_) ?_ (ih hwf.1)
          · simp only [Owned.resources, Owned.resourcesCells, List.count_append, List.count_nil]
            omega
          · exact conservable_inner rfl (by rintro rfl; cases hop) (by rintro rfl; cases hop)
  | array t b x ih =>
      rw [convertOwned_array]
      cases hop : ownedOperatorFor E next target (.array t b [x]) with
      | some q =>
          rw [← hop]
          exact conserves_iff_of_some hwf hop
      | none =>
          rw [← hop]
          refine conserves_iff_of_none hop (fun y => ?_) ?_ (ih hwf.2.2.1)
          · simp only [Owned.resources, Owned.resourcesList, List.count_append, List.count_nil]
            omega
          · exact conservable_inner rfl (by rintro rfl; cases hop) (by rintro rfl; cases hop)
  | other v hvariant htuple harray =>
      rw [convertOwned_other _ hvariant htuple harray]
      cases hop : ownedOperatorFor E next target v with
      | some q =>
          rw [← hop]
          exact conserves_iff_of_some hwf hop
      | none =>
          have hcore : core v = v := by
            unfold core
            split
            · exact absurd rfl (hvariant _ _)
            · exact absurd rfl (htuple _ _ _)
            · exact absurd rfl (harray _ _ _)
            · rfl
          exact iff_of_true ⟨_, rfl, conserves_refused v⟩ (conservable_of_stop hop hcore hvariant)

/-- What is true of every move and is kept when more is freed is true of every report. -/
theorem convertOwned_report {op : OwnedOperator} {Q : Report → Prop}
    (hmove : ∀ w m, op w = some (.ok m) → Q m.finish)
    (hstop : ∀ w, Q (Move.finish {result := none, left := w}))
    (hfree : ∀ r rs, Q r → Q (r.free rs)) (hconv : convertOwned op v = .ok r) : Q r := by
  have hstep : ∀ {w : Owned} {other : Except Trap Report}, (∀ r, other = .ok r → Q r) →
      ∀ r, ((op w).map fun q => q.map Move.finish).getD other = .ok r → Q r := by
    intro w other hother r hr
    cases hop : op w with
    | none =>
        rw [hop] at hr
        exact hother r hr
    | some q =>
        rw [hop] at hr
        cases q with
        | error e => cases hr
        | ok m =>
            cases hr
            exact hmove w m hop
  have hinner : ∀ {x : Owned} {rs : List Resource}, (∀ r, convertOwned op x = .ok r → Q r) →
      ∀ r, (convertOwned op x).map (·.free rs) = .ok r → Q r := by
    intro x rs ih r hr
    cases hx : convertOwned op x with
    | error e =>
        rw [hx] at hr
        cases hr
    | ok r' =>
        rw [hx] at hr
        cases hr
        exact hfree r' rs (ih r' hx)
  revert hconv
  generalize r = r'
  revert r'
  induction v using inner_induction with
  | variant b x ih => exact hstep (hinner ih)
  | tuple b c x ih => exact hstep (hinner ih)
  | array t b x ih => exact hstep (hinner ih)
  | other v hvariant htuple harray =>
      rw [convertOwned_other _ hvariant htuple harray]
      exact hstep fun r hr => by cases hr; exact hstop v

/-- New memory is not used by the source, and every block of it is new once. -/
theorem acquired_fresh (hconv : convertOwned (ownedOperatorFor E next target) v = .ok r) (b : Block) :
    r.acquired.count (.block b) ≤ if b < next then 0 else 1 := by
  have hrange : ∀ k, ((List.range' next k).map Resource.block).count (.block b) ≤
      if b < next then 0 else 1 := by
    intro k
    rw [List.count_map_of_injective _ _ fun _ _ h => Resource.block.inj h]
    by_cases hlt : b < next
    · have hnot : b ∉ List.range' next k := by
        intro hmem
        have hle := (List.mem_range'_1.mp hmem).1
        exact absurd hlt (Nat.not_lt.mpr hle)
      rw [if_pos hlt, List.count_eq_zero.mpr hnot]
    · rw [if_neg hlt]
      exact List.nodup_iff_count_le_one.mp List.nodup_range' b
  generalize (if b < next then 0 else 1) = bound at hrange ⊢
  have hone : (block (some next)).count (.block b) ≤ bound := hrange 1
  refine convertOwned_report (Q := fun r => r.acquired.count (.block b) ≤ bound)
    ?_ (fun w => by simp [Move.finish]) (fun _ _ h => h) hconv
  intro w m hop
  change m.acquired.count (.block b) ≤ _
  cases target with
  | array =>
      cases w with
      | tuple c cells =>
          cases hop
          unfold tupleToArray
          split
          · simp
          · simp
          · split_ifs
            · exact hone
            · simp
      | scalar s =>
          cases s <;> cases hop
          simp
      | _ => cases hop <;> simp
  | tuple =>
      cases w with
      | array t c es =>
          cases hop
          unfold arrayToTuple
          split
          · simp
          · exact hrange _
      | scalar s =>
          cases s <;> cases hop
          simp
      | _ => cases hop <;> simp
  | variant =>
      cases hop
      exact hone
  | string =>
      cases w with
      | scalar s =>
          cases s <;> cases hop
          exact hone
      | _ => cases hop <;> simp
  | object =>
      cases w with
      | weakObject o =>
          cases hop
          split_ifs <;> simp
      | scalar s => cases s <;> cases hop
      | _ => cases hop <;> simp
  | weakObject =>
      cases w with
      | scalar s =>
          cases s <;> cases hop
          simp
      | _ => cases hop <;> simp
  | int | uint | nint | nuint | float | bool | stringLiteral | pointer =>
      simp only [ownedOperatorFor, scalarOperator, Option.map_eq_some_iff] at hop
      obtain ⟨q, -, hq⟩ := hop
      cases q <;> cases hq
      simp
  | nil | emptyObject | any | lastType =>
      cases hop
      simp

end

/-! ## The value -/

section
variable {E : Env} {next : Block} {target : DiType}

theorem eraseList_eq (es : List Owned) : Owned.eraseList es = es.map Owned.erase := by
  induction es with
  | nil => rfl
  | cons e es ih => rw [Owned.eraseList, ih, List.map_cons]

theorem eraseCells_eq (cs : List (Option Block × Owned)) :
    Owned.eraseCells cs = cs.map fun c => c.2.erase := by
  induction cs with
  | nil => rfl
  | cons c cs ih =>
      obtain ⟨b, v⟩ := c
      rw [Owned.eraseCells, ih, List.map_cons]

theorem cellsOf_erase (n : Block) (es : List Owned) :
    (cellsOf n es).map (fun c => c.2.erase) = es.map Owned.erase := by
  induction es generalizing n with
  | nil => rfl
  | cons e es ih => rw [cellsOf, List.map_cons, List.map_cons, ih]

theorem tupleToArray_erase (b : Option Block) (cells : List (Option Block × Owned)) :
    (tupleToArray next b cells).result.map Owned.erase =
      Conversion.tupleToArray false (Owned.eraseCells cells) := by
  match cells with
  | [] => rfl
  | [(c, x)] => rfl
  | (c, x) :: (d, y) :: cs =>
      have hall : (((d, y) :: cs).all fun z => decide (z.2.type = x.type)) =
          ((Owned.eraseCells ((d, y) :: cs)).all fun z => decide (typeOf z = typeOf x.erase)) := by
        rw [eraseCells_eq, List.all_map]
        rfl
      unfold tupleToArray Conversion.tupleToArray
      simp only [Owned.eraseCells, Bool.false_eq_true, if_false] at hall ⊢
      rw [hall]
      split_ifs
      · simp only [Option.map_some, Owned.erase, Owned.eraseList, List.map_cons, eraseList_eq,
          eraseCells_eq, List.map_map]
        rfl
      · rfl

theorem arrayToTuple_erase (t : DiType) (b : Option Block) (es : List Owned) :
    (arrayToTuple next t b es).result.map Owned.erase =
      Conversion.arrayToTuple false (Owned.eraseList es) := by
  cases es with
  | nil => rfl
  | cons e es =>
      simp only [arrayToTuple, Option.map_some, Owned.erase, eraseCells_eq, cellsOf_erase,
        Conversion.arrayToTuple, eraseList_eq]
      rfl

theorem operator_erase (v : Owned) :
    (ownedOperatorFor E next target v).map (fun q => q.map fun m => m.result.map Owned.erase) =
      operatorFor E false target v.erase := by
  cases target with
  | array =>
      cases v with
      | tuple b cells => exact congrArg (some ∘ Except.ok) (tupleToArray_erase b cells)
      | scalar s => cases s <;> rfl
      | _ => rfl
  | tuple =>
      cases v with
      | array t b es => exact congrArg (some ∘ Except.ok) (arrayToTuple_erase t b es)
      | scalar s => cases s <;> rfl
      | _ => rfl
  | object =>
      cases v with
      | weakObject o =>
          simp only [ownedOperatorFor, objectOperator, operatorFor, Conversion.objectOperator,
            Owned.erase, Option.map_some, Except.map, Bool.false_eq_true, if_false]
          split_ifs <;> rfl
      | scalar s => cases s <;> rfl
      | _ => rfl
  | int | uint | nint | nuint =>
      cases v with
      | scalar s =>
          cases s with
          | nint | nuint | int | uint =>
              simp only [ownedOperatorFor, scalarOperator, operatorFor, numberOperator, checkedInt,
                Owned.erase, Scalar.erase, Option.map_some]
              split_ifs <;> rfl
          | _ => rfl
      | _ => rfl
  | _ =>
      cases v with
      | scalar s => cases s <;> rfl
      | _ => rfl

theorem convertOwned_erase (v : Owned) :
    (convertOwned (ownedOperatorFor E next target) v).map (fun r => r.result.map Owned.erase) =
      convertWith false (operatorFor E false target) v.erase := by
  have hstep : ∀ (w : Owned) (other : Except Trap Report) (other' : Except Trap (Option DiValue)),
      other.map (fun r => r.result.map Owned.erase) = other' →
      (((ownedOperatorFor E next target w).map fun q => q.map Move.finish).getD other).map
          (fun r => r.result.map Owned.erase) = (operatorFor E false target w.erase).getD other' := by
    intro w other other' hother
    have herase : (ownedOperatorFor E next target w).map
        (fun q => q.map fun m => m.result.map Owned.erase) = operatorFor E false target w.erase :=
      operator_erase w
    rw [← herase]
    cases ownedOperatorFor E next target w with
    | none => exact hother
    | some q => cases q <;> rfl
  have hfree : ∀ (q : Except Trap Report) (rs : List Resource),
      (q.map (·.free rs)).map (fun r => r.result.map Owned.erase) =
        q.map fun r => r.result.map Owned.erase := by
    intro q rs
    cases q <;> rfl
  induction v using inner_induction with
  | variant b x ih => exact hstep _ _ _ ((hfree _ _).trans ih)
  | tuple b c x ih => exact hstep _ _ _ ((hfree _ _).trans ih)
  | array t b x ih => exact hstep _ _ _ ((hfree _ _).trans ih)
  | other v hvariant htuple harray =>
      rw [convertOwned_other _ hvariant htuple harray]
      have hone : ¬ OnePiece v.erase := by
        cases v with
        | tuple b cells =>
            match cells with
            | [] => exact id
            | [(c, x)] => exact absurd rfl (htuple b c x)
            | _ :: _ :: _ => exact id
        | array t b es =>
            match es with
            | [] => exact id
            | [x] => exact absurd rfl (harray t b x)
            | _ :: _ :: _ => exact id
        | scalar s => cases s <;> exact id
        | _ => exact id
      have hvar : ∀ x, v.erase ≠ .variant x := by
        cases v with
        | variant b x => exact absurd rfl (hvariant b x)
        | scalar s => cases s <;> exact nofun
        | _ => exact nofun
      rw [convertWith_plain hone hvar]
      exact hstep v _ (.ok none) rfl

/-- The value of the result is that of the conversion of values. -/
theorem diTypeConversionOwned_erase (v : Owned) :
    (diTypeConversionOwned E next target v).map (fun r => r.result.map Owned.erase) =
      diTypeConversion E false target v.erase := by
  unfold diTypeConversionOwned diTypeConversion Owned.type
  split_ifs
  · rfl
  · exact convertOwned_erase v

end

/-! ## Conversions that own what they convert -/

/-- A conversion of an owned value conserves what it owns, and frees nothing that the result refers
to, if and only if the types are the same or the value is one that it can conserve. -/
theorem owned_conversion_conserves (E : Env) {next : Block} {target : DiType} {v : Owned}
    (hwf : v.WellFormed) (honce : ∀ b, v.resources.count (.block b) ≤ 1)
    (hnext : ∀ b, .block b ∈ v.resources → b < next) :
    (∃ r, diTypeConversionOwned E next target v = .ok r ∧ Conserves target v r ∧
      ∀ b, .block b ∈ r.held → .block b ∉ r.released) ↔
    v.type = target ∨ Conservable target v := by
  unfold diTypeConversionOwned
  by_cases hsame : v.type = target
  · rw [if_pos hsame]
    refine iff_of_true ⟨_, rfl, ⟨fun x => ?_, nofun, ?_⟩, fun b _ => List.not_mem_nil⟩ (.inl hsame)
    · simp [Report.held]
    · rintro _ ⟨⟩
      exact ⟨hsame, hwf⟩
  · have hiff : (∃ r, convertOwned (ownedOperatorFor E next target) v = .ok r ∧
        Conserves target v r) ↔ Conservable target v := convertOwned_conserves_iff v hwf
    rw [if_neg hsame, or_iff_right hsame, ← hiff]
    constructor
    · rintro ⟨r, hr, h, -⟩
      exact ⟨r, hr, h⟩
    · rintro ⟨r, hr, h⟩
      refine ⟨r, hr, h, fun b hheld hreleased => ?_⟩
      have hfresh := acquired_fresh hr b
      have hbalance := h.balance (.block b)
      have hheld := List.count_pos_iff.mpr hheld
      have hreleased := List.count_pos_iff.mpr hreleased
      have hsource := honce b
      split_ifs at hfresh with hlt
      · omega
      · have hnone : v.resources.count (.block b) = 0 :=
          List.count_eq_zero.mpr fun hmem => hlt (hnext b hmem)
        omega

/-- A variant around a tuple with two strings becomes an array. -/
def twoStrings : Owned :=
  .variant (some 0) (.tuple (some 1) [(some 2, .string (some 3) "a"), (some 4, .string (some 5) "b")])

theorem owned_conversion_conserves_twoStrings :
    ∃ r, diTypeConversionOwned ⟨fun _ => true, 0⟩ 6 .array twoStrings = .ok r ∧
      Conserves .array twoStrings r ∧ ∀ b, .block b ∈ r.held → .block b ∉ r.released := by
  have hwf : twoStrings.WellFormed := ⟨trivial, trivial, trivial⟩
  refine (owned_conversion_conserves ⟨fun _ => true, 0⟩ hwf ?_ ?_).mpr (.inr nofun)
  · intro b
    have hnodup : twoStrings.resources.Nodup := by decide
    exact List.nodup_iff_count_le_one.mp hnodup _
  · intro b hb
    have hlist : twoStrings.resources = [.block 3, .block 2, .block 5, .block 4, .block 1, .block 0] :=
      rfl
    rw [hlist] at hb
    simp only [List.mem_cons, Resource.block.injEq, List.not_mem_nil, or_false] at hb
    rcases hb with rfl | rfl | rfl | rfl | rfl | rfl <;> decide

/-- A string that becomes a variant is freed, and the variant still points to it. -/
theorem owned_conversion_frees_string :
    ∃ r, diTypeConversionOwned ⟨fun _ => true, 0⟩ 1 .variant (.string (some 0) "a") = .ok r ∧
      .block 0 ∈ r.released ∧ .block 0 ∈ r.held ∧ ¬ Conserves .variant (.string (some 0) "a") r := by
  refine ⟨_, rfl, by decide, by decide, fun h => ?_⟩
  have hbalance := h.balance (.block 0)
  revert hbalance
  decide

end Deai.OwnedConversion
