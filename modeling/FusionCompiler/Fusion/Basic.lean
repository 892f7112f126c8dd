import FusionCompiler.Operator
import FusionCompiler.Parallel

/-!
# The fusion graph

A fusion is one dataflow graph: values, the expressions that compute them, the
axes their tensors iterate over, and the transforms that relate axes.  Nodes
live in arenas and are named by handles.  Nothing is ever freed, so handles stay
meaningful and the transforms, listed in creation order, are a history.

Axes are never changed after their creation, except for the way they are
executed.  A split or a merge creates new axes and is recorded as their origin.
-/

namespace FusionCompiler

/-! ## Handles -/

/-- Handle of a value. -/
structure ValueId where
  index : Nat
deriving DecidableEq, Repr, Hashable, Inhabited

/-- Handle of an expression. -/
structure ExprId where
  index : Nat
deriving DecidableEq, Repr, Hashable, Inhabited

/-- Handle of an axis. -/
structure AxisId where
  index : Nat
deriving DecidableEq, Repr, Hashable, Inhabited

/-- Handle of a transform. -/
structure TransformId where
  index : Nat
deriving DecidableEq, Repr, Hashable, Inhabited

/-- The text of a value handle. -/
def ValueId.text (v : ValueId) : String := "v" ++ Numeric.natText v.index

/-- The text of an expression handle. -/
def ExprId.text (e : ExprId) : String := "e" ++ Numeric.natText e.index

/-- The text of an axis handle. -/
def AxisId.text (a : AxisId) : String := "id" ++ Numeric.natText a.index

/-- The text of a transform handle. -/
def TransformId.text (t : TransformId) : String := "tr" ++ Numeric.natText t.index

instance : LT ValueId := ⟨fun a b => a.index < b.index⟩
instance : DecidableLT ValueId := fun a b => inferInstanceAs (Decidable (a.index < b.index))
instance : LT ExprId := ⟨fun a b => a.index < b.index⟩
instance : DecidableLT ExprId := fun a b => inferInstanceAs (Decidable (a.index < b.index))
instance : LT AxisId := ⟨fun a b => a.index < b.index⟩
instance : DecidableLT AxisId := fun a b => inferInstanceAs (Decidable (a.index < b.index))

/-! ## Axes and transforms -/

/-- What an axis contributes to its tensor. -/
inductive AxisKind where
  | iteration
  | reduction
  | broadcast
deriving DecidableEq, Repr, Inhabited

/-- The mark of an axis kind in listings. -/
def AxisKind.symbol : AxisKind → String
  | .iteration => "i"
  | .reduction => "r"
  | .broadcast => "b"

/-- One axis of an iteration space. -/
structure Axis where
  start : ValueId
  extent : ValueId
  kind : AxisKind
  parallel : ParallelType := .serial
  /-- A reduction axis turned into an iteration of a partial result. -/
  isRFactor : Bool := false
  /-- The transform that produced the axis. -/
  origin : Option TransformId := none
deriving DecidableEq, Repr, Inhabited

namespace Axis

/-- Whether the axis is reduced over. -/
def isReduction (a : Axis) : Bool := a.kind == .reduction

/-- Whether the axis is a broadcast. -/
def isBroadcast (a : Axis) : Bool := a.kind == .broadcast

/-- Whether the axis is a plain iteration. -/
def isIteration (a : Axis) : Bool := a.kind == .iteration

/-- Whether the axis is executed in another way than a plain loop. -/
def isParallelized (a : Axis) : Bool := a.parallel != .serial

/-- Whether the axis is bound to a block or thread index. -/
def isLaunch (a : Axis) : Bool := a.parallel.isLaunch

end Axis

/-- A recorded relation between axes. -/
inductive Transform where
  /-- `input` becomes `outer` and `inner`.  With `innerSplit` the factor is the extent of `inner`,
  otherwise it is the extent of `outer`. -/
  | split (input outer inner : AxisId) (factor : ValueId) (innerSplit : Bool)
  /-- `outer` and `inner` become one axis of product extent. -/
  | merge (outer inner output : AxisId)
deriving DecidableEq, Repr, Inhabited

namespace Transform

/-- The axes a transform consumes. -/
def inputs : Transform → List AxisId
  | .split input _ _ _ _ => [input]
  | .merge outer inner _ => [outer, inner]

/-- The axes a transform produces. -/
def outputs : Transform → List AxisId
  | .split _ outer inner _ _ => [outer, inner]
  | .merge _ _ output => [output]

end Transform

/-! ## Tensors and scalars -/

/-- The axes of a tensor at three levels, with the contiguity of its memory per root axis.

`root` is the shape the tensor was declared with, `rfactor` the shape left by factoring a
reduction, and `leaf` the current schedule.  Every leaf goes back to the root through recorded
transforms. -/
structure TensorDomain where
  root : List AxisId := []
  rfactor : Option (List AxisId) := none
  leaf : List AxisId := []
  contiguity : List Bool := []
deriving DecidableEq, Repr, Inhabited

namespace TensorDomain

/-- A domain that is not scheduled yet. -/
def ofRoot (root : List AxisId) (contiguity : List Bool) : TensorDomain :=
  { root, leaf := root, contiguity }

/-- A contiguous domain that is not scheduled yet. -/
def contiguous (root : List AxisId) : TensorDomain :=
  ofRoot root (root.map fun _ => true)

/-- A contiguous domain with a factored reduction. -/
def factored (root rfactor leaf : List AxisId) : TensorDomain :=
  { root, rfactor := some rfactor, leaf, contiguity := root.map fun _ => true }

/-- The axes that consumers see: the factored shape if there is one, else the root. -/
def logical (d : TensorDomain) : List AxisId :=
  d.rfactor.getD d.root

end TensorDomain

/-- A tensor with its schedule. -/
structure TensorView where
  domain : TensorDomain := {}
  memory : MemoryType := .local
  /-- Number of leading leaves that are inlined into the consumer. -/
  computeAt : Nat := 0
  /-- Deepest leaf at which a producer is inlined into this tensor. -/
  maxProducer : Nat := 0
deriving DecidableEq, Repr, Inhabited

namespace TensorView

/-- The leaves. -/
def leaf (t : TensorView) : List AxisId := t.domain.leaf

/-- Number of leaves. -/
def ndims (t : TensorView) : Nat := t.domain.leaf.length

/-- Number of leading leaves that may no longer be transformed. -/
def fixedPosition (t : TensorView) : Nat := Max.max t.computeAt t.maxProducer

/-- Replaces the leaves. -/
def withLeaf (t : TensorView) (leaf : List AxisId) : TensorView :=
  { t with domain := { t.domain with leaf } }

/-- Moves the compute-at position; positions only grow. -/
def raiseComputeAt (t : TensorView) (pos : Nat) : TensorView :=
  { t with computeAt := Max.max t.computeAt pos }

/-- Moves the producer position; positions only grow. -/
def raiseMaxProducer (t : TensorView) (pos : Nat) : TensorView :=
  { t with maxProducer := Max.max t.maxProducer pos }

end TensorView

/-- What a scalar stands for. -/
inductive ScalarKind where
  | const (value : Constant)
  /-- An input or the result of a scalar expression. -/
  | symbolic
  /-- The run-time size of one dimension of an input tensor. -/
  | tensorSize (tensor : ValueId) (dim : Nat)
deriving Repr, Inhabited

/-- A value is a scalar or a tensor. -/
inductive ValueKind where
  | scalar (kind : ScalarKind)
  | tensor (view : TensorView)
deriving Repr, Inhabited

/-- A node of the graph that holds a value. -/
structure Value where
  dtype : DataType
  kind : ValueKind
  definition : Option ExprId := none
  uses : List ExprId := []
deriving Repr, Inhabited

namespace Value

/-- The view of a tensor. -/
def view? (v : Value) : Option TensorView :=
  match v.kind with
  | .tensor t => some t
  | .scalar _ => none

/-- Whether the value is a tensor. -/
def isTensor (v : Value) : Bool :=
  v.view?.isSome

/-- The value of a literal. -/
def const? (v : Value) : Option Constant :=
  match v.kind with
  | .scalar (.const c) => some c
  | _ => none

end Value

/-! ## Expressions -/

/-- What an expression computes. -/
inductive ExprKind where
  | unary (op : UnaryOp)
  | binary (op : BinaryOp)
  /-- Selects between two values by a condition. -/
  | select
  | reduction (op : BinaryOp) (init : Constant)
  /-- Mean, sum of squared deviations and count, of one tensor or of a partial triple. -/
  | welford
  | broadcast (flags : List Bool)
deriving BEq, Repr, Inhabited

namespace ExprKind

/-- Whether the expression reduces over axes. -/
def isReduction : ExprKind → Bool
  | .reduction _ _ | .welford => true
  | _ => false

/-- Whether the expression inserts broadcast axes. -/
def isBroadcast : ExprKind → Bool
  | .broadcast _ => true
  | _ => false

/-- The name shown in listings. -/
def name : ExprKind → String
  | .unary _ => "UnaryOp"
  | .binary _ => "BinaryOp"
  | .select => "TernaryOp"
  | .reduction _ _ => "ReductionOp"
  | .welford => "WelfordOp"
  | .broadcast _ => "BroadcastOp"

end ExprKind

/-- The name of the selecting operator. -/
def selectName : String := "where"

/-- An expression; expressions are replaced and never edited. -/
structure Expr where
  kind : ExprKind
  inputs : List ValueId
  outputs : List ValueId
deriving Repr, Inhabited

namespace Expr

/-- The operand at a position. -/
def input (e : Expr) (i : Nat) : ValueId := e.inputs.getD i default

/-- The first result. -/
def output (e : Expr) : ValueId := e.outputs.headD default

/-- Whether a Welford expression combines partial triples. -/
def isWelfordCombine (e : Expr) : Bool :=
  match e.kind with
  | .welford => e.inputs.length == 3
  | _ => false

end Expr

/-! ## The arenas -/

/-- A dataflow graph. -/
structure Fusion where
  values : Array Value := #[]
  /-- Expressions by handle; a removed expression leaves an empty slot. -/
  exprs : Array (Option Expr) := #[]
  axes : Array Axis := #[]
  transforms : Array Transform := #[]
  inputs : List ValueId := []
  outputs : List ValueId := []
  /-- Outputs that are written into the buffer of an input. -/
  aliases : List (ValueId × ValueId) := []
deriving Repr, Inhabited

namespace Fusion

/-! ### Reading -/

/-- The value of a handle. -/
def value (f : Fusion) (v : ValueId) : Value :=
  f.values.getD v.index default

/-- The type of a value. -/
def dtype (f : Fusion) (v : ValueId) : DataType :=
  (f.value v).dtype

/-- Whether a value is a tensor. -/
def isTensor (f : Fusion) (v : ValueId) : Bool :=
  (f.value v).isTensor

/-- The view of a tensor; a scalar has the empty view. -/
def view (f : Fusion) (v : ValueId) : TensorView :=
  (f.value v).view?.getD {}

/-- The leaves of a tensor. -/
def leaf (f : Fusion) (v : ValueId) : List AxisId :=
  (f.view v).leaf

/-- The literal behind a value. -/
def const? (f : Fusion) (v : ValueId) : Option Constant :=
  (f.value v).const?

/-- The expression that computes a value. -/
def definition (f : Fusion) (v : ValueId) : Option ExprId :=
  (f.value v).definition

/-- The expressions that read a value. -/
def uses (f : Fusion) (v : ValueId) : List ExprId :=
  (f.value v).uses

/-- The expression of a handle, if it is live. -/
def expr? (f : Fusion) (e : ExprId) : Option Expr :=
  (f.exprs[e.index]?).join

/-- The expression of a live handle. -/
def expr (f : Fusion) (e : ExprId) : Expr :=
  (f.expr? e).getD default

/-- Whether an expression has not been removed. -/
def isLive (f : Fusion) (e : ExprId) : Bool :=
  (f.expr? e).isSome

/-- The defining expression of a value. -/
def definingExpr? (f : Fusion) (v : ValueId) : Option Expr :=
  (f.definition v).map f.expr

/-- The axis of a handle. -/
def axis (f : Fusion) (a : AxisId) : Axis :=
  f.axes.getD a.index default

/-- The extent of an axis. -/
def extent (f : Fusion) (a : AxisId) : ValueId :=
  (f.axis a).extent

/-- The transform of a handle. -/
def transform (f : Fusion) (t : TransformId) : Transform :=
  f.transforms.getD t.index default

/-- Whether a value is an input of the fusion. -/
def isInput (f : Fusion) (v : ValueId) : Bool :=
  f.inputs.contains v

/-- Whether a value is an output of the fusion. -/
def isOutput (f : Fusion) (v : ValueId) : Bool :=
  f.outputs.contains v

/-- The input whose buffer an output is written into. -/
def aliasedInput? (f : Fusion) (out : ValueId) : Option ValueId :=
  (f.aliases.find? (·.1 == out)).map (·.2)

/-- Axes of a tensor as its consumers see them: the logical axes without reductions. -/
def shape (f : Fusion) (v : ValueId) : List AxisId :=
  (f.view v).domain.logical.filter fun a => !(f.axis a).isReduction

/-- Whether a tensor is computed by a reduction. -/
def isReductionTensor (f : Fusion) (v : ValueId) : Bool :=
  match f.definingExpr? v with
  | some e => e.kind.isReduction
  | none => false

/-- Whether a tensor still iterates over reduction axes. -/
def hasReductionLeaf (f : Fusion) (v : ValueId) : Bool :=
  (f.leaf v).any fun a => (f.axis a).isReduction

/-! ### Writing -/

/-- Changes one value. -/
def modifyValue (f : Fusion) (v : ValueId) (g : Value → Value) : Fusion :=
  { f with values := f.values.modify v.index g }

/-- Changes the view of a tensor; scalars stay as they are. -/
def modifyView (f : Fusion) (v : ValueId) (g : TensorView → TensorView) : Fusion :=
  f.modifyValue v fun x => match x.kind with
    | .tensor t => { x with kind := .tensor (g t) }
    | .scalar _ => x

/-- Changes one axis. -/
def modifyAxis (f : Fusion) (a : AxisId) (g : Axis → Axis) : Fusion :=
  { f with axes := f.axes.modify a.index g }

/-- Removes an expression and its traces in the values. -/
def removeExpr (f : Fusion) (e : ExprId) : Fusion :=
  match f.expr? e with
  | none => f
  | some x =>
    let f := { f with exprs := f.exprs.modify e.index fun _ => none }
    let f := x.inputs.foldl (fun f v => f.modifyValue v fun y =>
      { y with uses := y.uses.filter (· != e) }) f
    x.outputs.foldl (fun f v => f.modifyValue v fun y =>
      if y.definition == some e then { y with definition := none } else y) f

/-- Stops using a value as an input. -/
def removeInput (f : Fusion) (v : ValueId) : Fusion :=
  { f with inputs := f.inputs.filter (· != v), aliases := f.aliases.filter (·.2 != v) }

/-- Stops using a value as an output. -/
def removeOutput (f : Fusion) (v : ValueId) : Fusion :=
  { f with outputs := f.outputs.filter (· != v), aliases := f.aliases.filter (·.1 != v) }

/-- Lets another value take the place of an output. -/
def replaceOutput (f : Fusion) (old new : ValueId) : Fusion :=
  let swap := fun v => if v = old then new else v
  { f with outputs := f.outputs.map swap, aliases := f.aliases.map fun (o, i) => (swap o, i) }

end Fusion

/-! ## Editing -/

/-- An edit of a fusion. -/
abbrev Edit := StateM Fusion

/-- An edit that may fail; what it did before failing stays done. -/
abbrev EditE (ε : Type) := ExceptT ε Edit

/-- The outcome of a pure step. -/
def EditE.ofExcept {ε α : Type} : Except ε α → EditE ε α
  | .ok a => pure a
  | .error e => throw e

/-- An edit seen from a wider kind of error. -/
def EditE.mapError {ε ε' α : Type} (g : ε → ε') (x : EditE ε α) : EditE ε' α :=
  ExceptT.adapt g x

/-- A check that must hold. -/
def EditE.ensure {ε : Type} (cond : Bool) (e : ε) : EditE ε Unit :=
  if cond then pure () else throw e

/-- The fusion that a succeeding edit leaves. -/
def EditE.applyTo {ε α : Type} (x : EditE ε α) (f : Fusion) : Except ε Fusion :=
  match x.run f with
  | (.ok _, f) => .ok f
  | (.error e, _) => .error e

namespace Edit

/-- Adds a value. -/
def newValue (t : DataType) (kind : ValueKind) : Edit ValueId :=
  modifyGet fun f => (⟨f.values.size⟩, { f with values := f.values.push { dtype := t, kind } })

/-- Adds a literal of its own type. -/
def newConst (c : Constant) : Edit ValueId :=
  newValue c.dtype (.scalar (.const c))

/-- Adds a literal converted to a type. -/
def newConstTyped (c : Constant) (t : DataType) : Edit ValueId :=
  newValue t (.scalar (.const (c.cast t)))

/-- Adds an integer literal. -/
def newInt (n : Int) : Edit ValueId :=
  newConst (.int n)

/-- Adds a symbolic scalar. -/
def newScalar (t : DataType) : Edit ValueId :=
  newValue t (.scalar .symbolic)

/-- Adds a tensor. -/
def newTensor (domain : TensorDomain) (t : DataType) : Edit ValueId :=
  newValue t (.tensor { domain })

/-- Adds an axis. -/
def addAxis (a : Axis) : Edit AxisId :=
  modifyGet fun f => (⟨f.axes.size⟩, { f with axes := f.axes.push a })

/-- Adds an axis that starts at zero. -/
def newAxis (extent : ValueId) (kind : AxisKind) : Edit AxisId := do
  let start ← newInt 0
  addAxis { start, extent, kind }

/-- Adds a copy of an axis without its history. -/
def copyAxis (a : AxisId) : Edit AxisId := do
  let f ← get
  addAxis { f.axis a with origin := none, isRFactor := false }

/-- Records a transform as the origin of its outputs. -/
def addTransform (t : Transform) : Edit TransformId :=
  modifyGet fun f =>
    let name : TransformId := ⟨f.transforms.size⟩
    let f := t.outputs.foldl (fun f a => f.modifyAxis a fun x => { x with origin := some name }) f
    (name, { f with transforms := f.transforms.push t })

/-- Adds an expression as the definition of its outputs. -/
def addExpr (kind : ExprKind) (inputs outputs : List ValueId) : Edit ExprId :=
  modifyGet fun f =>
    let name : ExprId := ⟨f.exprs.size⟩
    let f := inputs.foldl (fun f v => f.modifyValue v fun x =>
      if x.uses.contains name then x else { x with uses := x.uses ++ [name] }) f
    let f := outputs.foldl (fun f v => f.modifyValue v fun x =>
      { x with definition := some name }) f
    (name, { f with exprs := f.exprs.push (some { kind, inputs, outputs }) })

/-- Creates an expression again with changed operands and results. -/
def recreateExpr (e : ExprId) (onInput onOutput : ValueId → ValueId) : Edit ExprId := do
  let x := (← get).expr e
  modify (·.removeExpr e)
  addExpr x.kind (x.inputs.map onInput) (x.outputs.map onOutput)

/-- Makes an expression read `new` wherever it read `old`. -/
def replaceInput (e : ExprId) (old new : ValueId) : Edit ExprId :=
  recreateExpr e (fun v => if v = old then new else v) id

/-- Makes an expression write `new` instead of `old`. -/
def replaceResult (e : ExprId) (old new : ValueId) : Edit ExprId :=
  recreateExpr e id fun v => if v = old then new else v

end Edit
end FusionCompiler
