import FusionCompiler.Fusion.Graph
import FusionCompiler.Fusion.Error
import FusionCompiler.Moments

/-!
# Building a fusion

Tensors, element-wise operations, reductions and broadcasts.

Operands are tensors, scalars or literals.  Tensor operands of one operation
agree on rank, and a broadcast axis gives way to the first axis in the same
position that is none.  An operation over literals is folded.
-/

namespace FusionCompiler

/-- Something an operation can read. -/
inductive Operand where
  | value (v : ValueId)
  | literal (c : Constant)
deriving Repr, Inhabited

/-- Building steps fail with a fusion error. -/
abbrev Build := EditE FusionError

namespace Build

/-- The value of an operand; a literal becomes a new value. -/
def resolve : Operand → Edit ValueId
  | .value v => pure v
  | .literal c => Edit.newConst c

/-- The view of a tensor. -/
def ensureTensor (v : ValueId) : Build TensorView := do
  match ((← get).value v).view? with
  | some t => return t
  | none => throw (.notATensor v)

/-! ## Inputs and outputs -/

/-- Makes a value an input. -/
def addInput (v : ValueId) : Build Unit := do
  let f ← get
  if (f.definition v).isSome then throw (.inputHasDefinition v)
  if f.isInput v then throw (.alreadyInput v)
  set { f with inputs := f.inputs ++ [v] }

/-- Makes a tensor an output. -/
def addOutput (v : ValueId) : Build Unit := do
  discard (ensureTensor v)
  let f ← get
  if f.isOutput v then throw (.alreadyOutput v)
  set { f with outputs := f.outputs ++ [v] }

/-- Declares that an output is written into the buffer of an input. -/
def addAlias (output input : ValueId) : Build Unit := do
  let f ← get
  if !f.isOutput output then throw (.notAnOutput output)
  if !f.isInput input || !f.isTensor input then throw (.invalidAlias output input .targetNotInput)
  if f.dtype output ≠ f.dtype input then throw (.invalidAlias output input .dtypesDiffer)
  if (f.shape output).length ≠ (f.view input).domain.root.length then
    throw (.invalidAlias output input .ranksDiffer)
  if f.aliases.any fun (o, i) => o == output || i == input then
    throw (.invalidAlias output input .alreadyAliased)
  set { f with aliases := f.aliases ++ [(output, input)] }

/-! ## Tensors -/

/-- The declared size that leaves a dimension symbolic. -/
def symbolicSize : Int := -1

/-- The axes of a declared tensor: one symbolic, broadcast or constant axis per size. -/
def declareAxes (tensor : ValueId) : Nat → List Int → Edit (List AxisId)
  | _, [] => pure []
  | dim, size :: rest => do
    let axis ←
      if size = symbolicSize then do
        Edit.newAxis (← Edit.newValue .int64 (.scalar (.tensorSize tensor dim))) .iteration
      else if size = 1 then do
        Edit.newAxis (← Edit.newInt 1) .broadcast
      else do
        Edit.newAxis (← Edit.newInt size) .iteration
    return axis :: (← declareAxes tensor (dim + 1) rest)

/-- Declares a tensor by its sizes and the contiguity of its dimensions. -/
def declareTensor (sizes : List Int) (contiguity : List Bool) (t : DataType) : Edit ValueId := do
  let tensor ← Edit.newTensor (.contiguous []) t
  let root ← declareAxes tensor 0 sizes
  modify (·.modifyView tensor fun v => { v with domain := .ofRoot root contiguity })
  return tensor

/-- A contiguous tensor with given sizes. -/
def concreteTensor (sizes : List Int) (t : DataType) : Edit ValueId :=
  declareTensor sizes (sizes.map fun _ => true) t

/-- A tensor of symbolic sizes with given contiguity. -/
def tensorWithContiguity (contiguity : List Bool) (t : DataType) : Edit ValueId :=
  declareTensor (contiguity.map fun _ => symbolicSize) contiguity t

/-- A contiguous tensor of symbolic sizes. -/
def symbolicTensor (ndims : Nat) (t : DataType) : Edit ValueId :=
  tensorWithContiguity (List.replicate ndims true) t

/-! ## Element-wise operations -/

/-- The result type over operands.  Tensor types promote among themselves; a scalar only lifts
an integral result to a float and a truth value to an integer. -/
def promotedType (f : Fusion) (operands : List ValueId) : DataType :=
  let tensors := (operands.filter f.isTensor).map f.dtype
  let scalars := (operands.filter fun v => !f.isTensor v).map f.dtype
  match tensors, scalars with
  | t :: ts, _ =>
    scalars.foldl (fun t s =>
      if s.isFloat && !t.isFloat then .float
      else if s.isInt && t.isBool then .int64
      else t) (ts.foldl DataType.promote t)
  | [], s :: ss => ss.foldl DataType.promote s
  | [], [] => .int64

/-- The axes of an element-wise result, one for each column of operand axes: the first that is no
broadcast gives the extent. -/
def elementwiseAxes : List (List AxisId) → Edit (List AxisId)
  | [] => pure []
  | column :: rest => do
    let f ← get
    let axis ← match column.find? fun a => !(f.axis a).isBroadcast with
      | some a => Edit.newAxis (f.extent a) .iteration
      | none => Edit.newAxis (f.extent (column.headD default)) .broadcast
    return axis :: (← elementwiseAxes rest)

/-- The axes of several shapes, position by position. -/
def columns (shapes : List (List AxisId)) : List (List AxisId) :=
  (List.range ((shapes.headD []).length)).map fun d => shapes.map fun s => s.getD d default

/-- Adds an element-wise expression.  Without tensor operands the result is a scalar. -/
def elementwise (kind : ExprKind) (operands : List ValueId) (t : DataType) : Build ValueId := do
  let f ← get
  let tensors := operands.filter f.isTensor
  let out ← match tensors with
    | [] => Edit.newScalar t
    | first :: others =>
      let rank := (f.shape first).length
      match others.find? fun v => (f.shape v).length != rank with
      | some v => throw (.rankMismatch kind.name rank (f.shape v).length)
      | none =>
        let root ← elementwiseAxes (columns (tensors.map f.shape))
        Edit.newTensor (.contiguous root) t
  discard (Edit.addExpr kind operands [out])
  return out

/-- Applies a unary operator; an operator for floats lifts integral operands. -/
def unaryOp (op : UnaryOp) (x : Operand) : Build ValueId := do
  let x ← resolve x
  let f ← get
  let input := f.dtype x
  let t := if op.isFloatOnly && !input.isFloat then .float else input
  if input.isBool && (op == .neg || op == .abs) then
    throw (.invalidDType "unary arithmetic" input)
  match f.const? x with
  | some c => Edit.newConstTyped (Constant.ofFloat (op.eval c.toFloat) t) t
  | none => elementwise (.unary op) [x] t

/-- A copy of an operand, never folded. -/
def copy (x : Operand) : Build ValueId := do
  let x ← resolve x
  elementwise (.unary .set) [x] ((← get).dtype x)

/-- A conversion of an operand. -/
def cast (x : Operand) (t : DataType) : Build ValueId := do
  let x ← resolve x
  match (← get).const? x with
  | some c => Edit.newConstTyped c t
  | none => elementwise (.unary .cast) [x] t

/-- The value of a binary operator over literals, as a literal of the operands' type. -/
def foldBinary (op : BinaryOp) (a b : Constant) (t : DataType) : Option Constant :=
  match a, b, t.isInt with
  | .int a, .int b, true => op.evalInt a b
  | a, b, _ => some (Constant.ofFloat (op.eval a.toFloat b.toFloat !t.isFloat) t)

/-- Applies a binary operator with type promotion. -/
def binaryOp (op : BinaryOp) (lhs rhs : Operand) : Build ValueId := do
  let lhs ← resolve lhs
  let rhs ← resolve rhs
  let f ← get
  let operandType := promotedType f [lhs, rhs]
  let t := if op.yieldsBool then .bool else operandType
  if op == .ceilDiv && !operandType.isInt then throw (.invalidDType "ceil_div" operandType)
  let folded := match f.const? lhs, f.const? rhs with
    | some a, some b => foldBinary op a b operandType
    | _, _ => none
  match folded with
  | some c => Edit.newConstTyped c t
  | none => elementwise (.binary op) [lhs, rhs] t

/-- Selects between two operands by a condition. -/
def select (cond a b : Operand) : Build ValueId := do
  let cond ← resolve cond
  let a ← resolve a
  let b ← resolve b
  let f ← get
  if !(f.dtype cond).isBool then throw (.invalidDType selectName (f.dtype cond))
  let t := promotedType f [a, b]
  let folded := match f.const? cond with
    | some flag =>
      if f.isTensor a || f.isTensor b then none
      else f.const? (if flag.toBool then a else b)
    | none => none
  match folded with
  | some c => Edit.newConstTyped c t
  | none => elementwise .select [cond, a, b] t

/-! ## Reductions -/

/-- The positions of distinct axes. -/
def distinctAxes (ndims : Nat) : List Nat → List Int → Except FusionError (List Nat)
  | seen, [] => .ok seen
  | seen, axis :: rest => do
    let position ← normalizeAxis axis ndims
    if seen.contains position then throw (.duplicateAxis position)
    distinctAxes ndims (position :: seen) rest

/-- The axes of a reduction's result: those of the operand, with the chosen ones reduced. -/
def reducedAxes (reduced : List Nat) : Nat → List AxisId → Edit (List AxisId)
  | _, [] => pure []
  | i, a :: rest => do
    let x := (← get).axis a
    let kind := if reduced.contains i then .reduction
      else if x.isBroadcast then .broadcast
      else .iteration
    let axis ← Edit.newAxis x.extent kind
    return axis :: (← reducedAxes reduced (i + 1) rest)

/-- The root of a reduction of a tensor over axes. -/
def reductionRoot (tensor : ValueId) (axes : List Int) : Build (List AxisId) := do
  if axes.isEmpty then throw .emptyReductionAxes
  let shape := (← get).shape tensor
  let reduced ← EditE.ofExcept (distinctAxes shape.length [] axes)
  reducedAxes reduced 0 shape

/-- Reduces a tensor over axes, starting from `init`. -/
def reductionOp (op : BinaryOp) (axes : List Int) (init : Constant) (tensor : ValueId) :
    Build ValueId := do
  discard (ensureTensor tensor)
  if !op.isReduction then throw (.invalidReduction op)
  let t := (← get).dtype tensor
  let root ← reductionRoot tensor axes
  let out ← Edit.newTensor (.contiguous root) t
  discard (Edit.addExpr (.reduction op (init.cast t)) [tensor] [out])
  return out

/-- Reduces a tensor over axes, starting from the identity of the operator. -/
def reduce (op : BinaryOp) (tensor : ValueId) (axes : List Int) : Build ValueId := do
  match op.identity? ((← get).dtype tensor) with
  | some init => reductionOp op axes init tensor
  | none => throw (.invalidReduction op)

/-- Mean and variance over axes in one pass; the three results share their axes. -/
def welford (tensor : ValueId) (axes : List Int) : Build (Moments ValueId) := do
  discard (ensureTensor tensor)
  let t := (← get).dtype tensor
  if !t.isFloat then throw (.invalidDType "welford" t)
  let root ← reductionRoot tensor axes
  let domain := TensorDomain.contiguous root
  let avg ← Edit.newTensor domain t.accumulator
  let varSum ← Edit.newTensor domain t.accumulator
  let n ← Edit.newTensor domain .int64
  discard (Edit.addExpr .welford [tensor] [avg, varSum, n])
  return ⟨avg, varSum, n⟩

/-! ## Broadcasts -/

/-- The axes of a broadcast: new ones where the flag is set, else the operand's in order. -/
def broadcastAxes : List Bool → List AxisId → Edit (List AxisId)
  | [], _ => pure []
  | true :: flags, shape => do
    let axis ← Edit.newAxis (← Edit.newInt 1) .broadcast
    return axis :: (← broadcastAxes flags shape)
  | false :: flags, shape => do
    let x := (← get).axis (shape.headD default)
    let axis ← Edit.newAxis x.extent (if x.isBroadcast then .broadcast else .iteration)
    return axis :: (← broadcastAxes flags shape.tail)

/-- Inserts broadcast axes into a tensor, one flag per axis of the result. -/
def broadcast (tensor : ValueId) (flags : List Bool) : Build ValueId := do
  discard (ensureTensor tensor)
  let f ← get
  let shape := f.shape tensor
  let kept := (flags.filter (!·)).length
  if kept ≠ shape.length then throw (.broadcastFlagsMismatch kept shape.length)
  let root ← broadcastAxes flags shape
  let out ← Edit.newTensor (.contiguous root) (f.dtype tensor)
  discard (Edit.addExpr (.broadcast flags) [tensor] [out])
  return out

end Build
end FusionCompiler
