import FusionCompiler.Fusion.Build

/-!
# Boundaries and standalone segments

A segment is a set of tensor expressions.  Its boundary lists the tensors it
reads from outside and those it hands out, and `extract` turns a segment into a
fusion of its own over the same handles.
-/

namespace FusionCompiler
namespace Segment

/-- What crosses the border of a segment; the inputs end with every scalar input of the fusion. -/
structure Boundary where
  inputs : List ValueId := []
  outputs : List ValueId := []
deriving DecidableEq, Repr, Inhabited

/-- Whether a value is computed inside a set of expressions. -/
def isInternal (f : Fusion) (exprs : List ExprId) (v : ValueId) : Bool :=
  match f.definition v with
  | some d => exprs.contains d
  | none => false

/-- Whether a value is an output or read by an expression of `order` outside. -/
def escapes (f : Fusion) (order exprs : List ExprId) (v : ValueId) : Bool :=
  f.isOutput v || (f.uses v).any fun u => order.contains u && !exprs.contains u

/-- The boundary of a set of expressions among all tensor expressions. -/
def boundary (f : Fusion) (order exprs : List ExprId) : Boundary where
  inputs :=
    let read := exprs.flatMap fun e => (f.expr e).inputs
    let outside := read.filter fun v => f.isTensor v && !isInternal f exprs v
    outside.foldl Fusion.addNew [] ++ f.inputs.filter fun v => !f.isTensor v
  outputs :=
    let written := exprs.flatMap fun e => (f.expr e).outputs
    (written.filter fun v => f.isTensor v && escapes f order exprs v).foldl Fusion.addNew []

/-- New names for sizes of tensors outside the segment. -/
abbrev Renaming := List (ValueId × ValueId)

/-- Renames the extent of one dimension of an intermediate input, if it is the size of a tensor
outside and has no new name yet. -/
def renameExtent (io : Boundary) (v : ValueId) (dim : Nat) (extent : ValueId) (names : Renaming) :
    Edit Renaming := do
  match ((← get).value extent).kind with
  | .scalar (.tensorSize tensor _) =>
    if io.inputs.contains tensor || names.any (·.1 == extent) then return names
    else
      let size ← Edit.newValue .int64 (.scalar (.tensorSize v dim))
      return names ++ [(extent, size)]
  | _ => return names

/-- Copies the axes of an intermediate input and renames their extents. -/
def materializeAxes (io : Boundary) (v : ValueId) :
    Nat → List AxisId → Renaming → Edit (List AxisId × Renaming)
  | _, [], names => pure ([], names)
  | dim, a :: rest, names => do
    let names ← renameExtent io v dim ((← get).extent a) names
    let copy ← Edit.copyAxis a
    let (axes, names) ← materializeAxes io v (dim + 1) rest names
    return (copy :: axes, names)

/-- Gives an intermediate input axes of its own.  It loses its reduction axes: in the segment it
is a plain tensor in memory. -/
def materialize (complete : Fusion) (io : Boundary) (v : ValueId) (names : Renaming) :
    Edit Renaming := do
  let f ← get
  if f.isTensor v && !complete.isInput v then
    let (axes, names) ← materializeAxes io v 0 (f.shape v) names
    modify (·.modifyView v fun t => { t with domain := .contiguous axes })
    return names
  else return names

/-- Makes values the inputs of a segment. -/
def addInputs (complete : Fusion) (io : Boundary) : List ValueId → Renaming → Build Renaming
  | [], names => pure names
  | v :: rest, names => do
    let names ← materialize complete io v names
    Build.addInput v
    addInputs complete io rest names

/-- Gives the root axes of all tensors their new extents. -/
def applyRenaming (names : Renaming) (f : Fusion) : Fusion :=
  if names.isEmpty then f
  else
    let roots := f.allTensors.flatMap fun v => (f.view v).domain.root
    roots.foldl (fun f a => match names.lookup (f.extent a) with
      | some size => f.modifyAxis a fun x => { x with extent := size }
      | none => f) f

/-- A fusion that computes only the given expressions. -/
def extract (complete : Fusion) (exprs : List ExprId) (io : Boundary) : Except FusionError Fusion :=
  let removed := complete.tensorExprs.filter fun e => !exprs.contains e
  let f := removed.foldl Fusion.removeExpr complete
  let f := complete.inputs.foldl Fusion.removeInput f
  let f := complete.outputs.foldl Fusion.removeOutput f
  let fill : Build Unit := do
    let names ← addInputs complete io io.inputs []
    io.outputs.forM Build.addOutput
    modify (applyRenaming names)
  EditE.applyTo fill f

end Segment
end FusionCompiler
