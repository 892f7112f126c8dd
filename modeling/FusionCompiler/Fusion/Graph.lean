import Std.Data.HashSet
import FusionCompiler.Fusion.Basic

/-!
# Walking the graph

Order of the live expressions, neighbours of a value, dependence, and the
history that leads from one set of axes to another.

The transforms are listed in creation order, and a transform only consumes axes
that exist when it is recorded.  Walking the list backwards therefore meets
every use of an axis before its origin, and one pass finds a history.
-/

namespace FusionCompiler
namespace Fusion

/-! ## Expressions in order -/

/-- A depth-first walk: what has been entered, and what has been left, latest first. -/
structure Walk where
  entered : List ExprId := []
  left : List ExprId := []

/-- Enters an expression unless it was entered before: first the definitions of its operands, in
operand order, then the expression itself. -/
def enter (f : Fusion) : Nat → Walk → ExprId → Walk
  | 0, w, _ => w
  | fuel + 1, w, e =>
    if w.entered.contains e then w
    else
      let w := { w with entered := e :: w.entered }
      let w := (f.expr e).inputs.foldl (fun w v => match f.definition v with
        | some d => enter f fuel w d
        | none => w) w
      { w with left := e :: w.left }

/-- The expressions the outputs need, producers first. -/
def liveExprs (f : Fusion) : List ExprId :=
  let w := f.outputs.foldl (fun w v => match f.definition v with
    | some d => f.enter (f.exprs.size + 1) w d
    | none => w) {}
  w.left.reverse

/-- The needed expressions that compute tensors, producers first. -/
def tensorExprs (f : Fusion) : List ExprId :=
  f.liveExprs.filter fun e => (f.expr e).outputs.any f.isTensor

/-- Appends what is new. -/
def addNew {α : Type} [BEq α] (l : List α) (x : α) : List α :=
  if l.contains x then l else l ++ [x]

/-- Every tensor that takes part: inputs first, then in expression order. -/
def allTensors (f : Fusion) : List ValueId :=
  let fromExprs := f.liveExprs.flatMap fun e => (f.expr e).inputs ++ (f.expr e).outputs
  ((f.inputs ++ fromExprs).filter f.isTensor).foldl addNew []

/-! ## Neighbours -/

/-- The tensors a value is computed from. -/
def producers (f : Fusion) (v : ValueId) : List ValueId :=
  match f.definingExpr? v with
  | some e => (e.inputs.filter f.isTensor).foldl addNew []
  | none => []

/-- The tensors computed from a value, in the order of their expressions. -/
def consumers (f : Fusion) (v : ValueId) : List ValueId :=
  let uses := (f.uses v).mergeSort fun a b => a.index ≤ b.index
  ((uses.flatMap fun e => (f.expr e).outputs).filter f.isTensor).foldl addNew []

/-- The other tensors that the definition of a value computes. -/
def siblings (f : Fusion) (v : ValueId) : List ValueId :=
  match f.definingExpr? v with
  | some e => e.outputs.filter fun o => o != v && f.isTensor o
  | none => []

/-- Gives every sibling of a tensor its domain, positions and memory. -/
def syncSiblings (f : Fusion) (v : ValueId) : Fusion :=
  let view := f.view v
  (f.siblings v).foldl (fun f s => f.modifyView s fun _ => view) f

/-- Collects everything a list of values is computed from, the values included. -/
def collectAncestors (f : Fusion) : Nat → Std.HashSet ValueId → List ValueId → Std.HashSet ValueId
  | 0, seen, _ => seen
  | _, seen, [] => seen
  | fuel + 1, seen, v :: rest =>
    if seen.contains v then collectAncestors f fuel seen rest
    else
      let inputs := ((f.definingExpr? v).map (·.inputs)).getD []
      collectAncestors f fuel (seen.insert v) (inputs ++ rest)

/-- Steps that suffice to see every ancestor: one for each value and for each operand. -/
def ancestorFuel (f : Fusion) : Nat :=
  f.exprs.foldl (fun n e => n + ((e.map (·.inputs.length)).getD 0)) (f.values.size + 1)

/-- Everything a value is computed from, the value included. -/
def ancestors (f : Fusion) (v : ValueId) : Std.HashSet ValueId :=
  f.collectAncestors f.ancestorFuel {} [v]

/-- Whether `consumer` is computed from `producer`, or is it. -/
def dependsOn (f : Fusion) (consumer producer : ValueId) : Bool :=
  (f.ancestors consumer).contains producer

/-- Collects everything computed from a list of tensors, the tensors included. -/
def collectDownstream (f : Fusion) : Nat → List ValueId → List ValueId → List ValueId
  | 0, seen, _ => seen
  | _, seen, [] => seen
  | fuel + 1, seen, v :: rest =>
    if seen.contains v then collectDownstream f fuel seen rest
    else collectDownstream f fuel (v :: seen) (rest ++ f.consumers v)

/-- Steps that suffice to see everything downstream: one for each value and for each consumer of
it. -/
def downstreamFuel (f : Fusion) : Nat :=
  (List.range f.values.size).foldl (fun n i => n + (f.consumers ⟨i⟩).length) (f.values.size + 1)

/-- The tensors computed from a tensor, the tensor itself excluded. -/
def downstream (f : Fusion) (v : ValueId) : List ValueId :=
  let start := f.consumers v
  f.collectDownstream (f.downstreamFuel + start.length) [] start

/-! ## Histories -/

/-- A walk backwards through transforms: the axes still to be explained, and the transforms
found. -/
structure Trace where
  wanted : List AxisId
  found : List TransformId := []

/-- Takes in a transform if it produced a wanted axis. -/
def traceStep (start : List AxisId) (t : TransformId) (x : Transform) (w : Trace) : Trace :=
  if x.outputs.any fun a => w.wanted.contains a && !start.contains a then
    ⟨x.inputs ++ w.wanted, t :: w.found⟩
  else w

/-- The transforms on the paths from `start` to `goal`, in creation order. -/
def transformsBetween (f : Fusion) (start goal : List AxisId) : List TransformId :=
  let listed := f.transforms.toList.zipIdx
  (listed.foldr (fun (x, i) w => traceStep start ⟨i⟩ x w) ⟨goal, []⟩).found

/-- The transforms from the root of a tensor to its leaves. -/
def history (f : Fusion) (v : ValueId) : List TransformId :=
  let d := (f.view v).domain
  f.transformsBetween d.root d.leaf

/-- Every axis met on the way from `start` through a history. -/
def axesOfHistory (f : Fusion) (start : List AxisId) (history : List TransformId) : List AxisId :=
  start ++ history.flatMap fun t => (f.transform t).outputs

end Fusion
end FusionCompiler
