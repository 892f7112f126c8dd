import FusionCompiler.Kernel.Basic
import FusionCompiler.Lower.LoopGroups

/-!
# Extents and storage

A loop plan is a scheduled fusion together with its loop groups.  It tells how
often a loop runs, how wide a launch is, and which leaves of a tensor its
storage spans.
-/

namespace FusionCompiler

namespace Fusion

/-- Kernel arithmetic that computes a scalar, at most `fuel` definitions deep. -/
def kernelScalarWith (f : Fusion) : Nat → ValueId → Scalar
  | 0, v => .input v (f.dtype v)
  | fuel + 1, v =>
    let x := f.value v
    match x.kind with
    | .scalar (.const c) => .ofConstant c
    | .scalar (.tensorSize tensor dim) => .size tensor dim
    | .tensor _ => .input v x.dtype
    | .scalar .symbolic =>
      match f.definingExpr? v with
      | none => .input v x.dtype
      | some e =>
        let operand := fun i => kernelScalarWith f fuel (e.input i)
        match e.kind with
        | .unary op => .mkUnary op (operand 0)
        | .binary op => .mkBinary op (operand 0) (operand 1)
        | .select => .mkSelect (operand 0) (operand 1) (operand 2)
        | _ => .input v x.dtype

/-- Kernel arithmetic that computes a scalar of the fusion. -/
def kernelScalar (f : Fusion) (v : ValueId) : Scalar :=
  f.kernelScalarWith (f.values.size + 1) v

/-- The extent of an axis itself. -/
def ownExtent (f : Fusion) (a : AxisId) : Scalar :=
  f.kernelScalar (f.extent a)

/-- Where a tensor lives: inputs and outputs of the fusion are in global memory. -/
def memoryOf (f : Fusion) (v : ValueId) : MemoryType :=
  if f.isInput v || f.isOutput v then .global else (f.view v).memory

end Fusion

/-- A scheduled fusion with its loop groups. -/
structure LoopPlan where
  fusion : Fusion
  groups : LoopGroups
deriving Inhabited

namespace LoopPlan

/-- The trip count of the loop of an axis. -/
def concreteExtent (p : LoopPlan) (a : AxisId) : Scalar :=
  p.fusion.ownExtent (p.groups.concrete a)

/-! ## Launch dimensions -/

/-- The distinct trip counts of the loops bound to a launch type. -/
def launchExtentsOf (p : LoopPlan) (type : ParallelType) : List Scalar :=
  let bound := p.groups.groups.filter fun g =>
    g.parallel == type && !(p.fusion.axis g.concrete).isBroadcast
  (bound.map fun g => p.fusion.ownExtent g.concrete).foldl Fusion.addNew []

/-- The launch types in use with their extents. -/
def launchExtents (p : LoopPlan) : Kernel.LaunchExtents :=
  ⟨((ParallelType.all.filter (·.isLaunch)).map fun t => (t, p.launchExtentsOf t)).filter
    fun (_, extents) => !extents.isEmpty⟩

/-! ## Storage -/

/-- Whether the storage of a tensor spans the leaf at a position.  Loops outside the compute-at
position are shared with the consumer.  Registers never span launch axes; shared memory spans
thread axes wherever they are. -/
def spans (p : LoopPlan) (memory : MemoryType) (computeAt position : Nat) (leaf : AxisId) : Bool :=
  let axis := p.fusion.axis leaf
  let type := p.groups.parallel leaf
  !axis.isReduction && !axis.isBroadcast && match memory with
    | .local => computeAt ≤ position && !type.isLaunch
    | .shared => type.isThread || (computeAt ≤ position && !type.isBlock)
    | .global => false

/-- The leaves that the storage of a register or shared tensor spans. -/
def allocatedLeaves (p : LoopPlan) (v : ValueId) : List AxisId :=
  let memory := p.fusion.memoryOf v
  let computeAt := (p.fusion.view v).computeAt
  ((p.fusion.leaf v).zipIdx.filter fun (a, i) => p.spans memory computeAt i a).map (·.1)

/-- Number of elements of a register or shared tensor. -/
def allocationSize (p : LoopPlan) (v : ValueId) : Scalar :=
  (p.allocatedLeaves v).foldl (fun size a => size.mul (p.concreteExtent a)) .one

/-- The extents of a tensor in global memory. -/
def globalSizes (p : LoopPlan) (v : ValueId) : List Scalar :=
  (p.fusion.shape v).map fun a =>
    if (p.fusion.axis a).isBroadcast then .one else p.fusion.ownExtent a

/-- Registers need a size known at compile time; a register tensor of another size moves to global
memory. -/
def promoteDynamicRegisters (p : LoopPlan) : LoopPlan :=
  let f := p.fusion
  let promoted := f.allTensors.filter fun v =>
    !f.isInput v && !f.isOutput v && (f.view v).memory == .local && (p.allocationSize v).int?.isNone
  { p with fusion := promoted.foldl (fun f v => f.modifyView v ({ · with memory := .global })) f }

end LoopPlan
end FusionCompiler
