import FusionCompiler.Lower.Index

/-!
# Guards

An operation is guarded by three kinds of condition: bounds on the root indices
it touches, bounds on launch indices whose dimension is wider than the loop
bound to it, and index-zero conditions on launch types along which a value is
only valid, or only needs writing, once.  Bounds are left out where the loops
already prove them.
-/

namespace FusionCompiler

namespace Fusion

/-- Whether a transform leaves no remainder: merges never do, splits do not when a constant
factor divides a constant extent. -/
def splitsEvenly (f : Fusion) : Transform → Bool
  | .merge _ _ _ => true
  | .split input _ _ factor _ =>
    match f.constInt? (f.extent input), f.constInt? factor with
    | some extent, some factor => 0 < factor && extent % factor == 0
    | _, _ => false

/-- Follows axes forward through transforms; gives the axes they end in, unless a split on the
way leaves a remainder. -/
def exactLeaves (f : Fusion) : List Transform → List AxisId → Option (List AxisId)
  | [], reached => some reached
  | t :: rest, reached =>
    if t.inputs.any reached.contains then
      if f.splitsEvenly t then
        exactLeaves f rest (reached.filter (!t.inputs.contains ·) ++ t.outputs)
      else none
    else exactLeaves f rest reached

end Fusion

/-! ## Valid threads -/

/-- Index zero along every launch type of a set. -/
def zeroGuard (types : ParallelSet) : Scalar :=
  .all ((ParallelType.launchTypes.filter types.contains).map fun t =>
    (Scalar.launchIndex t).eq .zero)

/-- Which threads hold valid values.  A block or grid reduction leaves its result only in the
threads at index zero of the reduced types.  Consumers inherit this until a broadcast along
these types spreads the value to every thread. -/
structure ThreadValidity where
  /-- Types along which only index zero holds a tensor, latest first. -/
  atZero : List (ValueId × ParallelSet) := []
  /-- Types an expression must restrict to index zero, latest first. -/
  exprTypes : List (ExprId × ParallelSet) := []
  /-- Types a broadcast spreads its value across, latest first. -/
  spreadTypes : List (ExprId × ParallelSet) := []
deriving Repr, Inhabited

namespace ThreadValidity

/-- The types along which only index zero holds a tensor. -/
def tensor (m : ThreadValidity) (v : ValueId) : ParallelSet :=
  (m.atZero.lookup v).getD ∅

/-- The types an expression must restrict to index zero. -/
def expr (m : ThreadValidity) (e : ExprId) : ParallelSet :=
  (m.exprTypes.lookup e).getD ∅

/-- The types a broadcast spreads its value across. -/
def spread (m : ThreadValidity) (e : ExprId) : ParallelSet :=
  (m.spreadTypes.lookup e).getD ∅

/-- The launch types of leaves that come from the new axes of a broadcast. -/
def newAxisTypes (p : LoopPlan) (out : ValueId) (flags : List Bool) : ParallelSet :=
  let d := (p.fusion.view out).domain
  let fresh := ((d.root.zip flags).filter (·.2)).map (·.1)
  let derived := d.leaf.filter fun a => fresh.contains a || (p.fusion.origins a).any fresh.contains
  .ofList ((derived.map p.groups.parallel).filter (·.isLaunch))

/-- Takes in one expression after its producers. -/
def addExpr (p : LoopPlan) (m : ThreadValidity) (e : ExprId) : ThreadValidity :=
  let x := p.fusion.expr e
  let inherited := (p.fusion.tensorInputs e).foldl (fun s v => s.union (m.tensor v)) ∅
  let spread := match x.kind with
    | .broadcast flags => (newAxisTypes p x.output flags).inter inherited
    | _ => ∅
  let produced := inherited.diff spread
  let valid := fun v => (v, if x.kind.isReduction then
    produced.union (p.groups.reducedTypes p.fusion v) else produced)
  { atZero := (p.fusion.tensorOutputs e).map valid ++ m.atZero
    exprTypes := (e, inherited) :: m.exprTypes
    spreadTypes := (e, spread) :: m.spreadTypes }

/-- The valid threads of every tensor of a fusion. -/
def build (p : LoopPlan) : ThreadValidity :=
  p.fusion.tensorExprs.foldl (addExpr p) {}

end ThreadValidity

/-! ## Bounds -/

namespace LoopPlan

/-- Whether every index derived from a root axis provably stays inside it: the axis is only
merged, or split by factors that divide it, and every loop over a derived leaf runs exactly over
that leaf. -/
def isExactRoot (p : LoopPlan) (v : ValueId) (root : AxisId) : Bool :=
  let f := p.fusion
  match f.exactLeaves ((f.history v).map f.transform) [root] with
  | some leaves => leaves.all fun a => p.concreteExtent a == f.ownExtent a
  | none => false

/-- Bounds on the root indices of a tensor.  Reads cover every root axis; writes only those of
the stored value. -/
def bounds (p : LoopPlan) (v : ValueId) (m : AxisIndices) (withReductions : Bool) : Scalar :=
  let f := p.fusion
  let roots := if withReductions then (f.view v).domain.root else f.shape v
  .all (roots.filterMap fun a =>
    if (f.axis a).isBroadcast || p.isExactRoot v a then none
    else (m.get? a).map fun index => index.lt (f.ownExtent a))

/-- Bounds on the launch indices of the leaves of a tensor whose launch type may be wider. -/
def launchBounds (p : LoopPlan) (launch : Kernel.LaunchExtents) (v : ValueId)
    (withReductions : Bool) : Scalar :=
  .all ((p.fusion.leaf v).filterMap fun a =>
    let axis := p.fusion.axis a
    let type := p.groups.parallel a
    if axis.isBroadcast || (axis.isReduction && !withReductions) || !type.isLaunch
        || launch.isExact type then none
    else some ((Scalar.launchIndex type).lt (p.concreteExtent a)))

/-- The launch types that a write to a global or shared tensor does not depend on: along them
only index zero stores. -/
def redundantTypes (p : LoopPlan) (launch : Kernel.LaunchExtents) (v : ValueId)
    (skipReductions : Bool) : ParallelSet :=
  if p.fusion.memoryOf v == .local then ∅
  else
    let used := (p.fusion.leaf v).filter fun a =>
      let axis := p.fusion.axis a
      !axis.isBroadcast && !(skipReductions && axis.isReduction)
    launch.types.diff (.ofList ((used.map p.groups.parallel).filter (·.isLaunch)))

end LoopPlan
end FusionCompiler
