import FusionCompiler.Schedule.Leaf

/-!
# Factoring a reduction

A reduction is split in two stages: a partial tensor that reduces only the
chosen leaves and keeps the other reduction axes as iterations, and the tensor
itself, which reduces what is left.  All results of a Welford expression are
factored together, and the second stage combines partial triples.
-/

namespace FusionCompiler
namespace Schedule

/-- The chosen leaves of a reduction. -/
def chosenLeaves (f : Fusion) (tensor : ValueId) (leaf : List AxisId) :
    List AxisId → List Int → Except ScheduleError (List AxisId)
  | seen, [] => .ok seen
  | seen, axis :: rest =>
    match normalizeAxis axis leaf.length with
    | .error e => .error (.fusion e)
    | .ok position =>
      let a := leaf.getD position default
      if (f.axis a).isReduction then chosenLeaves f tensor leaf (Fusion.addNew seen a) rest
      else .error (.invalidRFactor tensor .notReductionAxis)

/-- Axes with everything they were derived from. -/
def withAncestors (f : Fusion) (axes : List AxisId) : List AxisId :=
  (f.transforms.toList.zipIdx.foldr (fun (x, i) w => Fusion.traceStep [] ⟨i⟩ x w) ⟨axes, []⟩).wanted

/-- Puts the outputs of a transform in the place of its inputs. -/
def applyInPlace (axes : List AxisId) : Transform → List AxisId
  | .split input outer inner _ _ =>
    match axes.idxOf? input with
    | some i => axes.take i ++ [outer, inner] ++ axes.drop (i + 1)
    | none => axes
  | .merge outer inner output =>
    match axes.idxOf? outer with
    | some i => (axes.set i output).filter (· != inner)
    | none => axes

/-- How a reduction falls apart in two stages. -/
structure Factoring where
  definition : ExprId
  domain : TensorDomain
  chosen : List AxisId
  history : List TransformId
  /-- Axes that serve only the remaining reductions: iterations of the partial tensor. -/
  rfactored : List AxisId
  /-- Transforms that lead to remaining reductions. -/
  needed : List TransformId

/-- Works out the two stages of a reduction for a choice of its leaves. -/
def Factoring.ofChosen (f : Fusion) (tensor : ValueId) (definition : ExprId)
    (chosen : List AxisId) : Except ScheduleError Factoring :=
  let domain := (f.view tensor).domain
  let kept := domain.leaf.filter fun a => (f.axis a).isReduction && !chosen.contains a
  let history := f.history tensor
  let chosenAncestry := withAncestors f chosen
  let keptAncestry := withAncestors f kept
  if chosen.isEmpty then .error (.invalidRFactor tensor .noAxes)
  else if kept.isEmpty then .error (.invalidRFactor tensor .allAxes)
  else .ok {
    definition, domain, chosen, history
    rfactored := keptAncestry.filter fun a => !chosenAncestry.contains a
    needed := history.filter fun t => (f.transform t).outputs.any keptAncestry.contains }

/-- Checks a choice of leaves and works out the two stages. -/
def Factoring.plan (f : Fusion) (tensor : ValueId) (axes : List Int) :
    Except ScheduleError Factoring :=
  match f.definition tensor with
  | none => .error (.invalidRFactor tensor .notAReduction)
  | some definition =>
    let view := f.view tensor
    if !(f.expr definition).kind.isReduction then .error (.invalidRFactor tensor .notAReduction)
    else if view.fixedPosition ≠ 0 then .error (.invalidRFactor tensor .hasPosition)
    else if view.domain.rfactor.isSome then .error (.invalidRFactor tensor .alreadyFactored)
    else do Factoring.ofChosen f tensor definition (← chosenLeaves f tensor view.leaf [] axes)

/-- The root axes after the needed transforms. -/
def Factoring.frontier (p : Factoring) (f : Fusion) : List AxisId :=
  p.needed.foldl (fun axes t => applyInPlace axes (f.transform t)) p.domain.root

/-- The image of an axis that is known to have one. -/
def imageOf (m : AxisMap) (a : AxisId) : AxisId :=
  (m.get? a).getD a

/-- Copies axes one by one, each with a kind of its own. -/
def copyAxes : List (AxisId × AxisKind) → Edit (List (AxisId × AxisId))
  | [] => pure []
  | (a, kind) :: rest => do
    let copy ← freshAxis a kind
    return (a, copy) :: (← copyAxes rest)

/-- Gives copies the execution of the axes they stand for. -/
def copyParallel (pairs : List (AxisId × AxisId)) : Edit Unit :=
  pairs.forM fun (old, new) => modify fun f =>
    f.modifyAxis new fun x => { x with parallel := (f.axis old).parallel }

/-- The domain of the partial tensor: the whole schedule on a copy of the root. -/
def Factoring.partialDomain (p : Factoring) (tensor : ValueId) : Schedule TensorDomain := do
  let f ← get
  let roots ← copyAxes (p.domain.root.map fun a => (a, (f.axis a).kind))
  let m ← repeatTransforms tensor p.history (.ofPairs roots)
  modify fun f => p.rfactored.foldl (fun f a => f.modifyAxis (imageOf m a) fun x =>
    { x with kind := .iteration, isRFactor := true }) f
  let leaf := p.domain.leaf.map (imageOf m)
  copyParallel (p.domain.leaf.zip leaf)
  return .factored (roots.map (·.2)) ((p.frontier f).map (imageOf m)) leaf

/-- The kinds of the second stage's root axes: what the partial tensor still iterates over is
reduced, and what it has reduced is gone. -/
def Factoring.finalKinds (p : Factoring) (f : Fusion) : List (AxisId × AxisKind) :=
  (p.frontier f).filterMap fun a =>
    if p.rfactored.contains a then some (a, .reduction)
    else if (f.axis a).isReduction then none
    else some (a, (f.axis a).kind)

/-- The domain of the second stage: the remaining schedule on a copy of the partial tensor's
shape. -/
def Factoring.finalDomain (p : Factoring) (tensor : ValueId) : Schedule TensorDomain := do
  let f ← get
  let roots ← copyAxes (p.finalKinds f)
  let rest := p.history.filter fun t => !p.needed.contains t
  let m ← repeatTransforms tensor rest (.ofPairs roots)
  let remaining := p.domain.leaf.filter fun a => !p.chosen.contains a
  let leaf ← remaining.mapM fun old => match m.get? old with
    | none => throw (.invalidRFactor tensor .dependsOnFactored)
    | some new => do
      copyParallel [(old, new)]
      return new
  return { TensorDomain.contiguous (roots.map (·.2)) with leaf }

/-- Factors the chosen leaves of a reduction into a partial tensor; gives the partial tensor. -/
def rfactor (tensor : ValueId) (axes : List Int) : Schedule ValueId := do
  discard (build (Build.ensureTensor tensor))
  let p ← EditE.ofExcept (Factoring.plan (← get) tensor axes)
  let partialDomain ← p.partialDomain tensor
  let finalDomain ← p.finalDomain tensor
  let f ← get
  let e := f.expr p.definition
  let partials ← e.outputs.mapM fun o => (Edit.newTensor partialDomain (f.dtype o) : Edit ValueId)
  modify (·.removeExpr p.definition)
  discard (Edit.addExpr e.kind e.inputs partials)
  discard (Edit.addExpr e.kind partials e.outputs)
  modify fun f =>
    (f.modifyView tensor fun v => { v with domain := finalDomain }).syncSiblings tensor
  return partials.getD ((e.outputs.idxOf? tensor).getD 0) default

end Schedule
end FusionCompiler
