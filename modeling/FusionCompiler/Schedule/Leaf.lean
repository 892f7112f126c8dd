import FusionCompiler.Fusion.AxisMap
import FusionCompiler.Fusion.Build
import FusionCompiler.Fusion.Evaluate
import FusionCompiler.Schedule.Error

/-!
# Transforming the leaves of a tensor

Split, merge, reorder and parallelize.  Splits and merges create new axes and
are recorded in the fusion's history, so every leaf stays connected to the root.
Leaves left of a fixed position are not touched.
-/

namespace FusionCompiler
namespace Schedule

/-- A building step inside a schedule. -/
def build {α : Type} (x : Build α) : Schedule α :=
  EditE.mapError .fusion x

/-- The position of an axis that may be counted from the end. -/
def axisPosition (axis : Int) (ndims : Nat) : Schedule Nat :=
  build (EditE.ofExcept (normalizeAxis axis ndims))

/-- Fails for a leaf left of the fixed position. -/
def ensureUnfixed (tensor : ValueId) (axis : Nat) : Schedule Unit := do
  let fixed := ((← get).view tensor).fixedPosition
  EditE.ensure (fixed ≤ axis) (.axisFixed tensor axis fixed)

/-- Replaces the leaves of a tensor and of its siblings. -/
def setLeaf (tensor : ValueId) (leaf : List AxisId) : Edit Unit :=
  modify fun f => (f.modifyView tensor (·.withLeaf leaf)).syncSiblings tensor

/-- An unscheduled copy of an axis, of a given kind. -/
def freshAxis (like : AxisId) (kind : AxisKind) : Edit AxisId := do
  let copy ← Edit.copyAxis like
  modify (·.modifyAxis copy fun x => { x with kind, parallel := .serial })
  return copy

/-! ## Split and merge of axes -/

/-- Splits an axis into an outer and an inner one.  The factor is the extent of the inner axis
for an inner split and of the outer axis otherwise; the other extent is the quotient rounded up.
-/
def splitAxis (a : AxisId) (factor : ValueId) (innerSplit : Bool) : Schedule (AxisId × AxisId) := do
  let x := (← get).axis a
  let quotient ← build (Build.binaryOp .ceilDiv (.value x.extent) (.value factor))
  let outerExtent := if innerSplit then quotient else factor
  let innerExtent := if innerSplit then factor else quotient
  let outer ← Edit.addAxis { start := x.start, extent := outerExtent, kind := x.kind }
  let inner ← Edit.addAxis { start := x.start, extent := innerExtent, kind := x.kind }
  discard (Edit.addTransform (.split a outer inner factor innerSplit))
  return (outer, inner)

/-- The kind of a merged axis.  A broadcast merges with anything; iterations and reductions
never mix. -/
def mergedKind : AxisKind → AxisKind → Option AxisKind
  | .broadcast, k => some k
  | k, .broadcast => some k
  | .iteration, .iteration => some .iteration
  | .reduction, .reduction => some .reduction
  | _, _ => none

/-- Merges two axes into one of product extent. -/
def mergeAxes (outer inner : AxisId) : EditE MergeFault AxisId := do
  let f ← get
  let o := f.axis outer
  let i := f.axis inner
  match mergedKind o.kind i.kind with
  | none => throw .mixedKinds
  | some kind =>
    let extent ← EditE.mapError (fun _ => MergeFault.extentsNotIntegers)
      (Build.binaryOp .mul (.value o.extent) (.value i.extent))
    let output ← Edit.addAxis { start := o.start, extent, kind }
    discard (Edit.addTransform (.merge outer inner output))
    return output

/-- Applies a transform to the images of its inputs and records the images of its outputs.  Nothing
happens when an input has no image. -/
def repeatTransform (tensor : ValueId) (t : TransformId) (m : AxisMap) : Schedule AxisMap := do
  match (← get).transform t with
  | .split input outer inner factor innerSplit =>
    match m.get? input with
    | none => return m
    | some image =>
      let (o, i) ← splitAxis image factor innerSplit
      return (m.insert outer o).insert inner i
  | .merge outer inner output =>
    match m.get? outer, m.get? inner with
    | some o, some i =>
      let merged ← EditE.mapError (fun _ => ScheduleError.replayConflict tensor) (mergeAxes o i)
      return m.insert output merged
    | _, _ => return m

/-- Applies transforms in order, see `repeatTransform`. -/
def repeatTransforms (tensor : ValueId) : List TransformId → AxisMap → Schedule AxisMap
  | [], m => pure m
  | t :: rest, m => do repeatTransforms tensor rest (← repeatTransform tensor t m)

/-! ## Split -/

/-- A split factor: a constant or an integer scalar of the fusion. -/
inductive SplitFactor where
  | const (n : Int)
  | value (v : ValueId)
deriving DecidableEq, Repr

/-- The value of a split factor; a factor that is known must be positive. -/
def resolveFactor (tensor : ValueId) : SplitFactor → Schedule ValueId
  | .const n => do
    EditE.ensure (0 < n) (.invalidSplitFactor tensor)
    Edit.newInt n
  | .value v => do
    let f ← get
    EditE.ensure (!f.isTensor v && (f.dtype v).isInt) (.invalidSplitFactor tensor)
    EditE.ensure ((f.constInt? v).all (0 < ·)) (.invalidSplitFactor tensor)
    return v

/-- Splits a leaf in two. -/
def split (tensor : ValueId) (axis : Int) (factor : SplitFactor) (innerSplit : Bool) :
    Schedule Unit := do
  let view ← build (Build.ensureTensor tensor)
  let axis ← axisPosition axis view.ndims
  ensureUnfixed tensor axis
  let factor ← resolveFactor tensor factor
  let leaf := (← get).leaf tensor
  let (outer, inner) ← splitAxis (leaf.getD axis default) factor innerSplit
  setLeaf tensor (leaf.take axis ++ [outer, inner] ++ leaf.drop (axis + 1))

/-! ## Merge -/

/-- Puts a merged axis in the place of the earlier of two leaves and removes the later one. -/
def placeMerged (leaf : List AxisId) (lo hi : Nat) (merged : AxisId) : List AxisId :=
  (leaf.eraseIdx hi).set lo merged

/-- Merges two leaves into one. -/
def merge (tensor : ValueId) (outer inner : Int) : Schedule Unit := do
  let view ← build (Build.ensureTensor tensor)
  let outer ← axisPosition outer view.ndims
  let inner ← axisPosition inner view.ndims
  EditE.ensure (outer != inner) (.invalidMerge tensor outer inner .sameAxis)
  let lo := Min.min outer inner
  let hi := Max.max outer inner
  ensureUnfixed tensor lo
  let leaf := (← get).leaf tensor
  let merged ← EditE.mapError (ScheduleError.invalidMerge tensor outer inner)
    (mergeAxes (leaf.getD outer default) (leaf.getD inner default))
  setLeaf tensor (placeMerged leaf lo hi merged)

/-! ## Reorder -/

/-- Reads a list of moves as positions; no axis is moved twice and no position is taken twice. -/
def readMoves (tensor : ValueId) (ndims : Nat) :
    List (Nat × Nat) → List (Int × Int) → Except ScheduleError (List (Nat × Nat))
  | seen, [] => .ok seen
  | seen, (old, new) :: rest =>
    match normalizeAxis old ndims, normalizeAxis new ndims with
    | .error e, _ => .error (.fusion e)
    | _, .error e => .error (.fusion e)
    | .ok old, .ok new =>
      if seen.any (·.1 == old) then .error (.invalidReorder tensor .movedTwice)
      else if seen.any (·.2 == new) then .error (.invalidReorder tensor .samePosition)
      else readMoves tensor ndims (seen ++ [(old, new)]) rest

/-- Fills free slots with the remaining elements in order. -/
def fillSlots {α : Type} : List (Option α) → List α → List α
  | [], _ => []
  | some a :: slots, rest => a :: fillSlots slots rest
  | none :: slots, a :: rest => a :: fillSlots slots rest
  | none :: slots, [] => fillSlots slots []

/-- Moves elements to new positions; the others keep their order in the remaining slots. -/
def applyMoves {α : Type} (moves : List (Nat × Nat)) (l : List α) : List α :=
  let slots := (List.range l.length).map fun i =>
    (moves.find? (·.2 == i)).bind fun m => l[m.1]?
  let rest := (l.zipIdx.filter fun (_, i) => !moves.any (·.1 == i)).map (·.1)
  fillSlots slots rest

/-- The first position at which two lists differ. -/
def firstDifference {α : Type} [BEq α] : Nat → List α → List α → Option Nat
  | i, a :: as, b :: bs => if a == b then firstDifference (i + 1) as bs else some i
  | _, _, _ => none

/-- Permutes the leaves of a tensor; the fixed ones must stay. -/
def reorder (tensor : ValueId) (moves : List (Int × Int)) : Schedule Unit := do
  let view ← build (Build.ensureTensor tensor)
  let moves ← EditE.ofExcept (readMoves tensor view.ndims [] moves)
  let leaf := applyMoves moves view.leaf
  let fixed := view.fixedPosition
  match firstDifference 0 (leaf.take fixed) (view.leaf.take fixed) with
  | some axis => throw (.axisFixed tensor axis fixed)
  | none => setLeaf tensor leaf

/-! ## Parallelize -/

/-- Chooses how a leaf is executed.  A vectorized leaf is innermost and has a constant extent. -/
def parallelize (tensor : ValueId) (axis : Int) (parallel : ParallelType) : Schedule Unit := do
  let view ← build (Build.ensureTensor tensor)
  let axis ← axisPosition axis view.ndims
  let a := view.leaf.getD axis default
  if parallel.isVectorize then
    EditE.ensure (axis + 1 == view.ndims) (.invalidParallelize tensor axis parallel .notInnermost)
    let f ← get
    EditE.ensure (f.constInt? (f.extent a)).isSome
      (.invalidParallelize tensor axis parallel .widthNotConstant)
  modify (·.modifyAxis a fun x => { x with parallel })

end Schedule
end FusionCompiler
