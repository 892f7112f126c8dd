import FusionCompiler.Heuristic.Analysis
import FusionCompiler.Schedule.Propagate

/-!
# Point-wise schedule

All outputs have one rank and nothing is reduced: the leaves are merged into one
loop, which is split into blocks, threads and, if the arguments allow it,
vectors.
-/

namespace FusionCompiler
namespace Heuristic

/-- Threads of a block. -/
def defaultBlockSize : Int := 128

/-- Parameters of a point-wise schedule. -/
structure PointwiseParams where
  vectorWidth : Int := 1
  blockSize : Int := defaultBlockSize
deriving DecidableEq, Repr, Inhabited

namespace Pointwise

/-- The first output of highest rank; all outputs must have that rank. -/
def reference (f : Fusion) : Except ScheduleError ValueId :=
  let rank := fun v => (f.shape v).length
  let better := fun (a b : ValueId) => rank b < rank a || (rank a == rank b && a < b)
  match f.outputs with
  | [] => .error (.noScheduler .noOutputs)
  | first :: rest =>
    let best := rest.foldl (fun best v => if better v best then v else best) first
    match f.outputs.find? fun v => rank v != rank best with
    | some other => .error (.noScheduler (.outputsDifferInRank best other))
    | none => .ok best

/-- Whether strides are row-major, given sizes and strides from the innermost dimension on. -/
def rowMajorFrom : Nat → List (Nat × Nat) → Bool
  | _, [] => true
  | expected, (size, stride) :: rest =>
    !(1 < size && stride != expected) && rowMajorFrom (expected * size) rest

/-- Whether strides are row-major; dimensions of size one do not count. -/
def isRowMajor (sizes strides : List Nat) : Bool :=
  rowMajorFrom 1 (sizes.zip strides).reverse

/-- The innermost size of a row-major argument of a given rank. -/
def innermostSize? (args : Arguments) (rank : Nat) (v : ValueId) : Option Nat :=
  match args.sizes? v, args.strides? v with
  | some sizes, some strides =>
    if sizes.length = rank && isRowMajor sizes strides then sizes.getLast? else none
  | _, _ => none

/-- The widest vector that every input supports: there is no broadcast, and the inputs are
row-major, of the outputs' rank, and of a divisible innermost size. -/
def vectorWidth (f : Fusion) (args : Arguments) (rank : Nat) : Int :=
  if rank = 0 || f.hasBroadcastRoot then 1
  else
    match f.inputTensors.mapM (innermostSize? args rank) with
    | none => 1
    | some innermost =>
      if innermost.all (· % 4 == 0) then 4
      else if innermost.all (· % 2 == 0) then 2
      else 1

/-- Proposes parameters. -/
def propose (f : Fusion) (args : Arguments) : Except ScheduleError PointwiseParams := do
  let v ← reference f
  return { vectorWidth := vectorWidth f args (f.shape v).length }

/-- Inserts copies of the inputs and before the outputs; gives the tensors to vectorize. -/
def insertCaches : Schedule (List ValueId) := do
  let copies ← (← get).inputTensors.mapM Schedule.cacheAfter
  let outputs := (← get).outputs
  outputs.forM fun v => discard (Schedule.cacheBefore v)
  return copies ++ outputs

/-- Merges the leaves of the reference into one loop and splits it into blocks and threads.  If
there are vectors, inputs and outputs are copied first, and a thread runs over a vector; gives the
tensors to vectorize. -/
def tile (params : PointwiseParams) (v : ValueId) (ndims : Nat) : Schedule (List ValueId) := do
  let vectorized ← if 1 < params.vectorWidth then insertCaches else pure []
  Schedule.mergeRange v 0 ndims
  if 1 < params.vectorWidth then Schedule.split v 0 (.const params.vectorWidth) true
  Schedule.split v 0 (.const params.blockSize) true
  return vectorized

/-- Tiles the reference, unless it has no axes; gives it and the tensors to vectorize. -/
def arrange (params : PointwiseParams) : Schedule (ValueId × List ValueId) := do
  let v ← EditE.ofExcept (reference (← get))
  let ndims := ((← get).view v).ndims
  if ndims = 0 then return (v, [])
  return (v, ← tile params v ndims)

/-- Arranges the reference, unless it has no axes, and gives its loops to the tensors connected with
it.  Blocks and threads run along them, and the tensors to vectorize move vectors along their
innermost leaves.  Gives the reference. -/
def bindLoops (params : PointwiseParams) : Schedule ValueId := do
  let (v, vectorized) ← arrange params
  if ((← get).view v).ndims = 0 then return v
  Schedule.propagateTransforms v
  Schedule.parallelize v 0 .blockX
  Schedule.parallelize v 1 .threadX
  Schedule.parallelizeLike v [] (.ofList [.blockX, .threadX])
  vectorized.forM fun t => Schedule.parallelize t (-1) .vectorize
  return v

/-- Schedules a fusion. -/
def schedule (params : PointwiseParams) : Schedule Unit := do
  let v ← bindLoops params
  if ((← get).view v).ndims = 0 then return ()
  Schedule.inlineInputs 2

end Pointwise
end Heuristic
end FusionCompiler
