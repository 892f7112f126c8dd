import FusionCompiler.Heuristic.Pointwise
import FusionCompiler.Schedule.RFactor

/-!
# Reduction schedule

All reductions reduce the same positions: iterated leaves become rows, one per
block, and reduced leaves are shared by the threads of a block, or by several
blocks when there are few long rows.  Each reduction is factored into a serial
and a parallel stage.  Buffers that are read again after a reduction stay on
chip, if they fit.
-/

namespace FusionCompiler
namespace Heuristic

/-- Parameters of a reduction schedule. -/
structure ReductionParams where
  blockSize : Int := defaultBlockSize
  /-- Split the reduction over `gridSize` blocks. -/
  crossBlock : Bool := false
  gridSize : Int := 8
  /-- Keep what is reduced for a second pass. -/
  persistent : Bool := false
deriving DecidableEq, Repr, Inhabited

namespace Reduction

/-- Bytes of persistent buffers that fit per row. -/
def maxPersistentBytes : Nat := 64 * 1024

/-- Reductions at least this long are worth several blocks. -/
def crossBlockMinExtent : Int := 16 * 1024

/-- With more rows than this, one block per row keeps the device busy. -/
def crossBlockMaxRows : Int := 4

/-- The first reduction; the others must reduce the same positions at the same rank. -/
def reference (f : Fusion) : Except ScheduleError ValueId :=
  match f.reductionRepresentatives with
  | [] => .error (.noScheduler .noReduction)
  | v :: others =>
    let rank := fun t => (f.view t).domain.logical.length
    let differs := fun t => rank t != rank v || f.reducedPositions t != f.reducedPositions v
    match others.find? differs with
    | some other => .error (.noScheduler (.differentAxes v other))
    | none => .ok v

/-- Proposes parameters. -/
def propose (f : Fusion) (args : Arguments) : Except ScheduleError ReductionParams := do
  let v ← reference f
  let (reduced, iterated) := (f.view v).domain.logical.partition fun a => (f.axis a).isReduction
  match args.numel? f reduced with
  | none => throw (.noScheduler .unknownReductionExtent)
  | some extent =>
    let fewRows := match args.numel? f iterated with
      | some rows => decide (rows ≤ crossBlockMaxRows)
      | none => false
    let buffers := f.persistentBuffers
    let persistent := !buffers.isEmpty
    let bytes := buffers.foldl (fun total t => total + (f.dtype t).bytes * extent.toNat) 0
    if persistent && maxPersistentBytes < bytes then
      throw (.noScheduler (.persistentTooLarge bytes maxPersistentBytes))
    let crossBlock := !persistent && f.reductionRepresentatives.length == 1 && fewRows
      && decide (crossBlockMinExtent ≤ extent)
    return { persistent, crossBlock }

/-- A factored reduction: its partial tensor and itself. -/
structure Stages where
  first : ValueId
  second : ValueId

/-- Transforms the reference into rows, serial steps and threads. -/
def tile (v : ValueId) (params : ReductionParams) (iterated reduced : List Nat) :
    Schedule Unit := do
  let rows : Nat := if iterated.isEmpty then 0 else 1
  Schedule.moveToFront v iterated
  Schedule.mergeRange v iterated.length reduced.length
  Schedule.mergeRange v 0 iterated.length
  Schedule.split v rows (.const params.blockSize) true
  if params.crossBlock then Schedule.split v rows (.const params.gridSize) false

/-- Tiles the reference; gives it and the number of its leaves over rows. -/
def arrange (params : ReductionParams) : Schedule (ValueId × Nat) := do
  let v ← EditE.ofExcept (reference (← get))
  let f ← get
  let reduced := f.reducedPositions v
  let iterated := (List.range (f.view v).ndims).filter fun i => !reduced.contains i
  tile v params iterated reduced
  return (v, if iterated.isEmpty then 0 else 1)

/-- Binds the reference's leaves and all leaves like them. -/
def bindLeaves (v : ValueId) (params : ReductionParams) (rows : Nat) : Schedule Unit := do
  let rowType := if params.crossBlock then ParallelType.blockY else .blockX
  if 0 < rows then Schedule.parallelize v 0 rowType
  if params.crossBlock then Schedule.parallelize v rows .blockX
  Schedule.parallelize v (-1) .threadX
  Schedule.parallelizeLike v [] (.ofList [rowType, .blockX, .threadX])

/-- Inlines the stages of every reduction. -/
def inlineStages (params : ReductionParams) (stages : List Stages) : Schedule Unit := do
  let join := stages.forM fun s => Schedule.computeAt s.first s.second (-1)
  if params.persistent then
    Schedule.inlineInputs 1
    join
  else
    join
    (← get).inputTensors.forM fun v => Schedule.inlineInto v (stages.map (·.first)) (-1)
    Schedule.inlineInputs 1

/-- Schedules a fusion. -/
def schedule (params : ReductionParams) : Schedule Unit := do
  let (v, rows) ← arrange params
  Schedule.propagateTransforms v
  bindLeaves v params rows
  let serial : Nat := rows + if params.crossBlock then 1 else 0
  let stages ← (← get).reductionRepresentatives.mapM fun t => do
    return (⟨← Schedule.rfactor t [serial], t⟩ : Stages)
  inlineStages params stages

end Reduction
end Heuristic
end FusionCompiler
