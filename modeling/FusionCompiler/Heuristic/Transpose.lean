import FusionCompiler.Heuristic.Pointwise

/-!
# Transpose schedule

Some inputs are laid out with another dimension fastest than the outputs: they
are staged tile by tile in shared memory, written along their own fast dimension
and read along the outputs'.
-/

namespace FusionCompiler
namespace Heuristic

/-- Side length of a tile. -/
def defaultTile : Int := 32

/-- Parameters of a transpose schedule. -/
structure TransposeParams where
  /-- The output dimension that the transposed inputs read fastest. -/
  innerDim : Nat
  /-- The inputs that are staged in shared memory. -/
  transposed : List ValueId := []
  tile : Int := defaultTile
  blockSize : Int := defaultBlockSize
deriving DecidableEq, Repr, Inhabited

namespace Transpose

/-- What the inputs agree on: the fast dimension of the transposed ones, and which they are.  No
result when an input does not fit. -/
def collect (args : Arguments) (rank : Nat) :
    Option Nat → List ValueId → List ValueId → Option (Option Nat × List ValueId)
  | innerDim, found, [] => some (innerDim, found)
  | innerDim, found, v :: rest =>
    match args.sizes? v with
    | none => none
    | some sizes =>
      if sizes.length ≠ rank then none
      else
        match args.fastestDim? v with
        | none => collect args rank innerDim found rest
        | some fastest =>
          if fastest = rank - 1 then collect args rank innerDim found rest
          else if innerDim.any (· != fastest) then none
          else if sizes.getD fastest 0 < defaultTile.toNat
              || sizes.getD (rank - 1) 0 < defaultTile.toNat then none
          else collect args rank (some fastest) (found ++ [v]) rest

/-- Proposes parameters, for a fusion without broadcasts whose inputs have the outputs' rank and
of which some are transposed, in the same way and by at least a tile. -/
def propose? (f : Fusion) (args : Arguments) : Option TransposeParams :=
  match Pointwise.reference f with
  | .error _ => none
  | .ok v =>
    let rank := (f.shape v).length
    if rank < 2 || f.hasBroadcastRoot then none
    else match collect args rank none [] f.inputTensors with
      | some (some innerDim, transposed) => some { innerDim, transposed }
      | _ => none

/-- Binds a tile to a block and its elements to threads. -/
def bindTile (blockSize : Int) (v : ValueId) : Schedule Unit := do
  Schedule.merge v 1 2
  Schedule.split v 1 (.const blockSize) true
  Schedule.parallelize v 0 .blockX
  Schedule.parallelize v 2 .threadX

/-- Stages an input in shared memory; gives the copy. -/
def stage (v : ValueId) : Schedule ValueId := do
  let copy ← Schedule.cacheAfter v
  Schedule.setMemory copy .shared
  return copy

/-- Transforms the reference into tiles of the transposed and the last dimension. -/
def tile (v : ValueId) (params : TransposeParams) (rank : Nat) : Schedule Unit := do
  let last := rank - 1
  let others := (List.range rank).filter fun i => i != params.innerDim && i != last
  let base : Nat := if others.isEmpty then 0 else 1
  Schedule.moveToFront v (others ++ [params.innerDim, last])
  Schedule.mergeRange v 0 others.length
  Schedule.split v (base + 1 : Nat) (.const params.tile) true
  Schedule.split v base (.const params.tile) true
  Schedule.reorder v [((base + 1 : Nat), (base + 2 : Nat)), ((base + 2 : Nat), (base + 1 : Nat))]
  Schedule.mergeRange v 0 (base + 2)

/-- Stages inputs and tiles the reference; gives it and the copies of the inputs. -/
def arrange (params : TransposeParams) : Schedule (ValueId × List ValueId) := do
  let v ← EditE.ofExcept (Pointwise.reference (← get))
  let rank := ((← get).view v).ndims
  let staged ← params.transposed.mapM stage
  tile v params rank
  return (v, staged)

/-- Binds the tile of a tensor, if it has one.  A staged copy is written along its own fast
dimension. -/
def bindThreads (params : TransposeParams) (staged : List ValueId) (v : ValueId) :
    Schedule Unit := do
  let f ← get
  if !f.isInput v && (f.view v).ndims == 3 then
    if staged.contains v then Schedule.reorder v [(1, 2), (2, 1)]
    bindTile params.blockSize v

/-- Schedules a fusion. -/
def schedule (params : TransposeParams) : Schedule Unit := do
  let (v, staged) ← arrange params
  Schedule.propagateTransforms v
  (← get).allTensors.forM (bindThreads params staged)
  Schedule.inlineInputs 1

end Transpose
end Heuristic
end FusionCompiler
