import FusionCompiler.Lower.LoopPlan

/-!
# Checks of a schedule

Checks that only make sense once loops are known: launch bindings, visibility of
producers to the threads that read them, the number of grid reductions, and
vectorized accesses.
-/

namespace FusionCompiler
namespace LoopPlan

open Kernel

/-! ## Launch bindings -/

/-- The first launch type that occurs twice in a list. -/
def firstRepeated : List ParallelType → List ParallelType → Option ParallelType
  | _, [] => none
  | seen, t :: rest => if seen.contains t then some t else firstRepeated (t :: seen) rest

/-- Each launch type binds at most one leaf of a tensor, broadcasts aside. -/
def checkLeafBindings (p : LoopPlan) : Except LowerError Unit :=
  p.fusion.allTensors.forM fun v =>
    let leaves := (p.fusion.leaf v).filter fun a => !(p.fusion.axis a).isBroadcast
    match firstRepeated [] ((leaves.map p.groups.parallel).filter (·.isLaunch)) with
    | some t => .error (.unsupported (.boundTwice v t))
    | none => .ok ()

/-! ## Visibility -/

/-- The memory that makes an axis bound to a launch type visible to the threads along it. -/
def requiredMemory (t : ParallelType) : MemoryType :=
  if t.isThread then .shared else .global

/-- Whether a tensor in one memory is visible to at least the threads that another memory
reaches. -/
def reaches (memory required : MemoryType) : Bool :=
  required.rank ≤ memory.rank

/-- A producer's leaf bound to a launch type must be bound in the same way in its consumer,
unless the producer's memory is visible along that type. -/
def checkEdge (p : LoopPlan) (producer consumer : ValueId) : Except LowerError Unit := do
  let f := p.fusion
  let pairs ← (f.rootPairs? producer consumer).mapError .schedule
  let images := f.bestEffortMap producer consumer pairs
  (f.leaf producer).forM fun a =>
    let axis := f.axis a
    let t := p.groups.parallel a
    let required := requiredMemory t
    let matched := (f.leaf consumer).any fun c =>
      p.groups.parallel c == t && (p.groups.sameLoop a c || images.get? a == some c)
    if axis.isReduction || axis.isBroadcast || !t.isLaunch
        || reaches (f.memoryOf producer) required || matched then .ok ()
    else .error (.parallelMismatch producer consumer t required)

/-- Every consumer sees the values that it reads. -/
def checkParallelization (p : LoopPlan) : Except LowerError Unit :=
  p.fusion.tensorExprs.forM fun e =>
    ((p.fusion.tensorInputs e).filter fun v => p.fusion.memoryOf v != .global).forM fun producer =>
      (p.fusion.tensorOutputs e).forM (p.checkEdge producer)

/-- A kernel does at most one grid reduction. -/
def checkGridReductions (p : LoopPlan) : Except LowerError Unit :=
  let count := (p.fusion.tensorExprs.filter fun e =>
    let x := p.fusion.expr e
    x.kind.isReduction && (p.groups.reducedTypes p.fusion x.output).any (·.isBlock)).length
  if count ≤ 1 then .ok () else .error (.multipleGridReductions count)

/-! ## Vectorized accesses -/

/-- The transform that an axis comes from. -/
def origin? (f : Fusion) (a : AxisId) : Option Transform :=
  (f.axis a).origin.map f.transform

/-- The root axes that axes were merged from, at most `fuel` merges back; none if a split is
among their origins. -/
def mergedRoots? (f : Fusion) : Nat → List AxisId → Option (List AxisId)
  | _, [] => some []
  | 0, _ => none
  | fuel + 1, a :: rest =>
    match origin? f a with
    | none => (mergedRoots? f fuel rest).map (a :: ·)
    | some (.merge outer inner _) => mergedRoots? f fuel (inner :: outer :: rest)
    | some (.split _ _ _ _ _) => none

/-- Number of innermost root axes that are folded into a vectorized leaf.  The leaf must be the
inner part of an inner split of an axis that was merged from the innermost root axes. -/
def vectorizedRoots (f : Fusion) (v : ValueId) (leaf : AxisId) : Except LowerError Nat := do
  let input ← match origin? f leaf with
    | some (.split input _ inner _ true) =>
      if inner = leaf then .ok input else .error (.invalidVectorize v .notInnerSplit)
    | _ => .error (.invalidVectorize v .notInnerSplit)
  match mergedRoots? f (f.axes.size + 1) [input] with
  | none => .error (.invalidVectorize v .notMergedRoots)
  | some roots =>
    let isConcrete := fun a => !(f.axis a).isBroadcast
    let shape := (f.shape v).filter isConcrete
    let merged := (roots.filter isConcrete).foldl Fusion.addNew []
    let count := merged.length
    if 0 < count && count ≤ shape.length && (shape.drop (shape.length - count)).all merged.contains
    then .ok count
    else .error (.invalidVectorize v .notInnermostRoots)

/-- Whether a number is a power of two. -/
def isPowerOfTwo (n : Nat) : Bool :=
  n == Nat.pow 2 n.log2

/-- The width of a vectorized leaf: a constant power of two that fills at most sixteen bytes. -/
def vectorWidth (f : Fusion) (v : ValueId) (leaf : AxisId) : Except LowerError Nat :=
  match f.constInt? (f.extent leaf) with
  | some (.ofNat (n + 1)) =>
    if isPowerOfTwo (n + 1) && (n + 1) * (f.dtype v).bytes ≤ 16 then .ok (n + 1)
    else .error (.invalidVectorize v .widthTooLarge)
  | _ => .error (.invalidVectorize v .widthNotConstant)

/-- Checks the vectorized leaf of a tensor, if there is one; gives the global accesses that it
vectorizes. -/
def checkVectorized (p : LoopPlan) (v : ValueId) : Except LowerError (List VectorAccess) := do
  let f := p.fusion
  let leaves := f.leaf v
  match leaves.find? fun a => (p.groups.parallel a).isVectorize with
  | none => return []
  | some leaf =>
    if leaves.idxOf leaf + 1 ≠ leaves.length then throw (.invalidVectorize v .notInnermost)
    let width ← vectorWidth f v leaf
    match f.definingExpr? v with
    | none => throw (.invalidVectorize v .isInput)
    | some e =>
      if e.kind != .unary .set then throw (.invalidVectorize v .notACopy)
      let mergedDims ← vectorizedRoots f v leaf
      let misaligned := p.groups.parallel leaf == .misalignedVectorize
      let globals := [e.input 0, v].filter fun t => f.isTensor t && f.memoryOf t == .global
      return globals.map fun tensor => { tensor, width, misaligned, mergedDims }

/-- Checks every vectorized leaf; gives the global accesses that are vectorized. -/
def checkVectorization (p : LoopPlan) : Except LowerError (List VectorAccess) := do
  return (← p.fusion.allTensors.mapM p.checkVectorized).flatten

end LoopPlan
end FusionCompiler
