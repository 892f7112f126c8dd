import FusionCompiler.Schedule.Replay

/-!
# Spreading a schedule over the graph

`propagateTransforms` replays the leaves of a reference tensor onto every tensor
connected with it, and `parallelizeLike` copies the execution of its leaves to
the leaves that correspond to them.
-/

namespace FusionCompiler
namespace Schedule

/-- A tensor across one expression. -/
structure Neighbour where
  tensor : ValueId
  /-- The neighbour is a producer; otherwise it is a consumer. -/
  isProducer : Bool
deriving DecidableEq, Repr

/-- The neighbours of a tensor: producers first, then consumers. -/
def neighbours (f : Fusion) (v : ValueId) : List Neighbour :=
  (f.producers v).map (⟨·, true⟩) ++ (f.consumers v).map (⟨·, false⟩)

/-- Pairs of axes across the edge from a tensor to a neighbour. -/
def edgePairs (f : Fusion) (v : ValueId) (n : Neighbour) : List (AxisId × AxisId) :=
  if n.isProducer then (f.rootPairs n.tensor v).map fun (p, c) => (c, p)
  else f.rootPairs v n.tensor

/-! ## Transforms -/

/-- A tensor reached from the reference, with the reference's axes that are still present in it. -/
structure Reached where
  tensor : ValueId
  carried : AxisMap

/-- A step of the spread: an edge into a tensor that has not been reached. -/
structure Step where
  source : ValueId
  next : Neighbour
  carried : AxisMap
  /-- Number of carried axes that are no broadcasts. -/
  concrete : Nat

/-- Whether a step carries more than another: more axes that are no broadcasts, then more axes. -/
def Step.betterThan (s t : Step) : Bool :=
  t.concrete < s.concrete || (s.concrete == t.concrete && t.carried.size < s.carried.size)

/-- Every step out of the tensors reached so far, in order. -/
def steps (f : Fusion) (reached : List Reached) : List Step :=
  reached.flatMap fun r =>
    ((neighbours f r.tensor).filter fun n => !reached.any (·.tensor == n.tensor)).map fun n =>
      let carried := r.carried.compose (.ofPairs (edgePairs f r.tensor n))
      ⟨r.tensor, n, carried, (carried.images.filter fun a => !(f.axis a).isBroadcast).length⟩

/-- The first of the best steps. -/
def bestStep? (l : List Step) : Option Step :=
  l.foldl (fun best s => match best with
    | some b => if s.betterThan b then some s else some b
    | none => some s) none

/-- Takes the best step until every connected tensor is reached, at most `fuel` times. -/
def spread (replayer : Replayer) : Nat → List Reached → Schedule Unit
  | 0, _ => pure ()
  | fuel + 1, reached => do
    let f ← get
    match bestStep? (steps f reached) with
    | none => pure ()
    | some s =>
      let pos := (f.view s.source).ndims
      if s.next.isProducer then
        discard (replayOntoProducer replayer none s.next.tensor s.source pos .propagate)
      else
        discard (replayOntoConsumer replayer none s.next.tensor s.source pos .propagate)
      let new := (← get).siblings s.next.tensor ++ [s.next.tensor]
      spread replayer fuel (reached ++ new.map (⟨·, s.carried⟩))

/-- Replays the leaves of a reference tensor across the graph with a given way to replay.  Each step
goes into a new tensor from the neighbour that shares most of the reference's axes with it.
Positions stay as they are. -/
def propagateTransformsWith (replayer : Replayer) (reference : ValueId) : Schedule Unit := do
  let view ← build (Build.ensureTensor reference)
  let f ← get
  let carried := AxisMap.identity view.domain.logical
  spread replayer (f.values.size + 1) ((reference :: f.siblings reference).map (⟨·, carried⟩))

/-- Replays the leaves of a reference tensor across the graph. -/
def propagateTransforms (reference : ValueId) : Schedule Unit :=
  propagateTransformsWith replay reference

/-! ## Execution -/

/-- For each tensor reached so far, its leaves that match leaves of the reference. -/
abbrev LeafMaps := List (ValueId × AxisMap)

/-- The match recorded for a tensor. -/
def LeafMaps.get? (m : LeafMaps) (v : ValueId) : Option AxisMap :=
  (m.find? (·.1 == v)).map (·.2)

/-- Records a match, in place of an earlier one. -/
def LeafMaps.insert (m : LeafMaps) (v : ValueId) (a : AxisMap) : LeafMaps :=
  if m.any (·.1 == v) then m.map fun p => if p.1 == v then (v, a) else p
  else m ++ [(v, a)]

/-- Carries the match of a tensor over to a neighbour; a match that is not larger than the
recorded one is dropped, else the neighbour has to be visited again. -/
def visitNeighbour (f : Fusion) (v : ValueId) (state : LeafMaps × List ValueId) (n : Neighbour) :
    LeafMaps × List ValueId :=
  let (maps, again) := state
  let step := f.bestEffortMap v n.tensor (edgePairs f v n)
  let leaf := f.leaf n.tensor
  let carried := (((maps.get? v).getD {}).compose step).filterImages leaf.contains
  let keep : Bool := match maps.get? n.tensor with
    | some known => carried.size ≤ known.size
    | none => false
  if keep then (maps, again) else (maps.insert n.tensor carried, again ++ [n.tensor])

/-- Visits tensors from a queue until no match grows, at most `fuel` times. -/
def growMatches (f : Fusion) : Nat → LeafMaps → List ValueId → LeafMaps
  | 0, maps, _ => maps
  | _, maps, [] => maps
  | fuel + 1, maps, v :: queue =>
    let (maps, again) := (neighbours f v).foldl (visitNeighbour f v) (maps, [])
    growMatches f fuel maps (queue ++ again)

/-- Visits that suffice: a match starts, and then grows by at least one leaf at a time. -/
def visitBound (f : Fusion) (reference : ValueId) : Nat :=
  f.values.size * ((f.view reference).ndims + 2) + 1

/-- The leaves of every connected tensor that match leaves of the reference: for each tensor the
largest match over all paths. -/
def leafCorrespondence (f : Fusion) (reference : ValueId) : LeafMaps :=
  growMatches f (visitBound f reference) [(reference, .identity (f.leaf reference))] [reference]

/-- Copies the execution of one leaf of the reference, if it is among the chosen types.  A
vectorized leaf stays innermost. -/
def copyExecution (types : ParallelSet) (leaf : List AxisId) (f : Fusion) (pair : AxisId × AxisId) :
    Fusion :=
  let parallel := (f.axis pair.1).parallel
  if types.contains parallel && !(parallel.isVectorize && leaf.getLast? != some pair.2) then
    f.modifyAxis pair.2 fun x => { x with parallel }
  else f

/-- Copies the chosen kinds of execution from the leaves of a reference to the matching leaves
of the given tensors, or of all tensors when none are given.  Inputs are left alone. -/
def parallelizeLike (reference : ValueId) (tensors : List ValueId) (types : ParallelSet) :
    Schedule Unit := do
  discard (build (Build.ensureTensor reference))
  let f ← get
  let maps := leafCorrespondence f reference
  let selected := if tensors.isEmpty then f.allTensors else tensors
  selected.forM fun v => modify fun f =>
    if f.isInput v || v == reference then f
    else match maps.get? v with
      | none => f
      | some m => (m.pairs.foldl (copyExecution types (f.leaf v)) f).syncSiblings v

end Schedule
end FusionCompiler
