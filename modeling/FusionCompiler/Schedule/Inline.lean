import FusionCompiler.Schedule.Replay

/-!
# Inlining a producer into a consumer

`computeAt producer consumer pos` moves the producer's loops into the consumer's
first `pos` loops, in three phases.

1. Backward: every tensor on a path from the producer to the consumer is
   replayed as its first consumer on such a path, consumers first, and its
   compute-at position is raised.
2. The common consumer is the first tensor, from the consumer on, that every use
   of the producer passes through.  It bounds the last phase.
3. Forward: consumers off the path are replayed as their producers, so that
   sibling branches share the loops.

Positions only grow.
-/

namespace FusionCompiler
namespace Schedule

/-- A position that may be counted from the end; there is one more of them than leaves. -/
def normalizePosition (tensor : ValueId) (pos : Int) (ndims : Nat) : Except ScheduleError Nat :=
  let resolved := if pos < 0 then ndims + 1 + pos else pos
  if 0 ≤ resolved ∧ resolved ≤ ndims then .ok resolved.toNat
  else .error (.positionOutOfRange tensor pos ndims)

/-- The tensors on some path from the producer to the consumer, without the consumer, producers
first. -/
def chain (f : Fusion) (producer consumer : ValueId) : List ValueId :=
  let needed := f.ancestors consumer
  f.allTensors.filter fun v =>
    v != consumer && needed.contains v && (v == producer || f.dependsOn v producer)

/-- Changes the view of a tensor and passes the change on to its siblings. -/
def updateView (tensor : ValueId) (g : TensorView → TensorView) : Edit Unit :=
  modify fun f => (f.modifyView tensor g).syncSiblings tensor

/-- Replays the tensors of a chain as their first consumer in it, last tensor first. `positions`
holds the positions found so far; inputs of the fusion are left alone. -/
def backward (replayer : Replayer) (roots : RootMap) (members : List ValueId) :
    List ValueId → List (ValueId × Nat) → Schedule Unit
  | [], _ => pure ()
  | v :: rest, positions => do
    let f ← get
    let target := if f.isInput v then none
      else do
        let c ← (f.consumers v).find? members.contains
        let pos ← (positions.find? (·.1 == c)).map (·.2)
        return (c, pos)
    match target with
    | none => backward replayer roots members rest positions
    | some (c, pos) =>
      let own ← replayOntoProducer replayer (some roots) v c pos .computeAt
      updateView v (·.raiseComputeAt own)
      updateView c (·.raiseMaxProducer pos)
      backward replayer roots members rest ((v, own) :: positions)

/-- Whether some tensor without consumers is reached from a work list of tensors without passing
through `blocked`. -/
def reachesSinkWith (f : Fusion) (blocked : ValueId) : Nat → List ValueId → List ValueId → Bool
  | 0, _, _ => false
  | _, _, [] => false
  | fuel + 1, seen, v :: rest =>
    match f.consumers v with
    | [] => true
    | consumers =>
      let fresh := consumers.filter fun c => c != blocked && !seen.contains c
      reachesSinkWith f blocked fuel (fresh ++ seen) (fresh ++ rest)

/-- Whether some tensor without consumers is reached without passing through `blocked`. -/
def reachesSinkAvoiding (f : Fusion) (start blocked : ValueId) : Bool :=
  reachesSinkWith f blocked (f.values.size + 1) [start] [start]

/-- The first tensor, from the consumer on, that every use of the producer passes through. -/
def commonConsumer (f : Fusion) (producer consumer : ValueId) : Option ValueId :=
  (f.allTensors.filter fun v => v == consumer || f.dependsOn v consumer).find?
    fun v => !reachesSinkAvoiding f producer v

/-- The position up to which a tensor's loops are shared with its consumers: left of its first
reduction leaf. -/
def sharedPosition (f : Fusion) (v : ValueId) (positioned : Bool) : Nat :=
  let view := f.view v
  let pos := if positioned then view.computeAt else view.maxProducer
  match view.leaf.findIdx? fun a => (f.axis a).isReduction with
  | some firstReduction => Min.min pos firstReduction
  | none => pos

/-- What the forward phase knows about the call. -/
structure ForwardGoal where
  producer : ValueId
  consumer : ValueId
  common : Option ValueId
  roots : RootMap
  /-- The chain and the consumer. -/
  targets : List ValueId
  /-- Members of the chain that have a compute-at position. -/
  positioned : List ValueId

/-- Replays consumers of a tensor as the tensor, in order; gives those replayed. -/
def forwardUses (replayer : Replayer) (g : ForwardGoal) (v : ValueId) :
    List ValueId → Schedule (List ValueId)
  | [] => pure []
  | next :: rest => do
    let f ← get
    if v == g.producer && f.isInput v && !g.targets.contains next then
      forwardUses replayer g v rest
    else
      let pos := sharedPosition f v (g.positioned.contains v)
      if !f.isInput v then updateView v (·.raiseComputeAt pos)
      let nextPos ← replayOntoConsumer replayer (some g.roots) next v pos .computeAt
      updateView next (·.raiseMaxProducer nextPos)
      return next :: (← forwardUses replayer g v rest)

/-- Replays along every use that is reached from the producer before the consumer or the common
consumer.  Tensors come producers first, so a tensor's position is final before its consumers
are replayed. -/
def forward (replayer : Replayer) (g : ForwardGoal) :
    List ValueId → List ValueId → Schedule Unit
  | [], _ => pure ()
  | v :: rest, active => do
    if !active.contains v || v == g.consumer || some v == g.common then
      forward replayer g rest active
    else
      let reached ← forwardUses replayer g v ((← get).consumers v)
      forward replayer g rest (reached ++ active)

/-- Inlines the producer into the first `pos` loops of the consumer with a given way to replay; a
negative position counts from the end. -/
def computeAtWith (replayer : Replayer) (producer consumer : ValueId) (pos : Int) :
    Schedule Unit := do
  discard (build (Build.ensureTensor producer))
  let view ← build (Build.ensureTensor consumer)
  let pos ← EditE.ofExcept (normalizePosition consumer pos view.ndims)
  let f ← get
  EditE.ensure (producer != consumer && f.dependsOn consumer producer)
    (.notAProducer producer consumer)
  let roots := RootMap.build f
  let members := chain f producer consumer
  let targets := members ++ [consumer]
  backward replayer roots targets members.reverse [(consumer, pos)]
  let f ← get
  let g : ForwardGoal := {
    producer, consumer, roots, targets
    common := commonConsumer f producer consumer
    positioned := members.filter fun v => 0 < (f.view v).computeAt }
  forward replayer g f.allTensors [producer]

/-- Inlines the producer into the first `pos` loops of the consumer; a negative position counts
from the end. -/
def computeAt (producer consumer : ValueId) (pos : Int) : Schedule Unit :=
  computeAtWith replay producer consumer pos

end Schedule
end FusionCompiler
