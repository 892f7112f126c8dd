import FusionCompiler.Lower.Error
import FusionCompiler.Schedule.Replay

/-!
# Loop groups

Two axes share a loop when a producer is computed at a consumer and the axes
correspond inside the compute-at position.  The axes they were derived from are
grouped along with them, so that index arithmetic over either tensor sees the
same extents.

A group has one concrete member, a member that is no broadcast if there is one,
whose extent is the trip count of the loop, and at most one parallel binding.
-/

namespace FusionCompiler

namespace Fusion

/-- The tensors an expression reads, each once. -/
def tensorInputs (f : Fusion) (e : ExprId) : List ValueId :=
  ((f.expr e).inputs.filter f.isTensor).foldl addNew []

/-- The tensors an expression computes. -/
def tensorOutputs (f : Fusion) (e : ExprId) : List ValueId :=
  (f.expr e).outputs.filter f.isTensor

/-- The tensor whose leaves are the loops of an expression. -/
def loopTensor? (f : Fusion) (e : ExprId) : Option ValueId :=
  (f.expr e).outputs.find? f.isTensor

/-- The axes a list of axes was derived from, at most `fuel` transforms back, added to those
seen. -/
def collectOrigins (f : Fusion) : Nat → List AxisId → List AxisId → List AxisId
  | 0, seen, _ => seen
  | _, seen, [] => seen
  | fuel + 1, seen, a :: rest =>
    match (f.axis a).origin with
    | none => collectOrigins f fuel seen rest
    | some t =>
      let fresh := (f.transform t).inputs.filter fun x => !seen.contains x
      collectOrigins f fuel (seen ++ fresh) (fresh ++ rest)

/-- Every axis that an axis was derived from. -/
def origins (f : Fusion) (a : AxisId) : List AxisId :=
  f.collectOrigins (f.axes.size + 1) [] [a]

end Fusion

/-- Axes that share one loop. -/
structure LoopGroup where
  /-- The least member, which names the group. -/
  name : AxisId
  members : List AxisId
  /-- The member that gives the loop its extent. -/
  concrete : AxisId
  parallel : ParallelType
deriving DecidableEq, Repr, Inhabited

/-- The loop groups of a scheduled fusion. -/
structure LoopGroups where
  sets : DisjointSets AxisId
  groups : List LoopGroup
deriving Inhabited

namespace LoopGroups

/-- Every axis of every tensor, each in a class of its own. -/
def ownClasses (f : Fusion) : DisjointSets AxisId :=
  (f.allTensors.flatMap fun v =>
    f.axesOfHistory (f.view v).domain.root (f.history v)).foldl DisjointSets.insert .empty

/-- Joins one inlined leaf of a producer, and what it was derived from, with its counterparts. -/
def joinLeaf (f : Fusion) (images : AxisMap) (leaf target : AxisId) (sets : DisjointSets AxisId) :
    DisjointSets AxisId :=
  (f.origins leaf).foldl (fun sets a => match images.get? a with
    | some b => sets.union a b
    | none => sets) (sets.union leaf target)

/-- Joins the inlined leaves of a producer with the leaves of a consumer. -/
def joinEdge (f : Fusion) (sets : DisjointSets AxisId) (producer consumer : ValueId) :
    Except LowerError (DisjointSets AxisId) := do
  let pairs ← (f.rootPairs? producer consumer).mapError .schedule
  let images := f.bestEffortMap producer consumer pairs
  let targets := f.leaf consumer
  let inlined := (f.leaf producer).take (f.view producer).computeAt
  inlined.zipIdx.foldlM (fun sets (leaf, i) =>
    match (images.get? leaf).filter targets.contains with
    | some target => .ok (joinLeaf f images leaf target sets)
    | none => .error (.unmappedComputeAt producer consumer i)) sets

/-- The producers and consumers of all expressions, for producers that are inlined. -/
def inlinedEdges (f : Fusion) : List (ValueId × ValueId) :=
  f.tensorExprs.flatMap fun e =>
    ((f.tensorInputs e).filter fun p => (f.view p).computeAt != 0).flatMap fun p =>
      (f.tensorOutputs e).map (p, ·)

/-- The one binding of a list of axes, serial axes aside. -/
def commonBinding (f : Fusion) (name : AxisId) (members : List AxisId) :
    Except LowerError ParallelType :=
  members.foldlM (fun bound a =>
    let p := (f.axis a).parallel
    if p = .serial ∨ p = bound then .ok bound
    else if bound = .serial then .ok p
    else .error (.parallelTypeConflict name bound p)) .serial

/-- The group of a class. -/
def groupOf (f : Fusion) (sets : DisjointSets AxisId) (name : AxisId) :
    Except LowerError LoopGroup := do
  let members := sets.membersOf name
  let concrete := (members.find? fun a => !(f.axis a).isBroadcast).getD name
  return ⟨name, members, concrete, ← commonBinding f name members⟩

/-- The loop groups of a scheduled fusion. -/
def build (f : Fusion) : Except LowerError LoopGroups := do
  let sets ← (inlinedEdges f).foldlM (fun sets (p, c) => joinEdge f sets p c) (ownClasses f)
  return ⟨sets, ← sets.names.mapM (groupOf f sets)⟩

/-- The name of the group of an axis. -/
def name (m : LoopGroups) (a : AxisId) : AxisId :=
  m.sets.find a

/-- The group of an axis. -/
def get? (m : LoopGroups) (a : AxisId) : Option LoopGroup :=
  m.groups.find? (·.name == m.name a)

/-- Whether two axes share a loop. -/
def sameLoop (m : LoopGroups) (a b : AxisId) : Bool :=
  m.sets.same a b

/-- The axis that gives an axis its trip count. -/
def concrete (m : LoopGroups) (a : AxisId) : AxisId :=
  ((m.get? a).map (·.concrete)).getD a

/-- The binding of the loop of an axis. -/
def parallel (m : LoopGroups) (a : AxisId) : ParallelType :=
  ((m.get? a).map (·.parallel)).getD .serial

/-- Whether every member of the group of an axis is a broadcast; such a group gets no loop. -/
def isBroadcast (m : LoopGroups) (f : Fusion) (a : AxisId) : Bool :=
  (f.axis (m.concrete a)).isBroadcast

/-- The launch types of the reduction leaves of a tensor. -/
def reducedTypes (m : LoopGroups) (f : Fusion) (v : ValueId) : ParallelSet :=
  .ofList ((((f.leaf v).filter fun a => (f.axis a).isReduction).map m.parallel).filter (·.isLaunch))

end LoopGroups
end FusionCompiler
