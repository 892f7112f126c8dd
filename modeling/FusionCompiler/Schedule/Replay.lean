import FusionCompiler.Schedule.Leaf
import FusionCompiler.Schedule.RootMap

/-!
# Replaying transforms

Replaying makes the leading leaves of a target tensor structurally equal to
those of a source tensor, starting from pairs of corresponding root axes.
Transforms the target already has are reused when they match; those that stand
in the way are undone, unless they are fixed by a compute-at position.
-/

namespace FusionCompiler

namespace Fusion

/-- The transform of a history that consumes an axis. -/
def useIn (f : Fusion) (history : List TransformId) (a : AxisId) : Option TransformId :=
  history.reverse.find? fun t => (f.transform t).inputs.contains a

/-- Follows merges of an axis with broadcast axes that nothing maps to, at most `fuel` of them. -/
def followMergesWith (f : Fusion) (history : List TransformId) (images : List AxisId) :
    Nat → AxisId → AxisId
  | 0, a => a
  | fuel + 1, a =>
    match (f.useIn history a).map f.transform with
    | some (.merge outer inner output) =>
      let other := if outer = a then inner else outer
      if !(f.axis other).isBroadcast || images.contains other || (f.axis a).isBroadcast then a
      else followMergesWith f history images fuel output
    | _ => a

/-- Follows merges of an axis with broadcast axes that nothing maps to. -/
def followMerges (f : Fusion) (history : List TransformId) (images : List AxisId) (a : AxisId) :
    AxisId :=
  f.followMergesWith history images (history.length + 1) a

/-- Maps an axis to another one, looking through merges with broadcasts. -/
def mapThrough (f : Fusion) (history : List TransformId) (m : AxisMap) (a b : AxisId) : AxisMap :=
  m.insert a (f.followMerges history m.images b)

/-- Matches one transform of the source with an equal transform of the target's history. -/
def matchTransform (f : Fusion) (history : List TransformId) (m : AxisMap) : Transform → AxisMap
  | .split input outer inner factor innerSplit =>
    match ((m.get? input).bind (f.useIn history)).map f.transform with
    | some (.split _ o i factor' innerSplit') =>
      if innerSplit' = innerSplit && f.sameScalar factor' factor then
        f.mapThrough history (f.mapThrough history m outer o) inner i
      else m
    | _ => m
  | .merge outer inner output =>
    let target := match m.get? outer, m.get? inner with
      | some o, some i =>
        match (f.useIn history o).map f.transform with
        | some (.merge o' i' out) => if o' = o && i' = i then some out else none
        | _ => none
      | none, some i => if (f.axis outer).isBroadcast then some i else none
      | some o, none => if (f.axis inner).isBroadcast then some o else none
      | none, none => none
    match target with
    | some b => f.mapThrough history m output b
    | none => m

/-- Axes of the source's history matched to axes of the target's history.  From the root pairs
on, each transform of the source is matched with an equal transform of the target on the mapped
axes; a broadcast merged into a mapped axis on either side is looked through. -/
def bestEffortMap (f : Fusion) (source target : ValueId) (pairs : List (AxisId × AxisId)) :
    AxisMap :=
  let history := f.history target
  let start := pairs.foldl (fun m (a, b) => f.mapThrough history m a b) {}
  (f.history source).foldl (fun m t => f.matchTransform history m (f.transform t)) start

end Fusion

namespace Schedule

/-- How a replay treats axes without a counterpart. -/
inductive ReplayMode where
  /-- Every axis inside the position must have one, broadcasts excepted. -/
  | computeAt
  /-- They are left behind. -/
  | propagate
deriving DecidableEq, Repr

/-! ## Undoing transforms -/

/-- The latest transform, among those given in creation order, that an axis went through. -/
def latestDerived (f : Fusion) (a : AxisId) (live : List TransformId) : Option TransformId :=
  (live.foldl (fun (derived, latest) t =>
    let x := f.transform t
    if x.inputs.any derived.contains then (x.outputs ++ derived, some t) else (derived, latest))
    ([a], none)).2

/-- The elements of a list at other positions than the given ones. -/
def removeAt {α : Type} (positions : List Nat) (l : List α) : List α :=
  (l.zipIdx.filter fun (_, i) => !positions.contains i).map (·.1)

/-- Puts the inputs of a transform back in the place of its outputs, if all of them are leaves
right of the fixed position. -/
def undo (fixed : Nat) (leaf : List AxisId) (x : Transform) : Option (List AxisId) :=
  let positions := x.outputs.filterMap leaf.idxOf?
  if positions.length = x.outputs.length && positions.all (fixed ≤ ·) then
    let place := positions.foldl Min.min (positions.headD 0)
    let rest := removeAt positions leaf
    some (rest.take place ++ x.inputs ++ rest.drop place)
  else none

/-- Brings an axis back among the leaves by undoing the transforms it went through, latest
first, at most `fuel` of them. -/
def exposeWith (f : Fusion) (root : List AxisId) (fixed : Nat) (a : AxisId) :
    Nat → List AxisId → Option (List AxisId)
  | 0, _ => none
  | fuel + 1, leaf =>
    if leaf.contains a then some leaf
    else do
      let t ← latestDerived f a (f.transformsBetween root leaf)
      exposeWith f root fixed a fuel (← undo fixed leaf (f.transform t))

/-! ## Replay -/

/-- The state of a replay: the leaves of the target so far, and images of the source's axes. -/
structure Progress where
  leaf : List AxisId
  images : AxisMap

/-- What stays the same during a replay. -/
structure ReplayGoal where
  source : ValueId
  target : ValueId
  root : List AxisId
  fixed : Nat
  mode : ReplayMode
  /-- The error for an axis without a counterpart. -/
  unmappable : AxisId → ScheduleError

/-- Brings an axis back among the leaves; gives the leaves and its position. -/
def expose (g : ReplayGoal) (leaf : List AxisId) (a : AxisId) : Schedule (List AxisId × Nat) := do
  let f ← get
  match exposeWith f g.root g.fixed a (f.transforms.size + 1) leaf with
  | some leaf => return (leaf, (leaf.idxOf? a).getD 0)
  | none => throw (.replayConflict g.target)

/-- Replays one transform of the source, unless its outputs have images already. -/
def replayTransform (g : ReplayGoal) (p : Progress) (t : TransformId) : Schedule Progress := do
  let f ← get
  match f.transform t with
  | .split input outer inner factor innerSplit =>
    if p.images.contains outer && p.images.contains inner then return p
    match p.images.get? input with
    | none => return p
    | some a =>
      let (leaf, i) ← expose g p.leaf a
      EditE.ensure (g.fixed ≤ i) (.replayConflict g.target)
      let (o, n) ← splitAxis a factor innerSplit
      return ⟨leaf.take i ++ [o, n] ++ leaf.drop (i + 1), (p.images.insert outer o).insert inner n⟩
  | .merge outer inner output =>
    if p.images.contains output then return p
    match p.images.get? outer, p.images.get? inner with
    | some o, some i =>
      let (leaf, atOuter) ← expose g p.leaf o
      let (leaf, atInner) ← expose g leaf i
      let lo := Min.min atOuter atInner
      let hi := Max.max atOuter atInner
      EditE.ensure (g.fixed ≤ lo) (.replayConflict g.target)
      let merged ← EditE.mapError (ScheduleError.invalidMerge g.target atOuter atInner)
        (mergeAxes o i)
      return ⟨placeMerged leaf lo hi merged, p.images.insert output merged⟩
    | none, some i =>
      return if (f.axis outer).isBroadcast then { p with images := p.images.insert output i } else p
    | some o, none =>
      return if (f.axis inner).isBroadcast then { p with images := p.images.insert output o } else p
    | none, none => return p

/-- Replays transforms in order. -/
def replayTransforms (g : ReplayGoal) : List TransformId → Progress → Schedule Progress
  | [], p => pure p
  | t :: rest, p => do replayTransforms g rest (← replayTransform g p t)

/-- Brings the images of the source's leaves among the leaves; gives the leaves and the distinct
images. -/
def collectLeading (g : ReplayGoal) (images : AxisMap) :
    List AxisId → List AxisId → List AxisId → Schedule (List AxisId × List AxisId)
  | [], leaf, leading => pure (leaf, leading)
  | a :: rest, leaf, leading => do
    match images.get? a with
    | some b =>
      let (leaf, _) ← expose g leaf b
      collectLeading g images rest leaf (Fusion.addNew leading b)
    | none =>
      EditE.ensure (((← get).axis a).isBroadcast || g.mode == .propagate) (g.unmappable a)
      collectLeading g images rest leaf leading

/-- What a replay of a source onto a target keeps to: the target's root and fixed position. -/
def ReplayGoal.of (f : Fusion) (source target : ValueId) (mode : ReplayMode)
    (unmappable : AxisId → ScheduleError) : ReplayGoal :=
  let view := f.view target
  ⟨source, target, view.domain.root, view.fixedPosition, mode, unmappable⟩

/-- The transforms behind the first `pos` leaves of a source. -/
def neededTransforms (f : Fusion) (source target : ValueId) (pos : Nat) : List TransformId :=
  let domain := (f.view source).domain
  let start := if (f.producers target).contains source then domain.logical else domain.root
  f.transformsBetween start (domain.leaf.take pos)

/-- The leaves of a target before a replay, with the images that its own history gives. -/
def Progress.start (f : Fusion) (source target : ValueId) (pairs : List (AxisId × AxisId)) :
    Progress :=
  ⟨f.leaf target, f.bestEffortMap source target pairs⟩

/-- Replays the first `pos` leaves of the source onto the target; gives the position of the
target that matches `pos`. -/
def replay (source target : ValueId) (pairs : List (AxisId × AxisId)) (pos : Nat)
    (mode : ReplayMode) (unmappable : AxisId → ScheduleError) : Schedule Nat := do
  let f ← get
  let g := ReplayGoal.of f source target mode unmappable
  let p ← replayTransforms g (neededTransforms f source target pos)
    (Progress.start f source target pairs)
  let (leaf, leading) ← collectLeading g p.images ((f.leaf source).take pos) p.leaf []
  let newLeaf := leading ++ leaf.filter fun a => !leading.contains a
  let old := f.leaf target
  let fixed := Min.min g.fixed old.length
  EditE.ensure (fixed ≤ newLeaf.length && newLeaf.take fixed == old.take fixed)
    (.replayConflict target)
  setLeaf target newLeaf
  return leading.length

/-- The pairs of a direct edge that seed a replay: all of them, or those a root map accepts. -/
def seedPairs (f : Fusion) (roots : Option RootMap) (producer consumer : ValueId) :
    List (AxisId × AxisId) :=
  match roots with
  | none => f.rootPairs producer consumer
  | some m => m.mappablePairs f producer consumer

/-- A way to replay the first leaves of a source onto a target, see `replay`. -/
abbrev Replayer :=
  (source target : ValueId) → (pairs : List (AxisId × AxisId)) → (pos : Nat) →
    (mode : ReplayMode) → (unmappable : AxisId → ScheduleError) → Schedule Nat

/-- Replays the consumer's first `pos` leaves onto its producer, in a given way. -/
def replayOntoProducer (replayer : Replayer) (roots : Option RootMap) (producer consumer : ValueId)
    (pos : Nat) (mode : ReplayMode) : Schedule Nat := do
  let f ← get
  EditE.ensure ((f.producers consumer).contains producer) (.notAProducer producer consumer)
  let pairs := (seedPairs f roots producer consumer).map fun (p, c) => (c, p)
  replayer consumer producer pairs pos mode (.unmappableAxis producer consumer)

/-- Replays the producer's first `pos` leaves onto its consumer, in a given way.  A reduction leaf
of the producer is never inlined. -/
def replayOntoConsumer (replayer : Replayer) (roots : Option RootMap) (consumer producer : ValueId)
    (pos : Nat) (mode : ReplayMode) : Schedule Nat := do
  let f ← get
  if mode = .computeAt then
    match ((f.leaf producer).take pos).find? fun a => (f.axis a).isReduction with
    | some a => throw (.reductionInlined producer a)
    | none => pure ()
  EditE.ensure ((f.producers consumer).contains producer) (.notAProducer producer consumer)
  let pairs := seedPairs f roots producer consumer
  replayer producer consumer pairs pos mode (.unmappableAxis producer consumer)

/-- Replays the consumer's first `pos` leaves onto its producer. -/
def replayProducerAsConsumer (roots : Option RootMap) (producer consumer : ValueId) (pos : Nat)
    (mode : ReplayMode) : Schedule Nat :=
  replayOntoProducer replay roots producer consumer pos mode

/-- Replays the producer's first `pos` leaves onto its consumer. -/
def replayConsumerAsProducer (roots : Option RootMap) (consumer producer : ValueId) (pos : Nat)
    (mode : ReplayMode) : Schedule Nat :=
  replayOntoConsumer replay roots consumer producer pos mode

end Schedule
end FusionCompiler
