import FusionCompiler.Lower.LoopPlan

/-!
# Index arithmetic

The leaf indices of a consumer are the indices of its enclosing loops.  They are
carried back through its transforms to root indices, with the extents of the
loop groups, so that a loop over a concrete axis indexes a broadcast producer
correctly.  Tensors in global memory are addressed through their strides.  A
producer in registers or shared memory is addressed in its own storage: the root
indices of the consumer cross to the producer, go forward through its
transforms, and index the leaves that the storage spans.
-/

namespace FusionCompiler

/-- An enclosing loop while code is emitted. -/
structure LoopFrame where
  /-- The loop group. -/
  group : AxisId
  index : Scalar
  extent : Scalar
  /-- The loop's own index, unless the loop is bound to the launch or is none. -/
  loop : Option LoopId := none
deriving Repr, Inhabited

/-- An index for some of the axes, the latest first. -/
structure AxisIndices where
  entries : List (AxisId × Scalar) := []
deriving Inhabited

namespace AxisIndices

/-- No axis has an index. -/
def empty : AxisIndices := {}

/-- The index of an axis. -/
def get? (m : AxisIndices) (a : AxisId) : Option Scalar :=
  m.entries.lookup a

/-- Gives an axis an index; an earlier one is forgotten. -/
def set (m : AxisIndices) (a : AxisId) (s : Scalar) : AxisIndices :=
  ⟨(a, s) :: m.entries⟩

@[simp]
theorem get?_empty (a : AxisId) : empty.get? a = none :=
  rfl

@[simp]
theorem get?_set (m : AxisIndices) (a b : AxisId) (s : Scalar) :
    (m.set a s).get? b = if b = a then some s else m.get? b := by
  by_cases h : b = a
  · simp [get?, set, h]
  · simp [get?, set, List.lookup_cons, h, beq_eq_false_iff_ne.2 h]

end AxisIndices

namespace LoopPlan

/-- The index of the innermost enclosing loop of the group of an axis; frames are listed innermost
first. -/
def loopIndex? (p : LoopPlan) (frames : List LoopFrame) (a : AxisId) : Option Scalar :=
  let group := p.groups.name a
  (frames.find? (·.group == group)).map (·.index)

/-- The index of a leaf: that of its loop, or zero for a broadcast without one. -/
def leafIndex (p : LoopPlan) (v : ValueId) (frames : List LoopFrame) (leaf : AxisId) :
    Except LowerError Scalar :=
  match p.loopIndex? frames leaf with
  | some index => .ok index
  | none =>
    if (p.fusion.axis leaf).isBroadcast || p.groups.isBroadcast p.fusion leaf then .ok .zero
    else .error (.indexUnavailable v leaf)

/-- The index of every leaf of a tensor. -/
def leafIndices (p : LoopPlan) (v : ValueId) (frames : List LoopFrame) :
    Except LowerError AxisIndices :=
  (p.fusion.leaf v).foldlM (fun m leaf => return m.set leaf (← p.leafIndex v frames leaf)) .empty

/-- Carries indices from the results of a transform to what it consumed. -/
def backwardStep (p : LoopPlan) (t : Transform) (m : AxisIndices) : AxisIndices :=
  match t with
  | .split input outer inner _ _ =>
    match m.get? outer, m.get? inner with
    | some o, some i => m.set input ((o.mul (p.concreteExtent inner)).add i)
    | _, _ => m
  | .merge outer inner output =>
    match m.get? output with
    | some x =>
      let extent := p.concreteExtent inner
      (m.set outer (x.div extent)).set inner (x.rem extent)
    | none => m

/-- Carries the leaf indices of a tensor back through its history. -/
def carried (p : LoopPlan) (v : ValueId) (leaves : AxisIndices) : AxisIndices :=
  (p.fusion.history v).foldr (fun t m => p.backwardStep (p.fusion.transform t) m) leaves

/-- Carries the leaf indices of a tensor back to every axis of its history; broadcast roots are at
zero. -/
def backward (p : LoopPlan) (v : ValueId) (leaves : AxisIndices) : AxisIndices :=
  let f := p.fusion
  ((f.view v).domain.root.filter fun a => (f.axis a).isBroadcast).foldl (fun m a => m.set a .zero)
    (p.carried v leaves)

/-- The index of every axis of a tensor's history inside the enclosing loops. -/
def consumerIndices (p : LoopPlan) (v : ValueId) (frames : List LoopFrame) :
    Except LowerError AxisIndices :=
  return p.backward v (← p.leafIndices v frames)

/-- The index of an axis that must have one. -/
def require (v : ValueId) (m : AxisIndices) (a : AxisId) : Except LowerError Scalar :=
  match m.get? a with
  | some index => .ok index
  | none => .error (.indexUnavailable v a)

/-- The row-major address of leaf indices in a tensor's own storage. -/
def allocationIndex (p : LoopPlan) (v : ValueId) (m : AxisIndices) : Except LowerError Scalar := do
  let (index, _) ← (p.allocatedLeaves v).reverse.foldlM (fun (index, stride) a => do
    let i ← require v m a
    return ((i.mul stride).add index, stride.mul (p.concreteExtent a))) (Scalar.zero, Scalar.one)
  return index

/-- The address of root indices in global memory, through the strides of the tensor. -/
def globalIndex (p : LoopPlan) (v : ValueId) (m : AxisIndices) : Except LowerError Scalar :=
  (p.fusion.shape v).zipIdx.foldlM (fun index (a, dim) =>
    if (p.fusion.axis a).isBroadcast then .ok index
    else do
      let i ← require v m a
      return index.add (i.mul (.stride v dim))) .zero

/-- Where a tensor is written inside the enclosing loops. -/
def consumerIndex (p : LoopPlan) (v : ValueId) (frames : List LoopFrame) :
    Except LowerError Scalar :=
  match p.fusion.memoryOf v with
  | .global => do p.globalIndex v (← p.consumerIndices v frames)
  | _ => do p.allocationIndex v (← p.leafIndices v frames)

/-- Carries indices from what a transform consumes to its results; a broadcast without an index
counts as zero. -/
def forwardStep (f : Fusion) (t : Transform) (m : AxisIndices) : AxisIndices :=
  match t with
  | .split input outer inner _ _ =>
    match m.get? input with
    | some x =>
      let extent := f.ownExtent inner
      (m.set outer (x.div extent)).set inner (x.rem extent)
    | none => m
  | .merge outer inner output =>
    let known := fun a => (m.get? a).or (if (f.axis a).isBroadcast then some .zero else none)
    match known outer, known inner with
    | some o, some i => m.set output ((o.mul (f.ownExtent inner)).add i)
    | _, _ => m

/-- The root indices of a producer, taken from those of its consumer. -/
def producerRoots (p : LoopPlan) (producer consumer : ValueId) (m : AxisIndices) :
    Except LowerError AxisIndices := do
  let pairs ← (p.fusion.rootPairs? producer consumer).mapError .schedule
  pairs.foldlM (fun roots (a, c) => do
    let index ← if (p.fusion.axis a).isBroadcast then .ok .zero else require consumer m c
    return roots.set a index) .empty

/-- Carries root indices of a producer forward to its leaves; a leaf in an enclosing loop takes
the index of that loop. -/
def producerLeaves (p : LoopPlan) (producer : ValueId) (frames : List LoopFrame)
    (roots : AxisIndices) : AxisIndices :=
  let f := p.fusion
  let d := (f.view producer).domain
  let carried := (f.transformsBetween d.logical d.leaf).foldl
    (fun m t => forwardStep f (f.transform t) m) roots
  (d.leaf.filter fun a => !(f.axis a).isBroadcast).foldl (fun m a =>
    match p.loopIndex? frames a with
    | some index => m.set a index
    | none => m) carried

/-- Where the expression of `consumer` reads `producer` inside the enclosing loops. -/
def producerIndex (p : LoopPlan) (producer consumer : ValueId) (frames : List LoopFrame) :
    Except LowerError Scalar := do
  let roots ← p.producerRoots producer consumer (← p.consumerIndices consumer frames)
  match p.fusion.memoryOf producer with
  | .global => p.globalIndex producer roots
  | _ => p.allocationIndex producer (p.producerLeaves producer frames roots)

end LoopPlan
end FusionCompiler
