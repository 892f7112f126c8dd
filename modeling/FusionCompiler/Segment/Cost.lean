import FusionCompiler.Segment.Boundary

/-!
# Cost of segments

A segment costs one kernel launch and the memory traffic of its boundary.  A
tensor between two segments is paid twice, so merging saves a launch and
whatever traffic becomes internal.
-/

namespace FusionCompiler
namespace Segment

/-- Launch overhead in bytes of equivalent traffic. -/
def kernelLaunchCost : Nat := 16 * 1024

/-- Bytes assumed for a tensor of unknown size. -/
def unknownTensorBytes : Nat := 1048576

/-- Known sizes of tensors. -/
abbrev Sizes := List (ValueId × List Nat)

/-- Bytes of every tensor of a fusion. -/
structure CostModel where
  bytes : List (ValueId × Nat)

namespace CostModel

/-- The cost model for known sizes. -/
def ofSizes (f : Fusion) (sizes : Sizes) : CostModel where
  bytes := f.allTensors.map fun v => (v, match sizes.lookup v with
    | some l => l.foldl (fun bytes size => size * bytes) (f.dtype v).bytes
    | none => unknownTensorBytes)

/-- Bytes of a tensor; scalars are free. -/
def tensorBytes (c : CostModel) (v : ValueId) : Nat :=
  (c.bytes.lookup v).getD 0

/-- The cost of a segment. -/
def segmentCost (c : CostModel) (io : Boundary) : Nat :=
  (io.inputs ++ io.outputs).foldl (fun cost v => cost + c.tensorBytes v) kernelLaunchCost

/-- What is saved by putting one segment in the place of two. -/
def mergeSaving (c : CostModel) (a b merged : Boundary) : Int :=
  (c.segmentCost a : Int) + c.segmentCost b - c.segmentCost merged

end CostModel
end Segment
end FusionCompiler
