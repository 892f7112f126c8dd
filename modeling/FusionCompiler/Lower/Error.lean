import FusionCompiler.Schedule.Error

/-!
# Faults found while lowering

Each constructor is one cause; `LowerError.message` is its text.
-/

namespace FusionCompiler

/-- Why a vectorized axis is refused. -/
inductive VectorizeFault where
  | notInnermost
  | widthNotConstant
  | widthTooLarge
  | isInput
  | notACopy
  | notInnerSplit
  | notMergedRoots
  | notInnermostRoots
deriving DecidableEq, Repr

/-- The text of a vectorization fault. -/
def VectorizeFault.text : VectorizeFault → String
  | .notInnermost => "only the innermost axis can be vectorized"
  | .widthNotConstant => "vector width must be a constant"
  | .widthTooLarge => "vector width must be a power of two of at most 16 bytes"
  | .isInput => "fusion inputs cannot be vectorized"
  | .notACopy => "only set operations can be vectorized"
  | .notInnerSplit => "the vectorized axis must be the inner part of a split"
  | .notMergedRoots => "the vectorized axis must come from merged root axes"
  | .notInnermostRoots => "the vectorized axis must come from the innermost root axes"

/-- Why a fusion cannot become one kernel. -/
inductive KernelFault where
  | scalarOutput (v : ValueId)
  | boundTwice (tensor : ValueId) (parallel : ParallelType)
  | mixedGridTypes
deriving DecidableEq, Repr

/-- The text of a kernel fault. -/
def KernelFault.text : KernelFault → String
  | .scalarOutput v => "scalar output " ++ v.text
  | .boundTwice tensor parallel =>
    tensor.text ++ " binds " ++ parallel.text ++ " to more than one axis"
  | .mixedGridTypes => "grid collectives over different types"

/-- Faults of turning a scheduled fusion into a kernel. -/
inductive LowerError where
  | schedule (e : ScheduleError)
  | noOutputs
  /-- A producer's axis inside its compute-at position has no counterpart in a consumer. -/
  | unmappedComputeAt (producer consumer : ValueId) (axis : Nat)
  | parallelTypeConflict (axis : AxisId) (first second : ParallelType)
  | loopNestCycle (tensors : List ValueId)
  /-- The loops a producer is inlined into do not enclose one of its consumers. -/
  | loopNestMismatch (producer consumer : ValueId)
  /-- A consumer would read values that another thread holds. -/
  | parallelMismatch (producer consumer : ValueId) (parallel : ParallelType) (required : MemoryType)
  | invalidVectorize (tensor : ValueId) (fault : VectorizeFault)
  | multipleGridReductions (count : Nat)
  | indexUnavailable (tensor : ValueId) (axis : AxisId)
  | unsupported (fault : KernelFault)
deriving DecidableEq, Repr

/-- The text of a lowering error. -/
def LowerError.message : LowerError → String
  | .schedule e => e.message
  | .noOutputs => "fusion has no outputs"
  | .unmappedComputeAt producer consumer axis =>
    "axis " ++ Numeric.natText axis ++ " of " ++ producer.text ++ " is computed at "
      ++ consumer.text ++ " but does not map to it"
  | .parallelTypeConflict axis first second =>
    "loop group of " ++ axis.text ++ " is bound to both " ++ first.text ++ " and " ++ second.text
  | .loopNestCycle tensors =>
    "expressions form a cycle in the loop nest: " ++ ", ".intercalate (tensors.map (·.text))
  | .loopNestMismatch producer consumer =>
    producer.text ++ " is inlined into loops that do not enclose " ++ consumer.text
  | .parallelMismatch producer consumer parallel required =>
    producer.text ++ " axis bound to " ++ parallel.text ++ " is not mapped in " ++ consumer.text
      ++ "; " ++ producer.text ++ " needs " ++ required.name ++ " memory"
  | .invalidVectorize tensor fault => "cannot vectorize " ++ tensor.text ++ ": " ++ fault.text
  | .multipleGridReductions count =>
    "a kernel supports one grid reduction, found " ++ Numeric.natText count
  | .indexUnavailable tensor axis => "no index for axis " ++ axis.text ++ " of " ++ tensor.text
  | .unsupported fault => "unsupported: " ++ fault.text

end FusionCompiler
