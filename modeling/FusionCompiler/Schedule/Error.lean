import FusionCompiler.Fusion.Error

/-!
# Faults found while scheduling

Each constructor is one cause; `ScheduleError.message` is its text.
-/

namespace FusionCompiler

/-- Why two axes cannot be merged. -/
inductive MergeFault where
  | sameAxis
  | mixedKinds
  | extentsNotIntegers
deriving DecidableEq, Repr

/-- The text of a merge fault. -/
def MergeFault.text : MergeFault → String
  | .sameAxis => "an axis cannot merge with itself"
  | .mixedKinds => "iteration and reduction axes cannot be merged"
  | .extentsNotIntegers => "extents are not integers"

/-- Why a list of moves is no permutation. -/
inductive ReorderFault where
  | movedTwice
  | samePosition
deriving DecidableEq, Repr

/-- The text of a reorder fault. -/
def ReorderFault.text : ReorderFault → String
  | .movedTwice => "an axis is moved twice"
  | .samePosition => "two axes are moved to the same position"

/-- Why a reduction cannot be factored. -/
inductive RFactorFault where
  | notAReduction
  | hasPosition
  | alreadyFactored
  | notReductionAxis
  | noAxes
  | allAxes
  | dependsOnFactored
deriving DecidableEq, Repr

/-- The text of a factoring fault. -/
def RFactorFault.text : RFactorFault → String
  | .notAReduction => "it is not defined by a reduction"
  | .hasPosition => "it already has a compute-at position"
  | .alreadyFactored => "it already has an rfactor domain"
  | .notReductionAxis => "only reduction axes can be factored"
  | .noAxes => "no axes were given"
  | .allAxes => "every reduction axis was chosen"
  | .dependsOnFactored => "a remaining axis depends on a factored one"

/-- Why a copy of a tensor cannot be inserted. -/
inductive CacheFault where
  | hasPosition
  | noDefinition
  | severalResults
  | notAnOutput
  | noOtherUses
deriving DecidableEq, Repr

/-- The text of a cache fault. -/
def CacheFault.text : CacheFault → String
  | .hasPosition => "it already has a compute-at position"
  | .noDefinition => "it has no definition"
  | .severalResults => "multi-output expressions cannot be cached"
  | .notAnOutput => "only fusion outputs can be forked"
  | .noOtherUses => "the output has no other uses"

/-- Why an axis cannot be vectorized. -/
inductive ParallelizeFault where
  | notInnermost
  | widthNotConstant
deriving DecidableEq, Repr

/-- The text of a parallelization fault. -/
def ParallelizeFault.text : ParallelizeFault → String
  | .notInnermost => "vectorized axes must be innermost"
  | .widthNotConstant => "vector width must be a constant"

/-- Why no automatic schedule fits. -/
inductive SchedulerFault where
  | noOutputs
  | alreadyScheduled (v : ValueId)
  | outputsDifferInRank (a b : ValueId)
  | noReduction
  | differentAxes (a b : ValueId)
  | unknownReductionExtent
  | persistentTooLarge (bytes limit : Nat)
  | argumentCount (expected given : Nat)
  | unknownSize (v : ValueId)
deriving DecidableEq, Repr

/-- The text of a scheduler fault. -/
def SchedulerFault.text : SchedulerFault → String
  | .noOutputs => "the fusion has no outputs"
  | .alreadyScheduled v => v.text ++ " is already scheduled"
  | .outputsDifferInRank a b => "outputs " ++ a.text ++ " and " ++ b.text ++ " differ in rank"
  | .noReduction => "the fusion has no reduction"
  | .differentAxes a b => a.text ++ " and " ++ b.text ++ " reduce different axes"
  | .unknownReductionExtent => "reduction extent is not known from the inputs"
  | .persistentTooLarge bytes limit =>
    "persistent buffers need " ++ Numeric.natText bytes ++ " bytes, more than "
      ++ Numeric.natText limit
  | .argumentCount expected given =>
    "fusion takes " ++ Numeric.natText expected ++ " arguments, " ++ Numeric.natText given
      ++ " given"
  | .unknownSize v => "size of " ++ v.text ++ " is not known from the inputs"

/-- Faults of a scheduling step. -/
inductive ScheduleError where
  | fusion (e : FusionError)
  /-- The axis is left of a compute-at or producer position. -/
  | axisFixed (tensor : ValueId) (axis fixed : Nat)
  | invalidMerge (tensor : ValueId) (outer inner : Nat) (fault : MergeFault)
  | invalidReorder (tensor : ValueId) (fault : ReorderFault)
  | invalidSplitFactor (tensor : ValueId)
  | invalidRFactor (tensor : ValueId) (fault : RFactorFault)
  | invalidCache (tensor : ValueId) (fault : CacheFault)
  | invalidMemoryType (tensor : ValueId) (memory : MemoryType)
  | notAProducer (producer consumer : ValueId)
  | positionOutOfRange (tensor : ValueId) (pos : Int) (ndims : Nat)
  /-- A needed axis has no counterpart of provably equal extent. -/
  | unmappableAxis (producer consumer : ValueId) (axis : AxisId)
  | reductionInlined (tensor : ValueId) (axis : AxisId)
  /-- Replaying would change axes that are already fixed. -/
  | replayConflict (tensor : ValueId)
  | invalidParallelize (tensor : ValueId) (axis : Nat) (parallel : ParallelType)
      (fault : ParallelizeFault)
  | noScheduler (fault : SchedulerFault)
deriving DecidableEq, Repr

/-- The text of a schedule error. -/
def ScheduleError.message : ScheduleError → String
  | .fusion e => e.message
  | .axisFixed tensor axis fixed =>
    "axis " ++ Numeric.natText axis ++ " of " ++ tensor.text ++ " is fixed by position "
      ++ Numeric.natText fixed ++ " and cannot be transformed"
  | .invalidMerge tensor outer inner fault =>
    "cannot merge " ++ tensor.text ++ " axes " ++ Numeric.natText outer ++ " and "
      ++ Numeric.natText inner ++ ": " ++ fault.text
  | .invalidReorder tensor fault => "invalid reorder of " ++ tensor.text ++ ": " ++ fault.text
  | .invalidSplitFactor tensor =>
    "split factor of " ++ tensor.text ++ " must be a positive integer scalar"
  | .invalidRFactor tensor fault => "cannot rfactor " ++ tensor.text ++ ": " ++ fault.text
  | .invalidCache tensor fault => "cannot cache " ++ tensor.text ++ ": " ++ fault.text
  | .invalidMemoryType tensor memory =>
    tensor.text ++ " cannot live in " ++ memory.name
      ++ " memory: fusion inputs and outputs live in global memory"
  | .notAProducer producer consumer =>
    producer.text ++ " is not a producer of " ++ consumer.text
  | .positionOutOfRange tensor pos ndims =>
    "compute-at position " ++ Numeric.intText pos ++ " is out of range for " ++ tensor.text
      ++ " with " ++ Numeric.natText ndims ++ " axes"
  | .unmappableAxis producer consumer axis =>
    "axis " ++ axis.text ++ " of " ++ consumer.text ++ " cannot be mapped to " ++ producer.text
  | .reductionInlined tensor axis =>
    "reduction axis " ++ axis.text ++ " of " ++ tensor.text ++ " cannot be inlined into a consumer"
  | .replayConflict tensor => "replay onto " ++ tensor.text ++ " conflicts with its fixed axes"
  | .invalidParallelize tensor axis parallel fault =>
    tensor.text ++ " axis " ++ Numeric.natText axis ++ " cannot be parallelized with "
      ++ parallel.text ++ ": " ++ fault.text
  | .noScheduler fault => "no scheduler accepts this fusion: " ++ fault.text

/-- Scheduling steps fail with a schedule error. -/
abbrev Schedule := EditE ScheduleError

end FusionCompiler
