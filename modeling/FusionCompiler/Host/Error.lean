import FusionCompiler.Device.Error
import FusionCompiler.Host.Tensor
import FusionCompiler.Kernel.Scalar

/-!
# Faults found while compiling and running

Each constructor is one cause; `RunError.message` is its text.
-/

namespace FusionCompiler

/-- Something whose value does not follow from the arguments. -/
inductive Quantity where
  /-- Arithmetic inside a kernel. -/
  | expression (s : Scalar)
  | dimension (s : Scalar) (tensor : ValueId) (dim : Nat)
  | launchExtent (s : Scalar) (parallel : ParallelType)
  | sharedBytes
  | parameter (v : ValueId)
deriving Repr

/-- The text of a quantity. -/
def Quantity.text : Quantity → String
  | .expression s => Text.quoted s.text
  | .dimension s tensor dim =>
    "extent " ++ s.text ++ " of " ++ tensor.text ++ " dimension " ++ Numeric.natText dim
  | .launchExtent s parallel => "extent " ++ s.text ++ " of " ++ parallel.text
  | .sharedBytes => "shared memory size"
  | .parameter v => "scalar parameter " ++ v.text

/-- Why a vectorized access does not fit its tensor. -/
inductive VectorFault where
  | innermostStride (stride : Int)
  | notContiguous (dim : Nat) (stride : Int)
  | notDivisible (extent : Nat)
  | misaligned (dim : Nat) (stride : Int)
deriving DecidableEq, Repr

/-- The text of a vector fault. -/
def VectorFault.text : VectorFault → String
  | .innermostStride stride => "innermost stride is " ++ Numeric.intText stride
  | .notContiguous dim stride =>
    "dimension " ++ Numeric.natText dim ++ " with stride " ++ Numeric.intText stride
      ++ " is not contiguous"
  | .notDivisible extent => "inner extent " ++ Numeric.natText extent ++ " is not divisible"
  | .misaligned dim stride =>
    "stride " ++ Numeric.intText stride ++ " of dimension " ++ Numeric.natText dim
      ++ " breaks alignment"

/-- Why a tensor given for an output is refused. -/
inductive OutputFault where
  | notAParameter
  | dtypeDiffers (expected actual : DataType)
  | sizesDiffer (expected actual : List Nat)
deriving DecidableEq, Repr

/-- The text of an output fault. -/
def OutputFault.text : OutputFault → String
  | .notAParameter => "it is not a kernel parameter"
  | .dtypeDiffers expected actual => "expected " ++ expected.name ++ ", got " ++ actual.name
  | .sizesDiffer expected actual =>
    "expected sizes " ++ Text.natList expected ++ ", got " ++ Text.natList actual

/-- What can go wrong while tensors are passed around. -/
inductive ExecutionFault where
  | tensor (e : TensorError)
  | notAllocated (v : ValueId)
  | allocatedGlobal (v : ValueId)
  | aliasNotATensor (input output : ValueId)
  | vectorNotAnArgument (v : ValueId)
  | outputNotAnArgument (v : ValueId)
  | noBuffer (v : ValueId)
  | segmentInputUnset (v : ValueId)
  | outputNotProduced (v : ValueId)
  | segmentedSingle
deriving DecidableEq, Repr

/-- The text of an execution fault. -/
def ExecutionFault.text : ExecutionFault → String
  | .tensor e => e.message
  | .notAllocated v => v.text ++ " is accessed before it is allocated"
  | .allocatedGlobal v => v.text ++ " is a global buffer allocated in the kernel"
  | .aliasNotATensor input output =>
    "aliased input " ++ input.text ++ " of " ++ output.text ++ " is not a tensor argument"
  | .vectorNotAnArgument v => "vectorized tensor " ++ v.text ++ " is not a kernel argument"
  | .outputNotAnArgument v => "output " ++ v.text ++ " is not a kernel argument"
  | .noBuffer v => "tensor " ++ v.text ++ " has no buffer"
  | .segmentInputUnset v => "segment input " ++ v.text ++ " is unset"
  | .outputNotProduced v => "fusion output " ++ v.text ++ " was not produced"
  | .segmentedSingle => "segmented a fusion with a single-kernel schedule"

/-- The two kinds of argument. -/
inductive ArgumentKind where
  | tensor
  | scalar
deriving DecidableEq, Repr

/-- The name of a kind of argument. -/
def ArgumentKind.name : ArgumentKind → String
  | .tensor => "tensor"
  | .scalar => "scalar"

/-- Faults of compiling and running a fusion. -/
inductive RunError where
  | fusion (e : FusionError)
  | schedule (e : ScheduleError)
  | lower (e : LowerError)
  | device (e : DeviceError)
  | notCompiled
  | argumentCount (expected actual : Nat)
  | argumentKind (input : ValueId) (expected : ArgumentKind)
  | dtypeMismatch (input : ValueId) (expected actual : DataType)
  | rankMismatch (input : ValueId) (expected actual : Nat)
  | notContiguous (input : ValueId) (dim : Nat) (strides : List Int)
  | vectorization (tensor : ValueId) (width : Nat) (fault : VectorFault)
  | invalidOutput (output : ValueId) (fault : OutputFault)
  | unevaluable (what : Quantity)
  /-- No single kernel computes the fusion, and it may not be divided. -/
  | segmentationDisabled (e : ScheduleError)
  | launchTooLarge (threads limit : Nat)
  | outOfBounds (tensor : ValueId) (index : Int) (length : Nat)
  | execution (fault : ExecutionFault)
deriving Repr

/-- The text of a run error. -/
def RunError.message : RunError → String
  | .fusion e => "IR error: " ++ e.message
  | .schedule e => "Scheduling error: " ++ e.message
  | .lower e => "Lowering error: " ++ e.message
  | .device e => "Codegen error: " ++ e.message
  | .notCompiled => "run_fusion called before compile_fusion"
  | .argumentCount expected actual =>
    "Fusion takes " ++ Numeric.natText expected ++ " arguments, " ++ Numeric.natText actual
      ++ " given"
  | .argumentKind input expected =>
    "Argument for " ++ input.text ++ " must be a " ++ expected.name
  | .dtypeMismatch input expected actual =>
    "Input " ++ input.text ++ " was compiled for " ++ expected.name ++ ", got " ++ actual.name
  | .rankMismatch input expected actual =>
    "Input " ++ input.text ++ " was compiled for rank " ++ Numeric.natText expected ++ ", got rank "
      ++ Numeric.natText actual
  | .notContiguous input dim strides =>
    "Input " ++ input.text ++ " was compiled contiguous in dimension " ++ Numeric.natText dim
      ++ ", got strides " ++ Text.intList strides
  | .vectorization tensor width fault =>
    "Vectorized access to " ++ tensor.text ++ " by " ++ Numeric.natText width ++ " is invalid: "
      ++ fault.text
  | .invalidOutput output fault =>
    "Preallocated output " ++ output.text ++ " is invalid: " ++ fault.text
  | .unevaluable what => "Could not evaluate " ++ what.text
  | .segmentationDisabled e =>
    "No single kernel computes the fusion and segmentation is disabled: " ++ e.message
  | .launchTooLarge threads limit =>
    "Launch of " ++ Numeric.natText threads ++ " threads exceeds the host interpreter limit of "
      ++ Numeric.natText limit
  | .outOfBounds tensor index length =>
    "Access to " ++ tensor.text ++ " at " ++ Numeric.intText index ++ " is outside its "
      ++ Numeric.natText length ++ " elements"
  | .execution fault => "Execution error: " ++ fault.text

end FusionCompiler
