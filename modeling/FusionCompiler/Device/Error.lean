import FusionCompiler.Lower.Error

/-!
# Faults found while generating device source

Each constructor is one cause; `DeviceError.message` is its text.
-/

namespace FusionCompiler

/-- What device source has no spelling for. -/
inductive DeviceFault where
  | globalAllocation (tensor : ValueId)
  | halfReduction
  | halfWelford
  | halfBlockBroadcast
  | halfGridBroadcast
deriving DecidableEq, Repr

/-- The text of a device fault. -/
def DeviceFault.text : DeviceFault → String
  | .globalAllocation tensor =>
    "global allocation of T" ++ Numeric.natText tensor.index ++ " inside a kernel"
  | .halfReduction => "half precision cross-thread reductions"
  | .halfWelford => "half precision Welford"
  | .halfBlockBroadcast => "half precision block broadcasts"
  | .halfGridBroadcast => "half precision grid broadcasts"

/-- Faults of generating device source. -/
inductive DeviceError where
  | unsupported (fault : DeviceFault)
  /-- A register array needs a size known at compile time. -/
  | symbolicLocalSize (tensor : ValueId) (size : String)
  /-- A shared allocation has no place in shared memory. -/
  | missingSharedOffset (tensor : ValueId)
  | lower (e : LowerError)
deriving DecidableEq, Repr

/-- The text of a device error. -/
def DeviceError.message : DeviceError → String
  | .unsupported fault => "Unsupported in CUDA codegen: " ++ fault.text
  | .symbolicLocalSize tensor size =>
    "T" ++ Numeric.natText tensor.index ++ " is a register buffer with symbolic size " ++ size
  | .missingSharedOffset tensor =>
    "T" ++ Numeric.natText tensor.index ++ " has no shared memory offset"
  | .lower e => "Lowering error: " ++ e.message

end FusionCompiler
