import FusionCompiler.Constant
import FusionCompiler.Parallel
import FusionCompiler.Text.Layout

/-!
# Settings and launch shapes

What a user may choose: compilation and caching settings, read from a table of
variables or given one by one, and launch sizes.
-/

namespace FusionCompiler

/-- Artifacts that may be logged while compiling. -/
inductive DumpOption where
  | cudaKernel
  | kernelIr
  | fusionIr
  | launchParams
  | segmentedFusion
deriving DecidableEq, Repr, Inhabited

/-- Why settings are refused. -/
inductive SettingsError where
  | unknownDump (name : String)
deriving DecidableEq, Repr

/-- The text of a settings error; it does not repeat the name. -/
def SettingsError.message : SettingsError → String
  | .unknownDump _ => "Matching variant not found"

namespace DumpOption

/-- Every artifact, in listing order. -/
def all : List DumpOption :=
  [.cudaKernel, .kernelIr, .fusionIr, .launchParams, .segmentedFusion]

/-- The name of an artifact. -/
def name : DumpOption → String
  | .cudaKernel => "cuda_kernel"
  | .kernelIr => "kernel_ir"
  | .fusionIr => "fusion_ir"
  | .launchParams => "launch_params"
  | .segmentedFusion => "segmented_fusion"

/-- The artifact of a name. -/
def ofName? (s : String) : Option DumpOption :=
  all.find? (·.name == s)

/-- The artifact of a name that has to be known. -/
def ofName (s : String) : Except SettingsError DumpOption :=
  match ofName? s with
  | some d => .ok d
  | none => .error (.unknownDump s)

/-- Puts a selection in listing order, without repetitions. -/
def normalize (l : List DumpOption) : List DumpOption :=
  all.filter l.contains

end DumpOption

/-- Compilation and caching settings. -/
structure Settings where
  /-- Fail instead of segmenting a fusion that no single kernel computes. -/
  disableSegmentation : Bool := false
  /-- Number of input signatures that an executor cache keeps. -/
  cacheCapacity : Nat := 16
  dump : List DumpOption := []
  /-- Let a segment write its output into a dead intermediate buffer. -/
  segmentAliasing : Bool := false
deriving DecidableEq, Repr, Inhabited

namespace Settings

/-- Settings given one by one; the capacity is at least one. -/
def make (disableSegmentation : Bool) (cacheCapacity : Nat) (dump : List DumpOption)
    (segmentAliasing : Bool) : Settings :=
  ⟨disableSegmentation, Max.max cacheCapacity 1, DumpOption.normalize dump, segmentAliasing⟩

/-- Whether a variable switches something on. -/
def isOn (value : Option String) : Bool :=
  match value with
  | some v => ["1", "true", "on", "yes"].contains (Text.trim v)
  | none => false

/-- Reads a comma-separated selection; unknown names are skipped. -/
def readDump (list : String) : List DumpOption :=
  DumpOption.normalize (((list.splitOn ",").map Text.trim).filterMap DumpOption.ofName?)

/-- Settings from a table of variables. -/
def ofLookup (lookup : String → Option String) : Settings where
  disableSegmentation := isOn (lookup "FUSER_DISABLE_SEGMENTATION")
  cacheCapacity :=
    match (lookup "FUSER_CACHE_CAPACITY").bind fun s => Text.readUnsigned (Text.trim s) with
    | some (n + 1) => n + 1
    | _ => ({} : Settings).cacheCapacity
  dump := ((lookup "FUSER_DUMP").map readDump).getD []
  segmentAliasing := isOn (lookup "FUSER_SEGMENT_ALIASING")

end Settings

/-- Launch sizes chosen by the caller, in the order of `ParallelType.launchTypes`. -/
structure LaunchOverrides where
  /-- Grid sizes x, y, z, then block sizes x, y, z. -/
  sizes : List (Option Nat) := []
  /-- Bytes of dynamic shared memory. -/
  sharedBytes : Option Nat := none
deriving DecidableEq, Repr, Inhabited

/-- The override in a launch slot. -/
def LaunchOverrides.slot (p : LaunchOverrides) (i : Nat) : Option Nat :=
  p.sizes.getD i none

/-- Grid, block and dynamic shared memory of one launch. -/
structure LaunchDims where
  /-- Grid sizes x, y, z, then block sizes x, y, z. -/
  sizes : List Nat := [1, 1, 1, 1, 1, 1]
  sharedBytes : Nat := 0
deriving DecidableEq, Repr, Inhabited

namespace LaunchDims

/-- Number of blocks, as far as a word keeps it. -/
def blocks (d : LaunchDims) : Nat :=
  Id.run (wordProduct (d.sizes.take 3))

/-- Number of threads of a block, as far as a word keeps it. -/
def threadsPerBlock (d : LaunchDims) : Nat :=
  Id.run (wordProduct (d.sizes.drop 3))

/-- Number of threads of the launch, as far as a word keeps it. -/
def threads (d : LaunchDims) : Nat :=
  Id.run (wordProduct [d.blocks, d.threadsPerBlock])

/-- The launch size bound to a parallel type; one for types that are no launch dimension. -/
def extent (d : LaunchDims) (p : ParallelType) : Nat :=
  match p.launchSlot? with
  | some slot => d.sizes.getD slot 1
  | none => 1

end LaunchDims
end FusionCompiler
