import FusionCompiler.Host.LruCache
import FusionCompiler.Host.Segmented

/-!
# Caching compiled fusions

A fusion is compiled anew for every signature of its arguments: types, sizes and
strides of the tensors and the values of the scalars.  The signatures used last
stay compiled.
-/

namespace FusionCompiler

/-- What a compilation depends on in an argument. -/
inductive ArgumentSignature where
  | tensor (dtype : DataType) (sizes : List Nat) (strides : List Int)
  | bool (b : Bool)
  | int (n : Int)
  /-- A number by its bits, so that zeros of different sign differ and a NaN equals itself. -/
  | float (bits : UInt64)
deriving DecidableEq, Repr

/-- The signature of an argument. -/
def Argument.signature : Argument → ArgumentSignature
  | .tensor t => .tensor t.dtype t.sizes t.strides
  | .scalar (.bool b) => .bool b
  | .scalar (.int n) => .int n
  | .scalar (.float x) => .float x.toBits

/-- The compiled versions of one fusion. -/
structure ExecutorCache where
  fusion : Fusion
  settings : Settings
  versions : LruCache (List ArgumentSignature) SegmentedExecutor

namespace ExecutorCache

/-- An empty cache over a fusion. -/
def make (f : Fusion) (s : Settings) : ExecutorCache :=
  ⟨f, s, { capacity := s.cacheCapacity }⟩

/-- Whether the fusion is compiled for some arguments. -/
def isCompiled (c : ExecutorCache) (args : List Argument) : Bool :=
  c.versions.contains (args.map (·.signature))

/-- The version for some arguments, compiled on a miss. -/
def versionFor (c : ExecutorCache) (args : List Argument) :
    StateM Modules (Except RunError SegmentedExecutor × ExecutorCache) := do
  let make := (SegmentedExecutor.compile c.fusion args c.settings).run
  let (outcome, versions) ← c.versions.obtain (args.map (·.signature)) make
  return (outcome, { c with versions })

/-- Forgets all versions. -/
def clear (c : ExecutorCache) : ExecutorCache :=
  { c with versions := c.versions.clear }

/-- The modules in use. -/
def held (c : ExecutorCache) : List Module :=
  c.versions.entries.flatMap fun (_, e) => e.value.segments.map (·.module)

end ExecutorCache
end FusionCompiler
