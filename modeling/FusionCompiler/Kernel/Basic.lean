import FusionCompiler.Kernel.Statement

/-!
# Kernels

A kernel is a body of statements with its parameter list and a summary of the
facts that a launcher needs without walking the body.
-/

namespace FusionCompiler
namespace Kernel

/-- What a tensor parameter is to the fusion. -/
inductive Role where
  | input
  | output
  /-- An intermediate tensor that lives in global memory. -/
  | intermediate
deriving DecidableEq, Repr, Inhabited

/-- The name of a role. -/
def Role.name : Role → String
  | .input => "Input"
  | .output => "Output"
  | .intermediate => "Intermediate"

/-- Every role. -/
def Role.all : List Role := [.input, .output, .intermediate]

/-- A parameter of a kernel. -/
inductive Param where
  /-- A tensor with the extents of its shape. -/
  | tensor (tensor : ValueId) (dtype : DataType) (role : Role) (sizes : List Scalar)
  | scalar (value : ValueId) (dtype : DataType)
  /-- Partial results of the blocks of a grid reduction. -/
  | workBuffer (dtype : DataType)
  /-- Arrival counters of a grid reduction. -/
  | syncFlags
deriving Repr, Inhabited

/-- A vectorized access whose strides and alignment the launcher must check. -/
structure VectorAccess where
  /-- The global tensor that is read or written by vectors. -/
  tensor : ValueId
  width : Nat
  /-- A misaligned access only needs a unit inner stride. -/
  misaligned : Bool
  /-- Number of innermost dimensions merged into the vectorized axis; they must be contiguous,
  with a total extent divisible by the width. -/
  mergedDims : Nat
deriving DecidableEq, Repr, Inhabited

/-- A shared buffer with its place in dynamic shared memory. -/
structure SharedBuffer where
  tensor : ValueId
  dtype : DataType
  size : Scalar
  /-- Byte offset into dynamic shared memory. -/
  offset : Scalar
  /-- The buffer whose storage this one reuses. -/
  host : Option ValueId
deriving Repr, Inhabited

/-- The grid reduction of a kernel. -/
structure GridReduction where
  dtype : DataType
  /-- Values per element: one, or three for running statistics. -/
  values : Nat
  types : ParallelSet
deriving DecidableEq, Repr, Inhabited

/-- The launch types in use, each with the distinct extents of the loops bound to it. -/
structure LaunchExtents where
  entries : List (ParallelType × List Scalar) := []
deriving Repr, Inhabited

namespace LaunchExtents

/-- The extents of a launch type in use. -/
def get? (m : LaunchExtents) (p : ParallelType) : Option (List Scalar) :=
  m.entries.lookup p

/-- Whether all loops bound to a launch type have one extent. -/
def isExact (m : LaunchExtents) (p : ParallelType) : Bool :=
  match m.get? p with
  | some [_] => true
  | _ => false

/-- A launch type's extent as the kernel sees it: the common extent, else the extent of the
launch, and one when the type is not in use. -/
def extent (m : LaunchExtents) (p : ParallelType) : Scalar :=
  match m.get? p with
  | some [e] => e
  | some _ => .launchExtent p
  | none => .one

/-- The launch types in use. -/
def types (m : LaunchExtents) : ParallelSet :=
  .ofList (m.entries.map (·.1))

/-- The text of one launch type. -/
def entryText (p : ParallelType) (extents : List Scalar) : String :=
  let kind := if extents.length == 1 then "exact" else "non-exact"
  p.text ++ ": " ++ ", ".intercalate (extents.map (·.text)) ++ " (" ++ kind ++ ")\n"

/-- One line for each launch type in use. -/
def text (m : LaunchExtents) : String :=
  "".intercalate (m.entries.map fun (p, extents) => entryText p extents)

end LaunchExtents

/-- Facts about a kernel that a launcher needs. -/
structure Summary where
  launch : LaunchExtents := {}
  blockReduction : Bool := false
  blockBroadcast : Bool := false
  gridBroadcast : Bool := false
  welford : Bool := false
  gridReduction : Option GridReduction := none
  vectorized : List VectorAccess := []
  shared : List SharedBuffer := []
  /-- Bytes of the shared buffers. -/
  sharedBytes : Scalar := .zero
  /-- Bytes per thread of the workspace of cooperating threads. -/
  workspaceBytes : Nat := 0
deriving Repr, Inhabited

/-- Whether cooperating threads need a workspace. -/
def Summary.needsWorkspace (s : Summary) : Bool :=
  s.blockReduction || s.blockBroadcast || s.gridReduction.isSome || s.gridBroadcast

end Kernel

/-- A loop-nest program with its parameters. -/
structure Kernel where
  name : String := "kernel"
  params : List Kernel.Param := []
  body : List Kernel.Stmt := []
  summary : Kernel.Summary := {}
deriving Inhabited

namespace Kernel

/-- A tensor parameter. -/
structure TensorParam where
  tensor : ValueId
  dtype : DataType
  role : Role
  sizes : List Scalar
deriving Inhabited

/-- The tensor of a parameter that is one. -/
def Param.tensor? : Param → Option TensorParam
  | .tensor v t role sizes => some ⟨v, t, role, sizes⟩
  | _ => none

/-- The tensor parameters in order. -/
def tensorParams (k : Kernel) : List TensorParam :=
  k.params.filterMap Param.tensor?

/-- The parameter of a tensor. -/
def tensorParam? (k : Kernel) (v : ValueId) : Option TensorParam :=
  k.tensorParams.find? (·.tensor == v)

/-- Bytes of dynamic shared memory that a launch needs: the shared buffers, then the workspace
at the next multiple of sixteen.  Sums and products are signed words and wrap around. -/
def dynamicSharedBytes (k : Kernel) (sharedBytes threads : Int) : Int :=
  if k.summary.needsWorkspace then
    let aligned := (wrapped64 (sharedBytes + 15)).tdiv 16 * 16
    wrapped64 (aligned + wrapped64 (k.summary.workspaceBytes * threads))
  else sharedBytes

end Kernel
end FusionCompiler
