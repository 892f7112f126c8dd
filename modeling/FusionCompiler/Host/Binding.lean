import FusionCompiler.Host.Error
import FusionCompiler.Host.Settings
import FusionCompiler.Kernel.Basic

/-!
# Binding arguments to a kernel

Before a kernel is launched, its arguments are checked against the fusion it
was compiled for, and the sizes that depend on them are worked out: those of the
tensors to allocate, of the launch and of dynamic shared memory.
-/

namespace FusionCompiler

/-- The arguments of one run, each with the input it is bound to. -/
abbrev BoundArguments := List (ValueId × Argument)

namespace BoundArguments

/-- The tensor bound to an input. -/
def tensor? (args : BoundArguments) (v : ValueId) : Option HostTensor :=
  (args.lookup v).bind (·.tensor?)

/-- The value bound to a scalar input, in the type of the input. -/
def scalar? (args : BoundArguments) (f : Fusion) (v : ValueId) : Option Constant :=
  match args.lookup v with
  | some (.scalar c) => some (c.cast (f.dtype v))
  | _ => none

/-- What scalars mean outside of a kernel: sizes, strides and scalar arguments are known. -/
def env (args : BoundArguments) (f : Fusion) : Scalar.Env where
  input := fun v => args.scalar? f v
  size := fun v d => (args.tensor? v).bind fun t => (t.sizes[d]?).map Int.ofNat
  stride := fun v d => (args.tensor? v).bind fun t => t.strides[d]?
  launchIndex := fun _ => none
  launchExtent := fun _ => none
  loop := fun _ => none

end BoundArguments

namespace Binding

/-! ## Inputs -/

/-- A tensor argument must have the type, the rank and the contiguity of its input. -/
def checkTensor (f : Fusion) (v : ValueId) (t : HostTensor) : Except RunError Unit := do
  if !f.isTensor v then throw (.argumentKind v .scalar)
  if t.dtype ≠ f.dtype v then throw (.dtypeMismatch v (f.dtype v) t.dtype)
  let domain := (f.view v).domain
  if t.ndims ≠ domain.root.length then throw (.rankMismatch v domain.root.length t.ndims)
  match domain.contiguity.zipIdx.find? fun (c, dim) => c && !t.isContiguousAt dim with
  | some (_, dim) => throw (.notContiguous v dim t.strides)
  | none => return ()

/-- An argument must be of the kind of its input. -/
def checkInput (f : Fusion) (v : ValueId) : Argument → Except RunError Unit
  | .tensor t => checkTensor f v t
  | .scalar _ => if f.isTensor v then .error (.argumentKind v .tensor) else .ok ()

/-- There must be one fitting argument for every input. -/
def checkInputs (f : Fusion) (args : List Argument) : Except RunError Unit := do
  if args.length ≠ f.inputs.length then throw (.argumentCount f.inputs.length args.length)
  (f.inputs.zip args).forM fun (v, a) => checkInput f v a

/-! ## Sizes -/

/-- The value of a scalar outside of a kernel. -/
def evaluate (env : Scalar.Env) (s : Scalar) (what : Quantity) : Except RunError Int :=
  match s.evaluateInt env with
  | some n => .ok n
  | none => .error (.unevaluable what)

/-- The sizes of a tensor; a negative extent counts as empty. -/
def sizesOf (env : Scalar.Env) (v : ValueId) (sizes : List Scalar) : Except RunError (List Nat) :=
  sizes.zipIdx.mapM fun (s, dim) => return (← evaluate env s (.dimension s v dim)).toNat

/-! ## Given outputs -/

/-- A tensor given for an output must have its type and its sizes. -/
def checkOutput (k : Kernel) (env : Scalar.Env) (v : ValueId) (t : HostTensor) :
    Except RunError Unit := do
  match k.tensorParam? v with
  | none => throw (.invalidOutput v .notAParameter)
  | some p =>
    if t.dtype ≠ p.dtype then throw (.invalidOutput v (.dtypeDiffers p.dtype t.dtype))
    let expected ← sizesOf env v p.sizes
    if t.sizes ≠ expected then throw (.invalidOutput v (.sizesDiffer expected t.sizes))

/-- Checks tensors given for the outputs; an output that is written into an input needs none. -/
def checkOutputs (f : Fusion) (k : Kernel) (env : Scalar.Env) (outputs : List HostTensor) :
    Except RunError (List (ValueId × HostTensor)) := do
  if outputs.length ≠ f.outputs.length then
    throw (.argumentCount f.outputs.length outputs.length)
  let given := (f.outputs.zip outputs).filter fun (v, _) => (f.aliasedInput? v).isNone
  given.forM fun (v, t) => checkOutput k env v t
  return given

/-! ## Launch sizes -/

/-- Launch sizes are stored in this many values. -/
def launchModulus : Nat := 4294967296

/-- The size of a launch type: as chosen, else the largest extent of its loops. -/
def launchSize (k : Kernel) (env : Scalar.Env) (chosen : Option Nat) (p : ParallelType) :
    Except RunError Nat :=
  match chosen, k.summary.launch.get? p with
  | some n, _ => .ok n
  | none, none => .ok 1
  | none, some extents => do
    let largest ← extents.foldlM (fun (n : Int) s => do
      return Max.max n (← evaluate env s (.launchExtent s p))) 0
    return largest.toNat % launchModulus

/-- Bytes of dynamic shared memory: as chosen, else what the kernel needs for a block of threads. -/
def sharedBytes (k : Kernel) (env : Scalar.Env) (chosen : Option Nat) (threads : Int) :
    Except RunError Nat :=
  match chosen with
  | some n => .ok n
  | none => do
    let bytes ← evaluate env k.summary.sharedBytes .sharedBytes
    return (k.dynamicSharedBytes bytes threads).toNat % launchModulus

/-- The launch of a kernel. -/
def launchDims (k : Kernel) (env : Scalar.Env) (chosen : LaunchOverrides) :
    Except RunError LaunchDims := do
  let sizes ← ParallelType.launchTypes.zipIdx.mapM fun (p, slot) =>
    launchSize k env (chosen.slot slot) p
  let dims : LaunchDims := { sizes }
  let threads := wrapped64 dims.threadsPerBlock
  return { dims with sharedBytes := ← sharedBytes k env chosen.sharedBytes threads }

end Binding
end FusionCompiler
