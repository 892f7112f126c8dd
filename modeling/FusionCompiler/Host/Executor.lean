import FusionCompiler.Device.Source
import FusionCompiler.Host.Alignment
import FusionCompiler.Host.Binding
import FusionCompiler.Host.Machine
import FusionCompiler.Host.Modules

/-!
# Running a scheduled fusion

A scheduled fusion is lowered, its device source is written, and the module of
that source is looked up or compiled.  A run checks its arguments, allocates
what is missing, launches the module and reads the outputs.
-/

namespace FusionCompiler

/-- A step of a compilation; modules compiled before a failure stay. -/
abbrev Compile := ExceptT RunError (StateM Modules)

/-- A fusion ready to run. -/
structure CompiledFusion where
  fusion : Fusion
  kernel : Kernel
  module : Module
deriving Inhabited

/-- What a run gives. -/
structure Execution where
  outputs : List HostTensor
  /-- Positions of the arguments that are overwritten, with their new contents. -/
  overwritten : List (Nat × HostTensor)
deriving Inhabited

/-- The arguments as a run in place leaves them. -/
def Execution.arguments (x : Execution) (args : List Argument) : List Argument :=
  x.overwritten.foldl (fun args (i, t) => args.set i (.tensor t)) args

namespace CompiledFusion

open Kernel

/-- Compiles a scheduled fusion. -/
def compile (f : Fusion) : Compile CompiledFusion := do
  let lowered ← (Lowered.make f).mapError RunError.lower
  let kernel := lowered.kernel
  let source ← (Device.render kernel none).mapError RunError.device
  let module ← modifyGet (Modules.obtain
    { source := source.code, entryPoint := source.entryPoint, kernel })
  return ⟨f, kernel, module⟩

/-! ## Memory of a launch -/

/-- The tensors of a launch and the buffers they live in. -/
structure Memory where
  tensors : List TensorArgument := []
  buffers : Array (Array Float) := #[]
deriving Inhabited

namespace Memory

/-- The argument of a tensor. -/
def tensor? (m : Memory) (v : ValueId) : Option TensorArgument :=
  m.tensors.find? (·.tensor == v)

/-- Puts a tensor into a buffer of its own. -/
def add (m : Memory) (v : ValueId) (t : DataType) (sizes : List Nat) (strides : List Int)
    (storage : Array Float) : Memory :=
  ⟨⟨v, m.buffers.size, t, sizes, strides⟩ :: m.tensors, m.buffers.push storage⟩

/-- Puts a host tensor into a buffer of its own. -/
def addTensor (m : Memory) (v : ValueId) (t : HostTensor) : Memory :=
  m.add v t.dtype t.sizes t.strides t.storage

/-- Lets a tensor live where another one does. -/
def share (m : Memory) (v : ValueId) (source : TensorArgument) : Memory :=
  { m with tensors := { source with tensor := v } :: m.tensors }

/-- The tensor arguments. -/
def ofArguments (args : BoundArguments) : Memory :=
  args.foldl (fun m (v, a) => match a with
    | .tensor t => m.addTensor v t
    | .scalar _ => m) {}

/-- Finds memory for a tensor parameter that is no argument: that of the input it is written
into, that of a given output, else zeros. -/
def bindParam (f : Fusion) (env : Scalar.Env) (given : List (ValueId × HostTensor)) (m : Memory)
    (p : TensorParam) : Except RunError Memory :=
  if (m.tensor? p.tensor).isSome then .ok m
  else
    let isOutput := p.role == .output
    match (if isOutput then f.aliasedInput? p.tensor else none) with
    | some input =>
      match m.tensor? input with
      | some source => .ok (m.share p.tensor source)
      | none => .error (.execution (.aliasNotATensor input p.tensor))
    | none =>
      match (if isOutput then given.lookup p.tensor else none) with
      | some t => .ok (m.addTensor p.tensor t)
      | none => do
        let sizes ← Binding.sizesOf env p.tensor p.sizes
        return m.addTensor p.tensor (.zeros p.dtype sizes)

/-- Fails when a vectorized access does not fit its argument. -/
def checkAccess (m : Memory) (a : VectorAccess) : Except RunError Unit :=
  match m.tensor? a.tensor with
  | some t => a.check t.sizes t.strides
  | none => .error (.execution (.vectorNotAnArgument a.tensor))

/-- The contents of an output. -/
def output (m : Memory) (v : ValueId) : Except RunError HostTensor :=
  match m.tensor? v with
  | some t =>
    (HostTensor.strided t.dtype t.sizes t.strides (m.buffers.getD t.buffer #[])).mapError
      fun e => .execution (.tensor e)
  | none => .error (.execution (.outputNotAnArgument v))

end Memory

/-! ## Running -/

/-- The argument of a kernel parameter. -/
def launchArgument (k : Kernel) (args : BoundArguments) (m : Memory) (dims : LaunchDims) :
    Param → Except RunError LaunchArgument
  | .tensor v _ _ _ =>
    match m.tensor? v with
    | some t => .ok (.tensor t)
    | none => .error (.execution (.noBuffer v))
  | .scalar v t =>
    match args.lookup v with
    | some (.scalar c) => .ok (.scalar v t (c.cast t))
    | _ => .error (.unevaluable (.parameter v))
  | .workBuffer t =>
    let values := (k.summary.gridReduction.map (·.values)).getD 1
    .ok (.workBuffer t (Id.run (wordProduct [dims.blocks, dims.threadsPerBlock, values])))
  | .syncFlags => .ok (.syncFlags dims.blocks)

/-- The arguments that the outputs overwrite. -/
def overwritten (f : Fusion) (outputs : List HostTensor) : List (Nat × HostTensor) :=
  f.aliases.filterMap fun (out, input) => do
    let position ← f.inputs.idxOf? input
    let index ← f.outputs.idxOf? out
    return (position, ← outputs[index]?)

/-- Runs a compiled fusion; tensors may be given for its outputs. -/
def run (c : CompiledFusion) (args : List Argument) (launch : LaunchOverrides)
    (outputs : Option (List HostTensor)) : Except RunError Execution := do
  let f := c.fusion
  let k := c.kernel
  Binding.checkInputs f args
  let bound : BoundArguments := f.inputs.zip args
  let env := bound.env f
  let given ← match outputs with
    | some outputs => Binding.checkOutputs f k env outputs
    | none => pure []
  let memory ← k.tensorParams.foldlM (Memory.bindParam f env given) (Memory.ofArguments bound)
  k.summary.vectorized.forM memory.checkAccess
  let dims ← Binding.launchDims k env launch
  let params ← k.params.mapM (launchArgument k bound memory dims)
  let memory ←
    if 0 < dims.threads then do
      let (outcome, buffers) := c.module.kernel.execute .double dims params memory.buffers
      outcome
      pure { memory with buffers }
    else pure memory
  let outputs ← f.outputs.mapM memory.output
  return ⟨outputs, overwritten f outputs⟩

end CompiledFusion
end FusionCompiler
