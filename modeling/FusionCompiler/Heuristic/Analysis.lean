import FusionCompiler.Heuristic.Arguments
import FusionCompiler.Schedule.Cache
import FusionCompiler.Schedule.Inline

/-!
# What automatic schedules look at and do

Analyses of a fusion that several automatic schedules share, and schedule steps
over ranges of leaves.
-/

namespace FusionCompiler
namespace Fusion

/-- The tensors computed by a reduction, producers first. -/
def reductionTensors (f : Fusion) : List ValueId :=
  f.allTensors.filter f.isReductionTensor

/-- One tensor per reduction expression: its first result. -/
def reductionRepresentatives (f : Fusion) : List ValueId :=
  f.reductionTensors.foldl (fun found v =>
    if (f.siblings v).any found.contains then found else found ++ [v]) []

/-- The inputs that are tensors. -/
def inputTensors (f : Fusion) : List ValueId :=
  f.inputs.filter f.isTensor

/-- The positions of a tensor's reduction axes among its logical axes. -/
def reducedPositions (f : Fusion) (v : ValueId) : List Nat :=
  ((f.view v).domain.logical.zipIdx.filter fun (a, _) => (f.axis a).isReduction).map (·.2)

/-- The tensors that must stay live until a reduction of their values is done: they feed a
reduction, and also a branch that later meets its result. -/
def persistentBuffers (f : Fusion) : List ValueId :=
  let tensors := f.allTensors
  let reductions := tensors.filter f.isReductionTensor
  let above : Std.HashMap ValueId (Std.HashSet ValueId) :=
    tensors.foldl (fun m v => m.insert v (f.ancestors v)) {}
  let needs := fun c p => match above[c]? with
    | some s => s.contains p
    | none => false
  tensors.filter fun v =>
    (reductions.filter fun r => r != v && needs r v).any fun r =>
      (f.consumers v).any fun c =>
        !needs r c && tensors.any fun o => needs o c && needs o r

/-- Whether some tensor has a broadcast among its root axes. -/
def hasBroadcastRoot (f : Fusion) : Bool :=
  f.allTensors.any fun v => (f.view v).domain.root.any fun a => (f.axis a).isBroadcast

end Fusion

namespace Schedule

/-- Moves the leaves at the given positions to the front; the others follow in order. -/
def moveToFront (tensor : ValueId) (first : List Nat) : Schedule Unit := do
  let ndims := ((← get).view tensor).ndims
  let order := first ++ (List.range ndims).filter fun i => !first.contains i
  reorder tensor (order.zipIdx.map fun (old, new) => ((old : Int), (new : Int)))

/-- Merges `count` leaves from `start` on into one. -/
def mergeRange (tensor : ValueId) (start : Nat) : Nat → Schedule Unit
  | 0 => pure ()
  | 1 => pure ()
  | n + 2 => do
    merge tensor start (start + 1)
    mergeRange tensor start (n + 1)

/-- Inlines a tensor into each of several others that is computed from it. -/
def inlineInto (producer : ValueId) (consumers : List ValueId) (pos : Int) : Schedule Unit :=
  consumers.forM fun c => do
    if (← get).dependsOn c producer then computeAt producer c pos

/-- Inlines every input into each output computed from it. -/
def inlineInputs (pos : Int) : Schedule Unit := do
  let f ← get
  f.inputTensors.forM fun v => inlineInto v f.outputs pos

end Schedule
end FusionCompiler
