import FusionCompiler.Heuristic.Reduction
import FusionCompiler.Heuristic.Transpose

/-!
# Choosing an automatic schedule

A fusion without reductions gets the transpose schedule if that one applies, else
the point-wise one; a fusion with reductions gets the reduction schedule.
-/

namespace FusionCompiler
namespace Heuristic

/-- A chosen schedule with its parameters. -/
inductive Params where
  | pointwise (p : PointwiseParams)
  | reduction (p : ReductionParams)
  | transpose (p : TransposeParams)
deriving DecidableEq, Repr, Inhabited

/-- The name of a chosen schedule. -/
def Params.name : Params → String
  | .pointwise _ => "Pointwise"
  | .reduction p => if p.persistent then "Persistent" else "Reduction"
  | .transpose _ => "Transpose"

/-- Fails for a fusion without outputs or with inlined tensors. -/
def ensureSchedulable (f : Fusion) : Except ScheduleError Unit :=
  if f.outputs.isEmpty then .error (.noScheduler .noOutputs)
  else match f.allTensors.find? fun v => 0 < (f.view v).fixedPosition with
    | some v => .error (.noScheduler (.alreadyScheduled v))
    | none => .ok ()

/-- Chooses a schedule and its parameters, or says why none applies. -/
def propose (f : Fusion) (args : Arguments) : Except ScheduleError Params := do
  ensureSchedulable f
  match f.reductionTensors with
  | [] =>
    match Transpose.propose? f args with
    | some p => return .transpose p
    | none => return .pointwise (← Pointwise.propose f args)
  | _ :: _ => return .reduction (← Reduction.propose f args)

/-- Whether some schedule applies. -/
def canSchedule (f : Fusion) (args : Arguments) : Bool :=
  match propose f args with
  | .ok _ => true
  | .error _ => false

/-- Schedules an unscheduled fusion. -/
def schedule : Params → Schedule Unit
  | .pointwise p => Pointwise.schedule p
  | .reduction p => Reduction.schedule p
  | .transpose p => Transpose.schedule p

end Heuristic
end FusionCompiler
