import FusionCompiler.Segment.Plan

/-!
# Handing values from group to group

The groups of a plan run in order.  Each takes its inputs from the values known
so far and adds its outputs; an intermediate value is dropped behind the last
group that reads it.

How a group computes its outputs is a parameter, so the same definition runs
kernels and any other meaning of the expressions.
-/

namespace FusionCompiler
namespace Segment

/-- Known values, the latest first. -/
abbrev Values (α : Type) := List (ValueId × α)

namespace Plan

variable {α ε : Type}

/-- The last group that reads a value. -/
def lastReader? (p : Plan) (v : ValueId) : Option Nat :=
  ((p.groups.zipIdx.filter fun (g, _) => g.io.inputs.contains v).getLast?).map (·.2)

/-- Whether a value is still needed when a group has run. -/
def isNeededAfter (p : Plan) (index : Nat) (v : ValueId) : Bool :=
  p.complete.isInput v || p.complete.isOutput v
    || match p.lastReader? v with
      | some last => index < last
      | none => true

/-- The values of a list of names; `unset` reports the first unknown one. -/
def gather (unset : ValueId → ε) (values : Values α) (names : List ValueId) :
    Except ε (List α) :=
  names.mapM fun v => match values.lookup v with
    | some x => .ok x
    | none => .error (unset v)

/-- Runs groups one after the other. -/
def runGroups (p : Plan) (unset : ValueId → ε) (compute : Nat → List α → Except ε (List α)) :
    List (Group × Nat) → Values α → Except ε (Values α)
  | [], values => .ok values
  | (g, index) :: rest, values => do
    let results ← compute index (← gather unset values g.io.inputs)
    let known := g.io.outputs.zip results ++ values
    runGroups p unset compute rest (known.filter fun (v, _) => p.isNeededAfter index v)

/-- Runs all groups, starting from the arguments; gives the values that are known in the end. -/
def run (p : Plan) (unset : ValueId → ε) (compute : Nat → List α → Except ε (List α))
    (args : List α) : Except ε (Values α) :=
  p.runGroups unset compute p.groups.zipIdx (p.complete.inputs.zip args)

end Plan
end Segment
end FusionCompiler
