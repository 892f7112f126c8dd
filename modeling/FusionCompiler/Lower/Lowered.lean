import FusionCompiler.Lower.Barrier
import FusionCompiler.Lower.Emit
import FusionCompiler.Lower.SharedMemory
import FusionCompiler.Lower.Validate

/-!
# Lowering a fusion

A scheduled fusion becomes one kernel: loops are grouped, the schedule is
checked, statements are emitted, shared memory is laid out, barriers are
inserted, and what a launcher needs to know is summed up.
-/

namespace FusionCompiler

open Kernel

/-- A fusion lowered to a kernel.  The plan holds the fusion with all memory decided. -/
structure Lowered where
  plan : LoopPlan
  validity : ThreadValidity
  kernel : Kernel
deriving Inhabited

namespace Lowered

/-! ## Summary -/

/-- The type in which a cooperating operation works, with the number of values per element. -/
def workType? : Op → Option (DataType × Nat)
  | .reduce _ out _ _ _ | .broadcast out _ _ => some (out.dtype.accumulator, 1)
  | .welford out _ _ => some (out.avg.dtype.accumulator, 3)
  | _ => none

/-- Bytes of one element in the workspace: a triple holds two values and a count. -/
def workBytes (t : DataType) (values : Nat) : Nat :=
  if values = 3 then 2 * t.bytes + DataType.int64.bytes else t.bytes

/-- A summary under construction, with the type of the grid's work buffer. -/
structure Draft where
  summary : Summary
  gridType : Option DataType := none

/-- Takes in the cooperation of an operation. -/
def Draft.cooperate (d : Draft) (isBroadcast : Bool) (t : DataType) (values : Nat) (scope : Scope)
    (types : ParallelSet) : Except LowerError Draft :=
  let bytes := Max.max d.summary.workspaceBytes (workBytes t values)
  let s := { d.summary with workspaceBytes := bytes }
  match scope, isBroadcast with
  | .block, true => .ok { d with summary := { s with blockBroadcast := true } }
  | .block, false => .ok { d with summary := { s with blockReduction := true } }
  | .grid, isBroadcast =>
    if d.gridType.any (· != t) then .error (.unsupported .mixedGridTypes)
    else
      let s := if isBroadcast then { s with gridBroadcast := true }
        else { s with gridReduction := some ⟨t, values, types⟩ }
      .ok ⟨s, some t⟩

/-- Takes in an operation. -/
def Draft.add (d : Draft) (o : Op) : Except LowerError Draft :=
  match workType? o, o.collective? with
  | some (t, values), some how =>
    let d := if values = 3 then { d with summary := { d.summary with welford := true } } else d
    let isBroadcast := match o with
      | .broadcast _ _ _ => true
      | _ => false
    match how with
    | .serial => .ok d
    | .across scope types _ _ => d.cooperate isBroadcast t values scope types
  | _, _ => .ok d

/-- Sums up a body. -/
def summarize (body : List Stmt) (start : Summary) : Except LowerError Draft :=
  (Stmt.ops body).foldlM Draft.add { summary := start }

/-! ## Parameters -/

/-- A tensor parameter. -/
def tensorParam (p : LoopPlan) (role : Role) (v : ValueId) : Param :=
  .tensor v (p.fusion.dtype v) role (p.globalSizes v)

/-- The inputs in order, then the outputs that are no inputs, then the global intermediates,
then the buffers of a grid collective. -/
def params (p : LoopPlan) (gridType : Option DataType) : List Param :=
  let f := p.fusion
  let inputs := f.inputs.map fun v =>
    if f.isTensor v then tensorParam p .input v else .scalar v (f.dtype v)
  let outputs := (f.outputs.filter fun v => !f.isInput v).foldl Fusion.addNew []
  let intermediates := f.allTensors.filter fun v =>
    !f.isInput v && !f.isOutput v && f.memoryOf v == .global
  let work := match gridType with
    | some t => [.workBuffer t, .syncFlags]
    | none => []
  inputs ++ outputs.map (tensorParam p .output) ++ intermediates.map (tensorParam p .intermediate)
    ++ work

/-! ## The pipeline -/

/-- Every output must be a tensor, and there must be one. -/
def checkOutputs (f : Fusion) : Except LowerError Unit :=
  if f.outputs.isEmpty then .error .noOutputs
  else f.outputs.forM fun v =>
    if f.isTensor v then .ok () else .error (.unsupported (.scalarOutput v))

/-- The loop plan of a fusion, with all memory decided and everything checked but vectorized
accesses. -/
def planOf (f : Fusion) : Except LowerError LoopPlan := do
  checkOutputs f
  let p := LoopPlan.promoteDynamicRegisters ⟨f, ← LoopGroups.build f⟩
  p.checkLeafBindings
  p.checkParallelization
  p.checkGridReductions
  return p

/-- Lowers a scheduled fusion. -/
def make (f : Fusion) : Except LowerError Lowered := do
  let plan ← planOf f
  let vectorized ← plan.checkVectorization
  let launch := plan.launchExtents
  let validity := ThreadValidity.build plan
  let trees ← LoopTree.build plan.fusion plan.groups plan.fusion.tensorExprs
  let body ← (Emitter.make plan launch validity).emitBody trees
  let layout := planSharedMemory plan.fusion.dtype body
  let body := insertBarriers layout.storage (layout.markReuse body)
  let draft ← summarize body
    { launch, vectorized, shared := layout.buffers, sharedBytes := layout.bytes }
  return ⟨plan, validity, { params := params plan draft.gridType, body, summary := draft.summary }⟩

end Lowered
end FusionCompiler
