import FusionCompiler.Host.Executor
import FusionCompiler.Segment.Reuse

/-!
# Running a fusion of any shape

An unscheduled fusion is segmented for the arguments at hand; every segment is
scheduled and compiled, and a run hands the tensors from segment to segment.
-/

namespace FusionCompiler

/-- What a schedule may know of an argument. -/
def Argument.shape : Argument → ArgumentShape
  | .tensor t => .tensor t.dtype t.sizes (t.strides.map Int.toNat)
  | .scalar c => .scalar c

/-- A fusion compiled segment by segment. -/
structure SegmentedExecutor where
  plan : Segment.Plan
  /-- One compiled fusion for each group. -/
  segments : List CompiledFusion
deriving Inhabited

namespace SegmentedExecutor

/-- Whether a segment may write over its inputs. -/
def mayReuse (s : Settings) : Heuristic.Params → Bool
  | .pointwise _ => s.segmentAliasing
  | _ => false

/-- The scheduled fusion of a group. -/
def scheduleGroup (p : Segment.Plan) (args : Arguments) (s : Settings) (g : Segment.Group)
    (index : Nat) : Except RunError Fusion := do
  let f ← (p.segmentFusion index).mapError RunError.schedule
  let f ← ((Heuristic.schedule g.params).applyTo f).mapError RunError.schedule
  let pairs := if mayReuse s g.params then p.reusableBuffers args g index else []
  let reuse : Build Unit := pairs.forM fun (output, input) => Build.addAlias output input
  (reuse.applyTo f).mapError RunError.fusion

/-- Divides a fusion; fails when several segments are needed and segmenting is disabled. -/
def divide (f : Fusion) (args : Arguments) (s : Settings) : Except RunError Segment.Plan := do
  let p ← (Segment.Plan.make f args).mapError RunError.schedule
  if !p.isSingle && s.disableSegmentation then
    match Heuristic.propose f args with
    | .error e => throw (.segmentationDisabled e)
    | .ok _ => throw (.execution .segmentedSingle)
  return p

/-- Compiles a fusion for some arguments. -/
def compile (f : Fusion) (args : List Argument) (s : Settings) : Compile SegmentedExecutor := do
  let shapes ← (Arguments.ofShapes f (args.map (·.shape))).mapError RunError.schedule
  let plan ← divide f shapes s
  let segments ← plan.groups.zipIdx.mapM fun (g, index) => do
    CompiledFusion.compile (← scheduleGroup plan shapes s g index)
  return ⟨plan, segments⟩

/-- Whether the fusion needs several kernels. -/
def isSegmented (e : SegmentedExecutor) : Bool :=
  !e.plan.isSingle

/-- Runs one segment. -/
def runSegment (e : SegmentedExecutor) (launch : LaunchOverrides) (index : Nat)
    (args : List Argument) : Except RunError (List Argument) :=
  match e.segments[index]? with
  | some c => return (← c.run args launch none).outputs.map .tensor
  | none => .ok []

/-- Runs all segments; gives the outputs of the fusion. -/
def run (e : SegmentedExecutor) (args : List Argument) (launch : LaunchOverrides) :
    Except RunError (List HostTensor) := do
  let values ← e.plan.run (fun v => .execution (.segmentInputUnset v)) (e.runSegment launch) args
  e.plan.complete.outputs.mapM fun v =>
    match (values.lookup v).bind (·.tensor?) with
    | some t => .ok t
    | none => .error (.execution (.outputNotProduced v))

end SegmentedExecutor
end FusionCompiler
