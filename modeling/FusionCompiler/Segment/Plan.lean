import FusionCompiler.Heuristic.Choice
import FusionCompiler.Segment.Cost
import FusionCompiler.Text.Layout

/-!
# Segmenting a fusion

When no automatic schedule accepts a fusion, its tensor expressions are divided
into groups that become one kernel each.  Groups start as single expressions and
are merged greedily, best saving first, in three passes: a group with one of its
consumers, groups that share a consumer, and finally any pair.  A merge is taken
only if some schedule accepts the merged segment, no other group lies between
the two, and something is saved.
-/

namespace FusionCompiler
namespace Segment

/-- The expressions of one kernel. -/
structure Group where
  /-- Producers first. -/
  exprs : List ExprId
  io : Boundary
  params : Heuristic.Params
deriving Inhabited

/-- A tensor that one group writes and another reads. -/
structure Edge where
  source : Nat
  target : Nat
  value : ValueId
deriving DecidableEq, Repr

/-- A fusion divided into groups, listed in a valid order of execution. -/
structure Plan where
  complete : Fusion
  groups : List Group
  edges : List Edge
deriving Inhabited

/-- What is known about the fusion while it is divided. -/
structure Context where
  fusion : Fusion
  args : Arguments
  /-- The tensor expressions, producers first. -/
  order : List ExprId
  sizes : Sizes
  cost : CostModel

namespace Context

/-- The size of an extent, if it is known and not negative. -/
def knownSize (f : Fusion) (a : AxisId) : StateM Bindings (Option Nat) := do
  match ← f.evaluateInt (f.extent a) with
  | some (.ofNat n) => return some n
  | _ => return none

/-- Adds the sizes of a tensor, if they follow from the arguments. -/
def addSizes (f : Fusion) (args : Arguments) (sizes : Sizes) (v : ValueId) :
    StateM Bindings Sizes := do
  match args.sizes? v with
  | some known => return (v, known) :: sizes
  | none =>
    let extents ← (f.shape v).mapM (knownSize f)
    return match extents.mapM id with
      | some known => (v, known) :: sizes
      | none => sizes

/-- Gathers sizes and costs. -/
def make (f : Fusion) (args : Arguments) : Except ScheduleError Context := do
  let b ← args.bindings f
  let (sizes, _) := (f.allTensors.foldlM (addSizes f args) []).run b
  return ⟨f, args, f.tensorExprs, sizes, .ofSizes f sizes⟩

/-- The boundary of a set of expressions. -/
def io (c : Context) (exprs : List ExprId) : Boundary :=
  boundary c.fusion c.order exprs

/-- The arguments of a segment: those of the fusion, and intermediate tensors as contiguous ones. -/
def shapes (c : Context) (io : Boundary) : Except ScheduleError (List ArgumentShape) :=
  io.inputs.mapM fun v => match c.args.get? v, c.sizes.lookup v with
    | some arg, _ => .ok arg
    | none, some sizes => .ok (.contiguous (c.fusion.dtype v) sizes)
    | none, none => .error (.noScheduler (.unknownSize v))

/-- Chooses a schedule for a segment. -/
def propose (c : Context) (exprs : List ExprId) (io : Boundary) :
    Except ScheduleError Heuristic.Params := do
  let segment ← (extract c.fusion exprs io).mapError .fusion
  let args ← Arguments.ofShapes segment (← c.shapes io)
  Heuristic.propose segment args

/-- One group per tensor expression. -/
def seed (c : Context) : Except ScheduleError (List Group) :=
  c.fusion.tensorExprs.mapM fun e => do
    let io := c.io [e]
    return ⟨[e], io, ← c.propose [e] io⟩

/-! ### The graph of groups -/

/-- The group of an expression. -/
def groupOf? (groups : List Group) (e : ExprId) : Option Nat :=
  groups.findIdx? (·.exprs.contains e)

/-- For each group, the other groups that read what it computes. -/
def consumerTable (c : Context) (groups : List Group) : Array (List Nat) :=
  (groups.zipIdx.map fun (g, i) =>
    let read := (g.exprs.flatMap fun e => (c.fusion.expr e).outputs).flatMap c.fusion.uses
    ((read.filterMap (groupOf? groups)).filter (· != i)).foldl Fusion.addNew []).toArray

/-- Whether `goal` is reached from a work list of groups. -/
def reaches (table : Array (List Nat)) (goal : Nat) : Nat → List Nat → List Nat → Bool
  | 0, _, _ => false
  | _, _, [] => false
  | fuel + 1, seen, g :: rest =>
    if g = goal then true
    else if seen.contains g then reaches table goal fuel seen rest
    else reaches table goal fuel (g :: seen) (table.getD g [] ++ rest)

/-- Whether a path from one group to another passes through a third one. -/
def passesThird (table : Array (List Nat)) (source goal : Nat) : Bool :=
  let fuel := table.foldl (fun n l => n + l.length + 1) 1
  reaches table goal fuel [] ((table.getD source []).filter (· != goal))

/-- Whether merging two groups would create a cycle. -/
def createsCycle (table : Array (List Nat)) (a b : Nat) : Bool :=
  passesThird table a b || passesThird table b a

/-! ### Merging -/

/-- Which pairs of groups a pass looks at. -/
inductive MergeKind where
  /-- A group and one of its consumers. -/
  | vertical
  /-- Groups that share a consumer. -/
  | horizontal
  /-- Any pair. -/
  | final
deriving DecidableEq, Repr

/-- Whether a pass looks at a pair. -/
def accepts (table : Array (List Nat)) (kind : MergeKind) (a b : Nat) : Bool :=
  let usersA := table.getD a []
  let usersB := table.getD b []
  let connected := usersA.contains b || usersB.contains a
  match kind with
  | .vertical => connected
  | .horizontal => !connected && usersA.any usersB.contains
  | .final => true

/-- A merge that may be taken. -/
structure Candidate where
  saving : Int
  first : Nat
  second : Nat
  exprs : List ExprId
  io : Boundary

/-- Every pair of positions below `n`, in order. -/
def pairs (n : Nat) : List (Nat × Nat) :=
  (List.range n).flatMap fun a => ((List.range n).filter (a < ·)).map (a, ·)

/-- The candidate for a pair of groups. -/
def candidate (c : Context) (groups : List Group) (a b : Nat) : Candidate :=
  let x := groups.getD a default
  let y := groups.getD b default
  let exprs := (x.exprs ++ y.exprs).mergeSort fun d e => c.order.idxOf d ≤ c.order.idxOf e
  let io := c.io exprs
  ⟨c.cost.mergeSaving x.io y.io io, a, b, exprs, io⟩

/-- The candidates of a pass that create no cycle and save something, best first. -/
def candidates (c : Context) (kind : MergeKind) (groups : List Group) : List Candidate :=
  let table := c.consumerTable groups
  let legal := (pairs groups.length).filter fun (a, b) =>
    accepts table kind a b && !createsCycle table a b
  let scored := (legal.map fun (a, b) => c.candidate groups a b).filter (0 < ·.saving)
  scored.mergeSort fun x y => y.saving ≤ x.saving

/-- The groups after a merge: the merged group takes the place of the first one. -/
def applyMerge (groups : List Group) (m : Candidate) (params : Heuristic.Params) : List Group :=
  (groups.set m.first ⟨m.exprs, m.io, params⟩).eraseIdx m.second

/-- The best candidate that some schedule accepts. -/
def bestMerge? (c : Context) (groups : List Group) (kind : MergeKind) : Option (List Group) :=
  (c.candidates kind groups).findSome? fun m => match c.propose m.exprs m.io with
    | .ok params => some (applyMerge groups m params)
    | .error _ => none

/-- Merges the best pair of a kind until none is left; each merge makes one group less. -/
def mergePass (c : Context) (kind : MergeKind) : Nat → List Group → List Group
  | 0, groups => groups
  | fuel + 1, groups =>
    match c.bestMerge? groups kind with
    | some merged => mergePass c kind fuel merged
    | none => groups

/-! ### Putting groups in order -/

/-- For each group, the other groups it reads from. -/
def producerTable (c : Context) (groups : List Group) : Array (List Nat) :=
  let sources := fun (g : Group) =>
    g.io.inputs.filterMap fun v => (c.fusion.definition v).bind (groupOf? groups)
  (groups.zipIdx.map fun (g, i) => (sources g).filter (· != i)).toArray

/-- The earlier of two groups, by first expression. -/
def earlier (c : Context) (groups : List Group) (a b : Nat) : Nat :=
  let start := fun g => c.order.idxOf ((groups.getD g default).exprs.headD default)
  if start b < start a then b else a

/-- Takes one group after the other whose producers have been taken; of several the one that
holds the earliest expression. -/
def arrange (c : Context) (groups : List Group) (producers : Array (List Nat)) :
    Nat → List Nat → List Nat → List Nat
  | 0, taken, _ => taken
  | fuel + 1, taken, pending =>
    match pending.filter fun g => (producers.getD g []).all taken.contains with
    | [] => taken
    | g :: rest =>
      let next := rest.foldl (c.earlier groups) g
      arrange c groups producers fuel (taken ++ [next]) (pending.filter (· != next))

/-- The edges between groups that are in order. -/
def edges (c : Context) (groups : List Group) : List Edge :=
  groups.zipIdx.flatMap fun (g, target) => g.io.inputs.filterMap fun value => do
    let source ← groupOf? groups (← c.fusion.definition value)
    if source = target then none else some ⟨source, target, value⟩

/-- The plan of groups in any order. -/
def finish (c : Context) (groups : List Group) : Plan :=
  let n := groups.length
  let sorted := c.arrange groups (c.producerTable groups) n [] (List.range n)
  let groups := sorted.map fun g => groups.getD g default
  ⟨c.fusion, groups, c.edges groups⟩

end Context

namespace Plan

/-- Divides a fusion for given arguments.  A fusion that some schedule accepts is one group. -/
def make (f : Fusion) (args : Arguments) : Except ScheduleError Plan := do
  let c ← Context.make f args
  match Heuristic.propose f args with
  | .ok params =>
    let exprs := f.tensorExprs
    return c.finish [⟨exprs, c.io exprs, params⟩]
  | .error _ =>
    let groups ← c.seed
    let passes : List Context.MergeKind := [.vertical, .horizontal, .final]
    return c.finish (passes.foldl (fun groups kind => c.mergePass kind groups.length groups) groups)

/-- Whether one kernel computes the fusion. -/
def isSingle (p : Plan) : Bool :=
  p.groups.length == 1

/-- The fusion of one group, over the handles of the complete fusion. -/
def segmentFusion (p : Plan) (index : Nat) : Except ScheduleError Fusion :=
  let g := p.groups.getD index default
  (extract p.complete g.exprs g.io).mapError .fusion

/-- The text of a plan. -/
def text (p : Plan) : String :=
  let values := fun (l : List ValueId) => Text.commaSep (l.map (·.text))
  let group := fun (g : Group) (i : Nat) =>
    "g" ++ Numeric.natText i ++ " " ++ g.params.name ++ ": \x7b"
      ++ Text.commaSep (g.exprs.map (·.text)) ++ "\x7d (" ++ values g.io.inputs ++ ") -> ("
      ++ values g.io.outputs ++ ")\n"
  let edge := fun (e : Edge) =>
    "g" ++ Numeric.natText e.source ++ " -> g" ++ Numeric.natText e.target ++ ": " ++ e.value.text
      ++ "\n"
  Text.concat (p.groups.zipIdx.map fun (g, i) => group g i) ++ Text.concat (p.edges.map edge)

end Plan
end Segment
end FusionCompiler
