import FusionCompiler.DisjointSets
import FusionCompiler.Fusion.Graph
import FusionCompiler.Schedule.Error

/-!
# Correspondence of root axes

`rootPairs` relates the axes of a producer and a consumer across one expression.
`RootMap` closes these pairs over a whole fusion and tells which axes are
provably of equal extent, which is what inlining needs.
-/

namespace FusionCompiler
namespace Fusion

/-- Pairs of a producer's axes with a consumer's root axes, in root order.  Axes that a broadcast
introduces have no producer; without a direct edge there are no pairs. -/
def rootPairs (f : Fusion) (producer consumer : ValueId) : List (AxisId × AxisId) :=
  match f.definingExpr? consumer with
  | none => []
  | some e =>
    if !e.inputs.contains producer then []
    else
      let root := (f.view consumer).domain.root
      let axes := match e.kind with
        | .broadcast flags => ((root.zip flags).filter fun (_, new) => !new).map (·.1)
        | _ => root
      (f.shape producer).zip axes

/-- The same pairs, checked to belong to a producer and its consumer. -/
def rootPairs? (f : Fusion) (producer consumer : ValueId) :
    Except ScheduleError (List (AxisId × AxisId)) :=
  if (f.producers consumer).contains producer then .ok (f.rootPairs producer consumer)
  else .error (.notAProducer producer consumer)

end Fusion

/-- Equivalence of the root axes of a whole fusion.

Axes that are no broadcasts share a class when some expression relates them.  A broadcast axis is
only noted as resolved by the axes it meets, and it stands for a class when all of them agree on
one.  A reduction axis never corresponds to an axis of a tensor computed from the reduction. -/
structure RootMap where
  sets : DisjointSets AxisId
  broadcasts : List AxisId
  /-- Broadcast axes with the other axes they meet. -/
  resolutions : List (AxisId × AxisId)
  /-- Reduction axes with the tensor they are reduced in, latest first. -/
  reductionOwners : List (AxisId × ValueId)
  /-- What is computed from each tensor that owns a reduction axis. -/
  downstream : List (ValueId × List ValueId)
deriving Inhabited

namespace RootMap

/-- The root and logical axes of a tensor. -/
def tensorAxes (f : Fusion) (v : ValueId) : List AxisId :=
  (f.view v).domain.root ++ (f.view v).domain.logical

/-- The root pairs of every expression that computes a tensor. -/
def allPairs (f : Fusion) : List (AxisId × AxisId) :=
  f.tensorExprs.flatMap fun e =>
    let x := f.expr e
    (x.outputs.filter f.isTensor).flatMap fun consumer =>
      (x.inputs.filter f.isTensor).flatMap fun producer => f.rootPairs producer consumer

/-- Takes in one pair: a broadcast that meets another axis is resolved by it, else the two are
joined. -/
def addPair (m : RootMap) (pair : AxisId × AxisId) : RootMap :=
  let (p, c) := pair
  match m.broadcasts.contains p, m.broadcasts.contains c with
  | true, false => { m with resolutions := m.resolutions ++ [(p, c)] }
  | false, true => { m with resolutions := m.resolutions ++ [(c, p)] }
  | _, _ => { m with sets := m.sets.union p c }

/-- Notes the reduction axes of a tensor. -/
def addReductions (f : Fusion) (m : RootMap) (v : ValueId) : RootMap :=
  if !f.isReductionTensor v && (f.view v).domain.rfactor.isNone then m
  else
    match (tensorAxes f v).filter fun a => (f.axis a).isReduction with
    | [] => m
    | reductions =>
      { m with
        reductionOwners := (reductions.map fun a => (a, v)) ++ m.reductionOwners
        downstream := (v, f.downstream v) :: m.downstream }

/-- The correspondence of a fusion's root axes. -/
def build (f : Fusion) : RootMap :=
  let tensors := f.allTensors
  let axes := tensors.flatMap (tensorAxes f)
  let start : RootMap := {
    sets := axes.foldl DisjointSets.insert .empty
    broadcasts := (axes.filter fun a => (f.axis a).isBroadcast).foldl Fusion.addNew []
    resolutions := [], reductionOwners := [], downstream := [] }
  tensors.foldl (addReductions f) ((allPairs f).foldl addPair start)

/-- Whether `a` is reduced in a tensor from which `other` is computed. -/
def crossesReduction (m : RootMap) (a : AxisId) (other : ValueId) : Bool :=
  match m.reductionOwners.find? (·.1 == a) with
  | none => false
  | some (_, owner) =>
    owner != other && match m.downstream.find? (·.1 == owner) with
      | some (_, tensors) => tensors.contains other
      | none => false

/-- The one class to which every broadcast in the class of `a` resolves. -/
def resolvedClass? (m : RootMap) (a : AxisId) : Option AxisId :=
  let met := (m.sets.members a).flatMap fun x => (m.resolutions.filter (·.1 == x)).map (·.2)
  match met.map m.sets.find with
  | [] => none
  | c :: rest => if rest.all (· == c) then some c else none

/-- Whether two root axes are provably of equal extent in a way that permits inlining. -/
def canMap (m : RootMap) (s : ValueId) (a : AxisId) (t : ValueId) (b : AxisId) : Bool :=
  if a = b then true
  else if m.crossesReduction a t || m.crossesReduction b s then false
  else
    match m.broadcasts.contains a, m.broadcasts.contains b with
    | false, false => m.sets.same a b
    | true, false => m.resolvedClass? a == some (m.sets.find b)
    | false, true => m.resolvedClass? b == some (m.sets.find a)
    | true, true =>
      m.sets.same a b || match m.resolvedClass? a with
        | some c => m.resolvedClass? b == some c
        | none => false

/-- The pairs of a direct edge that can be mapped. -/
def mappablePairs (m : RootMap) (f : Fusion) (producer consumer : ValueId) :
    List (AxisId × AxisId) :=
  (f.rootPairs producer consumer).filter fun (p, c) => m.canMap producer p consumer c

end RootMap
end FusionCompiler
