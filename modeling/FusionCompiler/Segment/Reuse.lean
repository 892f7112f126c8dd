import FusionCompiler.Segment.Handover

/-!
# Reusing dead buffers

A group may write an output over an intermediate input that no later group
reads, if the two have the same type and the same sizes.
-/

namespace FusionCompiler
namespace Segment

/-- A list without the element at a position; the last element takes its place. -/
def swapRemove {α : Type} (l : List α) (pos : Nat) : List α :=
  match l.getLast? with
  | none => l
  | some last => if pos + 1 = l.length then l.dropLast else l.dropLast.set pos last

/-- A tensor with its type and sizes. -/
structure Footprint where
  tensor : ValueId
  dtype : DataType
  sizes : List Int
deriving DecidableEq, Repr

/-- Whether two tensors need the same storage. -/
def Footprint.fits (a b : Footprint) : Bool :=
  a.dtype == b.dtype && a.sizes == b.sizes

/-- Gives each output in turn the first dead buffer that fits; pairs of output and input. -/
def assignBuffers : List Footprint → List Footprint → List (ValueId × ValueId)
  | [], _ => []
  | out :: outputs, dead =>
    match dead.findIdx? (·.fits out) with
    | some pos =>
      let input := (dead[pos]?).map (·.tensor)
      (input.toList.map fun i => (out.tensor, i)) ++ assignBuffers outputs (swapRemove dead pos)
    | none => assignBuffers outputs dead

namespace Plan

/-- The footprint of a tensor, if its sizes follow from the arguments. -/
def footprint? (p : Plan) (args : Arguments) (v : ValueId) : Option Footprint :=
  (args.extents? p.complete (p.complete.shape v)).map fun sizes => ⟨v, p.complete.dtype v, sizes⟩

/-- Whether a group is the last one to read an intermediate tensor. -/
def diesIn (p : Plan) (index : Nat) (v : ValueId) : Bool :=
  let f := p.complete
  f.isTensor v && !f.isInput v && !f.isOutput v && p.lastReader? v == some index

/-- The outputs of a group that can be written over one of its inputs, each with the input. -/
def reusableBuffers (p : Plan) (args : Arguments) (g : Group) (index : Nat) :
    List (ValueId × ValueId) :=
  let dead := (g.io.inputs.filter (p.diesIn index)).filterMap (p.footprint? args)
  assignBuffers (g.io.outputs.filterMap (p.footprint? args)) dead

end Plan
end Segment
end FusionCompiler
