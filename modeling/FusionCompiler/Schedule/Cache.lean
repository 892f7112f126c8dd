import FusionCompiler.Schedule.Leaf

/-!
# Copies and memory placement

Insertion of copies before and after a tensor, and the choice of the memory a
tensor lives in.
-/

namespace FusionCompiler
namespace Schedule

/-- Inserts a copy between a tensor and all of its uses; gives the copy. -/
def cacheAfter (tensor : ValueId) : Schedule ValueId := do
  let view ← build (Build.ensureTensor tensor)
  EditE.ensure (view.fixedPosition == 0) (.invalidCache tensor .hasPosition)
  let uses := (← get).uses tensor
  let cache ← build (Build.copy (.value tensor))
  uses.forM fun e => discard (Edit.replaceInput e tensor cache)
  return cache

/-- Unscheduled copies of axes. -/
def freshAxes (axes : List AxisId) : Edit (List AxisId) :=
  axes.mapM fun a => do freshAxis a ((← get).axis a).kind

/-- Lets the computation of a tensor write into a new producer that the tensor then copies;
gives the producer, which takes over the schedule. -/
def cacheBefore (tensor : ValueId) : Schedule ValueId := do
  let view ← build (Build.ensureTensor tensor)
  let f ← get
  match f.definition tensor with
  | none => throw (.invalidCache tensor .noDefinition)
  | some definition =>
    EditE.ensure (view.fixedPosition == 0) (.invalidCache tensor .hasPosition)
    EditE.ensure (f.siblings tensor).isEmpty (.invalidCache tensor .severalResults)
    let cache ← Edit.newTensor view.domain (f.dtype tensor)
    discard (Edit.replaceResult definition tensor cache)
    let root ← freshAxes ((← get).shape cache)
    modify (·.modifyView tensor fun v => { v with domain := .contiguous root })
    discard (Edit.addExpr (.unary .set) [cache] [tensor])
    return cache

/-- Gives an output with other uses a copy of its own, which becomes the output; gives the copy. -/
def cacheFork (tensor : ValueId) : Schedule ValueId := do
  discard (build (Build.ensureTensor tensor))
  let f ← get
  EditE.ensure (f.isOutput tensor) (.invalidCache tensor .notAnOutput)
  EditE.ensure (!(f.uses tensor).isEmpty) (.invalidCache tensor .noOtherUses)
  let fork ← build (Build.copy (.value tensor))
  modify (·.replaceOutput tensor fork)
  return fork

/-- Chooses the memory of a tensor; inputs and outputs live in global memory. -/
def setMemory (tensor : ValueId) (memory : MemoryType) : Schedule Unit := do
  discard (build (Build.ensureTensor tensor))
  let f ← get
  let boundary := f.isInput tensor || f.isOutput tensor
  EditE.ensure (!boundary || memory == .global) (.invalidMemoryType tensor memory)
  modify fun f => (f.modifyView tensor fun v => { v with memory }).syncSiblings tensor

end Schedule
end FusionCompiler
