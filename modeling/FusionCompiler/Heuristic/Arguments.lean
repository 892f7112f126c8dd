import FusionCompiler.Fusion.Evaluate
import FusionCompiler.Schedule.Error

/-!
# Shapes of run-time arguments

What an automatic schedule may look at: types, sizes and strides of the tensor
arguments and the values of the scalar ones.
-/

namespace FusionCompiler

/-- The shape of one argument. -/
inductive ArgumentShape where
  | tensor (dtype : DataType) (sizes strides : List Nat)
  | scalar (value : Constant)
deriving Repr, Inhabited

/-- Row-major strides; an empty dimension counts as one. -/
def rowMajorStrides : List Nat → List Nat
  | [] => []
  | [_] => [1]
  | _ :: n :: rest =>
    match rowMajorStrides (n :: rest) with
    | [] => []
    | s :: strides => s * Max.max n 1 :: s :: strides

/-- The shape of a contiguous tensor. -/
def ArgumentShape.contiguous (t : DataType) (sizes : List Nat) : ArgumentShape :=
  .tensor t sizes (rowMajorStrides sizes)

/-- The arguments of one invocation of a fusion, each with the input it is bound to. -/
structure Arguments where
  bound : List (ValueId × ArgumentShape)
deriving Repr, Inhabited

namespace Arguments

/-- Binds sizes and scalars, first to last. -/
def bindAll (f : Fusion) :
    List (ValueId × ArgumentShape) → ExceptT FusionError (StateM Bindings) Unit
  | [] => pure ()
  | (v, .tensor _ sizes _) :: rest => do
    f.bindTensorSizes v sizes
    bindAll f rest
  | (v, .scalar c) :: rest => do
    modify (·.bind v c)
    bindAll f rest

/-- The scalars that the arguments make known.  The fusion may be a scheduled copy of the one
the arguments were given for. -/
def bindings (args : Arguments) (f : Fusion) : Except ScheduleError Bindings :=
  match (bindAll f args.bound).run {} with
  | (.ok (), b) => .ok b
  | (.error e, _) => .error (.fusion e)

/-- Pairs arguments with the inputs of a fusion; sizes must not contradict each other. -/
def ofShapes (f : Fusion) (shapes : List ArgumentShape) : Except ScheduleError Arguments := do
  if f.inputs.length ≠ shapes.length then
    throw (.noScheduler (.argumentCount f.inputs.length shapes.length))
  let args : Arguments := ⟨f.inputs.zip shapes⟩
  discard (args.bindings f)
  return args

/-- The argument bound to an input. -/
def get? (args : Arguments) (v : ValueId) : Option ArgumentShape :=
  (args.bound.find? (·.1 == v)).map (·.2)

/-- The sizes of a tensor argument. -/
def sizes? (args : Arguments) (v : ValueId) : Option (List Nat) :=
  match args.get? v with
  | some (.tensor _ sizes _) => some sizes
  | _ => none

/-- The strides of a tensor argument. -/
def strides? (args : Arguments) (v : ValueId) : Option (List Nat) :=
  match args.get? v with
  | some (.tensor _ _ strides) => some strides
  | _ => none

/-- The product of the extents of axes, as far as they follow from the arguments. -/
def numel? (args : Arguments) (f : Fusion) (axes : List AxisId) : Option Int :=
  match args.bindings f with
  | .error _ => none
  | .ok b =>
    let (extents, _) := (axes.mapM fun a => f.evaluateInt (f.extent a)).run b
    extents.foldl (fun n e => n.bind fun n => e.map (n * ·)) (some 1)

/-- The extents of axes, if all of them follow from the arguments. -/
def extents? (args : Arguments) (f : Fusion) (axes : List AxisId) : Option (List Int) :=
  match args.bindings f with
  | .error _ => none
  | .ok b =>
    let (extents, _) := (axes.mapM fun a => f.evaluateInt (f.extent a)).run b
    extents.mapM id

/-- The better of two dimensions with their strides: the smaller stride, then the later
dimension. -/
def faster (a b : Nat × Nat) : Nat × Nat :=
  if a.2 < b.2 || (a.2 == b.2 && b.1 < a.1) then a else b

/-- The dimension of a tensor argument with the smallest stride, dimensions of size one aside. -/
def fastestDim? (args : Arguments) (v : ValueId) : Option Nat :=
  match args.sizes? v, args.strides? v with
  | some sizes, some strides =>
    let dims := (List.range sizes.length).filter fun d => 1 < sizes.getD d 0
    match dims.map fun d => (d, strides.getD d 0) with
    | [] => none
    | d :: rest => some (rest.foldl faster d).1
  | _, _ => none

end Arguments
end FusionCompiler
