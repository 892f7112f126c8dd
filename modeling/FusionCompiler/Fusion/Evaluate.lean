import FusionCompiler.Fusion.Error

/-!
# Evaluating scalars

`Fusion.evaluate` computes a scalar under bindings of its leaves and remembers
every result it finds.  `Fusion.sameScalar` compares scalars by structure.

Expressions are acyclic, so a chain of definitions is no longer than the number
of values, which bounds the recursion.
-/

namespace FusionCompiler

/-- Scalars whose value is known, the latest first. -/
structure Bindings where
  known : List (ValueId × Constant) := []
deriving Inhabited

namespace Bindings

/-- The known value of a scalar. -/
def get? (b : Bindings) (v : ValueId) : Option Constant :=
  b.known.lookup v

/-- Makes the value of a scalar known. -/
def bind (b : Bindings) (v : ValueId) (c : Constant) : Bindings :=
  ⟨(v, c) :: b.known⟩

end Bindings

namespace Fusion

/-- Evaluates a scalar, at most `fuel` definitions deep.  Only the chosen branch of a selection
is looked at. -/
def evaluateWith (f : Fusion) : Nat → ValueId → StateM Bindings (Option Constant)
  | 0, _ => pure none
  | fuel + 1, v => do
    match (← get).get? v with
    | some c => return some c
    | none =>
      let x := f.value v
      let result ← match x.kind with
        | .scalar (.const c) => pure (some c)
        | .tensor _ => pure none
        | .scalar _ =>
          match f.definingExpr? v with
          | none => pure none
          | some e =>
            let integral := !x.dtype.isFloat
            match e.kind with
            | .unary op =>
              let a ← evaluateWith f fuel (e.input 0)
              pure (a.map fun a => Constant.ofFloat (op.eval a.toFloat) x.dtype)
            | .binary op =>
              match ← evaluateWith f fuel (e.input 0) with
              | none => pure none
              | some a =>
                match ← evaluateWith f fuel (e.input 1) with
                | none => pure none
                | some b =>
                  match a, b, integral with
                  | .int a, .int b, true => pure (op.evalInt a b)
                  | a, b, integral =>
                    pure (some (Constant.ofFloat (op.eval a.toFloat b.toFloat integral) x.dtype))
            | .select =>
              match ← evaluateWith f fuel (e.input 0) with
              | none => pure none
              | some c => evaluateWith f fuel (e.input (if c.toBool then 1 else 2))
            | _ => pure none
      match result with
      | some c => modify (·.bind v c)
      | none => pure ()
      return result

/-- Evaluates a scalar and remembers what was found. -/
def evaluate (f : Fusion) (v : ValueId) : StateM Bindings (Option Constant) :=
  f.evaluateWith (f.values.size + 1) v

/-- Evaluates a scalar to an integer. -/
def evaluateInt (f : Fusion) (v : ValueId) : StateM Bindings (Option Int) := do
  return (← f.evaluate v).map (·.toInt)

/-- The integer behind a scalar that only depends on literals. -/
def constInt? (f : Fusion) (v : ValueId) : Option Int :=
  ((f.evaluateInt v).run {}).1

/-- Whether two scalars are provably equal, at most `fuel` definitions deep: the same handle, equal
integers, or the same expression over equal operands. -/
def sameScalarWith (f : Fusion) : Nat → ValueId → ValueId → Bool
  | 0, _, _ => false
  | fuel + 1, a, b =>
    if a = b then true
    else match f.constInt? a, f.constInt? b with
      | some x, some y => x == y
      | _, _ =>
        match f.definingExpr? a, f.definingExpr? b with
        | some x, some y =>
          x.kind == y.kind && x.inputs.length == y.inputs.length
            && (x.inputs.zip y.inputs).all fun (u, v) => sameScalarWith f fuel u v
        | _, _ => false

/-- Whether two scalars are provably equal. -/
def sameScalar (f : Fusion) (a b : ValueId) : Bool :=
  f.sameScalarWith (f.values.size + 1) a b

/-- Binds one axis of a tensor to a size.  A broadcast has size one; a known extent must agree. -/
def bindAxisSize (f : Fusion) (tensor : ValueId) (dim : Nat) (a : AxisId) (size : Nat) :
    ExceptT FusionError (StateM Bindings) Unit := do
  let x := f.axis a
  if x.isBroadcast then
    if size = 1 then return ()
    else throw (.extentMismatch tensor dim 1 size)
  else
    match ← f.evaluate x.extent with
    | some expected =>
      if expected.toInt = size then return ()
      else throw (.extentMismatch tensor dim expected.toInt size)
    | none => modify (·.bind x.extent (.int size))

/-- Binds the axes of a tensor to sizes, first to last. -/
def bindAxisSizes (f : Fusion) (tensor : ValueId) :
    Nat → List (AxisId × Nat) → ExceptT FusionError (StateM Bindings) Unit
  | _, [] => pure ()
  | dim, (a, size) :: rest => do
    f.bindAxisSize tensor dim a size
    bindAxisSizes f tensor (dim + 1) rest

/-- Binds the shape of a tensor to sizes; constant and already bound extents must agree. -/
def bindTensorSizes (f : Fusion) (tensor : ValueId) (sizes : List Nat) :
    ExceptT FusionError (StateM Bindings) Unit := do
  let shape := f.shape tensor
  if shape.length = sizes.length then f.bindAxisSizes tensor 0 (shape.zip sizes)
  else throw (.sizeRankMismatch tensor shape.length sizes.length)

end Fusion
end FusionCompiler
