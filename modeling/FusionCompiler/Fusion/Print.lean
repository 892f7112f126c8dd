import FusionCompiler.Fusion.Graph
import FusionCompiler.Text.Layout

/-!
# Printed form of a fusion

Tensors are written with their leaves and positions, scalars as expressions over
their leaves, and a whole fusion as its inputs, outputs and live expressions.
-/

namespace FusionCompiler
namespace Fusion

/-- An operation of a scalar expression over printed operands. -/
def scalarOpText (kind : ExprKind) (operands : List String) : String :=
  let operand := fun i => operands.getD i ""
  match kind with
  | .unary op => op.name ++ "(" ++ operand 0 ++ ")"
  | .binary .ceilDiv => "ceilDiv(" ++ operand 0 ++ ", " ++ operand 1 ++ ")"
  | .binary op =>
    match op.symbol? with
    | some symbol => "( " ++ operand 0 ++ " " ++ symbol ++ " " ++ operand 1 ++ " )"
    | none => op.name ++ "(" ++ operand 0 ++ ", " ++ operand 1 ++ ")"
  | .select => selectName ++ "(" ++ Text.commaSep [operand 0, operand 1, operand 2] ++ ")"
  | other => other.name

/-- The short text of a value, at most `fuel` definitions deep. -/
def valueTextWith (f : Fusion) : Nat → ValueId → String
  | 0, v => "i" ++ Numeric.natText v.index
  | fuel + 1, v =>
    match (f.value v).kind with
    | .tensor _ => "T" ++ Numeric.natText v.index
    | .scalar (.const c) => c.text
    | .scalar _ =>
      match f.definingExpr? v with
      | some e => scalarOpText e.kind (e.inputs.map (valueTextWith f fuel))
      | none => "i" ++ Numeric.natText v.index

/-- The short text of a value: a name for a tensor, the expression for a scalar. -/
def valueText (f : Fusion) (v : ValueId) : String :=
  f.valueTextWith (f.values.size + 1) v

/-- The text of an axis: kind, execution, number and extent. -/
def axisText (f : Fusion) (a : AxisId) : String :=
  let x := f.axis a
  x.kind.symbol ++ x.parallel.text ++ Numeric.natText a.index
    ++ "\x7b" ++ f.valueText x.extent ++ "\x7d"
    ++ if x.isRFactor then "rf" else ""

/-- A position, if it is set. -/
def positionText (label : String) (pos : Nat) : String :=
  if pos = 0 then "" else " " ++ label ++ "( " ++ Numeric.natText pos ++ " )"

/-- The full text of a tensor: memory, leaves and positions. -/
def tensorText (f : Fusion) (v : ValueId) : String :=
  let t := f.view v
  "T" ++ Numeric.natText v.index ++ "_" ++ t.memory.symbol ++ "[ "
    ++ Text.commaSep (t.leaf.map f.axisText) ++ " ]"
    ++ positionText "ca_pos" t.computeAt ++ positionText "produce_pos" t.maxProducer

/-- The full text of a tensor or the short text of a scalar. -/
def describe (f : Fusion) (v : ValueId) : String :=
  if f.isTensor v then f.tensorText v else f.valueText v

/-- The right-hand side of an expression. -/
def rhsText (f : Fusion) (e : Expr) : String :=
  let operand := fun i => f.valueText (e.input i)
  match e.kind with
  | .unary .set => operand 0
  | .unary .cast => "(" ++ (f.dtype e.output).deviceName ++ ") " ++ operand 0
  | .unary op => op.name ++ "(" ++ operand 0 ++ ")"
  | .binary op =>
    match op.symbol? with
    | some symbol => operand 0 ++ " " ++ symbol ++ " " ++ operand 1
    | none => op.name ++ "(" ++ operand 0 ++ ", " ++ operand 1 ++ ")"
  | .select => selectName ++ "(" ++ Text.commaSep [operand 0, operand 1, operand 2] ++ ")"
  | .reduction op init =>
    "reduction( " ++ operand 0 ++ ", op = " ++ op.name ++ ", initial value = " ++ init.text ++ " )"
  | .welford => "welford( " ++ Text.commaSep (e.inputs.map f.valueText) ++ " )"
  | .broadcast flags =>
    "broadcast( " ++ operand 0 ++ ", flags = "
      ++ Text.bracketed (flags.map Constant.boolText) ++ " )"

/-- The text of an expression. -/
def exprText (f : Fusion) (e : ExprId) : String :=
  let x := f.expr e
  ",\n   ".intercalate (x.outputs.map f.describe) ++ "\n   = " ++ f.rhsText x ++ ";"

/-- The text of the whole computation. -/
def text (f : Fusion) : String :=
  let listed := fun v => "  " ++ f.describe v ++ ", " ++ (f.dtype v).name ++ "\n"
  "Inputs:\n" ++ Text.concat (f.inputs.map listed)
    ++ "Outputs:\n" ++ Text.concat (f.outputs.map listed)
    ++ "\n%kernel_math \x7b\n"
    ++ Text.concat (f.liveExprs.map fun e => f.exprText e ++ "\n") ++ "\x7d\n"

end Fusion
end FusionCompiler
