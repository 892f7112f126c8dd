import FusionCompiler.Constant

/-!
# Operators

The element-wise operators and their meaning on host values.

Two evaluators stand side by side for binary operators: `BinaryOp.eval` works on
doubles, and `BinaryOp.evalInt` works on 64-bit integers and reports overflow and
division by zero as a missing result.
-/

namespace FusionCompiler

/-- Operators of one operand. -/
inductive UnaryOp where
  /-- Plain copy. -/
  | set
  /-- Conversion to the type of the result. -/
  | cast
  | neg
  | abs
  | exp
  | log
  | sqrt
  | rsqrt
  | reciprocal
  | relu
  | sigmoid
  | tanh
deriving DecidableEq, Repr, Inhabited

namespace UnaryOp

/-- Every unary operator. -/
def all : List UnaryOp :=
  [.set, .cast, .neg, .abs, .exp, .log, .sqrt, .rsqrt, .reciprocal, .relu, .sigmoid, .tanh]

/-- The name shown in listings. -/
def name : UnaryOp → String
  | .set => "set"
  | .cast => "cast"
  | .neg => "neg"
  | .abs => "abs"
  | .exp => "exp"
  | .log => "log"
  | .sqrt => "sqrt"
  | .rsqrt => "rsqrt"
  | .reciprocal => "reciprocal"
  | .relu => "relu"
  | .sigmoid => "sigmoid"
  | .tanh => "tanh"

/-- The name shown in kernel listings. -/
def title : UnaryOp → String
  | .set => "Set"
  | .cast => "Cast"
  | .neg => "Neg"
  | .abs => "Abs"
  | .exp => "Exp"
  | .log => "Log"
  | .sqrt => "Sqrt"
  | .rsqrt => "Rsqrt"
  | .reciprocal => "Reciprocal"
  | .relu => "Relu"
  | .sigmoid => "Sigmoid"
  | .tanh => "Tanh"

/-- Whether the operator makes sense over floating-point values only. -/
def isFloatOnly : UnaryOp → Bool
  | .exp | .log | .sqrt | .rsqrt | .reciprocal | .sigmoid | .tanh => true
  | _ => false

/-- The operator on host values. -/
def eval : UnaryOp → Float → Float
  | .set, x | .cast, x => x
  | .neg, x => -x
  | .abs, x => x.abs
  | .exp, x => x.exp
  | .log, x => x.log
  | .sqrt, x => x.sqrt
  | .rsqrt, x => 1.0 / x.sqrt
  | .reciprocal, x => 1.0 / x
  | .relu, x => Numeric.maximum x 0.0
  | .sigmoid, x => 1.0 / (1.0 + (-x).exp)
  | .tanh, x => x.tanh

end UnaryOp

/-- Operators of two operands.  Comparisons and logical operators produce truth values. -/
inductive BinaryOp where
  | add
  | sub
  | mul
  /-- Division; integers truncate toward zero. -/
  | div
  /-- Remainder with the sign of the dividend. -/
  | mod
  | ceilDiv
  | max
  | min
  | lt
  | le
  | gt
  | ge
  | eq
  | ne
  | and
  | or
deriving DecidableEq, Repr, Inhabited

namespace BinaryOp

/-- Every binary operator. -/
def all : List BinaryOp :=
  [.add, .sub, .mul, .div, .mod, .ceilDiv, .max, .min,
    .lt, .le, .gt, .ge, .eq, .ne, .and, .or]

/-- The name shown in listings. -/
def name : BinaryOp → String
  | .add => "add"
  | .sub => "sub"
  | .mul => "mul"
  | .div => "div"
  | .mod => "mod"
  | .ceilDiv => "ceil_div"
  | .max => "max"
  | .min => "min"
  | .lt => "lt"
  | .le => "le"
  | .gt => "gt"
  | .ge => "ge"
  | .eq => "eq"
  | .ne => "ne"
  | .and => "and"
  | .or => "or"

/-- The name shown in kernel listings. -/
def title : BinaryOp → String
  | .add => "Add"
  | .sub => "Sub"
  | .mul => "Mul"
  | .div => "Div"
  | .mod => "Mod"
  | .ceilDiv => "CeilDiv"
  | .max => "Max"
  | .min => "Min"
  | .lt => "Lt"
  | .le => "Le"
  | .gt => "Gt"
  | .ge => "Ge"
  | .eq => "Eq"
  | .ne => "Ne"
  | .and => "And"
  | .or => "Or"

/-- The symbol of an operator that is written between its operands. -/
def symbol? : BinaryOp → Option String
  | .add => some "+"
  | .sub => some "-"
  | .mul => some "*"
  | .div => some "/"
  | .mod => some "%"
  | .lt => some "<"
  | .le => some "<="
  | .gt => some ">"
  | .ge => some ">="
  | .eq => some "=="
  | .ne => some "!="
  | .and => some "&&"
  | .or => some "||"
  | .ceilDiv | .max | .min => none

/-- Whether the operator compares its operands. -/
def isComparison : BinaryOp → Bool
  | .lt | .le | .gt | .ge | .eq | .ne => true
  | _ => false

/-- Whether the operator combines truth values. -/
def isLogical : BinaryOp → Bool
  | .and | .or => true
  | _ => false

/-- Whether the result is a truth value. -/
def yieldsBool (op : BinaryOp) : Bool :=
  op.isComparison || op.isLogical

/-- Whether the operator can drive a reduction: it is associative and commutative. -/
def isReduction : BinaryOp → Bool
  | .add | .mul | .max | .min | .and | .or => true
  | _ => false

/-- The identity element of a reduction. -/
def identity? (op : BinaryOp) (t : DataType) : Option Constant :=
  match op with
  | .add | .or => some (.zero t)
  | .mul | .and => some (.one t)
  | .max => some (.lowest t)
  | .min => some (.highest t)
  | _ => none

/-- One for true and zero for false. -/
def truth (b : Bool) : Float :=
  if b then 1.0 else 0.0

/-- The quotient of two signed words, rounded up.  The sum of dividend and divisor is not checked:
it wraps around, unless there is nothing to add. -/
def roundedUp (a b : Int) : Int :=
  if b = 1 then a else wrapped64 (a + b - 1) / b

/-- The operator on host values; `integral` selects integer division. -/
def eval (op : BinaryOp) (a b : Float) (integral : Bool) : Float :=
  match op with
  | .add => a + b
  | .sub => a - b
  | .mul => a * b
  | .div =>
    if integral then
      if b == 0.0 then 0.0 else Numeric.truncate (a / b)
    else a / b
  | .mod =>
    if integral then
      if b == 0.0 then 0.0
      else Float.ofInt (Int.tmod (Numeric.toInt64Saturating a) (Numeric.toInt64Saturating b))
    else Numeric.remainder a b
  | .ceilDiv =>
    if b == 0.0 then 0.0
    else
      Float.ofInt (roundedUp (Numeric.toInt64Saturating a) (Numeric.toInt64Saturating b))
  | .max => Numeric.maximum a b
  | .min => Numeric.minimum a b
  | .lt => truth (a < b)
  | .le => truth (a <= b)
  | .gt => truth (a > b)
  | .ge => truth (a >= b)
  | .eq => truth (a == b)
  | .ne => truth (a != b)
  | .and => truth (a != 0.0 && b != 0.0)
  | .or => truth (a != 0.0 || b != 0.0)

/-- The operator on 64-bit integers, without a result on overflow and on division by zero.
Comparisons and logical operators look at the operands as doubles. -/
def evalInt (op : BinaryOp) (a b : Int) : Option Constant :=
  match op with
  | .add => (checked64 (a + b)).map .int
  | .sub => (checked64 (a - b)).map .int
  | .mul => (checked64 (a * b)).map .int
  | .div => if b = 0 then none else (checked64 (a.tdiv b)).map .int
  | .mod => if b = 0 ∨ (a = int64Range.least ∧ b = -1) then none else some (.int (a.tmod b))
  | .ceilDiv => if b = 0 then none else (checked64 (roundedUp a b)).map .int
  | .max => some (.int (Max.max a b))
  | .min => some (.int (Min.min a b))
  | op => some (.bool (op.eval (Float.ofInt a) (Float.ofInt b) true != 0.0))

end BinaryOp
end FusionCompiler
