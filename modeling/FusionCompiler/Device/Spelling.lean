import FusionCompiler.Kernel.Print

/-!
# Spelling of constants and arithmetic in device source

Constants are written as literals of their type, and kernel scalars as
expressions over the launch builtins.  Halves compute in float.
-/

namespace FusionCompiler
namespace Device

/-- The type in which values of a type are computed. -/
def computeType (t : DataType) : String :=
  t.accumulator.deviceName

/-- A single-precision literal. -/
def singleLiteral (x : Float32) : String :=
  if x.isNaN then "NAN_F"
  else if x.isInf then (if x > 0 then "POS_INFINITY" else "NEG_INFINITY")
  else Numeric.float32Text x ++ "f"

/-- A double-precision literal; values without a literal are given by their bits. -/
def doubleLiteral (x : Float) : String :=
  if x.isNaN then "__longlong_as_double(0x7ff8000000000000LL)"
  else if x.isInf then
    let bits := if x > 0 then "0x7ff0000000000000LL" else "0xfff0000000000000LL"
    "__longlong_as_double(" ++ bits ++ ")"
  else Numeric.floatText x

/-- A constant as a literal of a type. -/
def literal (c : Constant) : DataType → String
  | .bool => Constant.boolText c.toBool
  | .int32 => Numeric.intText c.toInt
  | .int64 => Numeric.intText c.toInt ++ "LL"
  | .float => singleLiteral c.toFloat.toFloat32
  | .double => doubleLiteral c.toFloat
  | .half => "__float2half(" ++ singleLiteral c.toFloat.toFloat32 ++ ")"

/-- The device function of a unary operator. -/
def unaryFunction (op : UnaryOp) (t : DataType) : String :=
  match op with
  | .set | .cast => ""
  | .neg => "-"
  | .abs => if t.isFloat then "fabs" else "abs"
  | .exp => "exp"
  | .log => "log"
  | .sqrt => "sqrt"
  | .rsqrt => "rsqrt"
  | .reciprocal => "reciprocal"
  | .relu => "relu"
  | .sigmoid => "sigmoid"
  | .tanh => "tanh"

/-- A call of a device function of two operands. -/
def call2 (name a b : String) : String :=
  name ++ "(" ++ a ++ ", " ++ b ++ ")"

/-- Two operands around a symbol. -/
def around (symbol a b : String) : String :=
  "(" ++ a ++ " " ++ symbol ++ " " ++ b ++ ")"

/-- A binary operator over two written operands of a type. -/
def binaryExpression (op : BinaryOp) (a b : String) (t : DataType) : String :=
  match op with
  | .max => call2 (if t.isFloat then "fmax" else "imax") a b
  | .min => call2 (if t.isFloat then "fmin" else "imin") a b
  | .mod => if t.isFloat then call2 "fmod" a b else around "%" a b
  | .ceilDiv => if t.isFloat then "ceil(" ++ a ++ " / " ++ b ++ ")" else call2 "ceilDiv" a b
  | .and => around (if t.isBool then "&&" else "&") a b
  | .or => around (if t.isBool then "||" else "|") a b
  | op => around (op.symbol?.getD op.title) a b

/-- Whether a scalar computes in floating point. -/
def isFloatScalar : Scalar → Bool
  | .float _ => true
  | .input _ t => t.isFloat
  | .unary op x => op.isFloatOnly || isFloatScalar x
  | .binary op a b => !op.yieldsBool && (isFloatScalar a || isFloatScalar b)
  | .select _ a b => isFloatScalar a || isFloatScalar b
  | _ => false

/-- Whether a number needs no more than 32 bits with sign. -/
def isInt32 (n : Int) : Bool :=
  -2147483648 ≤ n && n ≤ 2147483647

/-- Index or predicate arithmetic. -/
def scalar : Scalar → String
  | .int v => Numeric.intText v ++ if isInt32 v then "" else "LL"
  | .float v => doubleLiteral v
  | .bool v => Constant.boolText v
  | .input v _ => v.scalarName
  | .size t d => t.tensorName ++ ".size[" ++ Numeric.natText d ++ "]"
  | .stride t d => t.tensorName ++ ".stride[" ++ Numeric.natText d ++ "]"
  | .launchIndex p => p.text
  | .launchExtent p => p.dimName?.getD "1"
  | .loop l => l.text
  | .unary .set x | .unary .cast x => scalar x
  | .unary .neg x => "(-" ++ scalar x ++ ")"
  | .unary op x =>
    unaryFunction op (if isFloatScalar x then .double else .int64) ++ "(" ++ scalar x ++ ")"
  | .binary op a b =>
    let t : DataType :=
      if isFloatScalar a || isFloatScalar b then .double
      else if op.isLogical then .bool
      else .int64
    binaryExpression op (scalar a) (scalar b) t
  | .select c a b => "(" ++ scalar c ++ " ? " ++ scalar a ++ " : " ++ scalar b ++ ")"

/-- A scalar operand as a value of a type. -/
def scalarAs (s : Scalar) (t : DataType) : String :=
  match s with
  | .int v => literal (.int v) t.accumulator
  | .float v => literal (.float v) t.accumulator
  | .bool v => literal (.bool v) t.accumulator
  | .input _ .half => "__half2float(" ++ scalar s ++ ")"
  | s => scalar s

end Device
end FusionCompiler
