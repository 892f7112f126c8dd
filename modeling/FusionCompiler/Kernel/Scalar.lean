import FusionCompiler.Fusion.Basic

/-!
# Kernel scalars

Index and predicate arithmetic of a kernel.  The folding constructors compute
with literals and drop neutral operands, so that a loop over a constant extent
split by a constant factor indexes with plain numbers and a provably true
predicate disappears.

`Scalar.evaluate` is the meaning of a scalar; `Scalar.substitute` replaces loop
indices and folds again on the way up.
-/

namespace FusionCompiler

/-- Handle of a serial loop inside one kernel. -/
structure LoopId where
  index : Nat
deriving DecidableEq, Repr, Hashable, Inhabited

/-- The text of a loop index. -/
def LoopId.text (l : LoopId) : String := "i" ++ Numeric.natText l.index

/-- Arithmetic that a kernel does on indices, sizes and predicates. -/
inductive Scalar where
  | int (value : Int)
  | float (value : Float)
  | bool (value : Bool)
  /-- A scalar argument of the kernel. -/
  | input (value : ValueId) (dtype : DataType)
  /-- The run-time size of one dimension of a tensor argument. -/
  | size (tensor : ValueId) (dim : Nat)
  /-- The run-time stride of one dimension of a tensor argument. -/
  | stride (tensor : ValueId) (dim : Nat)
  /-- The block or thread index of a launch dimension. -/
  | launchIndex (parallel : ParallelType)
  /-- The extent of a launch dimension. -/
  | launchExtent (parallel : ParallelType)
  | loop (index : LoopId)
  | unary (op : UnaryOp) (x : Scalar)
  | binary (op : BinaryOp) (a b : Scalar)
  | select (cond a b : Scalar)
deriving BEq, Repr, Inhabited

namespace Scalar

/-- The literal zero. -/
def zero : Scalar := .int 0

/-- The literal one. -/
def one : Scalar := .int 1

/-- The literal truth. -/
def truth : Scalar := .bool true

/-- The literal of a constant. -/
def ofConstant : Constant → Scalar
  | .bool v => .bool v
  | .int v => .int v
  | .float v => .float v

/-- The integer behind an integer literal. -/
def int? : Scalar → Option Int
  | .int v => some v
  | _ => none

/-- Whether the scalar is a given integer literal. -/
def isInt (n : Int) : Scalar → Bool
  | .int v => v == n
  | _ => false

/-- Whether the scalar is a given truth literal. -/
def isBool (b : Bool) : Scalar → Bool
  | .bool v => v == b
  | _ => false

/-- Whether the scalar is the literal truth. -/
def isTrue (s : Scalar) : Bool := s.isBool true

/-- Whether the scalar is a literal. -/
def isLiteral : Scalar → Bool
  | .int _ | .float _ | .bool _ => true
  | _ => false

/-! ## Folding constructors -/

/-- A binary operator on 64-bit integers.  Division truncates toward zero, a rounded-up division needs
a positive divisor, and there is no result on overflow; only the sum behind a rounded-up quotient
wraps around. -/
def foldInt (op : BinaryOp) (a b : Int) : Option Constant :=
  match op with
  | .add => (checked64 (a + b)).map .int
  | .sub => (checked64 (a - b)).map .int
  | .mul => (checked64 (a * b)).map .int
  | .div => if b = 0 then none else (checked64 (a.tdiv b)).map .int
  | .mod => if b = 0 ∨ (a = int64Range.least ∧ b = -1) then none else some (.int (a.tmod b))
  | .ceilDiv => if b ≤ 0 then none else some (.int (BinaryOp.roundedUp a b))
  | .max => some (.int (Max.max a b))
  | .min => some (.int (Min.min a b))
  | .lt => some (.bool (a < b))
  | .le => some (.bool (a ≤ b))
  | .gt => some (.bool (b < a))
  | .ge => some (.bool (b ≤ a))
  | .eq => some (.bool (a = b))
  | .ne => some (.bool (a ≠ b))
  | .and => some (.bool (a ≠ 0 ∧ b ≠ 0))
  | .or => some (.bool (a ≠ 0 ∨ b ≠ 0))

/-- Folds an operator over two integer literals. -/
def foldLiterals (op : BinaryOp) : Scalar → Scalar → Option Constant
  | .int a, .int b => foldInt op a b
  | _, _ => none

/-- Simplifies an operator with a neutral, an absorbing or two equal operands. -/
def simplify? (op : BinaryOp) (a b : Scalar) : Option Scalar :=
  match op with
  | .add => if a.isInt 0 then some b else if b.isInt 0 then some a else none
  | .sub => if b.isInt 0 then some a else none
  | .mul =>
    if a.isInt 0 || b.isInt 0 then some zero
    else if a.isInt 1 then some b
    else if b.isInt 1 then some a
    else none
  | .div => if b.isInt 1 then some a else if a.isInt 0 then some zero else none
  | .ceilDiv => if b.isInt 1 then some a else none
  | .mod => if b.isInt 1 || a.isInt 0 then some zero else none
  | .and =>
    if a.isBool true then some b
    else if b.isBool true then some a
    else if a.isBool false || b.isBool false then some (.bool false)
    else none
  | .or =>
    if a.isBool false then some b
    else if b.isBool false then some a
    else if a.isBool true || b.isBool true then some truth
    else none
  | .max | .min => if a == b then some a else none
  | .lt | .ne => if a == b then some (.bool false) else none
  | .le | .eq => if a == b then some truth else none
  | .gt | .ge => none

/-- An operator over two operands, folded. -/
def mkBinary (op : BinaryOp) (a b : Scalar) : Scalar :=
  match foldLiterals op a b with
  | some c => ofConstant c
  | none => (simplify? op a b).getD (.binary op a b)

/-- An operator over one operand, folded: a copy vanishes and an integer literal is negated. -/
def mkUnary (op : UnaryOp) (x : Scalar) : Scalar :=
  match op, x with
  | .set, x => x
  | .neg, .int v => .int (wrapped64 (-v))
  | op, x => .unary op x

/-- A selection, folded when its condition is a literal. -/
def mkSelect (cond a b : Scalar) : Scalar :=
  match cond with
  | .bool true => a
  | .bool false => b
  | cond => .select cond a b

/-- Sum. -/
def add (a b : Scalar) : Scalar := mkBinary .add a b

/-- Difference. -/
def sub (a b : Scalar) : Scalar := mkBinary .sub a b

/-- Product. -/
def mul (a b : Scalar) : Scalar := mkBinary .mul a b

/-- Quotient, toward zero. -/
def div (a b : Scalar) : Scalar := mkBinary .div a b

/-- Remainder. -/
def rem (a b : Scalar) : Scalar := mkBinary .mod a b

/-- Quotient, rounded up. -/
def ceilDiv (a b : Scalar) : Scalar := mkBinary .ceilDiv a b

/-- Comparison. -/
def lt (a b : Scalar) : Scalar := mkBinary .lt a b

/-- Equality. -/
def eq (a b : Scalar) : Scalar := mkBinary .eq a b

/-- Conjunction. -/
def and (a b : Scalar) : Scalar := mkBinary .and a b

/-- Conjunction of all terms; true when there are none. -/
def all (terms : List Scalar) : Scalar :=
  terms.foldl and truth

/-! ## Loop indices -/

/-- Replaces every loop index that has an image, folding again on the way up. -/
def substitute (g : LoopId → Option Scalar) : Scalar → Scalar
  | .loop l => (g l).getD (.loop l)
  | .unary op x => mkUnary op (x.substitute g)
  | .binary op a b => mkBinary op (a.substitute g) (b.substitute g)
  | .select c a b => mkSelect (c.substitute g) (a.substitute g) (b.substitute g)
  | s => s

/-- Whether a loop index occurs. -/
def usesLoop (l : LoopId) : Scalar → Bool
  | .loop l' => l' == l
  | .unary _ x => x.usesLoop l
  | .binary _ a b => a.usesLoop l || b.usesLoop l
  | .select c a b => c.usesLoop l || a.usesLoop l || b.usesLoop l
  | _ => false

/-! ## Meaning -/

/-- What the leaves of a scalar stand for at run time. -/
structure Env where
  input : ValueId → Option Constant := fun _ => none
  size : ValueId → Nat → Option Int := fun _ _ => none
  stride : ValueId → Nat → Option Int := fun _ _ => none
  launchIndex : ParallelType → Option Int := fun _ => none
  launchExtent : ParallelType → Option Int := fun _ => none
  loop : LoopId → Option Int := fun _ => none

/-- A unary operator on constants; integers stay integers where the operator keeps them. -/
def evalUnary (op : UnaryOp) (x : Constant) : Constant :=
  match op, x with
  | .neg, .int v => .int (wrapped64 (-v))
  | .abs, .int v => .int (wrapped64 v.natAbs)
  | .set, x | .cast, x => x
  | op, x => .float (op.eval x.toFloat)

/-- A binary operator on constants: on integers if both are, on truth values, else on doubles. -/
def evalBinary (op : BinaryOp) (a b : Constant) : Option Constant :=
  match a, b with
  | .int a, .int b => foldInt op a b
  | a, b =>
    match op with
    | .and => some (.bool (a.toBool && b.toBool))
    | .or => some (.bool (a.toBool || b.toBool))
    | op =>
      if op.isComparison then some (.bool (op.eval a.toFloat b.toFloat false != 0.0))
      else some (.float (op.eval a.toFloat b.toFloat false))

/-- The value of a scalar, if every leaf that it looks at has one.  Only the chosen branch of a
selection is looked at. -/
def evaluate (env : Env) : Scalar → Option Constant
  | .int v => some (.int v)
  | .float v => some (.float v)
  | .bool v => some (.bool v)
  | .input v _ => env.input v
  | .size t d => (env.size t d).map .int
  | .stride t d => (env.stride t d).map .int
  | .launchIndex p => (env.launchIndex p).map .int
  | .launchExtent p => (env.launchExtent p).map .int
  | .loop l => (env.loop l).map .int
  | .unary op x => (x.evaluate env).map (evalUnary op)
  | .binary op a b =>
    match a.evaluate env with
    | none => none
    | some x =>
      match b.evaluate env with
      | none => none
      | some y => evalBinary op x y
  | .select c a b =>
    match c.evaluate env with
    | none => none
    | some x => if x.toBool then a.evaluate env else b.evaluate env

/-- The value of a scalar as an integer. -/
def evaluateInt (env : Env) (s : Scalar) : Option Int :=
  (s.evaluate env).map (·.toInt)

/-! ## Text -/

/-- The text of a scalar in kernel listings. -/
def text : Scalar → String
  | .int v => Numeric.intText v
  | .float v => Numeric.floatText v
  | .bool v => Constant.boolText v
  | .input v _ => "s" ++ Numeric.natText v.index
  | .size t d => "T" ++ Numeric.natText t.index ++ ".size[" ++ Numeric.natText d ++ "]"
  | .stride t d => "T" ++ Numeric.natText t.index ++ ".stride[" ++ Numeric.natText d ++ "]"
  | .launchIndex p => p.text
  | .launchExtent p => p.dimName?.getD "?"
  | .loop l => l.text
  | .unary op x => op.title ++ "(" ++ x.text ++ ")"
  | .binary op a b =>
    match op.symbol? with
    | some symbol => "(" ++ a.text ++ " " ++ symbol ++ " " ++ b.text ++ ")"
    | none => op.title ++ "(" ++ a.text ++ ", " ++ b.text ++ ")"
  | .select c a b => "(" ++ c.text ++ " ? " ++ a.text ++ " : " ++ b.text ++ ")"

end Scalar
end FusionCompiler
