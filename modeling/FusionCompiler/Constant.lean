import FusionCompiler.DataType
import FusionCompiler.Numeric.Decimal

/-!
# Constants

A constant is a truth value, an integer or a floating-point number.  Every
constant can be viewed as any of the three, and `Constant.cast` converts it to
an element type the way a device cast does.
-/

namespace FusionCompiler

/-- A literal value. -/
inductive Constant where
  | bool (value : Bool)
  | int (value : Int)
  | float (value : Float)
deriving BEq, Repr, Inhabited

/-- The range of signed 64-bit integers. -/
structure Int64Range where
  least : Int
  greatest : Int

/-- Signed 64-bit integers reach from `-2 ^ 63` to `2 ^ 63 - 1`. -/
def int64Range : Int64Range := ⟨-9223372036854775808, 9223372036854775807⟩

/-- An integer result, if it is a signed 64-bit integer. -/
def checked64 (n : Int) : Option Int :=
  if int64Range.least ≤ n ∧ n ≤ int64Range.greatest then some n else none

/-! ## Machine words -/

/-- The number of values of a 64-bit word. -/
def wordModulus : Nat := 18446744073709551616

/-- What a signed 64-bit word keeps of an integer: its remainder, between least and greatest. -/
def wrapped64 (n : Int) : Int :=
  n.bmod wordModulus

/-- The unsigned word with the bits of an integer. -/
def wordOf (n : Int) : Nat :=
  (n % wordModulus).toNat

/-- What a build makes of a step of arithmetic whose result may leave its word. -/
class Overflow (m : Type → Type) where
  /-- A step on signed words. -/
  signed : Int → m Int
  /-- A step on unsigned words. -/
  unsigned : Nat → m Nat

/-- A build without overflow checks keeps the remainder. -/
instance : Overflow Id where
  signed := wrapped64
  unsigned n := n % wordModulus

/-- A build with overflow checks stops; it has no result. -/
instance : Overflow Option where
  signed := checked64
  unsigned n := if n < wordModulus then some n else none

/-- A product of unsigned words. -/
def wordProduct {m : Type → Type} [Monad m] [Overflow m] (ns : List Nat) : m Nat :=
  ns.foldlM (fun product n => Overflow.unsigned (product * n)) 1

namespace Constant

/-- The element type a bare constant has. -/
def dtype : Constant → DataType
  | .bool _ => .bool
  | .int _ => .int64
  | .float _ => .double

/-- The zero of a type. -/
def zero : DataType → Constant
  | .bool => .bool false
  | .int32 | .int64 => .int 0
  | .half | .float | .double => .float 0.0

/-- The one of a type. -/
def one : DataType → Constant
  | .bool => .bool true
  | .int32 | .int64 => .int 1
  | .half | .float | .double => .float 1.0

/-- The least value of a type, the identity of a maximum. -/
def lowest : DataType → Constant
  | .bool => .bool false
  | .int32 => .int (-2147483648)
  | .int64 => .int int64Range.least
  | .half | .float | .double => .float (-1.0 / 0.0)

/-- The greatest value of a type, the identity of a minimum. -/
def highest : DataType → Constant
  | .bool => .bool true
  | .int32 => .int 2147483647
  | .int64 => .int int64Range.greatest
  | .half | .float | .double => .float (1.0 / 0.0)

/-- The constant of a type nearest to a host value. -/
def ofFloat (x : Float) : DataType → Constant
  | .bool => .bool (x != 0.0)
  | .int32 => .int (Numeric.toInt64Saturating (DataType.round .int32 x))
  | .int64 => .int (Numeric.toInt64Saturating (DataType.round .int64 x))
  | .half => .float (DataType.round .half x)
  | .float => .float (DataType.round .float x)
  | .double => .float x

/-- The value as a double. -/
def toFloat : Constant → Float
  | .bool v => if v then 1.0 else 0.0
  | .int v => Float.ofInt v
  | .float v => v

/-- The value as an integer; floats truncate toward zero. -/
def toInt : Constant → Int
  | .bool v => if v then 1 else 0
  | .int v => v
  | .float v => Numeric.toInt64Saturating v

/-- The value as a truth value: whether it differs from zero. -/
def toBool : Constant → Bool
  | .bool v => v
  | .int v => v != 0
  | .float v => v != 0.0

/-- Converts to an element type; integers stay exact and wrap at 32 bits. -/
def cast (c : Constant) (t : DataType) : Constant :=
  match c, t with
  | .int v, .int32 => .int (v.bmod 4294967296)
  | .int v, .int64 => .int v
  | c, t => ofFloat c.toFloat t

/-- The text of a truth value. -/
def boolText (b : Bool) : String :=
  if b then "true" else "false"

/-- The text of a constant. -/
def text : Constant → String
  | .bool v => boolText v
  | .int v => Numeric.intText v
  | .float v => Numeric.floatText v

end Constant
end FusionCompiler
