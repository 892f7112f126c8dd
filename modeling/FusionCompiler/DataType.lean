import FusionCompiler.Numeric.Magnitude

/-!
# Element types

The types a fused computation works on, in promotion order: an operation over
two types produces the later one.  Elements are held as doubles on the host;
`DataType.round` keeps them faithful to the precision of their type.
-/

namespace FusionCompiler

/-- Element types, in promotion order. -/
inductive DataType where
  | bool
  | int32
  | int64
  | half
  | float
  | double
deriving DecidableEq, Repr, Inhabited

namespace DataType

/-- Every element type, in promotion order. -/
def all : List DataType :=
  [.bool, .int32, .int64, .half, .float, .double]

/-- The name shown in listings. -/
def name : DataType → String
  | .bool => "Bool"
  | .int32 => "Int32"
  | .int64 => "Int64"
  | .half => "Half"
  | .float => "Float"
  | .double => "Double"

/-- Size of an element in bytes. -/
def bytes : DataType → Nat
  | .bool => 1
  | .int32 => 4
  | .int64 => 8
  | .half => 2
  | .float => 4
  | .double => 8

/-- Whether the type is the type of truth values. -/
def isBool : DataType → Bool
  | .bool => true
  | _ => false

/-- Whether the type is an integer type. -/
def isInt : DataType → Bool
  | .int32 | .int64 => true
  | _ => false

/-- Whether the type is a floating-point type. -/
def isFloat : DataType → Bool
  | .half | .float | .double => true
  | _ => false

/-- The spelling of the type in generated device source. -/
def deviceName : DataType → String
  | .bool => "bool"
  | .int32 => "int"
  | .int64 => "int64_t"
  | .half => "__half"
  | .float => "float"
  | .double => "double"

/-- Position in promotion order. -/
def rank : DataType → Nat
  | .bool => 0
  | .int32 => 1
  | .int64 => 2
  | .half => 3
  | .float => 4
  | .double => 5

/-- The result type of an operation over two types: the later one. -/
def promote (a b : DataType) : DataType :=
  if a.rank < b.rank then b else a

/-- The type that accumulates values of this type: halves accumulate in float. -/
def accumulator : DataType → DataType
  | .half => .float
  | t => t

/-- Rounds a host value to the precision of the type. -/
def round : DataType → Float → Float
  | .bool, x => if x != 0.0 then 1.0 else 0.0
  | .int32, x => Float.ofInt ((Numeric.toInt64Saturating (Numeric.truncate x)).bmod 4294967296)
  | .int64, x => Float.ofInt (Numeric.toInt64Saturating (Numeric.truncate x))
  | .half, x => Numeric.roundHalf x
  | .float, x => Numeric.roundSingle x
  | .double, x => x

end DataType
end FusionCompiler
