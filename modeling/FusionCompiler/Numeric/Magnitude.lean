/-!
# Binary floating-point magnitudes

A finite floating-point number is a natural mantissa times a power of two.
This module decodes the bit patterns of the two interchange formats the
library prints (single and double precision) into that form, and builds the
few operations on `Float` that the core library leaves out: truncation, the
exact remainder, and rounding to a coarser binary format.

Everything is computed on the exact integers behind the bits, so each rule can
be stated over `Nat` and `Int`.
-/

namespace FusionCompiler
namespace Numeric

/-! ## Decoding -/

/-- Layout of a binary interchange format. -/
structure Interchange where
  /-- Stored bits of the significand, without the hidden one. -/
  fractionBits : Nat
  /-- Bits of the biased exponent. -/
  exponentBits : Nat
deriving DecidableEq, Repr

namespace Interchange

/-- The 64-bit format. -/
def double : Interchange := ⟨52, 11⟩

/-- The 32-bit format. -/
def single : Interchange := ⟨23, 8⟩

/-- Exponent of the unit in the last place of the subnormal numbers. -/
def minExponent (f : Interchange) : Int :=
  2 - Nat.pow 2 (f.exponentBits - 1) - f.fractionBits

end Interchange

/-- A finite non-negative value `mantissa * 2 ^ exponent`. -/
structure Magnitude where
  mantissa : Nat
  exponent : Int
  /-- The gap to the next smaller value is half the gap to the next larger one. -/
  narrowBelow : Bool
deriving DecidableEq, Repr

namespace Magnitude

/-- The magnitude held by the bits of a finite value; the sign bit is ignored. -/
def ofBits (f : Interchange) (bits : Nat) : Magnitude :=
  let fraction := bits % Nat.pow 2 f.fractionBits
  let biased := bits / Nat.pow 2 f.fractionBits % Nat.pow 2 f.exponentBits
  if biased = 0 then
    ⟨fraction, f.minExponent, false⟩
  else
    ⟨Nat.pow 2 f.fractionBits + fraction, f.minExponent + biased - 1, fraction == 0 && biased > 1⟩

/-- The magnitude of a finite double-precision value. -/
def ofFloat (x : Float) : Magnitude :=
  ofBits .double x.toBits.toNat

/-- The magnitude of a finite single-precision value. -/
def ofFloat32 (x : Float32) : Magnitude :=
  ofBits .single x.toBits.toNat

end Magnitude

/-! ## Operations on doubles -/

/-- The sign bit, which also tells the two zeros apart. -/
def isNegative (x : Float) : Bool :=
  x.toBits >>> 63 == 1

/-- Gives `magnitude` the sign of `x`. -/
def withSignOf (magnitude x : Float) : Float :=
  if isNegative x then -magnitude.abs else magnitude.abs

/-- Rounds toward zero. -/
def truncate (x : Float) : Float :=
  if x < 0 then x.ceil else x.floor

/-- Truncates to a signed 64-bit integer; values out of range go to the nearer end and NaN to
zero. -/
def toInt64Saturating (x : Float) : Int :=
  x.toInt64.toInt

/-- The value `n * 2 ^ e`, for an `n` whose significant bits fit the double format. -/
def scaled (n : Nat) (e : Int) : Float :=
  let drop := n.log2 - 52
  Float.scaleB (Float.ofNat (n >>> drop)) (e + drop)

/-- The remainder with the sign of the dividend, computed exactly. -/
def remainder (a b : Float) : Float :=
  if a.isNaN || b.isNaN || a.isInf || b == 0 then
    0.0 / 0.0
  else if b.isInf || a == 0 then
    a
  else
    let x := Magnitude.ofFloat a
    let y := Magnitude.ofFloat b
    let e := min x.exponent y.exponent
    let r := (x.mantissa * Nat.pow 2 (x.exponent - e).toNat)
      % (y.mantissa * Nat.pow 2 (y.exponent - e).toNat)
    withSignOf (scaled r e) a

/-- The larger of two values; a NaN gives way to a number. -/
def maximum (a b : Float) : Float :=
  if a.isNaN then b else if b.isNaN then a else if a < b then b else a

/-- The smaller of two values; a NaN gives way to a number. -/
def minimum (a b : Float) : Float :=
  if a.isNaN then b else if b.isNaN then a else if b < a then b else a

/-! ## Rounding to coarser formats -/

/-- Rounds the quotient `n / d` to the nearest integer, a tie to the even one. -/
def divNearestEven (n d : Nat) : Nat :=
  let q := n / d
  let r := n % d
  if 2 * r < d then q
  else if d < 2 * r then q + 1
  else if q % 2 = 0 then q else q + 1

/-- Rounds to single precision. -/
def roundSingle (x : Float) : Float :=
  x.toFloat32.toFloat

/-- The least magnitude that rounds to infinity in half precision. -/
def halfOverflow : Float := 65520.0

/-- Rounds to half precision, by way of single precision.

A half has eleven significant bits, and its subnormal numbers share the spacing `2 ^ -24` of the
smallest normal binade.  Ties go to even. -/
def roundHalf (x : Float) : Float :=
  let s := roundSingle x
  if s.isNaN || s.isInf || s == 0 then s
  else if s.abs ≥ halfOverflow then withSignOf (1.0 / 0.0) x
  else
    let m := Magnitude.ofFloat s
    let leading : Int := m.exponent + m.mantissa.log2
    let unit : Int := max leading (-14) - 10
    let n := divNearestEven (m.mantissa * Nat.pow 2 (m.exponent - unit).toNat)
      (Nat.pow 2 (unit - m.exponent).toNat)
    withSignOf (scaled n unit) s

end Numeric
end FusionCompiler
