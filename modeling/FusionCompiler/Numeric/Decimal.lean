import FusionCompiler.Numeric.Magnitude

/-!
# Decimal text of floating-point values

Printing has two stages.  `Magnitude.shortest` selects digits: the fewest that
read back to the same value, and of those the nearest.  A `DecimalNotation` lays them
out: which exponents are written positionally and how the others look.

The selection is a plain search over decimal grids in exact arithmetic: for
one, two, and more digits it tests the two neighbours of the value on the grid
against the interval of reals that round to the value.
-/

namespace FusionCompiler
namespace Numeric

/-- The decimal number `digits * 10 ^ exponent`. -/
structure Decimal where
  digits : Nat
  exponent : Int
deriving DecidableEq, Repr

/-- The quotient of a magnitude by a power of ten, as a fraction of naturals. -/
structure GridRatio where
  /-- The value of one mantissa unit, scaled by the common denominator. -/
  unit : Nat
  denominator : Nat

namespace Magnitude

/-- Expresses `mantissa` units of `x` on the grid of multiples of `10 ^ e`. -/
def onGrid (x : Magnitude) (e : Int) : GridRatio where
  unit := Nat.pow 2 x.exponent.toNat * Nat.pow 10 (-e).toNat
  denominator := Nat.pow 2 (-x.exponent).toNat * Nat.pow 10 e.toNat

/-- Whether `d` lies among the reals that round to `x`: the ends of the interval are halfway to the
neighbours and belong to it exactly when the mantissa is even. -/
def readsBack (x : Magnitude) (d : Decimal) : Bool :=
  let g := x.onGrid d.exponent
  let point := 4 * d.digits * g.denominator
  let lo := (4 * x.mantissa - if x.narrowBelow then 1 else 2) * g.unit
  let hi := (4 * x.mantissa + 2) * g.unit
  if x.mantissa % 2 = 0 then lo ≤ point && point ≤ hi else lo < point && point < hi

/-- Number of decimal digits before the point: the least `k` with `x < 10 ^ k`, for a positive
`x`. -/
def decimalScale (x : Magnitude) : Int :=
  let below (k : Int) : Bool :=
    let g := x.onGrid k
    x.mantissa * g.unit < g.denominator
  -- 30103 / 100000 approximates the logarithm of two closely enough that one step mends it.
  let guess : Int := (x.exponent + x.mantissa.log2) * 30103 / 100000
  if below (guess - 1) then guess - 1
  else if below guess then guess
  else if below (guess + 1) then guess + 1
  else guess + 2

/-- The nearer of the value's two neighbours on a grid, among those that read back. -/
def nearestOnGrid (x : Magnitude) (e : Int) : Option Decimal :=
  let g := x.onGrid e
  let n := x.mantissa * g.unit
  let down : Decimal := ⟨n / g.denominator, e⟩
  let up : Decimal := ⟨n / g.denominator + 1, e⟩
  -- An exact tie goes to the upper neighbour.
  let upIsNearer := g.denominator ≤ 2 * (n % g.denominator)
  match x.readsBack down, x.readsBack up with
  | true, true => some (if upIsNearer then up else down)
  | true, false => some down
  | false, true => some up
  | false, false => none

end Magnitude

/-- Moves trailing zeros of the digits into the exponent. -/
def Decimal.strip (d : Decimal) : Decimal :=
  if h : d.digits ≠ 0 ∧ d.digits % 10 = 0 then
    Decimal.strip ⟨d.digits / 10, d.exponent + 1⟩
  else d
termination_by d.digits
decreasing_by omega

namespace Magnitude

/-- The exact decimal value of a magnitude. -/
def exactDecimal (x : Magnitude) : Decimal :=
  if 0 ≤ x.exponent then ⟨x.mantissa * Nat.pow 2 x.exponent.toNat, 0⟩
  else ⟨x.mantissa * Nat.pow 5 (-x.exponent).toNat, x.exponent⟩

/-- The fewest digits that read back to `x`, for a positive `x`. -/
def shortest (x : Magnitude) : Decimal :=
  let k := x.decimalScale
  match (List.range 17).findSome? fun n : Nat => x.nearestOnGrid (k - (n + 1)) with
  | some d => d.strip
  | none => x.exactDecimal.strip

end Magnitude

/-! ## Layout -/

/-- How a selected decimal is written. -/
structure DecimalNotation where
  /-- Least exponent of the leading digit that is written positionally. -/
  plainFrom : Int
  /-- Least exponent of the leading digit that is no longer written positionally. -/
  plainBelow : Int

/-- Values from `10 ^ -4` to below `10 ^ 16` are written positionally and always show a
fraction; others carry an unpadded exponent, and a one-digit mantissa stands alone. -/
def DecimalNotation.standard : DecimalNotation := ⟨-4, 16⟩

/-- The decimal text of a natural number. -/
def natText (n : Nat) : String :=
  String.ofList (Nat.toDigits 10 n)

/-- The decimal text of an integer. -/
def intText : Int → String
  | .ofNat n => natText n
  | .negSucc n => "-" ++ natText (n + 1)

/-- Lays out a non-zero decimal. -/
def DecimalNotation.layout (f : DecimalNotation) (d : Decimal) : String :=
  let digits := Nat.toDigits 10 d.digits
  let n : Int := digits.length
  let leading := d.exponent + n - 1
  if f.plainFrom ≤ leading && leading < f.plainBelow then
    if 0 ≤ d.exponent then
      String.ofList (digits ++ List.replicate d.exponent.toNat '0') ++ ".0"
    else if 0 ≤ leading then
      let whole := (leading + 1).toNat
      String.ofList (digits.take whole ++ '.' :: digits.drop whole)
    else
      "0." ++ String.ofList (List.replicate (-leading - 1).toNat '0' ++ digits)
  else
    let mantissa := match digits with
      | first :: second :: rest => first :: '.' :: second :: rest
      | short => short
    String.ofList mantissa ++ "e" ++ intText leading

/-- Text of a signed finite magnitude. -/
def DecimalNotation.signed (f : DecimalNotation) (negative : Bool) (x : Magnitude) : String :=
  (if negative then "-" else "") ++ if x.mantissa = 0 then "0.0" else f.layout x.shortest

/-- Text of a double; the sign of a NaN is not shown. -/
def floatText (x : Float) : String :=
  if x.isNaN then "NaN"
  else if x.isInf then (if x > 0 then "inf" else "-inf")
  else DecimalNotation.standard.signed (isNegative x) (Magnitude.ofFloat x)

/-- Text of a finite single. -/
def float32Text (x : Float32) : String :=
  DecimalNotation.standard.signed (x.toBits >>> 31 == 1) (Magnitude.ofFloat32 x)

end Numeric
end FusionCompiler
