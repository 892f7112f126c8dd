import FusionCompiler.Numeric.Decimal

/-!
# Text

Small building blocks of the printed forms: separated lists, bracketed lists
and indentation.  Texts that are read are trimmed by the white-space property of
the Unicode character database.
-/

namespace FusionCompiler
namespace Text

/-! ## Printed forms -/

/-- Joins pieces with a comma and a blank. -/
def commaSep (pieces : List String) : String :=
  ", ".intercalate pieces

/-- A bracketed list. -/
def bracketed (pieces : List String) : String :=
  "[" ++ commaSep pieces ++ "]"

/-- A bracketed list of naturals. -/
def natList (l : List Nat) : String :=
  bracketed (l.map Numeric.natText)

/-- A bracketed list of integers. -/
def intList (l : List Int) : String :=
  bracketed (l.map Numeric.intText)

/-- A piece of arithmetic between backquotes. -/
def quoted (s : String) : String :=
  "\x60" ++ s ++ "\x60"

/-- Concatenates pieces. -/
def concat (pieces : List String) : String :=
  pieces.foldl (· ++ ·) ""

/-- The indentation of a nesting depth, two blanks a level. -/
def indent : Nat → String
  | 0 => ""
  | n + 1 => "  " ++ indent n

/-! ## Texts that are read -/

/-- Whether a character has the white-space property. -/
def isBlank (c : Char) : Bool :=
  let n := c.toNat
  (0x9 ≤ n && n ≤ 0xD) || n == 0x20 || n == 0x85 || n == 0xA0 || n == 0x1680
    || (0x2000 ≤ n && n ≤ 0x200A) || n == 0x2028 || n == 0x2029 || n == 0x202F
    || n == 0x205F || n == 0x3000

/-- Removes blanks at both ends. -/
def trim (s : String) : String :=
  String.ofList ((s.toList.dropWhile isBlank).reverse.dropWhile isBlank).reverse

/-- The number written by ASCII digits. -/
def digitsValue (cs : List Char) : Nat :=
  cs.foldl (fun n c => 10 * n + (c.toNat - '0'.toNat)) 0

/-- Reads an unsigned 64-bit number: ASCII digits after an optional plus sign. -/
def readUnsigned (s : String) : Option Nat :=
  let digits := match s.toList with
    | '+' :: rest => rest
    | cs => cs
  if digits.isEmpty || !digits.all (fun c => '0' ≤ c && c ≤ '9') then none
  else if digitsValue digits < 18446744073709551616 then some (digitsValue digits)
  else none

end Text
end FusionCompiler
