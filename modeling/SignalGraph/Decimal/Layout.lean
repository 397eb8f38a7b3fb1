import SignalGraph.Decimal.Shortest

/-!
# Number text

How the digits of a binary number are laid out: with a point at its place when the decimal
exponent is within bounds, and with one digit before the point and an exponent otherwise.
-/

namespace SignalGraph

/-- The choices of a number text. -/
structure Layout where
  /-- The smallest decimal exponent written without an exponent. -/
  least : Int
  /-- The largest decimal exponent written without an exponent. -/
  greatest : Int
  /-- What stands before an exponent that is not negative. -/
  plus : String
  /-- How infinity is written after its sign. -/
  infinity : String
  /-- How a pattern that is no number is written. -/
  undefined : String
  /-- Which of two equally good digits is taken. -/
  tie : Decimal.Tie

namespace Layout

/-- Digits with a point at its place; at least one digit on each side of it. -/
def plain (digits : List Char) (exponent : Int) : List Char :=
  if exponent < 0 then
    ['0', '.'] ++ List.replicate ((-exponent).toNat - 1) '0' ++ digits
  else
    let whole := exponent.toNat + 1
    let padded := digits ++ List.replicate (whole - digits.length) '0'
    let fraction := digits.drop whole
    padded.take whole ++ '.' :: (if fraction.isEmpty then ['0'] else fraction)

/-- One digit, the others after a point, and the exponent. -/
def scientific (layout : Layout) (digits : List Char) (exponent : Int) : List Char :=
  let rest := digits.drop 1
  let sign := if 0 ≤ exponent then layout.plus else "-"
  digits.take 1 ++ (if rest.isEmpty then [] else '.' :: rest)
    ++ 'e' :: (sign.toList ++ Nat.toDigits 10 exponent.natAbs)

def decimal (layout : Layout) (d : Decimal) : List Char :=
  let digits := Nat.toDigits 10 d.digits
  let exponent := d.exponent + digits.length - 1
  if layout.least ≤ exponent ∧ exponent ≤ layout.greatest then plain digits exponent
  else layout.scientific digits exponent

/-- The text of the number that `bits` stands for in format `f`. -/
def write (layout : Layout) (f : Format) (bits : Nat) : String :=
  let sign := if f.isNegative bits then "-" else ""
  match f.magnitude (f.unsigned bits) with
  | .undefined => layout.undefined
  | .infinite => sign ++ layout.infinity
  | .finite m e =>
    sign ++
      if m = 0 then "0.0" else String.ofList (layout.decimal (Decimal.shortest f layout.tie m e))

end Layout

end SignalGraph
