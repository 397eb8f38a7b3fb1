import SignalGraph.Decimal.Shortest

/-!
# Decimal numerals

The numbers of JSON: a sign, a whole part without a leading zero, a fraction and an exponent, and
what such a numeral is worth as an integer, as a double and as a single.

An integer is a numeral without fraction and exponent that fits 64 bits. The numeral `-0` is no
integer, because only a floating-point zero has a sign.
-/

namespace SignalGraph

/-- The number `digits * 10 ^ exponent`, with a sign. -/
structure Numeral where
  negative : Bool
  digits : Nat
  exponent : Int
  /-- Whether it was written without fraction and exponent. -/
  whole : Bool
deriving DecidableEq, Repr

namespace Numeral

/-- The value of a run of decimal digits. -/
def ofDigits (ds : List Char) : Nat :=
  ds.foldl (fun n c => 10 * n + (c.toNat - 48)) 0

/-- Digits without a leading zero. -/
def isWhole : List Char → Bool
  | [] => false
  | ['0'] => true
  | '0' :: _ => false
  | _ => true

/-- The exponent that ends a numeral; nothing is the exponent zero. -/
def exponent? : List Char → Option Int
  | [] => some 0
  | mark :: rest =>
    if mark = 'e' ∨ mark = 'E' then
      let (negative, ds) :=
        match rest with
        | '-' :: ds => (true, ds)
        | '+' :: ds => (false, ds)
        | ds => (false, ds)
      if ds.isEmpty || !ds.all Char.isDigit then none
      else some (if negative then -(ofDigits ds : Int) else ofDigits ds)
    else none

/-- The numeral without its sign. -/
def unsigned? (negative : Bool) (cs : List Char) : Option Numeral :=
  let whole := cs.takeWhile Char.isDigit
  if !isWhole whole then none
  else
    match cs.dropWhile Char.isDigit with
    | [] => some ⟨negative, ofDigits whole, 0, true⟩
    | '.' :: rest =>
      let fraction := rest.takeWhile Char.isDigit
      if fraction.isEmpty then none
      else
        (exponent? (rest.dropWhile Char.isDigit)).map fun e =>
          ⟨negative, ofDigits (whole ++ fraction), e - fraction.length, false⟩
    | rest => (exponent? rest).map fun e => ⟨negative, ofDigits whole, e, false⟩

def ofChars? : List Char → Option Numeral
  | '-' :: cs => unsigned? true cs
  | cs => unsigned? false cs

def ofString? (text : String) : Option Numeral :=
  ofChars? text.toList

/-- The first number that needs more than this many bits. -/
def bound (bits : Nat) : Nat :=
  Nat.pow 2 bits

/-- The integer of 64 bits that a numeral writes. -/
def integer? (n : Numeral) : Option Int :=
  if !n.whole || (n.negative && n.digits == 0) then none
  else if n.negative then
    if n.digits ≤ bound 63 then some (-(n.digits : Int)) else none
  else if n.digits < bound 64 then some n.digits
  else none

/-- Decimal exponents from here on are infinite in every format, and below its negative zero. -/
def horizon : Int := 400

/-- The bits of format `f` nearest to the numeral. -/
def nearest (f : Format) (n : Numeral) : Nat :=
  let size := (Decimal.digitCount n.digits : Int) + n.exponent
  let pattern :=
    if n.digits = 0 ∨ size < -horizon then 0
    else if horizon < size then f.infinity
    else if 0 ≤ n.exponent then f.round (n.digits * Nat.pow 10 n.exponent.toNat) 1
    else f.round n.digits (Nat.pow 10 (-n.exponent).toNat)
  f.withSign n.negative pattern

/-- The bits of the double that a numeral writes; none if it is too large for one. -/
def double? (n : Numeral) : Option Nat :=
  let bits := nearest .double n
  if Format.double.unsigned bits < Format.double.infinity then some bits else none

/-- The bits of the single that a numeral writes. Integers are rounded once and all other numbers
twice, first to a double; what is too large for a single but not for a double is infinite. -/
def single? (n : Numeral) : Option Nat :=
  match n.integer? with
  | some i => some (Format.single.ofInt i)
  | none => n.double?.map (Format.double.convert .single)

end Numeral

end SignalGraph
