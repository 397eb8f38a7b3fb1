import SignalGraph.Decimal.Binary

/-!
# Shortest decimal digits

The fewest decimal digits that read back as a given binary number, and of those the nearest.
A number owns an interval: everything that rounds to it, the ends included when its significand is
even. For one digit, two digits and so on, the two neighbours of the number on the grid of that
many digits are tried; the first grid with a neighbour inside the interval decides. If both are
inside and equally near, the caller decides (`Tie`).
-/

namespace SignalGraph

/-- The decimal `digits * 10 ^ exponent`. -/
structure Decimal where
  digits : Nat
  exponent : Int
deriving DecidableEq, Repr

namespace Decimal

/-- How many decimal digits a number has; none for zero. -/
def digitCount (n : Nat) : Nat :=
  if n = 0 then 0 else (Nat.toDigits 10 n).length

/-- The power of ten below or at `num / den`, for positive `num` and `den`. -/
def floorLog (num den : Nat) : Int :=
  if den ≤ num then (digitCount (num / den) : Int) - 1
  else -(digitCount ((den - 1) / num) : Int)

/-- Removes zeros from the end, at most `n` of them. -/
def dropZeros : Nat → Decimal → Decimal
  | 0, d => d
  | n + 1, d => if d.digits % 10 = 0 then dropZeros n ⟨d.digits / 10, d.exponent + 1⟩ else d

/-- The numbers that round to one binary number: those between `low / den` and `high / den`. -/
structure Interval where
  low : Nat
  value : Nat
  high : Nat
  den : Nat
  closed : Bool

/-- The interval of `m * 2 ^ e`. Below a power of two the neighbour is only half as far. -/
def interval (f : Format) (m : Nat) (e : Int) : Interval :=
  let below := if m = f.implicit ∧ f.lowest < e then 1 else 2
  let scale := if 2 ≤ e then Nat.pow 2 (e - 2).toNat else 1
  { low := (4 * m - below) * scale
    value := 4 * m * scale
    high := (4 * m + 2) * scale
    den := if 2 ≤ e then 1 else Nat.pow 2 (2 - e).toNat
    closed := m % 2 = 0 }

/-- Whether `d` is in the interval. -/
def Interval.contains (i : Interval) (d : Decimal) : Bool :=
  let up := Nat.pow 10 d.exponent.toNat
  let down := Nat.pow 10 (-d.exponent).toNat
  let point := d.digits * up * i.den
  if i.closed then i.low * down ≤ point && point ≤ i.high * down
  else i.low * down < point && point < i.high * down

/-- Which of two neighbours is taken when both are equally near. -/
inductive Tie where
  | toEven
  | up
deriving DecidableEq, Repr

/-- Whether the lower of two neighbours is taken; it has these digits, and the number lies
`num / den` of a step above it. -/
def Tie.takesLower (tie : Tie) (digits num den : Nat) : Bool :=
  2 * num < den || (2 * num == den && tie == .toEven && digits % 2 == 0)

/-- The nearer neighbour, on the grid of `count` digits, that is in the interval. -/
def Interval.onGrid (i : Interval) (tie : Tie) (leading : Int) (count : Nat) : Option Decimal :=
  let exponent := leading + 1 - count
  let num := i.value * Nat.pow 10 (-exponent).toNat
  let den := i.den * Nat.pow 10 exponent.toNat
  let below : Decimal := ⟨num / den, exponent⟩
  let above : Decimal := ⟨num / den + 1, exponent⟩
  match i.contains below, i.contains above with
  | true, true =>
    if tie.takesLower below.digits (num % den) den then some below else some above
  | true, false => some below
  | false, true => some above
  | false, false => none

/-- The shortest digits of `m * 2 ^ e`, for a positive `m`. Seventeen digits always suffice. -/
def shortest (f : Format) (tie : Tie) (m : Nat) (e : Int) : Decimal :=
  let i := interval f m e
  let leading := floorLog i.value i.den
  let found := (List.range 17).findSome? fun n => i.onGrid tie leading (n + 1)
  dropZeros 20 (found.getD ⟨i.value / i.den, 0⟩)

end Decimal

end SignalGraph
