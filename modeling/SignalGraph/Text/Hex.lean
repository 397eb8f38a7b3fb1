/-!
# Hexadecimal digits

Numbers in base sixteen, written with lower case letters and read in either case.
-/

namespace SignalGraph.Hex

/-- The digit of a number below sixteen. -/
def digit (n : Nat) : Char :=
  if n < 10 then Char.ofNat (48 + n) else Char.ofNat (87 + n)

def value? (c : Char) : Option Nat :=
  let n := c.toNat
  if 48 ≤ n ∧ n ≤ 57 then some (n - 48)
  else if 97 ≤ n ∧ n ≤ 102 then some (n - 87)
  else if 65 ≤ n ∧ n ≤ 70 then some (n - 55)
  else none

/-- The last `width` digits of a number, leading zeros included. -/
def fixed : (width n : Nat) → List Char
  | 0, _ => []
  | width + 1, n => fixed width (n / 16) ++ [digit (n % 16)]

/-- The digits of a number below 2^128 from the first that is not zero; zero is one digit. -/
def short (n : Nat) : List Char :=
  match (fixed 32 n).dropWhile (· = '0') with
  | [] => ['0']
  | digits => digits

/-- Reads digits onto the number read so far. -/
def readFrom (n : Nat) : List Char → Option Nat
  | [] => some n
  | c :: rest => (value? c).bind fun d => readFrom (16 * n + d) rest

/-- The number that one or more digits write. -/
def read? : List Char → Option Nat
  | [] => none
  | digits => readFrom 0 digits

end SignalGraph.Hex
