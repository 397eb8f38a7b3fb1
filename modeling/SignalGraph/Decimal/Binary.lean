/-!
# Binary floating point

Numbers `m * 2 ^ e` in the single and double formats, held as bit patterns. The bits below the
sign order the values they stand for, so one formula, `(e - lowest) * 2 ^ (precision - 1) + m`,
gives the pattern of subnormal and normal numbers alike.

`Format.round` takes a quotient of naturals to the nearest number of a format, a tie to the one
with the even pattern, and what is too large to infinity.
-/

namespace SignalGraph

/-- A binary floating-point format. -/
structure Format where
  /-- Significant bits, the implicit one included. -/
  precision : Nat
  /-- The exponent of the smallest number above zero. -/
  lowest : Int
  /-- The exponent field of infinities. -/
  top : Nat

namespace Format

def single : Format := ⟨24, -149, 255⟩

def double : Format := ⟨53, -1074, 2047⟩

/-- The first pattern with the implicit bit. -/
def implicit (f : Format) : Nat :=
  Nat.pow 2 (f.precision - 1)

/-- The pattern of infinity, without the sign. -/
def infinity (f : Format) : Nat :=
  f.top * f.implicit

/-- The weight of the sign bit. -/
def signBit (f : Format) : Nat :=
  (f.top + 1) * f.implicit

/-- The quotient `num / den`, a half going to the even neighbour. -/
def divEven (num den : Nat) : Nat :=
  let q := num / den
  let twice := 2 * (num % den)
  if twice < den then q else if den < twice then q + 1 else q + q % 2

/-- The power of two below or at `num / den`, for positive `num` and `den`. -/
def floorLog (num den : Nat) : Int :=
  let guess : Int := (num.log2 : Int) - den.log2
  let fits : Bool :=
    if 0 ≤ guess then den * Nat.pow 2 guess.toNat ≤ num else den ≤ num * Nat.pow 2 (-guess).toNat
  if fits then guess else guess - 1

/-- The pattern, without the sign, nearest to `num / den`. -/
def round (f : Format) (num den : Nat) : Nat :=
  if num = 0 then 0
  else
    let e := max f.lowest (floorLog num den - (f.precision - 1 : Nat))
    let m :=
      if 0 ≤ e then divEven num (den * Nat.pow 2 e.toNat)
      else divEven (num * Nat.pow 2 (-e).toNat) den
    min f.infinity ((e - f.lowest).toNat * f.implicit + m)

/-- A magnitude: `m * 2 ^ e`, infinity, or no number. -/
inductive Magnitude where
  | finite (m : Nat) (e : Int)
  | infinite
  | undefined
deriving DecidableEq, Repr

/-- What a pattern without the sign stands for. -/
def magnitude (f : Format) (pattern : Nat) : Magnitude :=
  let field := pattern / f.implicit
  let fraction := pattern % f.implicit
  if f.top ≤ field then if fraction = 0 then .infinite else .undefined
  else if field = 0 then .finite fraction f.lowest
  else .finite (fraction + f.implicit) (f.lowest + (field - 1 : Nat))

def isNegative (f : Format) (bits : Nat) : Bool :=
  f.signBit ≤ bits

def unsigned (f : Format) (bits : Nat) : Nat :=
  bits % f.signBit

def withSign (f : Format) (negative : Bool) (pattern : Nat) : Nat :=
  if negative then f.signBit + pattern else pattern

/-- The bits of format `g` nearest to the number that `bits` stands for in format `f`. -/
def convert (f g : Format) (bits : Nat) : Nat :=
  let pattern :=
    match f.magnitude (f.unsigned bits) with
    | .finite m e =>
      if 0 ≤ e then g.round (m * Nat.pow 2 e.toNat) 1 else g.round m (Nat.pow 2 (-e).toNat)
    | .infinite => g.infinity
    | .undefined => g.infinity + 1
  g.withSign (f.isNegative bits) pattern

/-- The bits nearest to an integer. -/
def ofInt (f : Format) (n : Int) : Nat :=
  f.withSign (n < 0) (f.round n.natAbs 1)

end Format

end SignalGraph
