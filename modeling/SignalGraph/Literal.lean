import SignalGraph.DataType
import SignalGraph.Decimal.Layout
import SignalGraph.Text.Quoted

/-!
# Literals

Values written in a program. Floating-point literals are their bit patterns, so equality tells
`0.0` from `-0.0`, and a pattern that is no number equals itself.
-/

namespace SignalGraph

inductive Literal where
  | float (bits : UInt32)
  | double (bits : UInt64)
  | int (value : Int32)
  | bool (value : Bool)
  | string (text : String)
deriving DecidableEq, Repr

namespace Literal

def primitive : Literal → Primitive
  | .float _ => .float
  | .double _ => .double
  | .int _ => .int
  | .bool _ => .bool
  | .string _ => .string

def dataType (value : Literal) : DataType :=
  .constant value.primitive

/-- Whether the literal is an infinity. -/
def isInfinite : Literal → Bool
  | .float bits => Format.single.magnitude (Format.single.unsigned bits.toNat) == .infinite
  | .double bits => Format.double.magnitude (Format.double.unsigned bits.toNat) == .infinite
  | _ => false

/-! ## Text -/

/-- Numbers in messages and graphs: the point is at its place for exponents from -4 to 15. -/
def shown : Layout := ⟨-4, 15, "", "inf", "NaN", .up⟩

def text : Literal → String
  | .float bits => shown.write .single bits.toNat ++ "f"
  | .double bits => shown.write .double bits.toNat
  | .int value => toString value.toInt
  | .bool value => if value then "true" else "false"
  | .string text => Quoted.quote text

instance : ToString Literal := ⟨text⟩

/-! ## JSON -/

/-- Singles in JSON: the point is at its place for exponents from -6 to 12. -/
def storedSingle : Layout := ⟨-6, 12, "+", "null", "null", .toEven⟩

/-- Doubles in JSON: the point is at its place for exponents from -5 to 15. -/
def storedDouble : Layout := ⟨-5, 15, "+", "null", "null", .toEven⟩

/-- The JSON number of a finite floating-point value, and null for any other. -/
def stored (layout : Layout) (f : Format) (bits : Nat) : Json :=
  match f.magnitude (f.unsigned bits) with
  | .finite _ _ => .number (layout.write f bits)
  | _ => .null

def payload : Literal → Json
  | .float bits => stored storedSingle .single bits.toNat
  | .double bits => stored storedDouble .double bits.toNat
  | .int value => .number (toString value.toInt)
  | .bool value => .bool value
  | .string text => .string text

def toJson (value : Literal) : Json :=
  .object [(value.primitive.name, value.payload)]

def ofPayload? : Primitive → Json → Option Literal
  | .float, value =>
    (value.numeral?.bind Numeral.single?).map fun bits => .float (UInt32.ofNat bits)
  | .double, value =>
    (value.numeral?.bind Numeral.double?).map fun bits => .double (UInt64.ofNat bits)
  | .int, value => (value.int? (-2147483648) 2147483648).map fun i => .int (Int32.ofInt i)
  | .bool, value => value.bool?.map .bool
  | .string, value => value.string?.map .string

/-- A literal is an object with one member, which is named for its type. -/
def ofJson? : Json → Option Literal
  | .object [(name, value)] =>
    (Primitive.named.lookup name).bind fun p => ofPayload? p value
  | _ => none

end Literal

/-! ## Known values -/

/-- A value that is known at compile time. -/
inductive Value where
  | scalar (value : Literal)
  | array (items : List Value)
  | struct (fields : List (String × Value))
deriving Repr

namespace Value

mutual
def same : Value → Value → Bool
  | .scalar a, .scalar b => a = b
  | .array as, .array bs => sameItems as bs
  | .struct as, .struct bs => sameFields as bs
  | _, _ => false

def sameItems : List Value → List Value → Bool
  | [], [] => true
  | a :: as, b :: bs => same a b && sameItems as bs
  | _, _ => false

def sameFields : List (String × Value) → List (String × Value) → Bool
  | [], [] => true
  | (n, a) :: as, (m, b) :: bs => n == m && same a b && sameFields as bs
  | _, _ => false
end

mutual
theorem same_iff : (a b : Value) → (same a b = true ↔ a = b)
  | .scalar a, b => by cases b <;> simp [same]
  | .array as, b => by cases b <;> simp [same, sameItems_iff as]
  | .struct as, b => by cases b <;> simp [same, sameFields_iff as]

theorem sameItems_iff : (as bs : List Value) → (sameItems as bs = true ↔ as = bs)
  | [], bs => by cases bs <;> simp [sameItems]
  | a :: as, bs => by cases bs <;> simp [sameItems, same_iff a, sameItems_iff as]

theorem sameFields_iff : (as bs : List (String × Value)) → (sameFields as bs = true ↔ as = bs)
  | [], bs => by cases bs <;> simp [sameFields]
  | (n, a) :: as, bs => by
    cases bs <;> simp [sameFields, same_iff a, sameFields_iff as, Prod.ext_iff, and_assoc]
end

instance : DecidableEq Value := fun a b => decidable_of_iff _ (same_iff a b)

end Value

end SignalGraph
