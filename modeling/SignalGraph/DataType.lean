import SignalGraph.Fault
import SignalGraph.Json.Decode

/-!
# Data types

What flows through an output port: a primitive or a struct, alone or in an array, known at compile
time or varying at a multiple of the base rate. Structs are single constants, and strings are
constants.

`ParameterType` is what a module declares for a parameter. Its rate is relative to the rate of the
call.
-/

namespace SignalGraph

inductive Primitive where
  | float
  | double
  | int
  | bool
  | string
deriving DecidableEq, Repr

namespace Primitive

def name : Primitive → String
  | .float => "float"
  | .double => "double"
  | .int => "int"
  | .bool => "bool"
  | .string => "string"

instance : ToString Primitive := ⟨name⟩

def named : List (String × Primitive) :=
  [.float, .double, .int, .bool, .string].map fun p => (p.name, p)

end Primitive

/-- When the value of a parameter has to be known. -/
inductive Mutability where
  /-- At compile time. -/
  | constant
  /-- At compile time if all arguments of this kind are. -/
  | dependent
  /-- At run time at the latest. -/
  | varying
deriving DecidableEq, Repr

namespace Mutability

def name : Mutability → String
  | .constant => "constant"
  | .dependent => "dependent_constant"
  | .varying => "variable"

def named : List (String × Mutability) :=
  [.constant, .dependent, .varying].map fun m => (m.name, m)

end Mutability

/-! ## Types of ports -/

inductive DataTypeError where
  | zeroFactor
  | variableStruct
  | structArray
  | variableString
deriving DecidableEq, Repr

def DataTypeError.message : DataTypeError → String
  | .zeroFactor => "upsample factor must be positive"
  | .variableStruct => "struct values cannot carry an upsample factor"
  | .structArray => "arrays of structs are not supported"
  | .variableString => "string values must be compile-time constants"

/-- The type of an output port. -/
structure DataType where
  /-- None for a struct. -/
  primitive : Option Primitive
  /-- The multiple of the base rate; none for a compile-time constant. -/
  factor : Option Nat
  isArray : Bool
deriving DecidableEq, Repr

namespace DataType

/-- The type with these parts, unless they contradict each other. -/
def make (primitive : Option Primitive) (factor : Option Nat) (isArray : Bool) :
    Except DataTypeError DataType :=
  if factor = some 0 then .error .zeroFactor
  else if primitive = none ∧ factor ≠ none then .error .variableStruct
  else if primitive = none ∧ isArray then .error .structArray
  else if primitive = some .string ∧ factor ≠ none then .error .variableString
  else .ok ⟨primitive, factor, isArray⟩

/-- A single constant. -/
def constant (p : Primitive) : DataType :=
  ⟨some p, none, false⟩

/-- A single value that varies at the multiple `factor` of the base rate. -/
def varying (p : Primitive) (factor : Nat) : Except Fault DataType :=
  if factor = 0 then .error .zeroFactor
  else if p = .string then .error .variableString
  else .ok ⟨some p, some factor, false⟩

def struct : DataType :=
  ⟨none, none, false⟩

def isConstant (t : DataType) : Bool :=
  t.factor.isNone

def isStruct (t : DataType) : Bool :=
  t.primitive.isNone

/-- An array of such values. -/
def toArray (t : DataType) : Except Fault DataType :=
  if t.isStruct then .error .structArray else .ok { t with isArray := true }

/-- One element of such an array. -/
def toElement (t : DataType) : DataType :=
  { t with isArray := false }

def text (t : DataType) : String :=
  (match t.primitive with
    | some p => p.name
    | none => "struct")
  ++ (if t.isArray then "[]" else "")
  ++ (match t.factor with
    | some u => s!"@{u}"
    | none => " const")

instance : ToString DataType := ⟨text⟩

end DataType

/-! ## Types of parameters -/

/-- The declared type of a module parameter. -/
structure ParameterType where
  mutability : Mutability
  primitive : Primitive
  /-- Relative to the factor of the call. -/
  factor : Nat := 1
  isArray : Bool := false
deriving DecidableEq, Repr

namespace ParameterType

/-- What stands in messages for the type of a parameter. -/
def expected (t : ParameterType) : DataType :=
  { DataType.constant t.primitive with isArray := t.isArray }

def fieldNames : List String :=
  ["runtime_mutability", "primitive_type", "upsample_factor", "is_array"]

def ofRecord? (manner : Json.Manner) (r : Json.Record) : Option ParameterType := do
  let mutability ← r.required "runtime_mutability" (Json.name? manner Mutability.named)
  let primitive ← r.required "primitive_type" (Json.name? manner Primitive.named)
  let factor ← r.withDefault "upsample_factor" 1 (Json.nat? 32)
  let isArray ← r.withDefault "is_array" false Json.bool?
  return { mutability, primitive, factor, isArray }

def ofJson? (value : Json) : Option ParameterType :=
  (value.record? false fieldNames).bind (ofRecord? .direct)

def members (t : ParameterType) : List (String × Json) :=
  [("runtime_mutability", .string t.mutability.name),
   ("primitive_type", .string t.primitive.name),
   ("upsample_factor", .number (toString t.factor)),
   ("is_array", .bool t.isArray)]

def toJson (t : ParameterType) : Json :=
  .object t.members

end ParameterType

end SignalGraph
