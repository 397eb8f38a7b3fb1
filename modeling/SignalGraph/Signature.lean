import SignalGraph.DataType
import SignalGraph.ModuleId

/-!
# Signatures

What a native module declares: its parameters in order, in and out mixed, which out parameter
carries the value of a call, and whether a call does something besides giving values.

A parameter is known by its place among all parameters. Calls number inputs and outputs apart; the
*slot* of a parameter is its place among those of its direction.
-/

namespace SignalGraph

inductive Direction where
  | input
  | output
deriving DecidableEq, Repr

namespace Direction

def name : Direction → String
  | .input => "in"
  | .output => "out"

def named : List (String × Direction) :=
  [.input, .output].map fun d => (d.name, d)

end Direction

structure Parameter where
  name : String
  direction : Direction
  type : ParameterType
deriving DecidableEq, Repr

def Parameter.isInput (p : Parameter) : Bool :=
  p.direction = .input

/-- A parameter for floats. -/
def Parameter.float (name : String) (direction : Direction) (mutability : Mutability := .varying)
    (factor : Nat := 1) (isArray : Bool := false) : Parameter :=
  ⟨name, direction, { primitive := .float, mutability, factor, isArray }⟩

structure Signature where
  id : ModuleId
  name : String
  parameters : List Parameter
  /-- The place of the parameter that carries the value of a call. -/
  returnParameter : Option Nat := none
  /-- Calls with side effects are kept even if nothing uses their values. -/
  sideEffects : Bool := false
deriving DecidableEq, Repr

namespace Signature

/-- A module that makes one float of another. -/
def unary (id : Nat) (name : String) : Signature where
  id := .ofNat id
  name := name
  parameters := [.float "x" .input, .float "y" .output]
  returnParameter := some 1

/-- The in parameters with their places. -/
def inputs (s : Signature) : List (Parameter × Nat) :=
  s.parameters.zipIdx.filter fun p => p.1.isInput

/-- The out parameters with their places. -/
def outputs (s : Signature) : List (Parameter × Nat) :=
  s.parameters.zipIdx.filter fun p => !p.1.isInput

/-- The slot of the parameter at a place, if it is an in parameter. -/
def inputSlot (s : Signature) (place : Nat) : Option Nat :=
  s.inputs.findIdx? fun p => p.2 == place

/-- The slot of the parameter at a place, if it is an out parameter. -/
def outputSlot (s : Signature) (place : Nat) : Option Nat :=
  s.outputs.findIdx? fun p => p.2 == place

def text (s : Signature) : String :=
  let parameters := s.parameters.map fun p => p.direction.name ++ " " ++ p.name
  s.name ++ "(" ++ ", ".intercalate parameters ++ ")"

instance : ToString Signature := ⟨text⟩

end Signature

/-! ## Validity -/

/-- What is wrong with a signature. -/
inductive SignatureError where
  | emptyName
  | zeroFactor (index : Nat) (parameter : String)
  | variableString (index : Nat) (parameter : String)
  | returnNotOut (index : Nat) (parameter : String)
  | returnOutOfRange (index count : Nat)
deriving DecidableEq, Repr

def SignatureError.message : SignatureError → String
  | .emptyName => "module name is empty"
  | .zeroFactor index parameter => s!"parameter {index} ('{parameter}') has a zero upsample factor"
  | .variableString index parameter =>
    s!"string output parameter {index} ('{parameter}') must be constant"
  | .returnNotOut index parameter =>
    s!"return parameter {index} ('{parameter}') is not an out parameter"
  | .returnOutOfRange index count =>
    s!"return parameter {index} out of range ({count} parameters)"

namespace Signature

/-- Rates are positive, and strings that come out are constants. -/
def checkParameter (p : Parameter) (index : Nat) : Except SignatureError Unit :=
  if p.type.factor = 0 then .error (.zeroFactor index p.name)
  else if !p.isInput ∧ p.type.primitive = .string ∧ p.type.mutability ≠ .constant then
    .error (.variableString index p.name)
  else .ok ()

def checkParameters : List (Parameter × Nat) → Except SignatureError Unit
  | [] => .ok ()
  | (p, index) :: rest => do
    checkParameter p index
    checkParameters rest

/-- The value of a call comes out of an out parameter. -/
def checkReturn (s : Signature) : Except SignatureError Unit :=
  match s.returnParameter with
  | none => .ok ()
  | some index =>
    match s.parameters[index]? with
    | none => .error (.returnOutOfRange index s.parameters.length)
    | some p => if p.isInput then .error (.returnNotOut index p.name) else .ok ()

def validate (s : Signature) : Except SignatureError Unit := do
  if s.name.isEmpty then throw .emptyName
  checkParameters s.parameters.zipIdx
  s.checkReturn

end Signature

/-! ## JSON -/

namespace Parameter

def toJson (p : Parameter) : Json :=
  .object ([("name", .string p.name), ("direction", .string p.direction.name)] ++ p.type.members)

/-- A parameter is an object; the members of its type stand among its own. -/
def ofJson? (manner : Json.Manner) (value : Json) : Option Parameter := do
  let r ← value.members? false (["name", "direction"] ++ ParameterType.fieldNames)
  let name ← r.required "name" Json.string?
  let direction ← r.required "direction" (Json.name? manner Direction.named)
  let type ← ParameterType.ofRecord? .held r
  return { name, direction, type }

end Parameter

namespace Signature

def fieldNames : List String :=
  ["id", "name", "parameters", "return_parameter", "side_effects"]

def toJson (s : Signature) : Json :=
  .object
    [("id", .string (toString s.id)),
     ("name", .string s.name),
     ("parameters", .array (s.parameters.map Parameter.toJson)),
     ("return_parameter",
      match s.returnParameter with
      | some index => .number (toString index)
      | none => .null),
     ("side_effects", .bool s.sideEffects)]

/-- The fields of a signature, given how its parameters are read. -/
def ofRecord? (parameter? : Json → Option Parameter) (r : Json.Record) : Option Signature := do
  let id ← r.required "id" fun value => value.string?.bind ModuleId.ofString?
  let name ← r.required "name" Json.string?
  let parameters ← r.required "parameters" (Json.list? parameter?)
  let returnParameter ← r.optional "return_parameter" (Json.nat? 64)
  let sideEffects ← r.withDefault "side_effects" false Json.bool?
  return { id, name, parameters, returnParameter, sideEffects }

/-- A signature that stands alone. Its parameters are held one by one. -/
def ofJson? (value : Json) : Option Signature := do
  let r ← value.record? false fieldNames
  r |> ofRecord? fun p => if p.holdable 2 then Parameter.ofJson? .direct p else none

end Signature

end SignalGraph
