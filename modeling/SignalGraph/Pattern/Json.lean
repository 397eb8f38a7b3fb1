import SignalGraph.Json.Decode
import SignalGraph.Pattern.Basic

/-!
# Patterns in JSON

A pattern is an object with a member `kind`, which says what the other members are. Because
`kind` may come last, a pattern is held before it is decoded.
-/

namespace SignalGraph.Pattern

/-! ## Writing -/

mutual
def toJson : Pattern → Json
  | .call m factor returnParameter children =>
    .object
      [("kind", .string "native_module_call"),
       ("module", .string (toString m)),
       ("upsample_factor", .number (toString factor)),
       ("return_parameter", .number (toString returnParameter)),
       ("children", .array (toJsonAll children))]
  | .literal value => .object [("kind", .string "constant"), ("value", value.toJson)]
  | .array elements =>
    .object [("kind", .string "array"), ("elements", .array (toJsonAll elements))]
  | .wildcard constant =>
    .object [("kind", .string "input"), ("must_be_constant", .bool constant)]
  | .slot index =>
    .object [("kind", .string "input_reference"), ("slot", .number (toString index))]
  | .result => .object [("kind", .string "output")]
  | .ellipsis => .object [("kind", .string "end_of_list")]

def toJsonAll : List Pattern → List Json
  | [] => []
  | p :: ps => toJson p :: toJsonAll ps
end

/-! ## Reading -/

/-- The kinds of pattern. -/
inductive Shape where
  | call
  | literal
  | array
  | wildcard
  | slot
  | result
  | ellipsis
deriving DecidableEq, Repr

def Shape.named : List (String × Shape) :=
  [("native_module_call", .call), ("constant", .literal), ("array", .array),
   ("input", .wildcard), ("input_reference", .slot), ("output", .result),
   ("end_of_list", .ellipsis)]

/-- A pattern of a shape from its other fields, given how parts of it are read. -/
def ofFields? (part? : Json → Option Pattern) (shape : Shape) (fields : Json) : Option Pattern :=
  match shape with
  | .call => do
    let r ← fields.record? false ["module", "upsample_factor", "return_parameter", "children"]
    let module ← r.required "module" fun value => value.string?.bind ModuleId.ofString?
    let factor ← r.required "upsample_factor" (Json.nat? 32)
    let returnParameter ← r.required "return_parameter" (Json.nat? 64)
    let children ← r.required "children" (Json.list? part?)
    return .call module factor returnParameter children
  | .literal => do
    let r ← fields.record? false ["value"]
    return .literal (← r.required "value" Literal.ofJson?)
  | .array => do
    let r ← fields.record? false ["elements"]
    return .array (← r.required "elements" (Json.list? part?))
  | .wildcard => do
    let r ← fields.record? false ["must_be_constant"]
    return .wildcard (← r.withDefault "must_be_constant" false Json.bool?)
  | .slot => do
    let r ← fields.record? false ["slot"]
    return .slot (← r.required "slot" (Json.nat? 64))
  | .result => do
    let _ ← fields.record? false []
    return .result
  | .ellipsis => do
    let _ ← fields.record? false []
    return .ellipsis

/-- Reads a pattern whose arrays and objects are nested at most `height` deep. -/
def decode (height : Nat) (manner : Json.Manner) (value : Json) : Option Pattern :=
  match height with
  | 0 => none
  | height + 1 => do
    let (kind, fields) ← value.tagged?
    let shape ← Json.tag? manner Shape.named kind
    ofFields? (decode height .held) shape fields

/-- The pattern that a value writes, which stands inside `outer` arrays and objects. -/
def ofJson? (outer : Nat) (value : Json) : Option Pattern :=
  if value.holdable outer then decode value.height .direct value else none

end SignalGraph.Pattern
