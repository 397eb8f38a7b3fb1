import SignalGraph.BuildError
import SignalGraph.DataType
import SignalGraph.Diagnostic
import SignalGraph.Json.Reader
import SignalGraph.LoadError
import SignalGraph.Literal

/-!
# Graph descriptions

A program graph in JSON: the channels that enter, the nodes in an order in which each comes after
what it uses, and the channels that leave. Entries name the ports they use: `a` is the first
output of the entry `a`, and `a.2` its third.
-/

namespace SignalGraph

/-- The declared type of a channel, which varies. -/
structure ChannelType where
  primitive : Primitive
  factor : Nat := 1
  isArray : Bool := false
deriving DecidableEq, Repr

/-- A channel that enters. -/
structure Channel where
  name : String
  type : ChannelType
  location : Option Location := none
deriving DecidableEq, Repr

/-- A channel that leaves. -/
structure Sink where
  name : String
  type : ChannelType
  source : String
  location : Option Location := none
deriving DecidableEq, Repr

/-- What an entry adds to the graph. -/
inductive EntryKind where
  | constant (value : Literal)
  | array (element : Primitive) (elements : List String)
  | struct (fields : List (String × String))
  | call (module : String) (factor : Nat) (arguments : List String)
  /-- Closes a channel of the voice half and opens it in the effect half. -/
  | boundary (type : ChannelType) (source : String)
deriving DecidableEq, Repr

structure Entry where
  name : String
  kind : EntryKind
  location : Option Location := none
deriving DecidableEq, Repr

structure Description where
  inputs : List Channel := []
  entries : List Entry := []
  outputs : List Sink := []
  voiceActive : Option String := none
  effectActive : Option String := none
deriving DecidableEq, Repr

/-! ## JSON -/

def ChannelType.ofJson? (manner : Json.Manner) (value : Json) : Option ChannelType := do
  let r ← value.record? true ["primitive", "upsample_factor", "is_array"]
  let primitive ← r.required "primitive" (Json.name? manner Primitive.named)
  let factor ← r.withDefault "upsample_factor" 1 (Json.nat? 32)
  let isArray ← r.withDefault "is_array" false Json.bool?
  return { primitive, factor, isArray }

def Channel.ofJson? (value : Json) : Option Channel := do
  let r ← value.record? true ["name", "type", "location"]
  let name ← r.required "name" Json.string?
  let type ← r.required "type" (ChannelType.ofJson? .direct)
  let location ← r.optional "location" Location.ofJson?
  return { name, type, location }

def Sink.ofJson? (value : Json) : Option Sink := do
  let r ← value.record? true ["name", "type", "source", "location"]
  let name ← r.required "name" Json.string?
  let type ← r.required "type" (ChannelType.ofJson? .direct)
  let source ← r.required "source" Json.string?
  let location ← r.optional "location" Location.ofJson?
  return { name, type, source, location }

namespace Entry

/-- The kinds of entry. -/
inductive Shape where
  | constant
  | array
  | struct
  | call
  | boundary
deriving DecidableEq, Repr

def Shape.named : List (String × Shape) :=
  [("constant", .constant), ("array", .array), ("struct", .struct), ("call", .call),
   ("boundary", .boundary)]

/-- The fields of a kind of entry, besides its name and its location. -/
def Shape.fieldNames : Shape → List String
  | .constant => ["value"]
  | .array => ["element_type", "elements"]
  | .struct => ["fields"]
  | .call => ["module", "upsample_factor", "arguments"]
  | .boundary => ["type", "source"]

/-- A field of a struct: its name and the port of its value. -/
def field? (value : Json) : Option (String × String) := do
  let r ← value.record? false ["name", "value"]
  return (← r.required "name" Json.string?, ← r.required "value" Json.string?)

def kind? (shape : Shape) (r : Json.Record) : Option EntryKind :=
  match shape with
  | .constant => do return .constant (← r.required "value" Literal.ofJson?)
  | .array => do
    let element ← r.required "element_type" (Json.name? .held Primitive.named)
    let elements ← r.required "elements" (Json.list? Json.string?)
    return .array element elements
  | .struct => do return .struct (← r.required "fields" (Json.list? field?))
  | .call => do
    let module ← r.required "module" Json.string?
    let factor ← r.withDefault "upsample_factor" 1 (Json.nat? 32)
    let arguments ← r.required "arguments" (Json.list? Json.string?)
    return .call module factor arguments
  | .boundary => do
    let type ← r.required "type" (ChannelType.ofJson? .held)
    let source ← r.required "source" Json.string?
    return .boundary type source

/-- An entry of the list of entries of a description. Its kind may come last, so it is held. -/
def ofJson? (value : Json) : Option Entry := do
  guard (value.holdable 2)
  let (tag, fields) ← value.tagged?
  let shape ← Json.tag? .direct Shape.named tag
  let r ← fields.record? false (["name"] ++ shape.fieldNames ++ ["location"])
  let name ← r.required "name" Json.string?
  let kind ← kind? shape r
  let location ← r.optional "location" Location.ofJson?
  return { name, kind, location }

end Entry

namespace Description

def ofJson? (value : Json) : Option Description := do
  let r ← value.record? true ["inputs", "nodes", "outputs", "voice_active", "effect_active"]
  let inputs ← r.withDefault "inputs" [] (Json.list? Channel.ofJson?)
  let entries ← r.withDefault "nodes" [] (Json.list? Entry.ofJson?)
  let outputs ← r.withDefault "outputs" [] (Json.list? Sink.ofJson?)
  let voiceActive ← r.optional "voice_active" Json.string?
  let effectActive ← r.optional "effect_active" Json.string?
  return { inputs, entries, outputs, voiceActive, effectActive }

end Description

/-! ## Errors -/

/-- Why a description cannot be built. -/
inductive DescriptionError where
  | duplicateName (name : String)
  | unknownReference (node reference : String)
  | noSuchOutput (node reference : String) (slot count : Nat)
  | unknownModule (node module : String)
  | argumentCount (node module : String) (expected found : Nat)
  | invalidType (name : String) (error : DataTypeError)
  | build (node : String) (location : Option Location) (error : BuildError)
deriving DecidableEq, Repr

namespace DescriptionError

def message : DescriptionError → String
  | .duplicateName name => s!"duplicate name '{name}'"
  | .unknownReference node reference => s!"'{node}': unknown reference '{reference}'"
  | .noSuchOutput node reference slot count =>
    s!"'{node}': '{reference}' names output {slot} but the node has {count}"
  | .unknownModule node module => s!"'{node}': unknown module '{module}'"
  | .argumentCount node module expected found =>
    s!"'{node}': '{module}' takes {expected} argument(s), {found} given"
  | .invalidType name error => s!"'{name}': {error.message}"
  | .build node _ error => s!"'{node}': {error.message}"

/-- A construction error keeps its own code and place. -/
def diagnostic (e : DescriptionError) : Diagnostic :=
  match e with
  | .build _ location error => .error location e.message error.code
  | _ => .error none e.message (some Code.E0201)

/-- The diagnostic of a description that could not be loaded. -/
def loadDiagnostic (e : LoadError DescriptionError) : Diagnostic :=
  match e with
  | .invalid error => error.diagnostic
  | _ => .error none (e.message message) (some Code.E0201)

end DescriptionError

/-- Reads a description from a text. -/
def Description.load (text origin : String) : Except (LoadError DescriptionError) Description :=
  match (Json.parse? text).bind Description.ofJson? with
  | some d => .ok d
  | none => .error (.malformed origin)

end SignalGraph
