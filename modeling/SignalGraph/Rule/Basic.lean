import SignalGraph.Json.Reader
import SignalGraph.Json.Writer
import SignalGraph.Pattern.Json

/-!
# Rules

A rule says that a value its input pattern describes may be computed in other ways, each described
by an output pattern. The alternatives are in order of preference.
-/

namespace SignalGraph

structure Rule where
  name : String
  input : Pattern
  outputs : List Pattern
deriving DecidableEq, Repr

namespace Rule

/-- The module that the input pattern calls. -/
def root? (r : Rule) : Option ModuleId :=
  match r.input with
  | .call m _ _ _ => some m
  | _ => none

/-! ## JSON -/

def toJson (r : Rule) : Json :=
  .object
    [("name", .string r.name),
     ("input_pattern", r.input.toJson),
     ("output_patterns", .array (r.outputs.map Pattern.toJson))]

/-- A rule of a list of rules. -/
def ofJson? (value : Json) : Option Rule := do
  let r ← value.record? false ["name", "input_pattern", "output_patterns"]
  let name ← r.required "name" Json.string?
  let input ← r.required "input_pattern" (Pattern.ofJson? 2)
  let outputs ← r.required "output_patterns" (Json.list? (Pattern.ofJson? 3))
  return { name, input, outputs }

def listToJson (rules : List Rule) : Json :=
  .array (rules.map toJson)

/-- The rules that a text lists. -/
def parseList? (text : String) : Option (List Rule) :=
  (Json.parse? text).bind (Json.list? ofJson?)

end Rule

end SignalGraph
