import SignalGraph.Graph.Basic

/-!
# The text of a graph

One line a node: what it does, the ports that feed it, and its outputs with their types and, if
they are late, their latencies.
-/

namespace SignalGraph

namespace Graph

/-- The port that feeds an input, or a blank for none. -/
def sourceText (g : Graph) (i : InputId) : String :=
  match g.source? i with
  | some o => toString o
  | none => "_"

def inputsText (g : Graph) (node : Node) : String :=
  "(" ++ ", ".intercalate (node.inputs.map g.sourceText) ++ ")"

def outputText (g : Graph) (o : OutputId) : String :=
  match g.output? o with
  | some port =>
    s!"{o} {port.type}" ++ (if 0 < port.latency then s!" lat={port.latency}" else "")
  | none => toString o

def outputsText (g : Graph) (node : Node) : String :=
  if node.outputs.isEmpty then ""
  else " -> " ++ ", ".intercalate (node.outputs.map g.outputText)

def kindText (g : Graph) (node : Node) : String :=
  match node.kind with
  | .input name _ => s!"input '{name}'"
  | .output name _ => s!"output '{name}' " ++ g.inputsText node
  | .constant value => s!"const {value}"
  | .array _ => "array " ++ g.inputsText node
  | .struct fields =>
    let parts := (fields.zip node.inputs).map fun (name, i) => name ++ ": " ++ g.sourceText i
    "struct \x7b" ++ ", ".intercalate parts ++ "\x7d"
  | .call signature factor _ => s!"{signature.name}@{factor} " ++ g.inputsText node

def nodeText (g : Graph) (node : Node) : String :=
  s!"  {node.id}: " ++ g.kindText node ++ g.outputsText node ++ "\n"

def text (g : Graph) : String :=
  s!"ProgramGraph ({g.liveNodes.length} nodes, latency {g.surface.latency})\n"
    ++ String.join (g.liveNodes.map g.nodeText)

instance : ToString Graph := ⟨text⟩

end Graph

end SignalGraph
