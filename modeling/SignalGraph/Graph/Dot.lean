import SignalGraph.Graph.Walk

/-!
# Drawing a graph

A graph in the DOT language: the voice half and the effect half as clusters, then the nodes of
neither, then one edge for every input that is fed. A node in both halves is drawn with the voice.
-/

namespace SignalGraph

namespace Dot

/-- A character of a quoted label. -/
def escape (c : Char) : List Char :=
  if c = '"' ∨ c = '\\' then ['\\', c] else if c = '\n' then ['\\', 'n'] else [c]

def quote (label : String) : String :=
  String.ofList ('"' :: label.toList.flatMap escape ++ ['"'])

/-- Constants are labelled by their values; a double is marked as such. -/
def literalLabel (value : Literal) : String :=
  match value with
  | .float bits => Literal.shown.write .single bits.toNat
  | .double bits => Literal.shown.write .double bits.toNat ++ "d"
  | other => other.text

def label : Kind → String
  | .input name _ => "in " ++ name
  | .output name _ => "out " ++ name
  | .constant value => literalLabel value
  | .array element => element.name ++ "[]"
  | .struct fields => "\x7b" ++ ", ".intercalate fields ++ "\x7d"
  | .call signature factor latency =>
    s!"{signature.name}@{factor}" ++ (if 0 < latency then s!" (+{latency})" else "")

def shape : Kind → String
  | .input .. => "shape=invhouse"
  | .output .. => "shape=house"
  | .constant _ => "shape=plaintext"
  | .array _ | .struct _ => "shape=record"
  | .call signature _ _ => if signature.sideEffects then "shape=box, peripheries=2" else "shape=box"

def nodeLine (node : Node) : String :=
  s!"{node.id} [label=" ++ quote (label node.kind) ++ ", " ++ shape node.kind ++ "];"

/-- The edge into an input in a slot of a node, if the input is fed. -/
def edgeLine? (g : Graph) (n : NodeId) (slot : Nat) (i : InputId) : Option String := do
  let port ← g.output? (← g.source? i)
  let latency := if 0 < port.latency then s!" +{port.latency}" else ""
  let style := if port.type.isConstant then ", style=dashed" else ""
  some (s!"    {port.node} -> {n} [label=\"{port.type}{latency}\", headlabel=\"{slot}\"{style}];")

def edgeLines (g : Graph) (node : Node) : List String :=
  node.inputs.zipIdx.filterMap fun (i, slot) => edgeLine? g node.id slot i

def cluster (name : String) (members : List Node) : List String :=
  if members.isEmpty then []
  else
    ["", s!"    subgraph cluster_{name} \x7b", s!"        label=\"{name}\";",
     "        style=rounded;", "        color=gray50;"]
      ++ members.map (fun node => "        " ++ nodeLine node) ++ ["    \x7d"]

/-- Nodes outside the clusters. -/
def loose (members : List Node) : List String :=
  if members.isEmpty then [] else "" :: members.map fun node => "    " ++ nodeLine node

def lines (g : Graph) : List String :=
  let voice := g.voiceNodes
  let effect := g.effectNodes
  ["digraph program \x7b", "    rankdir=LR;", "    node [fontname=\"Helvetica\", fontsize=10];",
   "    edge [fontname=\"Helvetica\", fontsize=9];"]
    ++ cluster "voice" (g.liveNodes.filter fun n => n.id ∈ voice)
    ++ cluster "effect" (g.liveNodes.filter fun n => n.id ∉ voice ∧ n.id ∈ effect)
    ++ loose (g.liveNodes.filter fun n => n.id ∉ voice ∧ n.id ∉ effect)
    ++ "" :: g.liveNodes.flatMap (edgeLines g) ++ ["\x7d"]

end Dot

/-- The graph in the DOT language. -/
def Graph.dot (g : Graph) : String :=
  String.join ((Dot.lines g).map fun line => line ++ "\n")

end SignalGraph
