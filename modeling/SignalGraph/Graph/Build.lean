import SignalGraph.BuildError
import SignalGraph.Graph.Link

/-!
# Adding nodes

A node is added after everything that feeds it. An addition that can be refused gives the graph
that is left beside its answer; the sources are checked first, so nothing has been added by then.
-/

namespace SignalGraph

namespace Graph

/-! ## Parts

Ports are added only while a node is, to the node that was just made. -/

/-- A node without ports. -/
def addNode (g : Graph) (kind : Kind) (location : Option Location) : Graph × NodeId :=
  let id := g.counters.next .node
  ({ g with
      counters := g.counters.advance .node
      nodes := g.nodes.push { id, kind, location } },
   id)

/-- One output more for a node. -/
def addOutputPort (g : Graph) (n : NodeId) (type : DataType) (latency : Nat) : Graph :=
  let id := g.counters.next .output
  { g with
    counters := g.counters.advance .output
    outputs := g.outputs.push { id, node := n, type, latency }
    nodes := g.nodes.modify n.index fun node => { node with outputs := node.outputs ++ [id] } }

/-- One input more for a node, without a source. -/
def addInputPort (g : Graph) (n : NodeId) : Graph × InputId :=
  let id := g.counters.next .input
  ({ g with
      counters := g.counters.advance .input
      inputs := g.inputs.push { id, node := n }
      nodes := g.nodes.modify n.index fun node => { node with inputs := node.inputs ++ [id] } },
   id)

/-- One input for each of the sources. -/
def addInputs (g : Graph) (n : NodeId) : List OutputId → Except Fault Graph
  | [] => .ok g
  | o :: rest => do
    let (g, i) := g.addInputPort n
    (← g.connect i (some o)).addInputs n rest

def addOutputs (g : Graph) (n : NodeId) : List (DataType × Nat) → Graph
  | [] => g
  | (type, latency) :: rest => (g.addOutputPort n type latency).addOutputs n rest

/-- A node with inputs from `sources` and outputs of these types and latencies. -/
def insert (g : Graph) (kind : Kind) (location : Option Location) (sources : List OutputId)
    (results : List (DataType × Nat)) : Except Fault (Graph × NodeId) := do
  let (g, n) := g.addNode kind location
  return ((← g.addInputs n sources).addOutputs n results, n)

/-- Adds a node whose outputs are worked out first. If it is refused then, the graph stays as it
is. -/
def insertChecked (g : Graph) (kind : Kind) (location : Option Location) (sources : List OutputId)
    (check : Outcome BuildError (List (DataType × Nat))) :
    Except Fault (Graph × Except BuildError NodeId) := do
  match ← check.run with
  | .error e => return (g, .error e)
  | .ok results =>
    let (g, n) ← g.insert kind location sources results
    return (g, .ok n)

/-! ## Channels and constants -/

/-- A channel that enters. -/
def addInput (g : Graph) (name : String) (type : DataType) (location : Option Location) :
    Graph × NodeId :=
  let (g, n) := g.addNode (.input name type) location
  (g.addOutputPort n type 0, n)

/-- Whether a channel of type `declared` may be fed from a port of type `found`: a constant may
stand in for any rate. -/
def suits (declared found : DataType) : Bool :=
  found.primitive = declared.primitive && found.isArray = declared.isArray
    && (found.isConstant || found.factor = declared.factor)

/-- A channel that leaves, fed from `source`. -/
def addOutput (g : Graph) (name : String) (type : DataType) (source : OutputId)
    (location : Option Location) : Except Fault (Graph × Except BuildError NodeId) :=
  g.insertChecked (.output name type) location [source] do
    let found := (← g.output source).type
    if !suits type found then throw (.outputType name type.text found.text)
    return []

def addConstant (g : Graph) (value : Literal) (location : Option Location) : Graph × NodeId :=
  let (g, n) := g.addNode (.constant value) location
  (g.addOutputPort n value.dataType 0, n)

/-! ## Arrays -/

/-- The rate and the latency that the elements of an array have in common so far: variable
elements have one rate, constants go with any, and the largest latency counts. -/
structure Elements where
  factor : Option Nat := none
  latency : Nat := 0

/-- Takes one element more into account. -/
def Elements.add (e : Elements) (element : Primitive) (index : Nat) (port : OutputPort) :
    Except BuildError Elements :=
  if port.type.primitive ≠ some element ∨ port.type.isArray then
    .error (.elementType index (DataType.constant element).text port.type.text)
  else
    match port.type.factor, e.factor with
    | none, _ => .ok e
    | some u, some f =>
      if f ≠ u then .error (.elementFactor index f u)
      else .ok ⟨some u, max e.latency port.latency⟩
    | some u, none => .ok ⟨some u, max e.latency port.latency⟩

def elementsFrom (g : Graph) (element : Primitive) (e : Elements) :
    List (OutputId × Nat) → Outcome BuildError Elements
  | [] => return e
  | (o, index) :: rest => do
    let port ← g.output o
    match e.add element index port with
    | .ok e => g.elementsFrom element e rest
    | .error err => throw err

/-- The type of an array with elements at a rate, or of constants. -/
def arrayType (element : Primitive) (factor : Option Nat) : Except Fault DataType := do
  match factor with
  | some u => (← DataType.varying element u).toArray
  | none => (DataType.constant element).toArray

/-- The type and the latency of an array of these elements. -/
def arrayResult (g : Graph) (element : Primitive) (elements : List OutputId) :
    Outcome BuildError (DataType × Nat) := do
  let e ← g.elementsFrom element {} elements.zipIdx
  let type ← arrayType element e.factor
  return (type, e.latency)

def addArray (g : Graph) (element : Primitive) (elements : List OutputId)
    (location : Option Location) : Except Fault (Graph × Except BuildError NodeId) :=
  g.insertChecked (.array element) location elements do
    return [← g.arrayResult element elements]

/-! ## Structs -/

/-- Fields have different names and constant values. -/
def checkFields (g : Graph) (seen : List String) :
    List (String × OutputId) → Outcome BuildError Unit
  | [] => return ()
  | (name, o) :: rest => do
    if name ∈ seen then throw (.duplicateField name)
    if !(← g.output o).type.isConstant then throw (.variableField name)
    g.checkFields (name :: seen) rest

def addStruct (g : Graph) (fields : List (String × OutputId)) (location : Option Location) :
    Except Fault (Graph × Except BuildError NodeId) :=
  g.insertChecked (.struct (fields.map Prod.fst)) location (fields.map Prod.snd) do
    g.checkFields [] fields
    return [(.struct, 0)]

end Graph

end SignalGraph
