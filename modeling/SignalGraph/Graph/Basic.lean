import SignalGraph.Graph.Arena
import SignalGraph.Diagnostic
import SignalGraph.Literal
import SignalGraph.Signature

/-!
# Program graphs

A graph has nodes, and every node has input and output ports of its own. An input port is fed by
at most one output port and names it as its source; an output port names the inputs it feeds.

Ids that a caller brings may be dead. Asking with `node?`, `input?` and `output?` answers with an
option; `node`, `input` and `output` fault.
-/

namespace SignalGraph

structure OutputPort where
  id : OutputId
  node : NodeId
  type : DataType
  /-- In samples at the rate of this port. -/
  latency : Nat
  /-- The inputs it feeds, ascending. -/
  consumers : List InputId := []
deriving DecidableEq, Repr

structure InputPort where
  id : InputId
  node : NodeId
  source : Option OutputId := none
deriving DecidableEq, Repr

/-- What a node does. -/
inductive Kind where
  /-- A channel that enters the program, or its effect half. -/
  | input (name : String) (type : DataType)
  /-- A channel that leaves the program, or its voice half. -/
  | output (name : String) (type : DataType)
  | constant (value : Literal)
  | array (element : Primitive)
  | struct (fields : List String)
  /-- A call of a native module. The latency is that of the arguments and of the module together,
  in samples at the rate of the call. -/
  | call (signature : Signature) (factor latency : Nat)
deriving DecidableEq, Repr

namespace Kind

def label : Kind → String
  | .input .. => "input"
  | .output .. => "output"
  | .constant _ => "const"
  | .array _ => "array"
  | .struct _ => "struct"
  | .call .. => "call"

def isCall : Kind → Bool
  | .call .. => true
  | _ => false

end Kind

structure Node where
  id : NodeId
  kind : Kind
  inputs : List InputId := []
  outputs : List OutputId := []
  location : Option Location
deriving DecidableEq, Repr

/-- What of a program is seen from outside. -/
structure Surface where
  inputs : List NodeId := []
  outputs : List NodeId := []
  voiceActive : Option NodeId := none
  effectActive : Option NodeId := none
  /-- Where the voice half ends. -/
  boundaryOutputs : List NodeId := []
  /-- Where the effect half takes over. -/
  boundaryInputs : List NodeId := []
  /-- In samples at the base rate. -/
  latency : Nat := 0
deriving DecidableEq, Repr

namespace Surface

def voiceSinks (s : Surface) : List NodeId :=
  s.boundaryOutputs ++ s.voiceActive.toList

def effectSinks (s : Surface) : List NodeId :=
  s.outputs ++ s.effectActive.toList

/-- Every node that the surface names, ascending. -/
def pinned (s : Surface) : List NodeId :=
  Ascending.ofList
    (s.inputs ++ s.outputs ++ s.boundaryOutputs ++ s.boundaryInputs ++ s.voiceActive.toList
      ++ s.effectActive.toList)

end Surface

structure Graph where
  counters : Counters := {}
  nodes : Arena Node := {}
  inputs : Arena InputPort := {}
  outputs : Arena OutputPort := {}
  surface : Surface := {}

namespace Graph

def node? (g : Graph) (n : NodeId) : Option Node :=
  g.nodes.get? n.index

def input? (g : Graph) (i : InputId) : Option InputPort :=
  g.inputs.get? i.index

def output? (g : Graph) (o : OutputId) : Option OutputPort :=
  g.outputs.get? o.index

def node (g : Graph) (n : NodeId) : Except Fault Node :=
  match g.node? n with
  | some node => .ok node
  | none => .error (.deadNode n)

def input (g : Graph) (i : InputId) : Except Fault InputPort :=
  match g.input? i with
  | some port => .ok port
  | none => .error (.deadInput i)

def output (g : Graph) (o : OutputId) : Except Fault OutputPort :=
  match g.output? o with
  | some port => .ok port
  | none => .error (.deadOutput o)

def contains (g : Graph) (n : NodeId) : Bool :=
  (g.node? n).isSome

/-- All nodes, by number. -/
def liveNodes (g : Graph) : List Node :=
  g.nodes.toList

def nodeIds (g : Graph) : List NodeId :=
  g.liveNodes.map Node.id

/-- The calls, by number. -/
def callIds (g : Graph) : List NodeId :=
  (g.liveNodes.filter fun n => n.kind.isCall).map Node.id

/-- The id that the next node will get. -/
def nextNode (g : Graph) : NodeId :=
  ⟨g.nodes.size⟩

/-- The output port of a node in a slot. -/
def port (g : Graph) (n : NodeId) (slot : Nat) : Except Fault OutputId := do
  let node ← g.node n
  match node.outputs[slot]? with
  | some o => .ok o
  | none => .error (.noOutputSlot n slot node.outputs.length)

/-- The output port that feeds an input. -/
def source? (g : Graph) (i : InputId) : Option OutputId :=
  (g.input? i).bind InputPort.source

/-- The output port that feeds an input, which has to be there. -/
def source (g : Graph) (i : InputId) : Except Fault (Option OutputId) :=
  (g.input i).map InputPort.source

end Graph

end SignalGraph
