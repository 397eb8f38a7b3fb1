import SignalGraph.Graph.Basic

/-!
# Walking a graph

Links as steps from node to node: `sources` goes against the flow of values, `consumers` with it.
`reachable` is everything that some sink needs.

These pass over ids that are dead. The functions that begin with `ask` go the same ways, but every
node and port that they come to has to be there, and they fault where one is not. Rewriting and
collecting ask. The answers are the same in graphs whose links are in order.
-/

namespace SignalGraph

/-- Everything of `remaining` that is found from `pending` by steps of `next`. What was found is
not looked for again, so there are at most as many steps as there are things to find. -/
def gather {α : Type} [DecidableEq α] (next : α → List α) (remaining pending : List α) : List α :=
  match pending with
  | [] => []
  | a :: rest =>
    if a ∈ remaining then a :: gather next (remaining.erase a) (next a ++ rest)
    else gather next remaining rest
termination_by (remaining.length, pending.length)
decreasing_by
  · rename_i h
    have := List.length_erase_of_mem h
    have := List.length_pos_of_mem h
    apply Prod.Lex.left
    omega
  · apply Prod.Lex.right
    simp

namespace Graph

/-- The node whose output feeds an input. -/
def feeder? (g : Graph) (i : InputId) : Option NodeId :=
  ((g.source? i).bind g.output?).map OutputPort.node

/-- The nodes that feed a node, in the order of its inputs. -/
def sources (g : Graph) (n : NodeId) : List NodeId :=
  match g.node? n with
  | some node => node.inputs.filterMap g.feeder?
  | none => []

/-- The nodes that an output port feeds. -/
def fed (g : Graph) (o : OutputId) : List NodeId :=
  match g.output? o with
  | some port => port.consumers.filterMap fun i => (g.input? i).map InputPort.node
  | none => []

/-- The nodes that a node feeds, ascending. -/
def consumers (g : Graph) (n : NodeId) : List NodeId :=
  match g.node? n with
  | some node => Ascending.ofList (node.outputs.flatMap g.fed)
  | none => []

/-- The nodes that feed these inputs, in their order. -/
def askFeeders (g : Graph) : List InputId → Except Fault (List NodeId)
  | [] => .ok []
  | i :: rest => do
    match ← g.source i with
    | none => g.askFeeders rest
    | some o => return (← g.output o).node :: (← g.askFeeders rest)

def askSources (g : Graph) (n : NodeId) : Except Fault (List NodeId) := do
  g.askFeeders (← g.node n).inputs

def askFed (g : Graph) (o : OutputId) : Except Fault (List NodeId) := do
  (← g.output o).consumers.mapM fun i => return (← g.input i).node

def askConsumers (g : Graph) (n : NodeId) : Except Fault (List NodeId) := do
  let fed ← (← g.node n).outputs.mapM g.askFed
  return Ascending.ofList fed.flatten

/-- The nodes from which a value flows to one of the sinks, and the sinks, ascending. -/
def reachable (g : Graph) (sinks : List NodeId) : List NodeId :=
  let found := gather g.sources g.nodeIds sinks
  g.nodeIds.filter fun n => n ∈ found

/-- The voice half of a program. -/
def voiceNodes (g : Graph) : List NodeId :=
  g.reachable g.surface.voiceSinks

/-- The effect half of a program. -/
def effectNodes (g : Graph) : List NodeId :=
  g.reachable g.surface.effectSinks

/-- The nodes at most `levels` steps downstream of those in `frontier`, with those in `seen`. -/
def askDownstreamFrom (g : Graph) :
    (levels : Nat) → (seen frontier : List NodeId) → Except Fault (List NodeId)
  | 0, seen, _ => .ok seen
  | levels + 1, seen, frontier => do
    let fed ← frontier.mapM g.askConsumers
    let next := (Ascending.ofList fed.flatten).filter fun n => n ∉ seen
    if next.isEmpty then return seen
    else g.askDownstreamFrom levels (Ascending.union seen next) next

/-- A node and all nodes at most `levels` steps downstream of it. -/
def askDownstream (g : Graph) (n : NodeId) (levels : Nat) : Except Fault (List NodeId) :=
  g.askDownstreamFrom levels [n] [n]

end Graph

end SignalGraph
