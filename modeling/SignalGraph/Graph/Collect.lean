import SignalGraph.Graph.Link
import SignalGraph.Graph.Walk

/-!
# Removing nodes

A node can go when nothing uses its outputs. Collecting removes all nodes that nobody would miss:
those without consumers and side effects that are no channels and that the surface does not name,
and then what only they used.
-/

namespace SignalGraph

/-- Whether a node of this kind stays even if nothing uses it. -/
def Kind.isKept : Kind → Bool
  | .input .. | .output .. => true
  | .call signature _ _ => signature.sideEffects
  | _ => false

namespace Graph

/-- Outputs that feed nothing. -/
def checkUnused (g : Graph) (n : NodeId) : List OutputId → Except Fault Unit
  | [] => .ok ()
  | o :: rest => do
    let port ← g.output o
    if port.consumers.isEmpty then g.checkUnused n rest
    else .error (.stillFeeds n o port.consumers.length)

def eraseInputs (g : Graph) : List InputId → Except Fault Graph
  | [] => .ok g
  | i :: rest => do
    let g ← g.unlink i
    { g with inputs := g.inputs.erase i.index }.eraseInputs rest

def eraseOutputs (g : Graph) : List OutputId → Graph
  | [] => g
  | o :: rest => { g with outputs := g.outputs.erase o.index }.eraseOutputs rest

/-- Removes a node whose outputs feed nothing. -/
def remove (g : Graph) (n : NodeId) : Except Fault Graph := do
  let node ← g.node n
  g.checkUnused n node.outputs
  let g ← g.eraseInputs node.inputs
  let g := g.eraseOutputs node.outputs
  return { g with nodes := g.nodes.erase n.index }

/-- Whether nothing uses an output. -/
def isUnused (g : Graph) (o : OutputId) : Bool :=
  match g.output? o with
  | some port => port.consumers.isEmpty
  | none => true

/-- Whether a node can be collected. -/
def isGarbage (g : Graph) (n : NodeId) : Bool :=
  match g.node? n with
  | some node =>
    n ∉ g.surface.pinned && !node.kind.isKept && node.outputs.all g.isUnused
  | none => false

/-- Whether a node can be collected. Its outputs, if they are looked at, have to be there. -/
def askGarbage (g : Graph) (n : NodeId) : Except Fault Bool := do
  match g.node? n with
  | some node =>
    if n ∈ g.surface.pinned || node.kind.isKept then return false
    else node.outputs.allM fun o => return (← g.output o).consumers.isEmpty
  | none => return false

/-- Takes a node out: the graph without it, and the nodes that fed it. -/
def takeOut (g : Graph) (n : NodeId) : Except Fault (Graph × List NodeId) := do
  let sources ← g.askSources n
  return (← g.remove n, sources)

/-- Collects from a worklist, lowest number first; the sources of what goes are looked at again.
At most `budget` nodes go. The count starts at `removed`. -/
def collectWithin (budget : Nat) (worklist : List NodeId) (g : Graph) (removed : Nat) :
    Except Fault (Graph × Nat) :=
  match worklist with
  | [] => .ok (g, removed)
  | n :: rest =>
    match g.askGarbage n with
    | .error fault => .error fault
    | .ok false => collectWithin budget rest g removed
    | .ok true =>
      match budget with
      | 0 => .ok (g, removed)
      | budget + 1 =>
        match g.takeOut n with
        | .error fault => .error fault
        | .ok (g, sources) =>
          collectWithin budget (Ascending.union rest sources) g (removed + 1)
termination_by (budget, worklist.length)

/-- Collects what is garbage among these nodes and what only they used, and counts it. -/
def collectFrom (g : Graph) (seeds : List NodeId) : Except Fault (Graph × Nat) :=
  collectWithin g.nodes.size (Ascending.ofList seeds) g 0

/-- Collects all garbage, and counts it. -/
def collect (g : Graph) : Except Fault (Graph × Nat) :=
  g.collectFrom g.nodeIds

end Graph

end SignalGraph
