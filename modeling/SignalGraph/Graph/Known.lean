import SignalGraph.Graph.Basic

/-!
# Known values

What is known of a port at compile time: the literal of a constant node, and the value of constant
arrays and structs all of whose parts are known.

Nothing is known of a dead port. To ask about one is a fault.
-/

namespace SignalGraph

namespace Graph

/-- The literal of the constant node that a port belongs to. -/
def literal? (g : Graph) (o : OutputId) : Option Literal := do
  let node ← g.node? (← g.output? o).node
  match node.kind with
  | .constant value => some value
  | _ => none

/-- The value of a port, seen through at most `depth` nodes. -/
def valueWithin (g : Graph) : (depth : Nat) → OutputId → Option Value
  | 0, _ => none
  | depth + 1, o => do
    let port ← g.output? o
    guard port.type.isConstant
    let node ← g.node? port.node
    match node.kind with
    | .constant value => some (.scalar value)
    | .array _ =>
      let items ← node.inputs.mapM fun i => do g.valueWithin depth (← g.source? i)
      some (.array items)
    | .struct fields =>
      let values ← node.inputs.mapM fun i => do g.valueWithin depth (← g.source? i)
      some (.struct (fields.zip values))
    | _ => none

/-- The value of a port if it is known. A chain of links without a cycle is no longer than there
are nodes; a value that would contain itself is not known. -/
def value? (g : Graph) (o : OutputId) : Option Value :=
  g.valueWithin (g.nodes.size + 1) o

def askLiteral (g : Graph) (o : OutputId) : Except Fault (Option Literal) := do
  let node ← g.node (← g.output o).node
  match node.kind with
  | .constant value => return some value
  | _ => return none

/-- The value of a port, seen through at most `depth` nodes. Parts are asked for in their order, up
to one that is not known. -/
def askValueWithin (g : Graph) : (depth : Nat) → OutputId → OptionT (Except Fault) Value
  | 0, _ => failure
  | depth + 1, o => do
    let port ← g.output o
    guard port.type.isConstant
    let node ← g.node port.node
    match node.kind with
    | .constant value => return .scalar value
    | .array _ =>
      let items ← node.inputs.mapM fun i => do g.askValueWithin depth (← OptionT.mk (g.source i))
      return .array items
    | .struct fields =>
      let values ← node.inputs.mapM fun i => do g.askValueWithin depth (← OptionT.mk (g.source i))
      return .struct (fields.zip values)
    | _ => failure

def askValue (g : Graph) (o : OutputId) : Except Fault (Option Value) :=
  (g.askValueWithin (g.nodes.size + 1) o).run

end Graph

end SignalGraph
