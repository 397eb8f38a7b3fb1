import SignalGraph.Graph.Basic

/-!
# Links

Both ends of a link are changed together: `link` and `unlink` are the only functions that touch
the source of an input or the consumers of an output.
-/

namespace SignalGraph

namespace OutputPort

/-- The port with one consumer more. -/
def attach (p : OutputPort) (i : InputId) : Except Fault OutputPort :=
  if i ∈ p.consumers then .error (.alreadyLinked i p.id)
  else .ok { p with consumers := Ascending.insert i p.consumers }

/-- The port with one consumer less. -/
def detach (p : OutputPort) (i : InputId) : Except Fault OutputPort :=
  if i ∈ p.consumers then .ok { p with consumers := p.consumers.filter (· ≠ i) }
  else .error (.notLinked i p.id)

end OutputPort

namespace Graph

/-- Cuts an input off from its source, if it has one. -/
def unlink (g : Graph) (i : InputId) : Except Fault Graph := do
  let port ← g.input i
  match port.source with
  | none => .ok g
  | some o =>
    let out ← (← g.output o).detach i
    .ok { g with
      inputs := g.inputs.set i.index { port with source := none }
      outputs := g.outputs.set o.index out }

/-- Feeds an input that has no source from an output. -/
def link (g : Graph) (i : InputId) (o : OutputId) : Except Fault Graph := do
  let out ← (← g.output o).attach i
  let port ← g.input i
  .ok { g with
    inputs := g.inputs.set i.index { port with source := some o }
    outputs := g.outputs.set o.index out }

/-- Feeds an input from `next` and from nothing else; `none` only cuts it off. -/
def connect (g : Graph) (i : InputId) (next : Option OutputId) : Except Fault Graph := do
  match next with
  | none => g.unlink i
  | some o =>
    let _ ← g.output o
    (← g.unlink i).link i o

/-- Feeds every one of these inputs from `o`. -/
def connectAll (g : Graph) (o : OutputId) : List InputId → Except Fault Graph
  | [] => .ok g
  | i :: rest => do (← g.connect i (some o)).connectAll o rest

/-- Hands all consumers of one output to another, and says how many there were. -/
def redirect (g : Graph) (old new : OutputId) : Except Fault (Graph × Nat) := do
  if old = new then return (g, 0)
  let consumers := (← g.output old).consumers
  return (← g.connectAll new consumers, consumers.length)

end Graph

end SignalGraph
