import SignalGraph.Graph.Walk

/-!
# Verification

Whether the ports that nodes list are their own, links agree at both ends, and no value depends on
itself.

The search for a cycle visits nodes by number and goes from each to its sources. A node is *open*
while its sources are visited; a source that is open closes a cycle.

Dead ports are violations where nodes and links are looked at, but the search for a cycle comes to
nodes through their links, and asks for what it comes to (`askVerify`).
-/

namespace SignalGraph

/-- What is wrong with a graph. -/
inductive Violation where
  | foreignInput (node : NodeId) (input : InputId)
  | foreignOutput (node : NodeId) (output : OutputId)
  /-- The output does not list the input. -/
  | unreturned (input : InputId) (output : OutputId)
  | deadSource (input : InputId) (output : OutputId)
  /-- The input does not name the output as its source. -/
  | unfounded (output : OutputId) (input : InputId)
  | cycle (node : NodeId)
deriving DecidableEq, Repr

def Violation.message : Violation → String
  | .foreignInput node input => s!"{node} lists foreign or dead input {input}"
  | .foreignOutput node output => s!"{node} lists foreign or dead output {output}"
  | .unreturned input output => s!"{input} -> {output} is not mirrored"
  | .deadSource input output => s!"{input} points at dead output {output}"
  | .unfounded output input => s!"{output} lists {input} without a back-reference"
  | .cycle node => s!"cycle through {node}"

namespace Graph

/-! ## Ports and links -/

def ownsInput (g : Graph) (n : NodeId) (i : InputId) : Bool :=
  (g.input? i).any fun port => port.node = n

def ownsOutput (g : Graph) (n : NodeId) (o : OutputId) : Bool :=
  (g.output? o).any fun port => port.node = n

def nodeViolations (g : Graph) (node : Node) : List Violation :=
  ((node.inputs.filter fun i => !g.ownsInput node.id i).map (.foreignInput node.id))
    ++ ((node.outputs.filter fun o => !g.ownsOutput node.id o).map (.foreignOutput node.id))

def inputViolations (g : Graph) (port : InputPort) : List Violation :=
  match port.source with
  | none => []
  | some o =>
    match g.output? o with
    | none => [.deadSource port.id o]
    | some out => if port.id ∈ out.consumers then [] else [.unreturned port.id o]

def outputViolations (g : Graph) (port : OutputPort) : List Violation :=
  (port.consumers.filter fun i => g.source? i ≠ some port.id).map (.unfounded port.id)

/-- Everything that is wrong with ports and links. -/
def linkViolations (g : Graph) : List Violation :=
  g.liveNodes.flatMap g.nodeViolations
    ++ g.inputs.toList.flatMap g.inputViolations
    ++ g.outputs.toList.flatMap g.outputViolations

/-! ## Cycles -/

mutual
/-- Visits a node; `opened` holds the open nodes and `done` those that were visited before. Gives
the node that closes a cycle, or all nodes visited by now. Open nodes are different, so `depth`
need not be more than the number of nodes. -/
def visit (g : Graph) : (depth : Nat) → (opened done : List NodeId) → NodeId →
    Except NodeId (List NodeId)
  | 0, _, done, _ => .ok done
  | depth + 1, opened, done, n =>
    if n ∈ done then .ok done
    else
      let sources := g.sources n
      match sources.find? fun s => s ∈ n :: opened with
      | some s => .error s
      | none =>
        match g.visitAll depth (n :: opened) done sources.reverse with
        | .ok done => .ok (n :: done)
        | .error s => .error s

/-- Visits nodes one after another. -/
def visitAll (g : Graph) : (depth : Nat) → (opened done : List NodeId) → List NodeId →
    Except NodeId (List NodeId)
  | _, _, done, [] => .ok done
  | depth, opened, done, n :: rest =>
    match g.visit depth opened done n with
    | .ok done => g.visitAll depth opened done rest
    | .error s => .error s
end

/-- A node on a cycle, if there is one. -/
def cycle? (g : Graph) : Option NodeId :=
  match g.visitAll (g.nodes.size + 1) [] [] g.nodeIds with
  | .ok _ => none
  | .error n => some n

/-- Everything that is wrong with a graph; at most one cycle is named. -/
def verify (g : Graph) : List Violation :=
  g.linkViolations ++ (g.cycle?.map Violation.cycle).toList

/-! ## Asking -/

mutual
def askVisit (g : Graph) : (depth : Nat) → (opened done : List NodeId) → NodeId →
    Outcome NodeId (List NodeId)
  | 0, _, done, _ => return done
  | depth + 1, opened, done, n =>
    if n ∈ done then return done
    else do
      let sources ← g.askSources n
      match sources.find? fun s => s ∈ n :: opened with
      | some s => throw s
      | none => return n :: (← g.askVisitAll depth (n :: opened) done sources.reverse)

def askVisitAll (g : Graph) : (depth : Nat) → (opened done : List NodeId) → List NodeId →
    Outcome NodeId (List NodeId)
  | _, _, done, [] => return done
  | depth, opened, done, n :: rest => do
    g.askVisitAll depth opened (← g.askVisit depth opened done n) rest
end

def askCycle (g : Graph) : Except Fault (Option NodeId) := do
  match ← (g.askVisitAll (g.nodes.size + 1) [] [] g.nodeIds).run with
  | .ok _ => return none
  | .error n => return some n

/-- Everything that is wrong with a graph in which nodes and ports can be asked for. -/
def askVerify (g : Graph) : Except Fault (List Violation) := do
  let cycle ← g.askCycle
  return g.linkViolations ++ (cycle.map Violation.cycle).toList

end Graph

end SignalGraph
