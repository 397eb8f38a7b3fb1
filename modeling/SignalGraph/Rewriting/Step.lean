import SignalGraph.Graph.Collect
import SignalGraph.Rewriting.Instantiate
import SignalGraph.Rule.Set

/-!
# One step of rewriting

At a call, the rules for its module are tried by precedence. A rule applies if something uses the
output that its input pattern stands for, the *anchor*, and the pattern matches there. Then its
alternatives are built one after another until one has the type and the latency of the anchor; what
was built for the others is discarded. The consumers of the anchor are handed to the new port, and
what nobody uses any more is collected.

A rule that matches without a fitting alternative is reported once for each anchor.
-/

namespace SignalGraph

/-- What rewriting works on: a graph, the hooks that ran (latest first), the rules and anchors that
were reported, and all messages so far. -/
structure Rewriting where
  graph : Graph
  runs : List Preparation := []
  warned : List (String × OutputId) := []
  diagnostics : List Diagnostic := []

/-- What came of visiting a call. -/
inductive Visit where
  | unchanged
  /-- A rule was applied. `requeue` names the nodes where rules may match now. -/
  | rewritten (rule : String) (removed : Nat) (requeue : List NodeId)
  /-- A rule matches, but no more rewrites are allowed. -/
  | limited (rule : String)

namespace Graph

/-- The nodes that were added from `watermark` on and are still there. -/
def addedSince (g : Graph) (watermark : NodeId) : List NodeId :=
  ((List.range' watermark.index (g.nodes.size - watermark.index)).map Id.mk).filter g.contains

def removeAll (g : Graph) : List NodeId → Except Fault Graph
  | [] => .ok g
  | n :: rest => do (← g.remove n).removeAll rest

/-- Removes what was added from `watermark` on, latest first. -/
def discard (g : Graph) (watermark : NodeId) : Except Fault Graph :=
  g.removeAll (g.addedSince watermark).reverse

/-- How far downstream of a node rules can see it. -/
def reach (g : Graph) (depths : Depths) (n : NodeId) : Nat :=
  match (g.node? n).map Node.kind with
  | some (.call signature _ _) => max 1 (depths.depth signature.id)
  | _ => max 1 depths.deepest

def askReach (g : Graph) (depths : Depths) (n : NodeId) : Except Fault Nat := do
  match (← g.node n).kind with
  | .call signature _ _ => return max 1 (depths.depth signature.id)
  | _ => return max 1 depths.deepest

/-- The nodes where rules may match after the output of `n` took the place of an anchor: those that
see `n`, and the calls added for it. -/
def askEnabled (g : Graph) (depths : Depths) (n : NodeId) (watermark : NodeId) :
    Except Fault (List NodeId) := do
  let near ← g.askDownstream n (← g.askReach depths n)
  let fresh ← (g.addedSince watermark).filterMapM fun n =>
    return if (← g.node n).kind.isCall then some n else none
  return Ascending.union near fresh

end Graph

namespace Rewriting

/-- A replacement: its port, the first node that was added for it, and what the hooks said. -/
structure Replacement where
  port : OutputId
  watermark : NodeId
  diagnostics : List Diagnostic

/-- Builds the first of the alternatives whose port is not the anchor and has its type and
latency. -/
def replace (env : Environment) (b : Bindings) (anchor : OutputPort) (location : Option Location)
    (g : Graph) (runs : List Preparation) :
    List Pattern → Except Fault (Graph × List Preparation × Option Replacement)
  | [] => .ok (g, runs, none)
  | p :: alternatives => do
    let watermark := g.nextNode
    let (w, built) ← p.instantiate env b location { graph := g }
    match built with
    | .error _ =>
      replace env b anchor location (← w.graph.discard watermark) (w.runs ++ runs) alternatives
    | .ok o =>
      let port ← w.graph.output o
      if o ≠ anchor.id ∧ port.type = anchor.type ∧ port.latency = anchor.latency then
        let diagnostics := Preparation.diagnostics w.runs.reverse
        return (w.graph, w.runs ++ runs, some { port := o, watermark, diagnostics })
      else
        replace env b anchor location (← w.graph.discard watermark) (w.runs ++ runs) alternatives

/-- Puts a replacement in the place of an anchor of `n`. Gives the graph, how many nodes were
collected, and where rules may match now. -/
def commit (depths : Depths) (g : Graph) (n : NodeId) (anchor : OutputId) (r : Replacement) :
    Except Fault (Graph × Nat × List NodeId) := do
  let (g, _) ← g.redirect anchor r.port
  let (g, removed) ← g.collectFrom [n]
  let port ← g.output r.port
  return (g, removed, ← g.askEnabled depths port.node r.watermark)

/-- Reports a rule without a fitting alternative. -/
def unreplaceable (rule : String) (anchor : OutputPort) (location : Option Location) : Diagnostic :=
  .warning location
    (s!"rule '{rule}' matched at {anchor.node} but no replacement preserves type "
      ++ s!"{anchor.type} and latency {anchor.latency}")
    (some Code.W0401)

def warn (s : Rewriting) (rule : String) (anchor : OutputPort) (location : Option Location) :
    Rewriting :=
  if (rule, anchor.id) ∈ s.warned then s
  else
    { s with
      warned := (rule, anchor.id) :: s.warned
      diagnostics := s.diagnostics ++ [unreplaceable rule anchor location] }

/-- Reports a rule at an anchor that was not reported before, and has to be there still. -/
def askWarn (s : Rewriting) (rule : String) (anchor : OutputId) (location : Option Location) :
    Except Fault Rewriting := do
  if (rule, anchor) ∈ s.warned then return s
  return s.warn rule (← s.graph.output anchor) location

/-- The anchor of a rule at a call, if something uses it. -/
def anchor? (g : Graph) (signature : Signature) (n : NodeId) (rule : Rule) :
    Except Fault (Option OutputPort) := do
  match rule.input with
  | .call _ _ returnParameter _ =>
    match signature.outputSlot returnParameter with
    | none => return none
    | some slot =>
      let port ← g.output (← g.port n slot)
      return if port.consumers.isEmpty then none else some port
  | _ => return none

/-- Tries rules one after another at a call; `allowed` says whether one may be applied. -/
def tryRules (env : Environment) (depths : Depths) (allowed : Bool) (signature : Signature)
    (n : NodeId) (location : Option Location) (s : Rewriting) :
    List Rule → Except Fault (Rewriting × Visit)
  | [] => .ok (s, .unchanged)
  | rule :: rules => do
    match ← anchor? s.graph signature n rule with
    | none => tryRules env depths allowed signature n location s rules
    | some anchor =>
      match ← rule.input.matchAt s.graph anchor.id with
      | none => tryRules env depths allowed signature n location s rules
      | some b =>
        if !allowed then return (s, .limited rule.name)
        let ⟨g, runs, warned, diagnostics⟩ := s
        match ← replace env b anchor location g runs rule.outputs with
        | (g, runs, some r) =>
          let (g, removed, requeue) ← commit depths g n anchor.id r
          return (⟨g, runs, warned, diagnostics ++ r.diagnostics⟩,
            .rewritten rule.name removed requeue)
        | (g, runs, none) =>
          let s ← askWarn ⟨g, runs, warned, diagnostics⟩ rule.name anchor.id location
          tryRules env depths allowed signature n location s rules

/-- Visits a node. -/
def visit (env : Environment) (rules : RuleSet) (allowed : Bool) (s : Rewriting) (n : NodeId) :
    Except Fault (Rewriting × Visit) := do
  let node ← s.graph.node n
  match node.kind with
  | .call signature _ _ =>
    tryRules env rules.depths allowed signature n node.location s (rules.rootedAt signature.id)
  | _ => return (s, .unchanged)

end Rewriting

end SignalGraph
