/-!
# Passes

A compilation is a chain of passes. Each declares which passes it builds on and what it makes;
`Pass.required` is what has to run for a pass, in order.
-/

namespace SignalGraph

inductive Pass where
  | loadGraph
  | optimize
  | verify
  | latency
deriving DecidableEq, Repr

/-- What passes make. -/
inductive Artifact where
  | graph
  | rewriteReport
  | verified
  | latency
deriving DecidableEq, Repr

namespace Pass

/-- All passes, each after those it builds on. -/
def all : List Pass := [.loadGraph, .optimize, .verify, .latency]

def name : Pass → String
  | .loadGraph => "load_graph"
  | .optimize => "optimize"
  | .verify => "verify"
  | .latency => "latency"

def named : List (String × Pass) :=
  all.map fun p => (p.name, p)

/-- The passes that a pass builds on. -/
def inputs : Pass → List Pass
  | .loadGraph => []
  | .optimize => [.loadGraph]
  | .verify => [.optimize]
  | .latency => [.verify]

def outputs : Pass → List Artifact
  | .loadGraph => [.graph]
  | .optimize => [.graph, .rewriteReport]
  | .verify => [.verified]
  | .latency => [.latency]

/-- What a pass has to run again for. -/
def invalidationKey : Pass → String
  | .loadGraph => "graph description + registry + settings"
  | .optimize => "graph + rules + settings"
  | .verify => "graph"
  | .latency => "graph"

/-- What holds after a pass. -/
def invariants : Pass → String
  | .loadGraph => "every call built through the native-module-call builder"
  | .optimize => "no rule matches any consumed anchor, dead nodes removed"
  | .verify => "ports owned by live nodes, links bidirectional, graph acyclic"
  | .latency => "surface latency = voice boundary latency + effect output latency"

/-- Adds a pass to an order, after what it builds on; at most `depth` passes build on each other. -/
def order : (depth : Nat) → (done : List Pass) → Pass → List Pass
  | 0, done, _ => done
  | depth + 1, done, p =>
    if p ∈ done then done else p.inputs.foldl (order depth) done ++ [p]

/-- The passes that have to run for a pass, in order. -/
def required (p : Pass) : List Pass :=
  order all.length [] p

end Pass

end SignalGraph
