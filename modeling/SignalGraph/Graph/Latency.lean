import SignalGraph.Graph.Basic

/-!
# Latency of a program

A program is as late as its voice half at the boundary and its effect half at the outputs
together, in samples at the base rate. Latencies at other rates are rounded up.
-/

namespace SignalGraph

namespace Graph

/-- The latency of a port in samples at the base rate. -/
def baseLatency (g : Graph) (o : OutputId) : Except Fault Nat := do
  let port ← g.output o
  match port.type.factor with
  | some u => Word.divCeil port.latency u
  | none => .ok 0

/-- The inputs of those sinks that are there. -/
def sinkInputs (g : Graph) (sinks : List NodeId) : List InputId :=
  (sinks.filterMap g.node?).flatMap Node.inputs

/-- The largest latency at these inputs, or `most` if that is larger. -/
def latencyFrom (g : Graph) (most : Nat) : List InputId → Except Fault Nat
  | [] => .ok most
  | i :: rest => do
    match ← g.source i with
    | some o => g.latencyFrom (max most (← g.baseLatency o)) rest
    | none => g.latencyFrom most rest

/-- The largest latency at the sinks. -/
def sinkLatency (g : Graph) (sinks : List NodeId) : Except Fault Nat :=
  g.latencyFrom 0 (g.sinkInputs sinks)

def totalLatency (g : Graph) : Except Fault Nat := do
  let voice ← g.sinkLatency g.surface.boundaryOutputs
  let effect ← g.sinkLatency g.surface.outputs
  Word.add voice effect

/-- Notes the latency of the program on its surface. -/
def updateLatency (g : Graph) : Except Fault Graph := do
  let latency ← g.totalLatency
  return { g with surface := { g.surface with latency } }

end Graph

end SignalGraph
