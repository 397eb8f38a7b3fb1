import SignalGraph.Description.Build
import SignalGraph.Graph.Latency
import SignalGraph.Graph.Verify
import SignalGraph.Pass
import SignalGraph.Rewriting.Fixpoint

/-!
# Compilations

What a compilation is given, and what its passes have made of it so far. Passes run in order up to
one that reports an error. Running them again starts from the description, and what they make
replaces what was there.
-/

namespace SignalGraph

structure Compilation where
  env : Environment
  rules : RuleSet
  description : Description
  graph : Option Graph := none
  report : Option Report := none
  diagnostics : List Diagnostic := []
  failed : Bool := false

namespace Compilation

/-- What a pass did: the compilation after it, the hooks that ran and the messages. -/
structure Effect where
  compilation : Compilation
  runs : List Preparation := []
  diagnostics : List Diagnostic := []

/-- The graph, which a pass before has made. -/
def loaded (c : Compilation) (p : Pass) : Except Fault Graph :=
  match c.graph with
  | some g => .ok g
  | none => .error (.notLoaded p.name)

def loadGraph (c : Compilation) : Except Fault Effect := do
  let (runs, result) ← c.description.build c.env
  let said := Preparation.diagnostics runs
  match result with
  | .ok g => return { compilation := { c with graph := some g }, runs, diagnostics := said }
  | .error e => return { compilation := c, runs, diagnostics := said ++ [e.diagnostic] }

def optimize (c : Compilation) : Except Fault Effect := do
  let (s, result) ← Rewriting.optimize c.env c.rules (← c.loaded .optimize)
  let c := { c with graph := some s.graph }
  let runs := s.runs.reverse
  match result with
  | .ok report =>
    return { compilation := { c with report := some report }, runs, diagnostics := s.diagnostics }
  | .error e => return { compilation := c, runs, diagnostics := s.diagnostics ++ [e.diagnostic] }

/-- How a violation is reported. -/
def violationDiagnostic (v : Violation) : Diagnostic :=
  .error none s!"graph verification failed: {v.message}" (some Code.E0402)

def verify (c : Compilation) : Except Fault Effect := do
  let violations ← (← c.loaded .verify).askVerify
  return { compilation := c, diagnostics := violations.map violationDiagnostic }

def latency (c : Compilation) : Except Fault Effect := do
  let g ← (← c.loaded .latency).updateLatency
  return { compilation := { c with graph := some g } }

def runPass (c : Compilation) : Pass → Except Fault Effect
  | .loadGraph => c.loadGraph
  | .optimize => c.optimize
  | .verify => c.verify
  | .latency => c.latency

/-- What a run of passes did: the passes that ran with their messages, the hooks that ran, and the
pass that failed. -/
structure Trace where
  passes : List (Pass × List Diagnostic) := []
  runs : List Preparation := []
  failing : Option Pass := none

/-- Runs passes up to one that reports an error. -/
def runPasses (c : Compilation) : List Pass → Except Fault (Compilation × Trace)
  | [] => .ok (c, {})
  | p :: rest => do
    let e ← c.runPass p
    let c := { e.compilation with diagnostics := e.compilation.diagnostics ++ e.diagnostics }
    if e.diagnostics.any Diagnostic.isError then
      return ({ c with failed := true },
        { passes := [(p, e.diagnostics)], runs := e.runs, failing := some p })
    let (c, after) ← c.runPasses rest
    return (c,
      { passes := (p, e.diagnostics) :: after.passes
        runs := e.runs ++ after.runs
        failing := after.failing })

/-- The passes for a terminal pass; rewriting can be left out. -/
def plan (terminal : Pass) (optimize : Bool) : List Pass :=
  terminal.required.filter fun p => optimize || p ≠ .optimize

def run (c : Compilation) (terminal : Pass) (optimize : Bool) :
    Except Fault (Compilation × Trace) :=
  c.runPasses (plan terminal optimize)

/-- What is said of a run that failed in a pass. -/
def failure (p : Pass) : String :=
  s!"{p.name} failed"

end Compilation

end SignalGraph
