import SignalGraph.Diagnostic
import SignalGraph.Literal
import SignalGraph.Signature

/-!
# Prepare hooks

Before a call of a native module becomes part of a graph, the module's hook sees the call: where
it will run and which argument values are known. It answers with the latency the module adds, and
with messages; an error among them refuses the call.

A hook is a pure function of what it is shown: it changes nothing and does not fault, and two runs
with the same context and arguments give the same answer.
-/

namespace SignalGraph

/-- Where a call will run. -/
structure PrepareContext where
  sampleRate : Nat
  inputChannels : Nat
  outputChannels : Nat
  factor : Nat
  /-- Whether all arguments and all outputs are constants. -/
  compileTime : Bool
  location : Option Location
deriving DecidableEq, Repr

/-- An argument of a call; its value if that is known. -/
structure PrepareArgument where
  parameter : String
  value : Option Value
deriving DecidableEq, Repr

/-- The answer of a hook. -/
structure Prepared where
  latency : Nat
  diagnostics : List Diagnostic := []
deriving DecidableEq, Repr

abbrev Hook := PrepareContext → List PrepareArgument → Prepared

/-- The hook of a module that adds the same latency to every call. -/
def Hook.fixed (latency : Nat) : Hook :=
  fun _ _ => { latency }

/-- One run of a hook. -/
structure Preparation where
  signature : Signature
  context : PrepareContext
  arguments : List PrepareArgument
  prepared : Prepared
deriving DecidableEq, Repr

namespace Preparation

/-- What hooks said in these runs. -/
def diagnostics (runs : List Preparation) : List Diagnostic :=
  runs.flatMap fun run => run.prepared.diagnostics

end Preparation

end SignalGraph
