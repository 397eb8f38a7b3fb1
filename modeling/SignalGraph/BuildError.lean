import SignalGraph.Diagnostic

/-!
# Errors of construction

Why a node could not be added to a graph. Nothing of the node is left behind.
-/

namespace SignalGraph

inductive BuildError where
  | argumentType (module : String) (index : Nat) (expected found : String)
  | constantExpected (module : String) (index : Nat)
  | factorMismatch (module : String) (index expected found : Nat)
  /-- A latency that is no whole number of samples at the factor of the call. -/
  | misalignedLatency (module : String) (index latency factor callFactor : Nat)
  | inconsistentLatency (module : String) (callFactor first second : Nat)
  | prepareFailed (module : String) (errors : Nat)
  | elementType (index : Nat) (expected found : String)
  | elementFactor (index expected found : Nat)
  | variableField (field : String)
  | duplicateField (field : String)
  | outputType (name expected found : String)
deriving DecidableEq, Repr

namespace BuildError

def message : BuildError → String
  | .argumentType module index expected found =>
    s!"argument {index} of '{module}': expected {expected}, found {found}"
  | .constantExpected module index =>
    s!"argument {index} of '{module}' must be a compile-time constant"
  | .factorMismatch module index expected found =>
    s!"argument {index} of '{module}': upsample factor {found} does not match required {expected}"
  | .misalignedLatency module index latency factor callFactor =>
    s!"argument {index} of '{module}': latency {latency} at upsample factor {factor} is not "
      ++ s!"representable at call factor {callFactor}"
  | .inconsistentLatency module callFactor first second =>
    s!"inconsistent argument latencies for '{module}' at upsample factor {callFactor}: "
      ++ s!"{first} vs {second}"
  | .prepareFailed module errors => s!"prepare failed for '{module}' with {errors} error(s)"
  | .elementType index expected found =>
    s!"array element {index}: expected {expected}, found {found}"
  | .elementFactor index expected found =>
    s!"array element {index}: upsample factor {found} conflicts with {expected}"
  | .variableField field => s!"struct field '{field}' must be a compile-time constant"
  | .duplicateField field => s!"duplicate struct field '{field}'"
  | .outputType name expected found =>
    s!"graph output '{name}': expected {expected}, found {found}"

def code : BuildError → Code
  | .prepareFailed .. => .E0301
  | .misalignedLatency .. | .inconsistentLatency .. => .E0303
  | _ => .E0302

def diagnostic (e : BuildError) (location : Option Location) : Diagnostic :=
  .error location e.message e.code

end BuildError

end SignalGraph
