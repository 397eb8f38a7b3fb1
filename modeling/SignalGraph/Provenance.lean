import SignalGraph.Rule.Set
import SignalGraph.Sha256

/-!
# Provenance

What a compilation was made from, as digests: the text of the graph description, and the registry
and the rules in their canonical forms, which do not depend on how they were laid out in files.
-/

namespace SignalGraph

/-- The version of the compiler. -/
def version : String := "0.3.0"

structure Provenance where
  graph : String
  registry : String
  rules : String
deriving DecidableEq, Repr

namespace Provenance

def compute (source : String) (registry : Registry) (rules : RuleSet) : Provenance where
  graph := Sha256.hex source
  registry := Sha256.hex registry.canonical
  rules := Sha256.hex rules.canonical

def text (p : Provenance) : String :=
  (Json.object
    [("graph_hash", .string p.graph),
     ("registry_fingerprint", .string p.registry),
     ("rules_fingerprint", .string p.rules),
     ("compiler_version", .string version)]).indented ++ "\n"

end Provenance

end SignalGraph
