import SignalGraph.Rule.Check
import SignalGraph.Rule.Depth
import SignalGraph.Rule.Order

/-!
# Sets of rules

Rules that were checked against a registry, with what rewriting asks of them: their order of
precedence and the depths of the modules in their input patterns.
-/

namespace SignalGraph

structure RuleSet where
  /-- In the order in which they were given. -/
  rules : List Rule := []
  /-- By precedence. -/
  ordered : List Rule := []
  depths : Depths := {}
deriving DecidableEq, Repr

namespace RuleSet

def make (registry : Registry) (rules : List Rule) : Except RuleError RuleSet := do
  Rule.checkAll registry [] rules
  return { rules, ordered := Rule.sort rules, depths := .ofRules rules }

/-- The rules whose input pattern calls a module at its root, by precedence. -/
def rootedAt (s : RuleSet) (m : ModuleId) : List Rule :=
  s.ordered.filter fun r => r.root? = some m

/-- The rules as indented JSON. -/
def indented (s : RuleSet) : String :=
  (Rule.listToJson s.rules).indented

/-- The rules as one line of JSON. -/
def canonical (s : RuleSet) : String :=
  (Rule.listToJson s.rules).compact

def load (registry : Registry) (text origin : String) : Except (LoadError RuleError) RuleSet :=
  match Rule.parseList? text with
  | none => .error (.malformed origin)
  | some rules => (make registry rules).mapError .invalid

end RuleSet

end SignalGraph
