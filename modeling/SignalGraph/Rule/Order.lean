import SignalGraph.Rule.Basic

/-!
# Precedence of rules

Where several rules match, the most specific one is applied: the one whose input pattern is
deepest, then the one with more calls and literals, then the one with more wildcards that only
match constants, then the one whose name comes first.
-/

namespace SignalGraph

/-- How much a pattern asks for. -/
structure Specificity where
  depth : Nat
  /-- Calls and literals. -/
  exact : Nat
  /-- Wildcards that only match constants. -/
  constants : Nat
deriving DecidableEq, Repr

namespace Pattern

def isExact : Pattern → Bool
  | .call .. | .literal _ => true
  | _ => false

def isConstantWildcard : Pattern → Bool
  | .wildcard constant => constant
  | _ => false

def specificity (p : Pattern) : Specificity where
  depth := p.depth
  exact := (p.parts.filter isExact).length
  constants := (p.parts.filter isConstantWildcard).length

end Pattern

namespace Rule

def specificity (r : Rule) : Specificity :=
  r.input.specificity

/-- Names by the code points of their characters. -/
def compareNames (a b : String) : Ordering :=
  if a < b then .lt else if a = b then .eq else .gt

/-- `lt` if the first rule goes before the second. -/
def compare (a b : Rule) : Ordering :=
  let s := a.specificity
  let t := b.specificity
  (Ord.compare t.depth s.depth).then
    ((Ord.compare t.exact s.exact).then
      ((Ord.compare t.constants s.constants).then (compareNames a.name b.name)))

/-- Whether a rule need not give way to another. -/
def precedes (a b : Rule) : Bool :=
  compare a b ≠ .gt

/-- Rules by precedence; equal ones keep their order. -/
def sort (rules : List Rule) : List Rule :=
  rules.mergeSort precedes

/-- The first rule that gives way to no other. -/
def select? : List Rule → Option Rule
  | [] => none
  | r :: rest => some (rest.foldl (fun best r => if compare r best = .lt then r else best) r)

end Rule

end SignalGraph
