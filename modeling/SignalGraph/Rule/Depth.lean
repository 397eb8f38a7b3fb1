import SignalGraph.Rule.Basic

/-!
# Depths of modules

How deep each module can sit below the root of an input pattern, which bounds how far downstream a
change can make a rule match.
-/

namespace SignalGraph

/-- The depth of each module that occurs in input patterns, in ascending order of ids. -/
structure Depths where
  entries : List (ModuleId × Nat) := []
deriving DecidableEq, Repr

namespace Depths

/-- Notes that a module occurs at a level. -/
def noteIn (m : ModuleId) (level : Nat) : List (ModuleId × Nat) → List (ModuleId × Nat)
  | [] => [(m, level)]
  | (other, depth) :: rest =>
    if m = other then (other, max depth level) :: rest
    else if m.toNat < other.toNat then (m, level) :: (other, depth) :: rest
    else (other, depth) :: noteIn m level rest

def note (d : Depths) (occurrence : ModuleId × Nat) : Depths :=
  ⟨noteIn occurrence.1 occurrence.2 d.entries⟩

def ofRules (rules : List Rule) : Depths :=
  (rules.flatMap fun r => r.input.callLevels 0).foldl note {}

/-- The deepest level at which a module occurs, and 0 if it does not. -/
def depth (d : Depths) (m : ModuleId) : Nat :=
  (d.entries.lookup m).getD 0

def contains (d : Depths) (m : ModuleId) : Bool :=
  (d.entries.lookup m).isSome

/-- The deepest level of all. -/
def deepest (d : Depths) : Nat :=
  (d.entries.map Prod.snd).foldl max 0

end Depths

end SignalGraph
