import SignalGraph.Literal
import SignalGraph.ModuleId

/-!
# Patterns

Trees that describe calls and their arguments. A call pattern has one child for each parameter of
its module, in order: a value at the place of an in parameter, the mark `result` at the place of
the out parameter that the pattern stands for, and a wildcard at the place of any other out
parameter. The mark `ellipsis` ends the list early and leaves the remaining parameters open.

The wildcards of a pattern are numbered from left to right, parents before children; `slot k`
stands for what the wildcard with number `k` stands for.
-/

namespace SignalGraph

inductive Pattern where
  | call (module : ModuleId) (factor returnParameter : Nat) (children : List Pattern)
  | literal (value : Literal)
  | array (elements : List Pattern)
  /-- Anything, or any constant. -/
  | wildcard (constant : Bool)
  | slot (index : Nat)
  | result
  | ellipsis
deriving Repr

namespace Pattern

def isResult : Pattern → Bool
  | .result => true
  | _ => false

def isEllipsis : Pattern → Bool
  | .ellipsis => true
  | _ => false

def isCall : Pattern → Bool
  | .call .. => true
  | _ => false

def isWildcard : Pattern → Bool
  | .wildcard _ => true
  | _ => false

/-! ## Equality -/

mutual
def same : Pattern → Pattern → Bool
  | .call m f r cs, .call m' f' r' cs' => m = m' && f = f' && r = r' && sameAll cs cs'
  | .literal a, .literal b => a = b
  | .array as, .array bs => sameAll as bs
  | .wildcard a, .wildcard b => a = b
  | .slot a, .slot b => a = b
  | .result, .result => true
  | .ellipsis, .ellipsis => true
  | _, _ => false

def sameAll : List Pattern → List Pattern → Bool
  | [], [] => true
  | a :: as, b :: bs => same a b && sameAll as bs
  | _, _ => false
end

mutual
theorem same_iff : (a b : Pattern) → (same a b = true ↔ a = b)
  | .call m f r cs, b => by cases b <;> simp [same, sameAll_iff cs, and_assoc]
  | .literal a, b => by cases b <;> simp [same]
  | .array as, b => by cases b <;> simp [same, sameAll_iff as]
  | .wildcard a, b => by cases b <;> simp [same]
  | .slot a, b => by cases b <;> simp [same]
  | .result, b => by cases b <;> simp [same]
  | .ellipsis, b => by cases b <;> simp [same]

theorem sameAll_iff : (as bs : List Pattern) → (sameAll as bs = true ↔ as = bs)
  | [], bs => by cases bs <;> simp [sameAll]
  | a :: as, bs => by cases bs <;> simp [sameAll, same_iff a, sameAll_iff as]
end

instance : DecidableEq Pattern := fun a b => decidable_of_iff _ (same_iff a b)

/-! ## Shape -/

mutual
/-- How many calls are nested in each other. Arrays add no level. -/
def depth : Pattern → Nat
  | .call _ _ _ children => 1 + depthAll children
  | .array elements => depthAll elements
  | _ => 0

def depthAll : List Pattern → Nat
  | [] => 0
  | p :: ps => max (depth p) (depthAll ps)
end

mutual
/-- A pattern and everything in it, parents first. -/
def parts : Pattern → List Pattern
  | .call m f r children => .call m f r children :: partsAll children
  | .array elements => .array elements :: partsAll elements
  | p => [p]

def partsAll : List Pattern → List Pattern
  | [] => []
  | p :: ps => parts p ++ partsAll ps
end

/-- How many wildcards a pattern has. -/
def slotCount (p : Pattern) : Nat :=
  (p.parts.filter isWildcard).length

mutual
/-- The modules called in a pattern that stands inside `level` calls, each with the number of
calls it stands inside. -/
def callLevels (level : Nat) : Pattern → List (ModuleId × Nat)
  | .call m _ _ children => (m, level) :: callLevelsAll (level + 1) children
  | .array elements => callLevelsAll level elements
  | _ => []

def callLevelsAll (level : Nat) : List Pattern → List (ModuleId × Nat)
  | [] => []
  | p :: ps => callLevels level p ++ callLevelsAll level ps
end

/-! ## Text -/

mutual
def text : Pattern → String
  | .call m factor _ children => m.short ++ s!"@{factor}(" ++ textAll children ++ ")"
  | .literal value => value.text
  | .array elements => "[" ++ textAll elements ++ "]"
  | .wildcard constant => if constant then "?const" else "?"
  | .slot index => s!"${index}"
  | .result => "out"
  | .ellipsis => "..."

def textAll : List Pattern → String
  | [] => ""
  | [p] => text p
  | p :: ps => text p ++ ", " ++ textAll ps
end

instance : ToString Pattern := ⟨text⟩

end Pattern

end SignalGraph
