import SignalGraph.Registry
import SignalGraph.Rule.Basic

/-!
# Checking rules

The patterns of a rule must fit the modules they call, and its alternatives may only use what its
input pattern binds. An input pattern binds a slot at each of its wildcards, from left to right;
references before that are errors. An output pattern may not have wildcards, except at out
parameters that nobody uses.
-/

namespace SignalGraph

/-- Why a pattern may not stand where it does. -/
inductive Misplacement where
  | emptyArray
  | wildcard
  | result
  | ellipsis
  | sibling
deriving DecidableEq, Repr

def Misplacement.text : Misplacement → String
  | .emptyArray => "output arrays need at least one element"
  | .wildcard => "wildcards cannot be instantiated"
  | .result => "output marker outside a call"
  | .ellipsis => "end of list outside a call"
  | .sibling => "sibling outputs take a plain wildcard"

/-- What is wrong with a pattern. -/
inductive PatternError where
  | unknownModule (module : ModuleId)
  | zeroFactor (module : String)
  | childCount (module : String) (expected found : Nat)
  | invalidReturn (module : String) (index : Nat)
  | misplacedResult (module : String) (index : Nat)
  | misplaced (found : String) (reason : Misplacement)
  | unboundSlot (slot bound : Nat)
deriving DecidableEq, Repr

def PatternError.message : PatternError → String
  | .unknownModule module => s!"unknown module {module}"
  | .zeroFactor module => s!"pattern for '{module}' has zero upsample factor"
  | .childCount module expected found =>
    s!"pattern for '{module}' has {found} children, module declares {expected} parameters"
  | .invalidReturn module index => s!"parameter {index} of '{module}' is not an out parameter"
  | .misplacedResult module index =>
    s!"misplaced output marker in pattern for '{module}' at position {index}"
  | .misplaced found reason => s!"'{found}' is not allowed here ({reason.text})"
  | .unboundSlot slot bound => s!"reference to slot {slot} before it is bound ({bound} bound)"

/-- The two sides of a rule. -/
inductive Side where
  | input
  | output
deriving DecidableEq, Repr

namespace Pattern

/-- The signature of a called module, if module, rate, result and number of children fit. -/
def checkHead (registry : Registry) (side : Side) (module : ModuleId)
    (factor returnParameter : Nat) (children : List Pattern) : Except PatternError Signature := do
  let some signature := registry.lookup module | throw (.unknownModule module)
  if factor = 0 then throw (.zeroFactor signature.name)
  match signature.parameters[returnParameter]? with
  | some p => if p.isInput then throw (.invalidReturn signature.name returnParameter)
  | none => throw (.invalidReturn signature.name returnParameter)
  let declared := signature.parameters.length
  let listed := (children.findIdx? isEllipsis).getD children.length
  let fits :=
    if listed < children.length then
      side = .input && listed + 1 == children.length && listed ≤ declared
    else children.length == declared
  if !fits then throw (.childCount signature.name declared children.length)
  if listed ≤ returnParameter then throw (.misplacedResult signature.name returnParameter)
  return signature

mutual
/-- Checks a pattern where a value has to stand; `bound` slots are bound before it. Gives how many
are bound after it. -/
def check (registry : Registry) (side : Side) (bound : Nat) :
    Pattern → Except PatternError Nat
  | .call module factor returnParameter children => do
    let signature ← checkHead registry side module factor returnParameter children
    checkChildren registry side signature returnParameter 0 bound children
  | .literal _ => .ok bound
  | .array elements =>
    if side = .output ∧ elements.isEmpty then
      .error (.misplaced (Pattern.array elements).text .emptyArray)
    else checkElements registry side bound elements
  | .wildcard constant =>
    match side with
    | .input => .ok (bound + 1)
    | .output => .error (.misplaced (Pattern.wildcard constant).text .wildcard)
  | .slot index => if index < bound then .ok bound else .error (.unboundSlot index bound)
  | .result => .error (.misplaced Pattern.result.text .result)
  | .ellipsis => .error (.misplaced Pattern.ellipsis.text .ellipsis)

/-- Checks the children of a call from the one at `index` on. -/
def checkChildren (registry : Registry) (side : Side) (signature : Signature)
    (returnParameter index bound : Nat) : List Pattern → Except PatternError Nat
  | [] => .ok bound
  | child :: children =>
    if child.isEllipsis then .ok bound
    else if index = returnParameter ∨ child.isResult then
      if index = returnParameter ∧ child.isResult then
        checkChildren registry side signature returnParameter (index + 1) bound children
      else .error (.misplacedResult signature.name index)
    else if (signature.parameters[index]?).any Parameter.isInput then
      match check registry side bound child with
      | .ok bound =>
        checkChildren registry side signature returnParameter (index + 1) bound children
      | .error e => .error e
    else
      match child with
      | .wildcard false =>
        let bound := if side = .input then bound + 1 else bound
        checkChildren registry side signature returnParameter (index + 1) bound children
      | other => .error (.misplaced other.text .sibling)

/-- Checks the elements of an array. -/
def checkElements (registry : Registry) (side : Side) (bound : Nat) :
    List Pattern → Except PatternError Nat
  | [] => .ok bound
  | element :: elements =>
    match check registry side bound element with
    | .ok bound => checkElements registry side bound elements
    | .error e => .error e
end

end Pattern

/-- What is wrong with a list of rules. -/
inductive RuleError where
  | duplicate (name : String)
  | noOutputs (rule : String)
  | rootNotCall (rule : String)
  | pattern (rule : String) (error : PatternError)
deriving DecidableEq, Repr

def RuleError.message : RuleError → String
  | .duplicate name => s!"duplicate rule '{name}'"
  | .noOutputs rule => s!"rule '{rule}' has no output patterns"
  | .rootNotCall rule => s!"rule '{rule}': input pattern root must be a native module call"
  | .pattern rule error => s!"rule '{rule}': {error.message}"

namespace Rule

/-- Checks the alternatives of a rule whose input pattern binds `bound` slots. -/
def checkOutputs (registry : Registry) (bound : Nat) : List Pattern → Except PatternError Unit
  | [] => .ok ()
  | p :: rest => do
    let _ ← p.check registry .output bound
    checkOutputs registry bound rest

def checkPatterns (registry : Registry) (r : Rule) : Except PatternError Unit := do
  let bound ← r.input.check registry .input 0
  checkOutputs registry bound r.outputs

def check (registry : Registry) (r : Rule) : Except RuleError Unit :=
  if !r.input.isCall then .error (.rootNotCall r.name)
  else if r.outputs.isEmpty then .error (.noOutputs r.name)
  else (r.checkPatterns registry).mapError (.pattern r.name)

/-- Checks rules in order; `names` have been used before. -/
def checkAll (registry : Registry) (names : List String) : List Rule → Except RuleError Unit
  | [] => .ok ()
  | r :: rest => do
    if r.name ∈ names then throw (.duplicate r.name)
    r.check registry
    checkAll registry (r.name :: names) rest

end Rule

end SignalGraph
