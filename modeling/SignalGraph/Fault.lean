import SignalGraph.Id
import SignalGraph.ModuleId

/-!
# Faults

A fault is a broken promise of the caller, or a number that outgrew its 32 bits. It stops what is
going on and leaves nothing to continue with, unlike an error, which is an answer.

Rates and latencies are natural numbers of 32 bits: `Word.add` and `Word.mul` fault where the
result does not fit.
-/

namespace SignalGraph

inductive Fault where
  | addOverflow
  | mulOverflow
  | divideByZero
  | remainderByZero
  | zeroFactor
  | variableString
  | structArray
  | deadNode (node : NodeId)
  | deadInput (input : InputId)
  | deadOutput (output : OutputId)
  | outOfBounds (length index : Nat)
  | noOutputSlot (node : NodeId) (slot count : Nat)
  | alreadyLinked (input : InputId) (output : OutputId)
  | notLinked (input : InputId) (output : OutputId)
  | stillFeeds (node : NodeId) (output : OutputId) (count : Nat)
  | unregistered (module : ModuleId)
  | zeroCallFactor
  | arity (module : String) (declared received : Nat)
  | returnPosition (index : Nat) (module held : String)
  | noParameter (module : String) (index : Nat)
  | resultAsValue
  | ellipsisAsValue
  | unboundSlot (slot bound : Nat)
  | notAnOutput (index : Nat) (module : String)
  | emptyArray
  | notInstantiable (pattern : String)
  | notLoaded (pass : String)
deriving DecidableEq, Repr

namespace Fault

def message : Fault → String
  | .addOverflow => "attempt to add with overflow"
  | .mulOverflow => "attempt to multiply with overflow"
  | .divideByZero => "attempt to divide by zero"
  | .remainderByZero => "attempt to calculate the remainder with a divisor of zero"
  | .zeroFactor => "upsample factor must be positive"
  | .variableString => "string values cannot vary at run time"
  | .structArray => "arrays of structs are not supported"
  | .deadNode node => s!"{node} is not a live node"
  | .deadInput input => s!"{input} is not a live input port"
  | .deadOutput output => s!"{output} is not a live output port"
  | .outOfBounds length index =>
    s!"index out of bounds: the len is {length} but the index is {index}"
  | .noOutputSlot node slot count => s!"{node} has no output slot {slot} ({count} outputs)"
  | .alreadyLinked input output => s!"{input} is already connected to {output}"
  | .notLinked input output => s!"{input} is not connected to {output}"
  | .stillFeeds node output count =>
    s!"cannot remove {node}: {output} still feeds {count} input(s)"
  | .unregistered module => s!"native module {module} is not registered"
  | .zeroCallFactor => "call upsample factor must be positive"
  | .arity module declared received =>
    s!"'{module}' declares {declared} in parameter(s) but received {received} argument(s)"
  | .returnPosition index module held =>
    s!"return position {index} of pattern for '{module}' holds {held}"
  | .noParameter module index => s!"'{module}' has no parameter {index}"
  | .resultAsValue => "output marker matched outside its return position"
  | .ellipsisAsValue => "end-of-list marker matched as a value"
  | .unboundSlot slot bound => s!"slot {slot} is not bound ({bound} bound)"
  | .notAnOutput index module => s!"parameter {index} of '{module}' is not an output"
  | .emptyArray => "empty array pattern cannot be instantiated"
  | .notInstantiable pattern => s!"'{pattern}' cannot be instantiated"
  | .notLoaded pass => s!"{pass} ran before load_graph"

/-- Whether the fault is a number that outgrew its 32 bits. -/
def isOverflow : Fault → Bool
  | .addOverflow | .mulOverflow => true
  | _ => false

end Fault

/-- A value, an error, or a fault. -/
abbrev Outcome (ε α : Type) := ExceptT ε (Except Fault) α

namespace Word

/-- The first number that does not fit. -/
def limit : Nat := 4294967296

def add (a b : Nat) : Except Fault Nat :=
  if a + b < limit then .ok (a + b) else .error .addOverflow

def mul (a b : Nat) : Except Fault Nat :=
  if a * b < limit then .ok (a * b) else .error .mulOverflow

def div (a b : Nat) : Except Fault Nat :=
  if b = 0 then .error .divideByZero else .ok (a / b)

def rem (a b : Nat) : Except Fault Nat :=
  if b = 0 then .error .remainderByZero else .ok (a % b)

/-- The quotient, rounded up. -/
def divCeil (a b : Nat) : Except Fault Nat :=
  if b = 0 then .error .divideByZero else .ok ((a + b - 1) / b)

end Word

end SignalGraph
