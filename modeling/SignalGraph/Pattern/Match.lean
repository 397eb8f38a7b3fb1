import SignalGraph.Graph.Known
import SignalGraph.Pattern.Basic

/-!
# Matching

Whether a pattern describes the value at a port, and which ports its wildcards then stand for. The
ports are collected from left to right, so the port of a wildcard is at the wildcard's number.

A slot matches the very port it stands for, or a port whose known value is the same.
-/

namespace SignalGraph

/-- The ports that wildcards stand for, by their numbers. -/
abbrev Bindings := List OutputId

def Bindings.get (b : Bindings) (slot : Nat) : Except Fault OutputId :=
  match b[slot]? with
  | some o => .ok o
  | none => .error (.unboundSlot slot b.length)

namespace Graph

/-- Whether two ports have the same known value. -/
def sameValue (g : Graph) (a b : OutputId) : Bool :=
  match g.value? a, g.value? b with
  | some x, some y => x = y
  | _, _ => false

def askSameValue (g : Graph) (a b : OutputId) : Except Fault Bool := do
  match ← g.askValue a, ← g.askValue b with
  | some x, some y => return x = y
  | _, _ => return false

/-- Whether a slot that stands for `bound` matches a port. The values of one and the same port are
not asked for. -/
def askStands (g : Graph) (bound o : OutputId) : Except Fault Bool :=
  if bound = o then .ok true else g.askSameValue bound o

/-- The port at the place of a parameter of a call: what feeds it, or the output itself. -/
def portAt (g : Graph) (signature : Signature) (node : Node) (place : Nat) :
    Except Fault (Option OutputId) :=
  match signature.inputSlot place with
  | some slot =>
    match node.inputs[slot]? with
    | some i => g.source i
    | none => .error (.outOfBounds node.inputs.length slot)
  | none =>
    match signature.outputSlot place with
    | some slot =>
      match node.outputs[slot]? with
      | some o => .ok (some o)
      | none => .error (.outOfBounds node.outputs.length slot)
    | none => .error (.noParameter signature.name place)

end Graph

namespace Pattern

mutual
/-- Matches a pattern at a port, after wildcards that stand for `b`. Gives the bindings with those
of this pattern added, or none if the pattern does not match. -/
def matchFrom (g : Graph) (b : Bindings) (o : OutputId) : Pattern → Except Fault (Option Bindings)
  | .call module factor returnParameter children => do
    let port ← g.output o
    let node ← g.node port.node
    match node.kind with
    | .call signature callFactor _ =>
      if signature.id = module ∧ callFactor = factor then
        match signature.outputSlot returnParameter with
        | some k =>
          match node.outputs[k]? with
          | some anchor =>
            if anchor = o then matchChildren g signature node returnParameter 0 b children
            else return none
          | none => .error (.outOfBounds node.outputs.length k)
        | none => return none
      else return none
    | _ => return none
  | .literal value => do
    return if (← g.askLiteral o) = some value then some b else none
  | .array elements => do
    let port ← g.output o
    let node ← g.node port.node
    match node.kind with
    | .array _ =>
      if node.inputs.length = elements.length then matchElements g b node.inputs elements
      else return none
    | _ => return none
  | .wildcard constant => do
    if constant then
      let port ← g.output o
      return if port.type.isConstant then some (b ++ [o]) else none
    return some (b ++ [o])
  | .slot index => do
    let bound ← Bindings.get b index
    return if ← g.askStands bound o then some b else none
  | .result => .error .resultAsValue
  | .ellipsis => .error .ellipsisAsValue

/-- Matches the children of a call from the one at `index` on. -/
def matchChildren (g : Graph) (signature : Signature) (node : Node)
    (returnParameter index : Nat) (b : Bindings) : List Pattern → Except Fault (Option Bindings)
  | [] => .ok (some b)
  | child :: children => do
    if child.isEllipsis then return some b
    if index = returnParameter then
      if child.isResult then
        matchChildren g signature node returnParameter (index + 1) b children
      else .error (.returnPosition index signature.name child.text)
    else
      match ← g.portAt signature node index with
      | none => return none
      | some o =>
        match ← matchFrom g b o child with
        | none => return none
        | some b => matchChildren g signature node returnParameter (index + 1) b children

/-- Matches the elements of an array against what feeds its inputs. -/
def matchElements (g : Graph) (b : Bindings) (inputs : List InputId) :
    List Pattern → Except Fault (Option Bindings)
  | [] => .ok (some b)
  | element :: elements =>
    match inputs with
    | [] => .ok (some b)
    | i :: inputs => do
      match ← g.source i with
      | none => return none
      | some o =>
        match ← matchFrom g b o element with
        | none => return none
        | some b => matchElements g b inputs elements
end

/-- Matches a pattern at a port. -/
def matchAt (g : Graph) (p : Pattern) (o : OutputId) : Except Fault (Option Bindings) :=
  matchFrom g [] o p

end Pattern

end SignalGraph
