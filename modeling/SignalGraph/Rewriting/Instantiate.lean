import SignalGraph.Call
import SignalGraph.Pattern.Match

/-!
# Instantiation

Building what a pattern describes, with its slots standing for given ports. Parts are built before
what uses them; if something cannot be built, the parts built before it stay.
-/

namespace SignalGraph

/-- A graph that is being built on, and the hooks that ran, latest first. -/
structure Workspace where
  graph : Graph
  runs : List Preparation := []

namespace Workspace

/-- Notes the run of a hook. -/
def note (w : Workspace) (run : Option Preparation) : Workspace :=
  { w with runs := run.toList ++ w.runs }

/-- The workspace with a node that was added to the graph, and an output of the node. -/
def added (runs : List Preparation) (g : Graph) (n : NodeId) (slot : Nat) :
    Except Fault (Workspace × Except BuildError OutputId) := do
  let o ← g.port n slot
  return ({ graph := g, runs }, .ok o)

end Workspace

namespace Pattern

/-- The type of the elements of an array with these ports; there must be a first one. -/
def elementType (g : Graph) (ports : List OutputId) :
    Except Fault (Except BuildError Primitive) := do
  match ports with
  | [] => .error .emptyArray
  | o :: _ =>
    let type := (← g.output o).type
    match type.primitive with
    | some p => return .ok p
    | none => return .error (.elementType 0 "a primitive value" type.text)

/-- Adds an array of ports. -/
def instantiateArray (w : Workspace) (location : Option Location) (ports : List OutputId) :
    Except Fault (Workspace × Except BuildError OutputId) := do
  match ← elementType w.graph ports with
  | .error e => return (w, .error e)
  | .ok element =>
    match ← (w.graph.arrayResult element ports).run with
    | .error e => return (w, .error e)
    | .ok made =>
      let ⟨g, runs⟩ := w
      let (g, n) ← g.insert (.array element) location ports [made]
      Workspace.added runs g n 0

/-- Adds a call with arguments, and gives its output for the parameter at a place. -/
def instantiateCall (env : Environment) (w : Workspace) (location : Option Location)
    (signature : Signature) (module : ModuleId) (factor place : Nat) (arguments : List OutputId) :
    Except Fault (Workspace × Except BuildError OutputId) := do
  let made ← Call.ready env w.graph module factor arguments location
  let w := w.note made.run
  match made.result with
  | .error e => return (w, .error e)
  | .ok planned =>
    let ⟨g, runs⟩ := w
    let (g, n) ← planned.insert g factor arguments location
    match signature.outputSlot place with
    | none => .error (.notAnOutput place signature.name)
    | some k => Workspace.added runs g n k

mutual
/-- Builds what a pattern describes, and gives its port. -/
def instantiate (env : Environment) (b : Bindings) (location : Option Location)
    (w : Workspace) : Pattern → Except Fault (Workspace × Except BuildError OutputId)
  | .call module factor returnParameter children =>
    match env.registry.lookup module with
    | none => .error (.unregistered module)
    | some signature => do
      match ← instantiateArguments env b location w signature.parameters children with
      | (w, .error e) => return (w, .error e)
      | (w, .ok arguments) =>
        instantiateCall env w location signature module factor returnParameter arguments
  | .literal value =>
    let ⟨g, runs⟩ := w
    let (g, n) := g.addConstant value location
    Workspace.added runs g n 0
  | .array elements => do
    match ← instantiateElements env b location w elements with
    | (w, .error e) => return (w, .error e)
    | (w, .ok ports) => instantiateArray w location ports
  | .slot index => do return (w, .ok (← Bindings.get b index))
  | .wildcard constant => .error (.notInstantiable (Pattern.wildcard constant).text)
  | .result => .error (.notInstantiable Pattern.result.text)
  | .ellipsis => .error (.notInstantiable Pattern.ellipsis.text)

/-- Builds the children of a call at the places of in parameters. -/
def instantiateArguments (env : Environment) (b : Bindings) (location : Option Location)
    (w : Workspace) (parameters : List Parameter) :
    List Pattern → Except Fault (Workspace × Except BuildError (List OutputId))
  | [] => .ok (w, .ok [])
  | child :: children =>
    match parameters with
    | [] => .ok (w, .ok [])
    | parameter :: parameters =>
      if parameter.isInput then do
        match ← instantiate env b location w child with
        | (w, .error e) => return (w, .error e)
        | (w, .ok o) =>
          let (w, rest) ← instantiateArguments env b location w parameters children
          return (w, rest.map (o :: ·))
      else instantiateArguments env b location w parameters children

/-- Builds the elements of an array. -/
def instantiateElements (env : Environment) (b : Bindings) (location : Option Location)
    (w : Workspace) : List Pattern → Except Fault (Workspace × Except BuildError (List OutputId))
  | [] => .ok (w, .ok [])
  | element :: elements => do
    match ← instantiate env b location w element with
    | (w, .error e) => return (w, .error e)
    | (w, .ok o) =>
      let (w, rest) ← instantiateElements env b location w elements
      return (w, rest.map (o :: ·))
end

end Pattern

end SignalGraph
