import SignalGraph.Call
import SignalGraph.Description.Basic

/-!
# Building a description

Entries are added in order; each may use what comes before it. Hooks run once for each call, and
what they said is kept also when a later entry is refused.
-/

namespace SignalGraph

namespace Reference

/-- A reference at its last point: what stands before it and after it. -/
def split? (reference : List Char) : Option (List Char × List Char) :=
  let back := reference.reverse
  match back.dropWhile (· ≠ '.') with
  | [] => none
  | _ :: base => some (base.reverse, (back.takeWhile (· ≠ '.')).reverse)

/-- The number of an output, in decimal; a plus sign may stand before it. -/
def slot? (cs : List Char) : Option Nat :=
  let digits :=
    match cs with
    | '+' :: rest => rest
    | _ => cs
  if digits.isEmpty || !digits.all Char.isDigit then none
  else
    let n := Numeral.ofDigits digits
    if n < Numeral.bound 64 then some n else none

end Reference

/-- A graph that is being built, and the nodes that have names, latest first. -/
structure Loader where
  graph : Graph := {}
  names : List (String × NodeId) := []

namespace Loader

/-- The entry and the slot that a reference means. A point divides them if what stands before it
is a name and what stands after it is a number; otherwise the whole reference is a name. -/
def target (l : Loader) (reference : String) : String × Nat :=
  match Reference.split? reference.toList with
  | none => (reference, 0)
  | some (base, after) =>
    if (l.names.lookup (String.ofList base)).isSome then
      match Reference.slot? after with
      | some slot => (String.ofList base, slot)
      | none => (reference, 0)
    else (reference, 0)

/-- The port that a reference in the entry `node` means. -/
def resolve (l : Loader) (node reference : String) : Outcome DescriptionError OutputId := do
  let (base, slot) := l.target reference
  match l.names.lookup base with
  | none => throw (.unknownReference node reference)
  | some id =>
    let outputs := (← l.graph.node id).outputs
    match outputs[slot]? with
    | some o => return o
    | none => throw (.noSuchOutput node reference slot outputs.length)

def resolveAll (l : Loader) (node : String) : List String → Outcome DescriptionError (List OutputId)
  | [] => return []
  | reference :: rest => do
    let o ← l.resolve node reference
    return o :: (← l.resolveAll node rest)

def resolveFields (l : Loader) (node : String) :
    List (String × String) → Outcome DescriptionError (List (String × OutputId))
  | [] => return []
  | (name, reference) :: rest => do
    let o ← l.resolve node reference
    return (name, o) :: (← l.resolveFields node rest)

/-- Gives a node a name that is not taken. -/
def bind (l : Loader) (name : String) (n : NodeId) : Except DescriptionError Loader :=
  if (l.names.lookup name).isSome then .error (.duplicateName name)
  else .ok { l with names := (name, n) :: l.names }

/-- The type of a channel. -/
def channelType (name : String) (t : ChannelType) : Except DescriptionError DataType :=
  (DataType.make (some t.primitive) (some t.factor) t.isArray).mapError (.invalidType name)

/-- Lifts what is either a value or an error of a description. -/
def ofExcept {α : Type} (e : Except DescriptionError α) : Outcome DescriptionError α :=
  ExceptT.mk (.ok e)

/-- The graph with the node of the entry `node`. If that is refused, so is the description. -/
def built (node : String) (location : Option Location)
    (x : Except Fault (Graph × Except BuildError NodeId)) :
    Outcome DescriptionError (Graph × NodeId) := do
  match ← x with
  | (g, .ok n) => return (g, n)
  | (_, .error e) => throw (.build node location e)

def modifySurface (l : Loader) (f : Surface → Surface) : Loader :=
  { l with graph := { l.graph with surface := f l.graph.surface } }

/-! ## Channels -/

/-- A channel that enters. -/
def addInput (l : Loader) (c : Channel) : Outcome DescriptionError Loader := do
  let type ← ofExcept (channelType c.name c.type)
  let (graph, n) := l.graph.addInput c.name type c.location
  let l ← ofExcept ({ l with graph }.bind c.name n)
  return l.modifySurface fun s => { s with inputs := s.inputs ++ [n] }

/-- A channel that leaves. -/
def addSink (l : Loader) (s : Sink) : Outcome DescriptionError (Loader × NodeId) := do
  let type ← ofExcept (channelType s.name s.type)
  let source ← l.resolve s.name s.source
  let (graph, n) ← built s.name s.location (l.graph.addOutput s.name type source s.location)
  return ({ l with graph }, n)

/-- A channel from the voice half to the effect half. -/
def addBoundary (l : Loader) (name : String) (type : ChannelType) (source : String)
    (location : Option Location) : Outcome DescriptionError (Loader × NodeId) := do
  let (l, sink) ← l.addSink { name, type, source, location }
  let l := l.modifySurface fun s => { s with boundaryOutputs := s.boundaryOutputs ++ [sink] }
  let dataType ← ofExcept (channelType name type)
  let (graph, n) := l.graph.addInput name dataType location
  let l := { l with graph }
  return (l.modifySurface fun s => { s with boundaryInputs := s.boundaryInputs ++ [n] }, n)

/-! ## Entries -/

/-- The module and the arguments of a call. -/
def planCall (env : Environment) (l : Loader) (node module : String) (factor : Nat)
    (arguments : List String) : Outcome DescriptionError (ModuleId × List OutputId) := do
  match env.registry.lookupName module with
  | none => throw (.unknownModule node module)
  | some signature =>
    let expected := signature.inputs.length
    if expected ≠ arguments.length then
      throw (.argumentCount node module expected arguments.length)
    if factor = 0 then throw (.invalidType node .zeroFactor)
    return (signature.id, ← l.resolveAll node arguments)

def addConstant (l : Loader) (value : Literal) (location : Option Location) : Loader × NodeId :=
  let (graph, n) := l.graph.addConstant value location
  ({ l with graph }, n)

def addArray (l : Loader) (node : String) (location : Option Location) (element : Primitive)
    (elements : List String) : Outcome DescriptionError (Loader × NodeId) := do
  let ports ← l.resolveAll node elements
  let (graph, n) ← built node location (l.graph.addArray element ports location)
  return ({ l with graph }, n)

def addStruct (l : Loader) (node : String) (location : Option Location)
    (fields : List (String × String)) : Outcome DescriptionError (Loader × NodeId) := do
  let ports ← l.resolveFields node fields
  let (graph, n) ← built node location (l.graph.addStruct ports location)
  return ({ l with graph }, n)

/-- Adds a call. Gives the run of its hook, if it came to that. -/
def addCall (env : Environment) (l : Loader) (e : Entry) (module : String) (factor : Nat)
    (arguments : List String) :
    Except Fault (Option Preparation × Except DescriptionError (Loader × NodeId)) := do
  match ← (l.planCall env e.name module factor arguments).run with
  | .error err => return (none, .error err)
  | .ok (id, ports) =>
    let (graph, made) ← Call.build env l.graph id factor ports e.location
    match made.result with
    | .error err => return (made.run, .error (.build e.name e.location err))
    | .ok n => return (made.run, .ok ({ l with graph }, n))

/-- Lifts what runs no hook. -/
def quietly {α : Type} (o : Outcome DescriptionError α) :
    Except Fault (Option Preparation × Except DescriptionError α) := do
  return (none, ← o.run)

/-- Adds the node of an entry. -/
def addNode (env : Environment) (l : Loader) (e : Entry) :
    Except Fault (Option Preparation × Except DescriptionError (Loader × NodeId)) :=
  match e.kind with
  | .constant value => quietly (pure (l.addConstant value e.location))
  | .array element elements => quietly (l.addArray e.name e.location element elements)
  | .struct fields => quietly (l.addStruct e.name e.location fields)
  | .call module factor arguments => l.addCall env e module factor arguments
  | .boundary type source => quietly (l.addBoundary e.name type source e.location)

/-- Adds an entry and gives its node its name. -/
def addEntry (env : Environment) (l : Loader) (e : Entry) :
    Except Fault (Option Preparation × Except DescriptionError Loader) := do
  match ← l.addNode env e with
  | (run, .error err) => return (run, .error err)
  | (run, .ok (l, n)) => return (run, l.bind e.name n)

/-! ## Descriptions -/

def addInputs (l : Loader) : List Channel → Outcome DescriptionError Loader
  | [] => return l
  | c :: rest => do (← l.addInput c).addInputs rest

/-- Adds entries up to the first that is refused. Gives the runs of hooks in order. -/
def addEntries (env : Environment) (l : Loader) :
    List Entry → Except Fault (List Preparation × Except DescriptionError Loader)
  | [] => .ok ([], .ok l)
  | e :: rest => do
    match ← l.addEntry env e with
    | (run, .error err) => return (run.toList, .error err)
    | (run, .ok l) =>
      let (runs, result) ← l.addEntries env rest
      return (run.toList ++ runs, result)

def addSinks (l : Loader) : List Sink → Outcome DescriptionError Loader
  | [] => return l
  | s :: rest => do
    let (l, n) ← l.addSink s
    let l := l.modifySurface fun surface => { surface with outputs := surface.outputs ++ [n] }
    l.addSinks rest

/-- The sink that says whether a half of the program is active. -/
def activeSink (name source : String) : Sink where
  name := name
  type := { primitive := .bool }
  source := source

/-- Adds the channels that leave, and last those that say which halves are active. -/
def addOutputs (l : Loader) (d : Description) : Outcome DescriptionError Graph := do
  let l ← l.addSinks d.outputs
  let l ←
    match d.voiceActive with
    | none => pure l
    | some source => do
      let (l, n) ← l.addSink (activeSink "voice_active" source)
      pure (l.modifySurface fun s => { s with voiceActive := some n })
  let l ←
    match d.effectActive with
    | none => pure l
    | some source => do
      let (l, n) ← l.addSink (activeSink "effect_active" source)
      pure (l.modifySurface fun s => { s with effectActive := some n })
  return l.graph

end Loader

/-- Builds the graph of a description. Gives the runs of hooks in order. -/
def Description.build (env : Environment) (d : Description) :
    Except Fault (List Preparation × Except DescriptionError Graph) := do
  match ← (Loader.addInputs {} d.inputs).run with
  | .error err => return ([], .error err)
  | .ok l =>
    match ← l.addEntries env d.entries with
    | (runs, .error err) => return (runs, .error err)
    | (runs, .ok l) => return (runs, ← (l.addOutputs d).run)

end SignalGraph
