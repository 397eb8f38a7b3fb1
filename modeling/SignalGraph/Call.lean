import SignalGraph.Graph.Build
import SignalGraph.Graph.Known
import SignalGraph.Registry
import SignalGraph.Settings

/-!
# Calls of native modules

A call is planned, prepared and inserted.

* The plan checks the arguments against the declared parameters, and brings their latencies to the
  rate of the call, where all must agree. An array argument is as late as each of its elements.
* The module's hook then sees the call, and can refuse it.
* The new node has one input for each in parameter and one output for each out parameter. An
  output is constant if it is declared so, or if it depends on arguments that all are constant;
  other outputs are as late as the call.

A call that is refused leaves the graph as it was.
-/

namespace SignalGraph

/-- What a graph is built for. -/
structure Environment where
  registry : Registry
  settings : Settings

structure CallPlan where
  /-- Whether all dependent arguments are constants. -/
  dependentConstant : Bool
  /-- The latency of the arguments at the rate of the call. -/
  inputLatency : Nat
deriving DecidableEq, Repr

/-- Whether an output of this kind is constant in a call with this plan. -/
def CallPlan.fixes (p : CallPlan) : Mutability → Bool
  | .constant => true
  | .dependent => p.dependentConstant
  | .varying => false

namespace Call

/-! ## Types and rates of arguments -/

/-- Checks one argument of type `found`. -/
def checkArgument (module : String) (factor index : Nat) (declared : ParameterType)
    (found : DataType) : Outcome BuildError Unit := do
  if found.primitive ≠ some declared.primitive ∨ found.isArray ≠ declared.isArray then
    throw (.argumentType module index declared.expected.text found.text)
  match found.factor with
  | none => return ()
  | some u =>
    if declared.mutability = .constant then throw (.constantExpected module index)
    let expected ← Word.mul declared.factor factor
    if u ≠ expected then throw (.factorMismatch module index expected u)

/-- Checks all arguments, and says whether the dependent ones are constants. -/
def checkArguments (g : Graph) (module : String) (factor : Nat) :
    List ((Parameter × OutputId) × Nat) → Outcome BuildError Bool
  | [] => return true
  | ((parameter, argument), index) :: rest => do
    let found := (← g.output argument).type
    checkArgument module factor index parameter.type found
    let others ← checkArguments g module factor rest
    return others && (parameter.type.mutability ≠ .dependent || found.isConstant)

/-! ## Latencies of arguments -/

/-- A latency at one rate in samples at the rate of the call, if that is a whole number. -/
def toCallRate (latency factor callFactor : Nat) : Except Fault (Option Nat) := do
  if (← Word.rem factor callFactor) ≠ 0 then return none
  let ratio ← Word.div factor callFactor
  if (← Word.rem latency ratio) ≠ 0 then return none
  return some (← Word.div latency ratio)

/-- What feeds an input, if it varies. -/
def variableSource (g : Graph) (i : InputId) : Except Fault (Option OutputId) := do
  match ← g.source i with
  | none => return none
  | some o => return if (← g.output o).type.isConstant then none else some o

/-- The ports whose latencies an argument brings in: none if it is constant, and the variable
elements of an array node instead of the array. -/
def latePorts (g : Graph) (argument : OutputId) : Except Fault (List OutputId) := do
  let port ← g.output argument
  if port.type.isConstant then return []
  let node ← g.node port.node
  match node.kind with
  | .array _ => node.inputs.filterMapM (variableSource g)
  | _ => return [argument]

/-- Compares the latency of a port with the latency all ports before it had. -/
def alignPort (g : Graph) (module : String) (callFactor index : Nat) (common : Option Nat)
    (o : OutputId) : Outcome BuildError Nat := do
  let port ← g.output o
  let factor := port.type.factor.getD callFactor
  match ← toCallRate port.latency factor callFactor with
  | none => throw (.misalignedLatency module index port.latency factor callFactor)
  | some aligned =>
    match common with
    | none => return aligned
    | some first =>
      if first = aligned then return first
      else throw (.inconsistentLatency module callFactor first aligned)

def alignPorts (g : Graph) (module : String) (callFactor index : Nat) (common : Option Nat) :
    List OutputId → Outcome BuildError (Option Nat)
  | [] => return common
  | o :: rest => do
    let aligned ← alignPort g module callFactor index common o
    alignPorts g module callFactor index (some aligned) rest

/-- The common latency of all arguments; none if no argument varies. -/
def alignArguments (g : Graph) (module : String) (callFactor : Nat) (common : Option Nat) :
    List (OutputId × Nat) → Outcome BuildError (Option Nat)
  | [] => return common
  | (argument, index) :: rest => do
    let ports ← latePorts g argument
    let common ← alignPorts g module callFactor index common ports
    alignArguments g module callFactor common rest

/-! ## Plan -/

def plan (g : Graph) (signature : Signature) (factor : Nat) (arguments : List OutputId) :
    Outcome BuildError CallPlan := do
  if factor = 0 then ExceptT.lift (.error Fault.zeroCallFactor)
  let declared := signature.inputs.length
  if arguments.length ≠ declared then
    ExceptT.lift (.error (Fault.arity signature.name declared arguments.length))
  let pairs := (signature.inputs.map Prod.fst).zip arguments
  let dependentConstant ← checkArguments g signature.name factor pairs.zipIdx
  let common ← alignArguments g signature.name factor none arguments.zipIdx
  return { dependentConstant, inputLatency := common.getD 0 }

/-! ## Preparation -/

/-- Runs the hook of a module for a planned call. The hook is shown the values of the arguments that
are known, and told whether all arguments and outputs are constants. -/
def runHook (settings : Settings) (m : Module) (p : CallPlan) (factor : Nat)
    (location : Option Location) (constantArguments : Bool) (shown : List PrepareArgument) :
    Preparation :=
  let constantOutputs := m.signature.outputs.all fun q => p.fixes q.1.type.mutability
  let context : PrepareContext :=
    { sampleRate := settings.sampleRate
      inputChannels := settings.inputChannels
      outputChannels := settings.outputChannels
      factor
      compileTime := constantArguments && constantOutputs
      location }
  { signature := m.signature, context, arguments := shown, prepared := m.hook context shown }

/-- What the hook of a module makes of a planned call. -/
def prepare (settings : Settings) (g : Graph) (m : Module) (p : CallPlan) (factor : Nat)
    (arguments : List OutputId) (location : Option Location) : Preparation :=
  let constantArguments := arguments.all fun a => (g.output? a).any fun port => port.type.isConstant
  let shown := ((m.signature.inputs.map Prod.fst).zip arguments).map fun (parameter, a) =>
    { parameter := parameter.name, value := g.value? a : PrepareArgument }
  runHook settings m p factor location constantArguments shown

/-- The same for arguments that have to be there. -/
def askPrepare (settings : Settings) (g : Graph) (m : Module) (p : CallPlan) (factor : Nat)
    (arguments : List OutputId) (location : Option Location) : Except Fault Preparation := do
  let constantArguments ← arguments.allM fun a => return (← g.output a).type.isConstant
  let shown ← ((m.signature.inputs.map Prod.fst).zip arguments).mapM fun (parameter, a) =>
    return { parameter := parameter.name, value := ← g.askValue a : PrepareArgument }
  return runHook settings m p factor location constantArguments shown

/-! ## Insertion -/

/-- The type and the latency of an output of a call that is `latency` late. -/
def result (p : CallPlan) (factor latency : Nat) (t : ParameterType) :
    Except Fault (DataType × Nat) := do
  let (type, late) ←
    if p.fixes t.mutability then pure (DataType.constant t.primitive, 0)
    else do
      let rate ← Word.mul t.factor factor
      let type ← DataType.varying t.primitive rate
      let late ← Word.mul latency t.factor
      pure (type, late)
  if t.isArray then return (← type.toArray, late) else return (type, late)

def results (p : CallPlan) (factor latency : Nat) :
    List (Parameter × Nat) → Except Fault (List (DataType × Nat))
  | [] => .ok []
  | (parameter, _) :: rest => do
    let first ← result p factor latency parameter.type
    return first :: (← results p factor latency rest)

/-- A call that was planned and prepared. -/
structure Ready where
  signature : Signature
  plan : CallPlan
  /-- What the hook adds to the latency of the arguments. -/
  hookLatency : Nat

/-- Adds the node of a call. -/
def Ready.insert (c : Ready) (g : Graph) (factor : Nat) (arguments : List OutputId)
    (location : Option Location) : Except Fault (Graph × NodeId) := do
  let latency ← Word.add c.plan.inputLatency c.hookLatency
  let outputs ← results c.plan factor latency c.signature.outputs
  g.insert (.call c.signature factor latency) location arguments outputs

/-- What became of a call: the run of the hook if it came to that, and what was made, or why it was
refused. -/
structure Made (α : Type) where
  run : Option Preparation
  result : Except BuildError α

/-- Plans and prepares a call of a registered module with one argument for each in parameter. -/
def ready (env : Environment) (g : Graph) (module : ModuleId) (factor : Nat)
    (arguments : List OutputId) (location : Option Location) : Except Fault (Made Ready) := do
  match env.registry.module? module with
  | none => .error (.unregistered module)
  | some m =>
    match ← (plan g m.signature factor arguments).run with
    | .error e => return { run := none, result := .error e }
    | .ok p =>
      let run ← askPrepare env.settings g m p factor arguments location
      let errors := Diagnostic.errorCount run.prepared.diagnostics
      if 0 < errors then
        return { run := some run, result := .error (.prepareFailed m.signature.name errors) }
      return { run := some run, result := .ok ⟨m.signature, p, run.prepared.latency⟩ }

/-- Builds a call: the graph that is left, and what became of the call. -/
def build (env : Environment) (g : Graph) (module : ModuleId) (factor : Nat)
    (arguments : List OutputId) (location : Option Location) :
    Except Fault (Graph × Made NodeId) := do
  let ⟨run, result⟩ ← ready env g module factor arguments location
  match result with
  | .error e => return (g, ⟨run, .error e⟩)
  | .ok call =>
    let (g, n) ← call.insert g factor arguments location
    return (g, ⟨run, .ok n⟩)

end Call

end SignalGraph
