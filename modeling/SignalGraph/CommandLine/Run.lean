import SignalGraph.CommandLine.Help
import SignalGraph.Compilation
import SignalGraph.Graph.Dot
import SignalGraph.Graph.Printer
import SignalGraph.Provenance

/-!
# The command

From arguments and files to what is printed, what is written and the exit status. Files are read
through a function, so the command itself does nothing to the world.

The exit status is 0 for success, 1 for a program that does not compile, 2 for inputs that cannot
be used, and 101 for a fault.
-/

namespace SignalGraph.CommandLine

/-- Gives the text of a file, or why it cannot be read. -/
abbrev Read := String → Except String String

structure Result where
  status : Nat := 0
  stdout : String := ""
  stderr : String := ""
  /-- A file to write: its name and its text. -/
  write : Option (String × String) := none
deriving DecidableEq, Repr

namespace Result

/-- Inputs that cannot be used. -/
def refused (message : String) : Result where
  status := 2
  stderr := s!"vxc: error: {message}\n"

def faulted (f : Fault) : Result where
  status := 101
  stderr := s!"fault: {f.message}\n"

/-- The result when its file could not be written. -/
def unwritten (r : Result) (path reason : String) : Result where
  status := 2
  stderr := r.stderr ++ s!"vxc: error: {path}: {reason}\n"

end Result

/-- Prints a text, or writes it to the output file. -/
def emit (o : Options) (text : String) (stderr : String) : Result :=
  match o.output with
  | some path => { stderr, write := some (path, text) }
  | none => { stderr, stdout := text }

/-! ## Inputs -/

/-- The settings file, and options over it. -/
def loadSettings (read : Read) (o : Options) : Except String Settings := do
  let base ←
    match o.settings with
    | none => pure {}
    | some path => do
      let text ← (read path).mapError fun reason => s!"{path}: {reason}"
      match (Json.parse? text).bind Settings.ofJson? with
      | none => throw s!"{path}: <parse>"
      | some s =>
        s.validate.mapError SettingsError.message
        pure s
  let s : Settings :=
    { sampleRate := o.sampleRate.getD base.sampleRate
      inputChannels := o.inputChannels.getD base.inputChannels
      outputChannels := o.outputChannels.getD base.outputChannels
      maxRewrites := o.maxRewrites.getD base.maxRewrites }
  s.validate.mapError SettingsError.message
  return s

def loadModules (read : Read) (r : Registry) : List String → Except String Registry
  | [] => .ok r
  | path :: rest => do
    let text ← (read path).mapError fun reason => s!"{path}: {reason}"
    match r.load text path with
    | (r, .ok _) => loadModules read r rest
    | (_, .error e) => .error (e.message RegistryError.message)

def loadRules (read : Read) (registry : Registry) (path : Option String) :
    Except String RuleSet := do
  match path with
  | none => return {}
  | some path =>
    let text ← (read path).mapError fun reason => s!"{path}: {reason}"
    (RuleSet.load registry text path).mapError (LoadError.message RuleError.message)

/-! ## Stages -/

/-- The depths of modules, one a line. -/
def depthsText (registry : Registry) (depths : Depths) : String :=
  String.join <| depths.entries.map fun (m, depth) =>
    let name := ((registry.lookup m).map Signature.name).getD (toString m)
    s!"{name} {depth}\n"

/-- Compiles a description and prints its graph. -/
def compile (env : Environment) (rules : RuleSet) (d : Description) (o : Options) : Result :=
  match Compilation.run { env, rules, description := d } .latency (!o.noOptimize) with
  | .error f => .faulted f
  | .ok (c, trace) =>
    let said := trace.passes.flatMap Prod.snd
    let stderr := String.join (said.map fun d => s!"vxc: {d}\n")
    match trace.failing, c.graph with
    | some p, _ => { status := 1, stderr := stderr ++ s!"vxc: {Compilation.failure p}\n" }
    | none, none => { status := 1, stderr := stderr ++ "vxc: pipeline produced no graph\n" }
    | none, some g => emit o (if o.emit = some .dot then g.dot else g.text) stderr

/-- The stages that need a graph description. -/
def runGraph (read : Read) (env : Environment) (rules : RuleSet) (o : Options) :
    Except String Result := do
  match o.graph with
  | none => throw "a graph description is required for this --emit stage"
  | some path =>
    let source ← (read path).mapError fun reason => s!"{path}: {reason}"
    let d ← (Description.load source path).mapError (LoadError.message DescriptionError.message)
    if o.emit = some .buildInfo then
      return emit o (Provenance.compute source env.registry rules).text ""
    return compile env rules d o

def runOptions (read : Read) (o : Options) : Except String Result := do
  let settings ← loadSettings read o
  let registry ← loadModules read {} o.modules
  let rules ← loadRules read registry o.rules
  match o.emit with
  | some .rules => return emit o (rules.indented ++ "\n") ""
  | some .depths => return emit o (depthsText registry rules.depths) ""
  | _ => runGraph read { registry, settings } rules o

/-- The command. -/
def run (read : Read) (arguments : List String) : Result :=
  match parse arguments with
  | .error .version => { stdout := s!"vxc {version}\n" }
  | .error .summary => { stdout := Help.summary }
  | .error .help => { stdout := Help.full }
  | .error (.usage e) => { status := 2, stderr := s!"error: {e.message}\n" }
  | .ok o =>
    match runOptions read o with
    | .ok r => r
    | .error message => .refused message

end SignalGraph.CommandLine
