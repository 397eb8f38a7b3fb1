import SignalGraph.Json.Numeral

/-!
# Options

The arguments of the command. Options take their value from the next argument, or after an equals
sign; the value of a short option may also follow its letter at once. A value that is an argument
of its own does not start with a dash. After `--` all arguments are file names.

Arguments are read from left to right, and the first that is wrong decides, or the first that asks
for help or for the version.
-/

namespace SignalGraph.CommandLine

/-- What is printed. -/
inductive Stage where
  | graph
  | dot
  | rules
  | depths
  | buildInfo
deriving DecidableEq, Repr

namespace Stage

def named : List (String × Stage) :=
  [("graph", .graph), ("dot", .dot), ("rules", .rules), ("depths", .depths),
   ("build-info", .buildInfo)]

def about : Stage → String
  | graph => "Optimized graph, one line per node"
  | dot => "Optimized graph as Graphviz DOT"
  | rules => "The validated rule set as JSON"
  | depths => "Per-module pattern depths of the rule set"
  | buildInfo => "Provenance hashes as JSON"

end Stage

structure Options where
  graph : Option String := none
  modules : List String := []
  rules : Option String := none
  settings : Option String := none
  sampleRate : Option Nat := none
  inputChannels : Option Nat := none
  outputChannels : Option Nat := none
  maxRewrites : Option Nat := none
  emit : Option Stage := none
  output : Option String := none
  noOptimize : Bool := false
  verbose : Bool := false
deriving DecidableEq, Repr

/-- The options that take a value. -/
inductive Key where
  | modules
  | rules
  | settings
  | sampleRate
  | inputChannels
  | outputChannels
  | maxRewrites
  | emit
  | output
deriving DecidableEq, Repr

/-- The options that take none. -/
inductive Switch where
  | noOptimize
  | verbose
  | summary
  | help
  | version
deriving DecidableEq, Repr

def keysByName : List (String × Key) :=
  [("modules", .modules), ("rules", .rules), ("settings", .settings),
   ("sample-rate", .sampleRate), ("input-channels", .inputChannels),
   ("output-channels", .outputChannels), ("max-rewrites", .maxRewrites), ("emit", .emit),
   ("output", .output)]

def switchesByName : List (String × Switch) :=
  [("no-optimize", .noOptimize), ("verbose", .verbose), ("help", .help), ("version", .version)]

def keysByLetter : List (Char × Key) :=
  [('m', .modules), ('r', .rules), ('o', .output)]

def switchesByLetter : List (Char × Switch) :=
  [('h', .summary), ('V', .version)]

/-- Why arguments are refused. -/
inductive UsageError where
  | unknownOption (argument : String)
  | missingValue (option : String)
  | invalidValue (option value : String)
  | unexpectedValue (option : String)
  | repeated (option : String)
  | extraArgument (argument : String)
  | missingModules
deriving DecidableEq, Repr

def UsageError.message : UsageError → String
  | .unknownOption argument => s!"unexpected argument '{argument}'"
  | .missingValue option => s!"a value is required for '{option}'"
  | .invalidValue option value => s!"invalid value '{value}' for '{option}'"
  | .unexpectedValue option => s!"'{option}' takes no value"
  | .repeated option => s!"'{option}' cannot be used multiple times"
  | .extraArgument argument => s!"unexpected argument '{argument}'"
  | .missingModules => "'--modules' is required"

/-- Why reading stops before the end. -/
inductive Stop where
  | usage (error : UsageError)
  | summary
  | help
  | version
deriving DecidableEq, Repr

/-! ## Values -/

/-- Decimal digits as a number. -/
def digits? (cs : List Char) : Option Nat :=
  if cs.isEmpty || !cs.all Char.isDigit then none else some (Numeral.ofDigits cs)

/-- A number of 32 bits; it may have a sign. -/
def word? (value : String) : Option Nat :=
  let n : Option Nat :=
    match value.toList with
    | '+' :: cs => digits? cs
    | '-' :: cs => (digits? cs).bind fun n => if n = 0 then some 0 else none
    | cs => digits? cs
  n.bind fun n => if n < Numeral.bound 32 then some n else none

/-- A number of 64 bits; it may have a plus sign. -/
def count? (value : String) : Option Nat :=
  let n : Option Nat :=
    match value.toList with
    | '+' :: cs => digits? cs
    | cs => digits? cs
  n.bind fun n => if n < Numeral.bound 64 then some n else none

/-- A file name is not empty. -/
def path? (value : String) : Option String :=
  if value.isEmpty then none else some value

/-! ## Settings of options -/

/-- Sets a field that was not set before. -/
def once {α : Type} (option : String) (old new : Option α) (value : String) :
    Except Stop (Option α) :=
  if old.isSome then .error (.usage (.repeated option))
  else if new.isNone then .error (.usage (.invalidValue option value))
  else .ok new

namespace Options

def set (o : Options) (option : String) (key : Key) (value : String) : Except Stop Options := do
  match key with
  | .modules =>
    match path? value with
    | some path => return { o with modules := o.modules ++ [path] }
    | none => throw (.usage (.invalidValue option value))
  | .rules => return { o with rules := ← once option o.rules (path? value) value }
  | .settings => return { o with settings := ← once option o.settings (path? value) value }
  | .sampleRate => return { o with sampleRate := ← once option o.sampleRate (word? value) value }
  | .inputChannels =>
    return { o with inputChannels := ← once option o.inputChannels (word? value) value }
  | .outputChannels =>
    return { o with outputChannels := ← once option o.outputChannels (word? value) value }
  | .maxRewrites =>
    return { o with maxRewrites := ← once option o.maxRewrites (count? value) value }
  | .emit => return { o with emit := ← once option o.emit (Stage.named.lookup value) value }
  | .output => return { o with output := ← once option o.output (path? value) value }

def switch (o : Options) (option : String) (s : Switch) : Except Stop Options :=
  match s with
  | .noOptimize =>
    if o.noOptimize then .error (.usage (.repeated option)) else .ok { o with noOptimize := true }
  | .verbose =>
    if o.verbose then .error (.usage (.repeated option)) else .ok { o with verbose := true }
  | .summary => .error .summary
  | .help => .error .help
  | .version => .error .version

/-- The one argument that is no option: the graph description. -/
def setGraph (o : Options) (argument : String) : Except Stop Options :=
  if o.graph.isSome then .error (.usage (.extraArgument argument))
  else
    match path? argument with
    | some path => .ok { o with graph := some path }
    | none => .error (.usage (.invalidValue "GRAPH" argument))

end Options

/-! ## Arguments -/

/-- What an argument is. -/
inductive Argument where
  | terminator
  | plain
  | unknown
  | key (option : String) (key : Key) (value : Option String)
  | switch (option : String) (switch : Switch) (hasValue : Bool)
deriving DecidableEq, Repr

/-- Whether an argument can be no value: it starts with a dash and has more than that. -/
def isDashed (argument : String) : Bool :=
  match argument.toList with
  | '-' :: _ :: _ => true
  | _ => false

/-- What follows an equals sign, if there is one. -/
def afterEquals : List Char → Option String
  | [] => none
  | '=' :: rest => some (String.ofList rest)
  | _ :: rest => afterEquals rest

/-- What follows the letter of a short option: its value, perhaps after an equals sign. -/
def attached : List Char → Option String
  | [] => none
  | '=' :: rest => some (String.ofList rest)
  | cs => some (String.ofList cs)

/-- Letters without a value end the reading, so it does not matter what follows them. -/
def classify (argument : String) : Argument :=
  match argument.toList with
  | ['-', '-'] => .terminator
  | '-' :: '-' :: rest =>
    let name := String.ofList (rest.takeWhile (· ≠ '='))
    match keysByName.lookup name, switchesByName.lookup name with
    | some key, _ => .key ("--" ++ name) key (afterEquals rest)
    | none, some s => .switch ("--" ++ name) s (afterEquals rest).isSome
    | none, none => .unknown
  | '-' :: letter :: rest =>
    let option := String.ofList ['-', letter]
    match keysByLetter.lookup letter, switchesByLetter.lookup letter with
    | some key, _ => .key option key (attached rest)
    | none, some s => .switch option s false
    | none, none => .unknown
  | _ => .plain

/-- Arguments that are all file names. -/
def files (o : Options) : List String → Except Stop Options
  | [] => .ok o
  | argument :: rest => do files (← o.setGraph argument) rest

def parseFrom (o : Options) : List String → Except Stop Options
  | [] => .ok o
  | argument :: rest =>
    match classify argument with
    | .terminator => files o rest
    | .unknown => .error (.usage (.unknownOption argument))
    | .plain => do parseFrom (← o.setGraph argument) rest
    | .switch option s hasValue => do
      if hasValue then throw (.usage (.unexpectedValue option))
      parseFrom (← o.switch option s) rest
    | .key option key (some value) => do parseFrom (← o.set option key value) rest
    | .key option key none =>
      match rest with
      | [] => .error (.usage (.missingValue option))
      | value :: rest =>
        if isDashed value then .error (.usage (.missingValue option))
        else do parseFrom (← o.set option key value) rest

/-- The options that arguments set. At least one manifest of modules is needed. -/
def parse (arguments : List String) : Except Stop Options := do
  let o ← parseFrom {} arguments
  if o.modules.isEmpty then throw (.usage .missingModules)
  return o

end SignalGraph.CommandLine
