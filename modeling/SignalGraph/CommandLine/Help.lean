import SignalGraph.CommandLine.Options

/-!
# Help

Two texts on the arguments of the command: a summary, and a full one that also says what the stages
are. Each entry gives how an argument is written, and below it what it is for.
-/

namespace SignalGraph.CommandLine.Help

structure Entry where
  usage : String
  /-- What the argument is for, in the summary. -/
  brief : String
  /-- The same in the full text. -/
  details : String := brief
deriving DecidableEq, Repr

/-- What starts a line below the usage of an entry. -/
def indent : String := "          "

/-- The stages, one a line, their descriptions aligned. -/
def stages : String :=
  let width := Stage.named.foldl (fun width (name, _) => max width name.length) 0
  String.join <| Stage.named.map fun (name, stage) =>
    let gap := String.ofList (List.replicate (width - name.length) ' ')
    s!"{indent}- {name}: {gap}{stage.about}\n"

def graph : Entry where
  usage := "[GRAPH]"
  brief := "Graph description (.json); not needed for --emit rules/depths"

def emit : Entry where
  usage := "    --emit <EMIT>"
  brief :=
    let names := ", ".intercalate (Stage.named.map Prod.fst)
    s!"Output stage [default: graph] [possible values: {names}]"
  details := s!"Output stage\n\n{indent}Possible values:\n{stages}{indent}\n{indent}[default: graph]"

def options : List Entry :=
  [{ usage := "-m, --modules <MODULES>", brief := "Native module manifest (repeatable)" },
   { usage := "-r, --rules <RULES>", brief := "Optimization rule set (.json)" },
   { usage := "    --settings <SETTINGS>"
     brief := "Compile settings (.json); flags below override individual fields" },
   { usage := "    --sample-rate <SAMPLE_RATE>", brief := "" },
   { usage := "    --input-channels <INPUT_CHANNELS>", brief := "" },
   { usage := "    --output-channels <OUTPUT_CHANNELS>", brief := "" },
   { usage := "    --max-rewrites <MAX_REWRITES>", brief := "" },
   emit,
   { usage := "-o, --output <OUTPUT>", brief := "Output file path (stdout when omitted)" },
   { usage := "    --no-optimize", brief := "Skip the rewrite driver" },
   { usage := "    --verbose", brief := "Log passes, rewrites and timing to stderr" },
   { usage := "-h, --help"
     brief := "Print help (see more with '--help')"
     details := "Print help (see a summary with '-h')" },
   { usage := "-V, --version", brief := "Print version" }]

/-- What stands before the arguments. -/
def opening : String :=
  "Voice/effect graph compiler: builds a lowered program graph and rewrites it to a fixpoint\n\n"
  ++ "Usage: vxc [OPTIONS] --modules <MODULES> [GRAPH]\n\n"

def entryText (usage about : String) : String :=
  s!"  {usage}\n{indent}{about}\n"

def summary : String :=
  opening
  ++ s!"Arguments:\n  {graph.usage}  {graph.brief}\n\n"
  ++ "Options:\n" ++ String.join (options.map fun e => entryText e.usage e.brief)

/-- Entries are divided by blank lines. -/
def full : String :=
  opening
  ++ "Arguments:\n" ++ entryText graph.usage graph.details ++ "\n"
  ++ "Options:\n" ++ "\n".intercalate (options.map fun e => entryText e.usage e.details)

end SignalGraph.CommandLine.Help
