import SignalGraph.CommandLine.FileTree

/-!
# Entry point

Reads the files that the arguments name, runs the command on their texts, and prints and writes
what it answers.
-/

namespace SignalGraph.CommandLine

/-- Why a file cannot be used. Some calls of the system give their code below zero. -/
def reason : IO.Error → String
  | .noFileOrDirectory .. => AccessError.missing.message
  | .inappropriateType _ code _ =>
    (if code = 20 ∨ -code = 20 then AccessError.notFolder else .isFolder).message
  | .invalidArgument .. => AccessError.nameTooLong.message
  | .permissionDenied .. => "Permission denied (os error 13)"
  | e => toString e

/-- The text of a file, or why it cannot be read. -/
def readText (path : String) : IO (Except String String) := do
  try
    return .ok (← IO.FS.readFile path)
  catch e => return .error (reason e)

/-- The files that arguments name for reading. -/
def inputFiles (arguments : List String) : List String :=
  match parse arguments with
  | .ok o => o.settings.toList ++ o.modules ++ o.rules.toList ++ o.graph.toList
  | .error _ => []

/-- Reads files; all others count as missing. -/
def readTexts (paths : List String) : IO Read := do
  let texts ← paths.mapM fun path => do return (path, ← readText path)
  return fun path => (texts.lookup path).getD (.error AccessError.missing.message)

/-- Writes the file of a result, if it has one. -/
def writeText (r : Result) : IO Result := do
  match r.write with
  | none => return r
  | some (path, text) =>
    try
      IO.FS.writeFile path text
      return r
    catch e => return r.unwritten path (reason e)

/-- Runs the command with files and streams of the system. -/
def runIn (arguments : List String) : IO UInt32 := do
  let read ← readTexts (inputFiles arguments)
  let r ← writeText (run read arguments)
  (← IO.getStderr).putStr r.stderr
  (← IO.getStdout).putStr r.stdout
  return r.status.toUInt32

end SignalGraph.CommandLine

def main (arguments : List String) : IO UInt32 :=
  SignalGraph.CommandLine.runIn arguments
