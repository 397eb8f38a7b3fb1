import SignalGraph.Json.Decode

/-!
# Diagnostics

What a compilation tells its user: a message with a level, and if they are known a place in the
program, a code that stays the same from version to version, a hint and related places.
-/

namespace SignalGraph

/-- A place in a program text. -/
structure Location where
  file : String
  line : Nat
  column : Nat
deriving DecidableEq, Repr

namespace Location

def text (l : Location) : String :=
  s!"{l.file}:{l.line}:{l.column}"

instance : ToString Location := ⟨text⟩

def ofJson? (value : Json) : Option Location := do
  let r ← value.record? false ["file", "line", "column"]
  let file ← r.required "file" Json.string?
  let line ← r.required "line" (Json.nat? 32)
  let column ← r.required "column" (Json.nat? 32)
  return { file, line, column }

end Location

inductive Level where
  | error
  | warning
deriving DecidableEq, Repr

def Level.name : Level → String
  | .error => "error"
  | .warning => "warning"

/-- The codes of messages. -/
inductive Code where
  /-- An entry of a graph description was rejected. -/
  | E0201
  /-- A prepare hook failed. -/
  | E0301
  /-- An argument has the wrong type. -/
  | E0302
  /-- Latencies of arguments cannot be aligned. -/
  | E0303
  /-- Rewriting stopped at its limit. -/
  | E0401
  /-- A rule matched and none of its replacements fits. -/
  | W0401
  /-- A graph is not well formed. -/
  | E0402
  /-- Any other code. -/
  | X0000
deriving DecidableEq, Repr

namespace Code

def name : Code → String
  | .E0201 => "E0201"
  | .E0301 => "E0301"
  | .E0302 => "E0302"
  | .E0303 => "E0303"
  | .E0401 => "E0401"
  | .W0401 => "W0401"
  | .E0402 => "E0402"
  | .X0000 => "X0000"

def named : List (String × Code) :=
  [.E0201, .E0301, .E0302, .E0303, .E0401, .W0401, .E0402].map fun c => (c.name, c)

end Code

/-- A place that helps to understand a message. -/
structure Related where
  location : Location
  label : String
deriving DecidableEq, Repr

structure Diagnostic where
  level : Level
  location : Option Location
  message : String
  code : Option Code := none
  hint : Option String := none
  related : List Related := []
deriving DecidableEq, Repr

namespace Diagnostic

def error (location : Option Location) (message : String) (code : Option Code := none) :
    Diagnostic :=
  { level := .error, location, message, code }

def warning (location : Option Location) (message : String) (code : Option Code := none) :
    Diagnostic :=
  { level := .warning, location, message, code }

def isError (d : Diagnostic) : Bool :=
  d.level = .error

def text (d : Diagnostic) : String :=
  (match d.location with
    | some l => s!"{l}: "
    | none => "")
  ++ d.level.name
  ++ (match d.code with
    | some c => s!"[{c.name}]: "
    | none => ": ")
  ++ d.message
  ++ (match d.hint with
    | some h => s!"\n  hint: {h}"
    | none => "")

instance : ToString Diagnostic := ⟨text⟩

/-- How many of the messages are errors. -/
def errorCount (ds : List Diagnostic) : Nat :=
  (ds.filter isError).length

end Diagnostic

end SignalGraph
