import SignalGraph.CommandLine.Run

/-!
# File trees

Files and folders in memory, in which the command can run. A path is walked part by part: an empty
part and a single dot stay where they are, two dots lead to the folder above, and only a folder has
something below it. A file is made when it is written, a folder never is.
-/

namespace SignalGraph.CommandLine

/-- Why a file cannot be read or written. -/
inductive AccessError where
  | missing
  | notFolder
  | isFolder
  | nameTooLong
deriving DecidableEq, Repr

def AccessError.message : AccessError → String
  | .missing => "No such file or directory (os error 2)"
  | .notFolder => "Not a directory (os error 20)"
  | .isFolder => "Is a directory (os error 21)"
  | .nameTooLong => "File name too long (os error 36)"

/-- Places are given by the names that lead to them from the root. -/
structure FileTree where
  files : List (List String × String) := []
  /-- Folders that are there without a file in them. -/
  folders : List (List String) := []
  /-- The folder that paths start from when they do not start with a slash. -/
  here : List String := []
deriving DecidableEq, Repr

namespace FileTree

def text? (t : FileTree) (place : List String) : Option String :=
  t.files.lookup place

def isFile (t : FileTree) (place : List String) : Bool :=
  (t.text? place).isSome

/-- What holds a folder or a file is a folder. -/
def isFolder (t : FileTree) (place : List String) : Bool :=
  (t.here :: (t.folders ++ t.files.map fun f => f.1.dropLast)).any place.isPrefixOf

def put (t : FileTree) (place : List String) (text : String) : FileTree :=
  { t with files := (place, text) :: t.files.filter fun (file, _) => file ≠ place }

/-! ## Paths -/

/-- The most bytes that a name has. -/
def nameLimit : Nat := 255

/-- The most bytes that a path has. -/
def pathLimit : Nat := 4095

def checkName (name : String) : Except AccessError Unit :=
  if nameLimit < name.utf8ByteSize then .error .nameTooLong else .ok ()

def checkPath (path : String) : Except AccessError Unit :=
  if path.isEmpty then .error .missing
  else if pathLimit < path.utf8ByteSize then .error .nameTooLong
  else .ok ()

/-- Where a path starts. -/
def start (t : FileTree) (path : String) : List String :=
  if path.startsWith "/" then [] else t.here

/-- Goes from a place along one part of a path. -/
def step (t : FileTree) (place : List String) (part : String) :
    Except AccessError (List String) := do
  if t.isFile place then throw .notFolder
  if part = "" ∨ part = "." then return place
  if part = ".." then return place.dropLast
  checkName part
  let next := place ++ [part]
  if t.isFile next || t.isFolder next then return next
  throw .missing

def walk (t : FileTree) (place : List String) : List String → Except AccessError (List String)
  | [] => .ok place
  | part :: rest => do t.walk (← t.step place part) rest

/-! ## Reading and writing -/

def read (t : FileTree) (path : String) : Except AccessError String := do
  checkPath path
  match t.text? (← t.walk (t.start path) (path.splitOn "/")) with
  | some text => return text
  | none => throw .isFolder

/-- The tree with a text in a file. A path that ends in dots or in a slash is one of a folder,
whether it is there or not. -/
def write (t : FileTree) (path text : String) : Except AccessError FileTree := do
  checkPath path
  match (path.splitOn "/").reverse.dropWhile String.isEmpty with
  | [] => throw .isFolder
  | name :: before =>
    let folder ← t.walk (t.start path) before.reverse
    if t.isFile folder then throw .notFolder
    if name = "." ∨ name = ".." ∨ path.endsWith "/" then throw .isFolder
    checkName name
    let place := folder ++ [name]
    if t.isFolder place then throw .isFolder
    return t.put place text

/-! ## The command in a tree -/

def output : List String := ["dev", "stdout"]

def errors : List String := ["dev", "stderr"]

/-- A tree as a system has it, with files in the folder that paths start from. Two files stand for
the streams of the command, and two are empty. -/
def ofFiles (files : List (String × String)) : FileTree :=
  let here := ["tmp", "work"]
  let place (name : String) := here ++ (name.splitOn "/").filter fun part => part ≠ "" ∧ part ≠ "."
  { here
    files := (files.map fun (name, text) => (place name, text)) ++
      [output, errors, ["dev", "null"], ["dev", "stdin"]].map fun file => (file, "")
    folders :=
      ["bin", "etc", "home", "lib", "opt", "proc", "root", "run", "sys", "usr", "var"].map ([·]) }

/-- The files below the folder that paths start from, by their paths. -/
def listing (t : FileTree) : List (String × String) :=
  (t.files.filter fun (file, _) => t.here.isPrefixOf file).map fun (file, text) =>
    ("/".intercalate (file.drop t.here.length), text)

/-- Runs the command; gives its result and the tree after it. -/
def run (t : FileTree) (arguments : List String) : Result × FileTree :=
  let r := CommandLine.run (fun path => (t.read path).mapError AccessError.message) arguments
  match r.write with
  | none => (r, t)
  | some (path, text) =>
    match t.write path text with
    | .error e => (r.unwritten path e.message, t)
    | .ok t =>
      ({ r with
          stdout := r.stdout ++ (t.text? output).getD ""
          stderr := r.stderr ++ (t.text? errors).getD "" }, t)

end FileTree

end SignalGraph.CommandLine
