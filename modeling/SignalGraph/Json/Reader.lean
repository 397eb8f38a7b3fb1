import SignalGraph.Json.Basic
import SignalGraph.Json.Numeral
import SignalGraph.Json.Token

/-!
# Reading JSON

A machine that takes the tokens of a text one by one. It keeps the arrays and objects that are
still open and knows what may come next; after the last token exactly one value must be complete.
-/

namespace SignalGraph.Json

/-- An array or object that is still open; what it holds is kept back to front. -/
inductive Frame where
  | array (items : List Json)
  | object (members : List (Option String × Json)) (name : Option String)

/-- What may come next. -/
inductive Expect where
  | value
  | valueOrEnd
  | name (members : List (Option String × Json))
  | nameOrEnd
  | colon (members : List (Option String × Json)) (name : Option String)
  | commaOrEnd
  | nothing (value : Json)

structure Machine where
  frames : List Frame
  expect : Expect

namespace Machine

/-- The object with these members, which are back to front. -/
def closeObject (members : List (Option String × Json)) : Json :=
  match members.reverse.mapM (fun m => m.1.map fun name => (name, m.2)) with
  | some members => .object members
  | none => .unreadable

/-- Hands a complete value to the frame around it. -/
def complete (value : Json) : List Frame → Machine
  | [] => ⟨[], .nothing value⟩
  | .array items :: rest => ⟨.array (value :: items) :: rest, .commaOrEnd⟩
  | .object members name :: rest => ⟨.object ((name, value) :: members) name :: rest, .commaOrEnd⟩

def word? (cs : List Char) : Option Json :=
  if cs = "null".toList then some .null
  else if cs = "true".toList then some (.bool true)
  else if cs = "false".toList then some (.bool false)
  else (Numeral.ofChars? cs).map fun _ => .number (String.ofList cs)

/-- A token where a value has to start. -/
def start (frames : List Frame) : Token → Option Machine
  | .openArray => some ⟨.array [] :: frames, .valueOrEnd⟩
  | .openObject => some ⟨frames, .nameOrEnd⟩
  | .string text => some (complete (text.elim .unreadable .string) frames)
  | .word cs => (word? cs).map (complete · frames)
  | _ => none

def step (m : Machine) (token : Token) : Option Machine :=
  match m.expect, token, m.frames with
  | .value, t, frames => start frames t
  | .valueOrEnd, .closeArray, .array _ :: frames => some (complete (.array []) frames)
  | .valueOrEnd, t, frames => start frames t
  | .nameOrEnd, .closeObject, frames => some (complete (.object []) frames)
  | .nameOrEnd, .string name, frames => some ⟨frames, .colon [] name⟩
  | .name members, .string name, frames => some ⟨frames, .colon members name⟩
  | .colon members name, .colon, frames => some ⟨.object members name :: frames, .value⟩
  | .commaOrEnd, .comma, .array items :: frames => some ⟨.array items :: frames, .value⟩
  | .commaOrEnd, .closeArray, .array items :: frames =>
    some (complete (.array items.reverse) frames)
  | .commaOrEnd, .comma, .object members _ :: frames => some ⟨frames, .name members⟩
  | .commaOrEnd, .closeObject, .object members _ :: frames =>
    some (complete (closeObject members) frames)
  | _, _, _ => none

def run (m : Machine) : List Token → Option Machine
  | [] => some m
  | t :: rest =>
    match m.step t with
    | some next => run next rest
    | none => none

def value? (m : Machine) : Option Json :=
  match m.expect with
  | .nothing value => some value
  | _ => none

end Machine

/-- The value that a text writes; none if it is not one JSON value with blanks around it. -/
def parse? (text : String) : Option Json :=
  (tokenize? text).bind fun tokens =>
    (Machine.run ⟨[], .value⟩ tokens).bind Machine.value?

end SignalGraph.Json
