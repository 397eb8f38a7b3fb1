/-!
# JSON values

A JSON value as it is written: numbers keep their text, and objects keep the order of their
members and the names that occur twice. What a text means is decided where it is decoded.
-/

namespace SignalGraph

/-- A JSON value. -/
inductive Json where
  | null
  | bool (value : Bool)
  /-- A number by its text. -/
  | number (text : String)
  | string (text : String)
  | array (items : List Json)
  | object (members : List (String × Json))
  /-- A string with half of a surrogate pair, or an object with such a member name. It may stand
  where a value is skipped and can be read as nothing. -/
  | unreadable
deriving Repr

namespace Json

mutual
/-- How deep arrays and objects are nested in a value. -/
def height : Json → Nat
  | .array items => heightItems items + 1
  | .object members => heightMembers members + 1
  | _ => 0

def heightItems : List Json → Nat
  | [] => 0
  | item :: rest => max (height item) (heightItems rest)

def heightMembers : List (String × Json) → Nat
  | [] => 0
  | (_, value) :: rest => max (height value) (heightMembers rest)
end

mutual
/-- Whether `ok` holds of every part of a value that is neither an array nor an object. -/
def everyLeaf (ok : Json → Bool) : Json → Bool
  | .array items => everyItem ok items
  | .object members => everyMember ok members
  | leaf => ok leaf

def everyItem (ok : Json → Bool) : List Json → Bool
  | [] => true
  | item :: rest => everyLeaf ok item && everyItem ok rest

def everyMember (ok : Json → Bool) : List (String × Json) → Bool
  | [] => true
  | (_, value) :: rest => everyLeaf ok value && everyMember ok rest
end

end Json

end SignalGraph
