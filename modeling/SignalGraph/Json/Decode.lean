import SignalGraph.Json.Basic
import SignalGraph.Json.Numeral

/-!
# Decoding JSON

From JSON values to typed ones. A record is an object, or an array of its fields in their order.
A known field may be given once; unknown fields are ignored, or refused by strict records.

Some values are *held* before they are decoded: those whose kind is only known from a member that
may come last, and those whose members belong to several records. Everything inside a held value
must be readable, whether or not it is used (`Json.holdable`); a name inside one may have an empty
object beside it where otherwise only null may stand.
-/

namespace SignalGraph.Json

def string? : Json → Option String
  | .string text => some text
  | _ => none

def bool? : Json → Option Bool
  | .bool value => some value
  | _ => none

def numeral? : Json → Option Numeral
  | .number text => Numeral.ofString? text
  | _ => none

/-- An integer from `low` up to but not including `high`. -/
def int? (low high : Int) (value : Json) : Option Int :=
  value.numeral?.bind fun n =>
    n.integer?.bind fun i => if low ≤ i ∧ i < high then some i else none

/-- A natural number of this many bits. -/
def nat? (bits : Nat) (value : Json) : Option Nat :=
  (value.int? 0 (Numeral.bound bits)).map Int.toNat

/-- Every item of an array. -/
def list? {α : Type} (decode : Json → Option α) : Json → Option (List α)
  | .array items => items.mapM decode
  | _ => none

/-- Null, or a value. -/
def nullable? {α : Type} (decode : Json → Option α) : Json → Option (Option α)
  | .null => some none
  | value => (decode value).map some

/-! ## Held values -/

/-- The nesting that a held value may reach, counted from the start of the text. -/
def deepest : Nat := 127

def readableLeaf : Json → Bool
  | .unreadable => false
  | .number text => ((Numeral.ofString? text).bind Numeral.double?).isSome
  | _ => true

/-- Whether a value that stands inside `outer` arrays and objects can be held. -/
def holdable (outer : Nat) (value : Json) : Bool :=
  outer + value.height ≤ deepest && value.everyLeaf readableLeaf

/-- How a value is reached: while the text is read, or after it was held. -/
inductive Manner where
  | direct
  | held
deriving DecidableEq

/-! ## Names -/

/-- One of a few names: as a string, or as the only member of an object. -/
def name? {α : Type} (manner : Manner) (names : List (String × α)) : Json → Option α
  | .string text => names.lookup text
  | .object [(text, .null)] => names.lookup text
  | .object [(text, .object [])] => if manner = .held then names.lookup text else none
  | _ => none

/-! ## Tagged values -/

/-- Splits a value into what says its kind and its other fields: the member `kind` of an object,
which must be there once, or the first item of an array. -/
def tagged? : Json → Option (Json × Json)
  | .object members =>
    match members.filter fun m => m.1 == "kind" with
    | [(_, kind)] => some (kind, .object (members.filter fun m => m.1 != "kind"))
    | _ => none
  | .array (kind :: rest) => some (kind, .array rest)
  | _ => none

/-- One of a few kinds by its name. In a held value it may also be given by its place. -/
def tag? {α : Type} (manner : Manner) (names : List (String × α)) : Json → Option α
  | .string text => names.lookup text
  | .number text =>
    if manner = .held then
      ((Json.number text).nat? 64).bind fun place => (names[place]?).map Prod.snd
    else none
  | _ => none

/-! ## Records -/

/-- The fields of a record that were given. -/
structure Record where
  fields : List (String × Json)

namespace Record

/-- Fields by name; unknown ones are dropped, or refused when the record is strict. -/
def ofMembers? (strict : Bool) (names : List String) (members : List (String × Json)) :
    Option Record :=
  let known := members.filter fun m => names.contains m.1
  let once := names.all fun name => (known.filter fun m => m.1 == name).length ≤ 1
  if once && (!strict || known.length == members.length) then some ⟨known⟩ else none

/-- Fields by place. -/
def ofItems? (names : List String) (items : List Json) : Option Record :=
  if items.length ≤ names.length then some ⟨names.zip items⟩ else none

def get? (r : Record) (name : String) : Option Json :=
  r.fields.lookup name

variable {α : Type}

def required (r : Record) (name : String) (decode : Json → Option α) : Option α :=
  (r.get? name).bind decode

/-- A field that has a default. -/
def withDefault (r : Record) (name : String) (default : α) (decode : Json → Option α) : Option α :=
  match r.get? name with
  | none => some default
  | some value => decode value

/-- A field that may be null, and may be missing. -/
def optional (r : Record) (name : String) (decode : Json → Option α) : Option (Option α) :=
  r.withDefault name none (nullable? decode)

end Record

/-- The fields of a record, from an object or an array. -/
def record? (strict : Bool) (names : List String) : Json → Option Record
  | .object members => Record.ofMembers? strict names members
  | .array items => Record.ofItems? names items
  | _ => none

/-- The fields of a record that is only written as an object. -/
def members? (strict : Bool) (names : List String) : Json → Option Record
  | .object members => Record.ofMembers? strict names members
  | _ => none

end SignalGraph.Json
