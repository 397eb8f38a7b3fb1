/-!
# Numbered parts of a graph

The nodes, input ports and output ports of a graph are numbered in the order they are made, each
kind on its own, and a number is never given twice. `Counters` hands the numbers out. Sets of
numbered parts are ascending lists without repeats (`Ascending`).
-/

namespace SignalGraph

/-- The kinds of thing a graph numbers. -/
inductive Part where
  | node
  | input
  | output
deriving DecidableEq, Repr

/-- The letter that stands before the number of a part. -/
def Part.letter : Part → String
  | .node => "n"
  | .input => "i"
  | .output => "o"

/-- The number of a part of a graph. -/
structure Id (part : Part) where
  index : Nat
deriving DecidableEq, Repr

abbrev NodeId := Id .node
abbrev InputId := Id .input
abbrev OutputId := Id .output

instance : LawfulBEq NodeId := inferInstance
instance : LawfulBEq InputId := inferInstance
instance : LawfulBEq OutputId := inferInstance

variable {part : Part}

instance : ToString (Id part) := ⟨fun id => part.letter ++ toString id.index⟩

theorem Id.ext_index {a b : Id part} (h : a.index = b.index) : a = b := by
  cases a; cases b; simp_all

/-- The next number of each kind. -/
structure Counters where
  nodes : Nat := 0
  inputs : Nat := 0
  outputs : Nat := 0
deriving DecidableEq, Repr

namespace Counters

/-- The number the next part of this kind gets. -/
def next (c : Counters) : (part : Part) → Id part
  | .node => ⟨c.nodes⟩
  | .input => ⟨c.inputs⟩
  | .output => ⟨c.outputs⟩

/-- One number of this kind has been handed out. -/
def advance (c : Counters) : Part → Counters
  | .node => { c with nodes := c.nodes + 1 }
  | .input => { c with inputs := c.inputs + 1 }
  | .output => { c with outputs := c.outputs + 1 }

end Counters

/-! ## Sets of ids -/

namespace Ascending

/-- Put `a` in its place, unless it is there already. -/
def insert (a : Id part) : List (Id part) → List (Id part)
  | [] => [a]
  | b :: rest =>
    if a.index < b.index then a :: b :: rest
    else if a.index = b.index then b :: rest
    else b :: insert a rest

/-- Every member of `s` and every element of `l`. -/
def union (s l : List (Id part)) : List (Id part) :=
  l.foldr insert s

def ofList (l : List (Id part)) : List (Id part) :=
  union [] l

theorem mem_insert {a x : Id part} {s : List (Id part)} : x ∈ insert a s ↔ x = a ∨ x ∈ s := by
  induction s with
  | nil => simp [insert]
  | cons b rest ih =>
    simp only [insert]
    split
    · simp
    · split
      · rename_i h
        simp [Id.ext_index h]
      · simp only [List.mem_cons, ih]
        exact or_left_comm

end Ascending

end SignalGraph
