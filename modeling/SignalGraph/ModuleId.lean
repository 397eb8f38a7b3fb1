import SignalGraph.Text.Blank
import SignalGraph.Text.Hex

/-!
# Module ids

A native module is known by a number of 128 bits, which stays the same from build to build. It is
written as 32 hexadecimal digits; reading also takes fewer digits, capitals, a sign, the mark `0x`
and white space around all of it.
-/

namespace SignalGraph

structure ModuleId where
  bits : BitVec 128
deriving DecidableEq, Repr

namespace ModuleId

def toNat (id : ModuleId) : Nat :=
  id.bits.toNat

def ofNat (n : Nat) : ModuleId :=
  ⟨BitVec.ofNat 128 n⟩

instance : ToString ModuleId := ⟨fun id => String.ofList (Hex.fixed 32 id.toNat)⟩

/-- The id without its leading zeros. -/
def short (id : ModuleId) : String :=
  "#" ++ String.ofList (Hex.short id.toNat)

/-- Drops one mark `0x`. -/
def dropMark : List Char → List Char
  | '0' :: 'x' :: rest => rest
  | cs => cs

/-- Drops one plus sign. -/
def dropSign : List Char → List Char
  | '+' :: rest => rest
  | cs => cs

def ofChars? (cs : List Char) : Option ModuleId :=
  let body := dropMark (Blank.trim cs)
  if body.length ≤ 32 then (Hex.read? (dropSign body)).map ofNat else none

/-- Reads an id of at most 32 characters; a plus sign counts as one of them. -/
def ofString? (text : String) : Option ModuleId :=
  ofChars? text.toList

end ModuleId

end SignalGraph
