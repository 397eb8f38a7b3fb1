import SignalGraph.Text.Glyph
import SignalGraph.Text.Hex

/-!
# Quoted text

A text between double quotes, on one line and in visible characters only: quotes, backslashes,
line ends, tabs and the null character have short escapes, and every other character without a
glyph of its own is written by its number in hexadecimal.
-/

namespace SignalGraph.Quoted

/-- How one character is written between the quotes. -/
def escape (c : Char) : List Char :=
  if c = '"' then ['\\', '"']
  else if c = '\\' then ['\\', '\\']
  else if c = '\n' then ['\\', 'n']
  else if c = '\r' then ['\\', 'r']
  else if c = '\t' then ['\\', 't']
  else if c.toNat = 0 then ['\\', '0']
  else if Glyph.isHidden c then
    ['\\', 'u', '\x7b'] ++ Hex.short c.toNat ++ ['\x7d']
  else [c]

def quote (text : String) : String :=
  String.ofList (('"' :: text.toList.flatMap escape) ++ ['"'])

end SignalGraph.Quoted
