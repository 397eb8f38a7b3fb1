import SignalGraph.Text.Hex

/-!
# JSON tokens

The marks, strings and bare words of a JSON text. Blanks are space, tab, line feed and carriage
return. A string may not hold a raw control character. An escape `\u` writes one UTF-16 unit; two
units that are the halves of a pair write one character, and a half that stands alone leaves the
string without a text.
-/

namespace SignalGraph.Json

inductive Token where
  | openArray
  | closeArray
  | openObject
  | closeObject
  | comma
  | colon
  /-- A string; none when it holds half of a surrogate pair. -/
  | string (text : Option String)
  /-- A run of letters, digits, signs and points. -/
  | word (text : List Char)
deriving DecidableEq, Repr

namespace Token

/-! ## Strings -/

/-- A character of a string, or a UTF-16 unit written by its number. -/
inductive Piece where
  | char (c : Char)
  | unit (n : Nat)

/-- The character that an escape of one letter writes. -/
def escaped? : Char → Option Char
  | '"' => some '"'
  | '\\' => some '\\'
  | '/' => some '/'
  | 'b' => some '\x08'
  | 'f' => some '\x0c'
  | 'n' => some '\n'
  | 'r' => some '\r'
  | 't' => some '\t'
  | _ => none

/-- The pieces of a string; none if an escape is malformed. -/
def pieces? : List Char → Option (List Piece)
  | [] => some []
  | '\\' :: 'u' :: a :: b :: c :: d :: rest =>
    (Hex.read? [a, b, c, d]).bind fun n => (pieces? rest).map (.unit n :: ·)
  | '\\' :: c :: rest => (escaped? c).bind fun e => (pieces? rest).map (.char e :: ·)
  | c :: rest => if c = '\\' then none else (pieces? rest).map (.char c :: ·)

def isHighHalf (n : Nat) : Bool :=
  0xD800 ≤ n && n ≤ 0xDBFF

def isLowHalf (n : Nat) : Bool :=
  0xDC00 ≤ n && n ≤ 0xDFFF

/-- The text of the pieces; none if a half stands alone. -/
def join? : List Piece → Option (List Char)
  | [] => some []
  | .unit high :: .unit low :: rest =>
    if isHighHalf high then
      if isLowHalf low then
        (join? rest).map (Char.ofNat (0x10000 + (high - 0xD800) * 0x400 + (low - 0xDC00)) :: ·)
      else none
    else if isLowHalf high then none
    else (join? (.unit low :: rest)).map (Char.ofNat high :: ·)
  | .unit n :: rest =>
    if isHighHalf n || isLowHalf n then none else (join? rest).map (Char.ofNat n :: ·)
  | .char c :: rest => (join? rest).map (c :: ·)

/-- The token of what stands between two quotes. -/
def ofQuoted? (raw : List Char) : Option Token :=
  (pieces? raw).map fun ps => .string ((join? ps).map String.ofList)

/-! ## The text -/

def isBlank (c : Char) : Bool :=
  c == ' ' || c == '\t' || c == '\n' || c == '\r'

def isWord (c : Char) : Bool :=
  c.isAlphanum || c == '+' || c == '-' || c == '.'

def mark? : Char → Option Token
  | '[' => some .openArray
  | ']' => some .closeArray
  | '\x7b' => some .openObject
  | '\x7d' => some .closeObject
  | ',' => some .comma
  | ':' => some .colon
  | _ => none

/-- Where in the text the lexer stands. What is read of an open token is kept back to front. -/
inductive Place where
  | between
  | word (read : List Char)
  | string (read : List Char)
  /-- Right after a backslash. -/
  | escape (read : List Char)

end Token

/-- The tokens read so far, back to front, and the place in the text. -/
structure Lexer where
  tokens : List Token
  place : Token.Place

namespace Lexer

open Token

/-- A character that starts something new. -/
def start? (tokens : List Token) (c : Char) : Option Lexer :=
  if isBlank c then some ⟨tokens, .between⟩
  else if c = '"' then some ⟨tokens, .string []⟩
  else if isWord c then some ⟨tokens, .word [c]⟩
  else (mark? c).map fun t => ⟨t :: tokens, .between⟩

def step? (l : Lexer) (c : Char) : Option Lexer :=
  match l.place with
  | .between => start? l.tokens c
  | .word read =>
    if isWord c then some ⟨l.tokens, .word (c :: read)⟩
    else start? (.word read.reverse :: l.tokens) c
  | .string read =>
    if c = '"' then (ofQuoted? read.reverse).map fun t => ⟨t :: l.tokens, .between⟩
    else if c = '\\' then some ⟨l.tokens, .escape (c :: read)⟩
    else if c.toNat < 0x20 then none
    else some ⟨l.tokens, .string (c :: read)⟩
  | .escape read => if c.toNat < 0x20 then none else some ⟨l.tokens, .string (c :: read)⟩

def run? (l : Lexer) : List Char → Option Lexer
  | [] => some l
  | c :: rest =>
    match l.step? c with
    | some next => run? next rest
    | none => none

/-- The tokens of a text that ends here; none inside a string. -/
def finish? (l : Lexer) : Option (List Token) :=
  match l.place with
  | .between => some l.tokens.reverse
  | .word read => some (.word read.reverse :: l.tokens).reverse
  | _ => none

end Lexer

/-- The tokens of a text. -/
def tokenize? (text : String) : Option (List Token) :=
  (Lexer.run? ⟨[], .between⟩ text.toList).bind Lexer.finish?

end SignalGraph.Json
