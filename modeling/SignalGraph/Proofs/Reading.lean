import SignalGraph.Json.Reader
import SignalGraph.Json.Writer
import SignalGraph.Proofs.Outcome

/-!
# JSON texts read back

What the writer makes of a value, the reader takes for that value again, on one line
(`parse?_compact`) and indented (`parse?_indented`), so values with the same text are the same
(`compact_inj`). A value has to be faithful: a number is written by its own text, and this must be a
numeral.

Reading has two layers. The lexer takes the text to tokens: `Spells` says of a piece of text that it
comes to these tokens wherever it stands between two others. The machine then takes the tokens of a
value (`tokens`) to the value, whatever it is inside of (`run_tokens`).
-/

namespace SignalGraph

/-! ## Hexadecimal digits -/

namespace Hex

theorem value?_digit {n : ℕ} (h : n < 16) : value? (digit n) = some n := by
  interval_cases n <;> rfl

@[simp] theorem length_fixed (width n : ℕ) : (fixed width n).length = width := by
  induction width generalizing n with
  | zero => rfl
  | succ width ih => simp [fixed, ih]

theorem mem_fixed {width n : ℕ} {c : Char} (h : c ∈ fixed width n) : ∃ k < 16, c = digit k := by
  induction width generalizing n with
  | zero => simp [fixed] at h
  | succ width ih =>
    rw [fixed, List.mem_append, List.mem_singleton] at h
    rcases h with h | rfl
    · exact ih h
    · exact ⟨n % 16, Nat.mod_lt n (by decide), rfl⟩

theorem readFrom_append (n : ℕ) (cs ds : List Char) :
    readFrom n (cs ++ ds) = (readFrom n cs).bind (readFrom · ds) := by
  induction cs generalizing n with
  | nil => rfl
  | cons c cs ih => cases h : value? c <;> simp [readFrom, h, ih]

/-- Digits of a fixed width read back as the number they are the last digits of. -/
theorem readFrom_fixed (width n k : ℕ) :
    readFrom k (fixed width n) = some (16 ^ width * k + n % 16 ^ width) := by
  induction width generalizing n with
  | zero => simp [fixed, readFrom, Nat.mod_one]
  | succ width ih =>
    have hlt : n % 16 < 16 := Nat.mod_lt n (by decide)
    have hmod : n % 16 ^ (width + 1) = n % 16 + 16 * (n / 16 % 16 ^ width) := by
      rw [pow_succ', Nat.mod_mul]
    rw [fixed, readFrom_append, ih, Option.bind_some, readFrom, value?_digit hlt, Option.bind_some,
      readFrom, hmod, pow_succ']
    congr 1
    ring

theorem read?_fixed {width n : ℕ} (hw : 0 < width) (hn : n < 16 ^ width) :
    read? (fixed width n) = some n := by
  have hne : fixed width n ≠ [] := by
    rw [← List.length_pos_iff, length_fixed]
    exact hw
  have h : read? (fixed width n) = readFrom 0 (fixed width n) := by
    cases hd : fixed width n with
    | nil => exact absurd hd hne
    | cons c cs => rfl
  rw [h, readFrom_fixed, Nat.mul_zero, Nat.zero_add, Nat.mod_eq_of_lt hn]

theorem fixed_inj {width a b : ℕ} (ha : a < 16 ^ width) (hb : b < 16 ^ width) :
    fixed width a = fixed width b ↔ a = b := by
  refine ⟨fun h => ?_, congrArg _⟩
  have hread := readFrom_fixed width a 0
  rw [h, readFrom_fixed, Nat.mod_eq_of_lt ha, Nat.mod_eq_of_lt hb] at hread
  simpa using hread.symm

end Hex

namespace Json

/-! ## Strings -/

namespace Token

/-- How the reader takes what `escape` writes for a character. -/
def piece (c : Char) : Piece :=
  if c ∈ ['\x08', '\x0c', '\n', '\r', '\t'] then .char c
  else if c.toNat < 0x20 then .unit c.toNat
  else .char c

/-- A character is escaped by a letter, or by its number, or stands for itself. -/
theorem escape_cases (c : Char) :
    (∃ e, escape c = ['\\', e] ∧ e ≠ 'u' ∧ 0x20 ≤ e.toNat ∧ escaped? e = some c ∧
      piece c = .char c) ∨
    (escape c = ['\\', 'u'] ++ Hex.fixed 4 c.toNat ∧ c.toNat < 0x20 ∧ piece c = .unit c.toNat) ∨
    (escape c = [c] ∧ c ≠ '"' ∧ c ≠ '\\' ∧ 0x20 ≤ c.toNat ∧ piece c = .char c) := by
  by_cases hmem : c ∈ ['"', '\\', '\x08', '\x0c', '\n', '\r', '\t']
  · refine .inl ?_
    simp only [List.mem_cons, List.not_mem_nil, or_false] at hmem
    rcases hmem with rfl | rfl | rfl | rfl | rfl | rfl | rfl <;>
      exact ⟨_, rfl, by decide, by decide, rfl, rfl⟩
  · simp only [List.mem_cons, List.not_mem_nil, or_false, not_or] at hmem
    refine .inr ?_
    by_cases hlt : c.toNat < 0x20
    · exact .inl ⟨by simp [escape, hmem, hlt], hlt, by simp [piece, hmem, hlt]⟩
    · exact .inr ⟨by simp [escape, hmem, hlt], hmem.1, hmem.2.1, Nat.le_of_not_lt hlt,
        by simp [piece, hmem, hlt]⟩

theorem pieces?_escape (c : Char) (rest : List Char) :
    pieces? (escape c ++ rest) = (pieces? rest).map (piece c :: ·) := by
  rcases escape_cases c with ⟨e, he, hu, -, hletter, hp⟩ | ⟨he, hlt, hp⟩ | ⟨he, -, hslash, -, hp⟩
  · simp [he, hp, pieces?, hu, hletter]
  · have hread : Hex.read? (Hex.fixed 4 c.toNat) = some c.toNat :=
      Hex.read?_fixed (by decide) (by omega)
    simp only [Hex.fixed, List.nil_append, List.cons_append] at hread
    simp [he, hp, pieces?, Hex.fixed, hread]
  · simp [he, hp, pieces?, hslash]

/-- A piece makes one character of the text, also if the next one begins with a unit. -/
theorem join?_piece (c : Char) (ps : List Piece) :
    join? (piece c :: ps) = (join? ps).map (c :: ·) := by
  rcases escape_cases c with ⟨e, -, -, -, -, hp⟩ | ⟨-, hlt, hp⟩ | ⟨-, -, -, -, hp⟩
  · rw [hp, join?]
  · have hhigh : isHighHalf c.toNat = false := by
      simp only [isHighHalf, Bool.and_eq_false_iff, decide_eq_false_iff_not]
      omega
    have hlow : isLowHalf c.toNat = false := by
      simp only [isLowHalf, Bool.and_eq_false_iff, decide_eq_false_iff_not]
      omega
    rw [hp]
    rcases ps with - | ⟨d | low, ps⟩ <;> simp [join?, hhigh, hlow]
  · rw [hp, join?]

theorem ofQuoted?_escape (text : String) :
    ofQuoted? (text.toList.flatMap escape) = some (.string (some text)) := by
  have hpieces (cs : List Char) : pieces? (cs.flatMap escape) = some (cs.map piece) := by
    induction cs with
    | nil => rfl
    | cons c cs ih => rw [List.flatMap_cons, pieces?_escape, ih, Option.map_some, List.map_cons]
  have hjoin (cs : List Char) : join? (cs.map piece) = some cs := by
    induction cs with
    | nil => rfl
    | cons c cs ih => rw [List.map_cons, join?_piece, ih, Option.map_some]
  rw [ofQuoted?, hpieces, Option.map_some, hjoin, Option.map_some, String.ofList_toList]

end Token

/-! ## From text to tokens -/

namespace Lexer

open Token

theorem run?_append (l : Lexer) (cs ds : List Char) :
    l.run? (cs ++ ds) = (l.run? cs).bind (run? · ds) := by
  induction cs generalizing l with
  | nil => rfl
  | cons c cs ih =>
    rw [List.cons_append, run?, run?]
    cases l.step? c with
    | none => rfl
    | some next => exact ih next

/-- The lexer has read these tokens, whether or not it has seen the end of the last one. -/
inductive Holds : Lexer → List Token → Prop where
  | between (tokens : List Token) : Holds ⟨tokens, .between⟩ tokens
  | word (tokens : List Token) (read : List Char) :
    Holds ⟨tokens, .word read⟩ (.word read.reverse :: tokens)

theorem Holds.step?_mark {l : Lexer} {tokens : List Token} {c : Char} {t : Token}
    (h : Holds l tokens) (hc : mark? c = some t) : l.step? c = some ⟨t :: tokens, .between⟩ := by
  have hcases : c = '[' ∨ c = ']' ∨ c = '\x7b' ∨ c = '\x7d' ∨ c = ',' ∨ c = ':' := by
    unfold mark? at hc
    split at hc <;> simp_all
  have hstart (tokens : List Token) : start? tokens c = some ⟨t :: tokens, .between⟩ := by
    rcases hcases with rfl | rfl | rfl | rfl | rfl | rfl <;> cases hc <;> rfl
  have hword : isWord c = false := by
    rcases hcases with rfl | rfl | rfl | rfl | rfl | rfl <;> rfl
  cases h with
  | between => exact hstart tokens
  | word tokens read => simp [step?, hword, hstart]

theorem Holds.finish? {l : Lexer} {tokens : List Token} (h : Holds l tokens) :
    l.finish? = some tokens.reverse := by
  cases h <;> rfl

/-- A piece of text that comes to these tokens, wherever it stands between two tokens. -/
def Spells (cs : List Char) (tokens : List Token) : Prop :=
  ∀ before, ∃ l, run? ⟨before, .between⟩ cs = some l ∧ Holds l (tokens.reverse ++ before)

theorem spells_nil : Spells [] [] :=
  fun before => ⟨_, rfl, .between before⟩

/-- A mark ends what stands before it. -/
theorem Spells.mark {cs ds : List Char} {ts us : List Token} {c : Char} {t : Token}
    (h : Spells cs ts) (hc : mark? c = some t) (h' : Spells ds us) :
    Spells (cs ++ c :: ds) (ts ++ t :: us) := by
  intro before
  obtain ⟨l, hrun, hholds⟩ := h before
  obtain ⟨l', hrun', hholds'⟩ := h' (t :: (ts.reverse ++ before))
  refine ⟨l', ?_, ?_⟩
  · rw [run?_append, hrun, Option.bind_some, run?, hholds.step?_mark hc]
    exact hrun'
  · simpa using hholds'

theorem Holds.step?_blank {l : Lexer} {tokens : List Token} {c : Char} (h : Holds l tokens)
    (hc : isBlank c = true) : l.step? c = some ⟨tokens, .between⟩ := by
  have hstart (tokens : List Token) : start? tokens c = some ⟨tokens, .between⟩ := if_pos hc
  have hword : isWord c = false := by
    simp only [isBlank, Bool.or_eq_true, beq_iff_eq] at hc
    rcases hc with ((rfl | rfl) | rfl) | rfl <;> rfl
  cases h with
  | between => exact hstart tokens
  | word tokens read => simp [step?, hword, hstart]

theorem Holds.run?_blanks {l : Lexer} {tokens : List Token} {bs : List Char} (h : Holds l tokens)
    (hb : ∀ c ∈ bs, isBlank c = true) : ∃ l', l.run? bs = some l' ∧ Holds l' tokens := by
  induction bs generalizing l with
  | nil => exact ⟨l, rfl, h⟩
  | cons c bs ih =>
    obtain ⟨hc, hbs⟩ := List.forall_mem_cons.1 hb
    rw [run?, h.step?_blank hc]
    exact ih (.between tokens) hbs

/-- Blanks after a token do not matter. -/
theorem Spells.append_blanks {cs bs : List Char} {ts : List Token} (h : Spells cs ts)
    (hb : ∀ c ∈ bs, isBlank c = true) : Spells (cs ++ bs) ts := by
  intro before
  obtain ⟨l, hrun, hholds⟩ := h before
  obtain ⟨l', hrun', hholds'⟩ := hholds.run?_blanks hb
  refine ⟨l', ?_, hholds'⟩
  rw [run?_append, hrun, Option.bind_some, hrun']

/-- Blanks before a token do not matter. -/
theorem Spells.blanks_append {cs bs : List Char} {ts : List Token}
    (hb : ∀ c ∈ bs, isBlank c = true) (h : Spells cs ts) : Spells (bs ++ cs) ts := by
  intro before
  have hblank : run? ⟨before, .between⟩ bs = some ⟨before, .between⟩ := by
    induction bs with
    | nil => rfl
    | cons c bs ih =>
      obtain ⟨hc, hbs⟩ := List.forall_mem_cons.1 hb
      rw [run?, (Holds.between before).step?_blank hc]
      exact ih hbs
  rw [run?_append, hblank, Option.bind_some]
  exact h before

theorem start?_word {c : Char} (h : isWord c = true) (tokens : List Token) :
    start? tokens c = some ⟨tokens, .word [c]⟩ := by
  have hblank : isBlank c = false := by
    by_contra hc
    simp only [isBlank, Bool.not_eq_false, Bool.or_eq_true, beq_iff_eq] at hc
    rcases hc with ((rfl | rfl) | rfl) | rfl <;> simp [isWord] at h
  have hquote : c ≠ '"' := by
    rintro rfl
    simp [isWord] at h
  simp [start?, hblank, hquote, h]

theorem run?_word {cs : List Char} (tokens : List Token) (read : List Char)
    (h : ∀ c ∈ cs, isWord c = true) :
    run? ⟨tokens, .word read⟩ cs = some ⟨tokens, .word (cs.reverse ++ read)⟩ := by
  induction cs generalizing read with
  | nil => rfl
  | cons c cs ih =>
    obtain ⟨hc, hcs⟩ := List.forall_mem_cons.1 h
    simp [run?, step?, hc, ih (c :: read) hcs]

theorem spells_word (cs : List Char) (hne : cs ≠ []) (h : ∀ c ∈ cs, isWord c = true) :
    Spells cs [.word cs] := by
  intro before
  cases cs with
  | nil => exact absurd rfl hne
  | cons c cs =>
    obtain ⟨hc, hcs⟩ := List.forall_mem_cons.1 h
    refine ⟨⟨before, .word (cs.reverse ++ [c])⟩, ?_, ?_⟩
    · simp only [run?, step?, start?_word hc, run?_word before [c] hcs]
    · simpa using Holds.word before (cs.reverse ++ [c])

theorem run?_plain {cs : List Char} (tokens : List Token) (read : List Char)
    (h : ∀ c ∈ cs, c ≠ '"' ∧ c ≠ '\\' ∧ 0x20 ≤ c.toNat) :
    run? ⟨tokens, .string read⟩ cs = some ⟨tokens, .string (cs.reverse ++ read)⟩ := by
  induction cs generalizing read with
  | nil => rfl
  | cons c cs ih =>
    obtain ⟨⟨hquote, hslash, hge⟩, hcs⟩ := List.forall_mem_cons.1 h
    simp [run?, step?, hquote, hslash, Nat.not_lt.2 hge, ih (c :: read) hcs]

/-- The lexer stays inside a string as long as characters are escaped. -/
theorem run?_escape (tokens : List Token) (read : List Char) (c : Char) :
    run? ⟨tokens, .string read⟩ (escape c) =
      some ⟨tokens, .string ((escape c).reverse ++ read)⟩ := by
  rcases escape_cases c with ⟨e, he, -, hge, -⟩ | ⟨he, -, -⟩ | ⟨he, hquote, hslash, hge, -⟩
  · simp [he, run?, step?, Nat.not_lt.2 hge]
  · have hdigits : ∀ d ∈ Hex.fixed 4 c.toNat, d ≠ '"' ∧ d ≠ '\\' ∧ 0x20 ≤ d.toNat := by
      intro d hd
      obtain ⟨k, hk, rfl⟩ := Hex.mem_fixed hd
      interval_cases k <;> decide
    simp [he, run?, step?, run?_plain tokens ('u' :: '\\' :: read) hdigits]
  · rw [he]
    exact run?_plain tokens read (by simp [hquote, hslash, hge])

theorem run?_flatMap_escape (tokens : List Token) (read cs : List Char) :
    run? ⟨tokens, .string read⟩ (cs.flatMap escape) =
      some ⟨tokens, .string ((cs.flatMap escape).reverse ++ read)⟩ := by
  induction cs generalizing read with
  | nil => rfl
  | cons c cs ih =>
    rw [List.flatMap_cons, run?_append, run?_escape, Option.bind_some, ih]
    simp

theorem spells_quote (text : String) : Spells (quote text) [.string (some text)] := by
  intro before
  refine ⟨⟨.string (some text) :: before, .between⟩, ?_, .between _⟩
  have hstart : start? before '"' = some ⟨before, .string []⟩ := by
    simp [start?, isBlank]
  rw [quote, List.cons_append, run?, step?, hstart]
  dsimp only
  rw [run?_append, run?_flatMap_escape, Option.bind_some]
  simp [run?, step?, ofQuoted?_escape]

end Lexer

/-! ## Values -/

/-- Whether a leaf reads back: a number is written by a numeral. -/
def faithfulLeaf : Json → Bool
  | .number text => text.toList.all Token.isWord && (Numeral.ofString? text).isSome
  | .unreadable => false
  | _ => true

/-- A value that the reader can give. -/
def Faithful (v : Json) : Prop :=
  v.everyLeaf faithfulLeaf = true

mutual
/-- The tokens of a value. -/
def tokens : Json → List Token
  | .array items => .openArray :: itemTokens items ++ [.closeArray]
  | .object members => .openObject :: memberTokens members ++ [.closeObject]
  | .string text => [.string (some text)]
  | other => [.word (leaf other)]

def itemTokens : List Json → List Token
  | [] => []
  | [item] => tokens item
  | item :: rest => tokens item ++ .comma :: itemTokens rest

def memberTokens : List (String × Json) → List Token
  | [] => []
  | [(name, value)] => .string (some name) :: .colon :: tokens value
  | (name, value) :: rest =>
    .string (some name) :: .colon :: tokens value ++ .comma :: memberTokens rest
end

theorem toList_ne_nil {text : String} (h : (Numeral.ofString? text).isSome = true) :
    text.toList ≠ [] := by
  intro hnil
  rw [Numeral.ofString?, hnil] at h
  cases h

open Lexer in
mutual
/-- A value is written by its tokens. -/
theorem spells_compact : (v : Json) → v.everyLeaf faithfulLeaf = true →
    Spells (compactChars v) (tokens v)
  | .array items, h => by
    rw [everyLeaf] at h
    have hclose := (spells_items items h).mark (c := ']') rfl spells_nil
    simpa [compactChars, tokens] using spells_nil.mark (c := '[') rfl hclose
  | .object members, h => by
    rw [everyLeaf] at h
    have hclose := (spells_members members h).mark (c := '\x7d') rfl spells_nil
    simpa [compactChars, tokens] using spells_nil.mark (c := '\x7b') rfl hclose
  | .string text, _ => spells_quote text
  | .number text, h => by
    simp only [everyLeaf, faithfulLeaf, Bool.and_eq_true, List.all_eq_true] at h
    exact spells_word text.toList (toList_ne_nil h.2) h.1
  | .null, _ => by
    simpa [compactChars, tokens, leaf] using
      spells_word "null".toList (by simp) (by simp [Token.isWord])
  | .bool true, _ => by
    simpa [compactChars, tokens, leaf] using
      spells_word "true".toList (by simp) (by simp [Token.isWord])
  | .bool false, _ => by
    simpa [compactChars, tokens, leaf] using
      spells_word "false".toList (by simp) (by simp [Token.isWord])

theorem spells_items : (items : List Json) → everyItem faithfulLeaf items = true →
    Spells (compactItems items) (itemTokens items)
  | [], _ => spells_nil
  | [item], h => by
    simp only [everyItem, Bool.and_true] at h
    exact spells_compact item h
  | item :: next :: rest, h => by
    rw [everyItem, Bool.and_eq_true] at h
    exact (spells_compact item h.1).mark (c := ',') rfl (spells_items (next :: rest) h.2)

theorem spells_members : (members : List (String × Json)) →
    everyMember faithfulLeaf members = true → Spells (compactMembers members) (memberTokens members)
  | [], _ => spells_nil
  | [(name, value)], h => by
    simp only [everyMember, Bool.and_true] at h
    exact (spells_quote name).mark (c := ':') rfl (spells_compact value h)
  | (name, value) :: next :: rest, h => by
    rw [everyMember, Bool.and_eq_true] at h
    have hvalue := (spells_compact value h.1).mark (c := ',') rfl
      (spells_members (next :: rest) h.2)
    simpa [compactMembers, memberTokens] using (spells_quote name).mark (c := ':') rfl hvalue
end

theorem isBlank_newline (level : ℕ) : ∀ c ∈ newline level, Token.isBlank c = true := by
  intro c hc
  rw [newline, List.mem_cons, List.mem_replicate] at hc
  rcases hc with rfl | ⟨-, rfl⟩ <;> rfl

open Lexer in
/-- A member is written on a line of its own, with a blank after the colon. -/
theorem spells_indentedMember (level : ℕ) (name : String) {cs : List Char} {ts : List Token}
    (h : Spells cs ts) : Spells (newline level ++ quote name ++ ": ".toList ++ cs)
      (.string (some name) :: .colon :: ts) := by
  have hspace : ∀ c ∈ [' '], Token.isBlank c = true := by simp [Token.isBlank]
  have hcolon := (spells_quote name).mark (c := ':') rfl (h.blanks_append hspace)
  simpa using hcolon.blanks_append (isBlank_newline level)

open Lexer in
mutual
/-- A value is written by its tokens at every level. -/
theorem spells_indented (level : ℕ) : (v : Json) → v.everyLeaf faithfulLeaf = true →
    Spells (indentedChars level v) (tokens v)
  | .array [], _ => by
    simpa [indentedChars, tokens, itemTokens] using
      spells_nil.mark (c := '[') rfl (spells_nil.mark (c := ']') rfl spells_nil)
  | .array (item :: items), h => by
    rw [everyLeaf] at h
    have hitems := spells_indentedItems (level + 1) (item :: items) h
    have hclose := (hitems.append_blanks (isBlank_newline level)).mark (c := ']') rfl spells_nil
    simpa [indentedChars, tokens] using spells_nil.mark (c := '[') rfl hclose
  | .object [], _ => by
    simpa [indentedChars, tokens, memberTokens] using
      spells_nil.mark (c := '\x7b') rfl (spells_nil.mark (c := '\x7d') rfl spells_nil)
  | .object (member :: members), h => by
    rw [everyLeaf] at h
    have hmembers := spells_indentedMembers (level + 1) (member :: members) h
    have hclose :=
      (hmembers.append_blanks (isBlank_newline level)).mark (c := '\x7d') rfl spells_nil
    simpa [indentedChars, tokens] using spells_nil.mark (c := '\x7b') rfl hclose
  | .string text, h => spells_compact (.string text) h
  | .number text, h => spells_compact (.number text) h
  | .null, h => spells_compact .null h
  | .bool value, h => spells_compact (.bool value) h
  | .unreadable, h => spells_compact .unreadable h

theorem spells_indentedItems (level : ℕ) : (items : List Json) →
    everyItem faithfulLeaf items = true → Spells (indentedItems level items) (itemTokens items)
  | [], _ => spells_nil
  | [item], h => by
    simp only [everyItem, Bool.and_true] at h
    exact (spells_indented level item h).blanks_append (isBlank_newline level)
  | item :: next :: rest, h => by
    rw [everyItem, Bool.and_eq_true] at h
    have hitem := (spells_indented level item h.1).blanks_append (isBlank_newline level)
    exact hitem.mark (c := ',') rfl (spells_indentedItems level (next :: rest) h.2)

theorem spells_indentedMembers (level : ℕ) : (members : List (String × Json)) →
    everyMember faithfulLeaf members = true →
    Spells (indentedMembers level members) (memberTokens members)
  | [], _ => spells_nil
  | [(name, value)], h => by
    simp only [everyMember, Bool.and_true] at h
    have hvalue := spells_indentedMember level name (spells_indented level value h)
    simpa [indentedMembers, memberTokens] using hvalue
  | (name, value) :: next :: rest, h => by
    rw [everyMember, Bool.and_eq_true] at h
    have hvalue := spells_indentedMember level name (spells_indented level value h.1)
    have hrest := hvalue.mark (c := ',') rfl (spells_indentedMembers level (next :: rest) h.2)
    simpa [indentedMembers, memberTokens] using hrest
end

/-! ## From tokens to values -/

namespace Machine

/-- A value may come next. -/
def Ready (e : Expect) : Prop :=
  e = .value ∨ e = .valueOrEnd

theorem step_ready {e : Expect} {frames : List Frame} {t : Token} (he : Ready e)
    (ht : t ≠ .closeArray) : step ⟨frames, e⟩ t = start frames t := by
  rcases he with rfl | rfl
  · rfl
  · cases t <;> first | rfl | exact absurd rfl ht

theorem word?_number {text : String} (h : (Numeral.ofString? text).isSome = true) :
    word? text.toList = some (.number text) := by
  obtain ⟨n, hn⟩ := Option.isSome_iff_exists.1 h
  rw [Numeral.ofString?] at hn
  have hne (word : List Char) (hw : Numeral.ofChars? word = none) : text.toList ≠ word := by
    rintro rfl
    rw [hw] at hn
    cases hn
  rw [word?, if_neg (hne _ (by decide +kernel)), if_neg (hne _ (by decide +kernel)),
    if_neg (hne _ (by decide +kernel)), hn, Option.map_some, String.ofList_toList]

/-- A name and a colon open the place for a value. -/
theorem run_name {e : Expect} {members : List (Option String × Json)}
    (he : e = .name members ∨ e = .nameOrEnd ∧ members = []) (frames : List Frame)
    (name : String) (rest : List Token) :
    run ⟨frames, e⟩ (.string (some name) :: .colon :: rest) =
      run ⟨.object members (some name) :: frames, .value⟩ rest := by
  rcases he with rfl | ⟨rfl, rfl⟩ <;> rfl

theorem closeObject_members (members : List (String × Json)) :
    closeObject (members.map fun m => (some m.1, m.2)).reverse = .object members := by
  have h : (members.map fun m => (some m.1, m.2)).mapM
      (fun m : Option String × Json => m.1.map fun name => (name, m.2)) = some members := by
    induction members with
    | nil => rfl
    | cons m members ih => simp [List.mapM_cons, ih]
  simp [closeObject, h]

mutual
/-- The machine takes the tokens of a value to the value. -/
theorem run_tokens {e : Expect} (he : Ready e) (frames : List Frame) (rest : List Token) :
    (v : Json) → v.everyLeaf faithfulLeaf = true →
    run ⟨frames, e⟩ (tokens v ++ rest) = run (complete v frames) rest
  | .array [], _ => by
    rw [tokens, itemTokens, List.cons_append, List.nil_append, List.cons_append, run,
      step_ready he (by simp)]
    rfl
  | .array (item :: items), h => by
    rw [everyLeaf] at h
    have hitems := run_items (.inr rfl) [] frames rest (item :: items) (by simp) h
    simpa [tokens, run, step_ready he, start] using hitems
  | .object [], _ => by
    rw [tokens, memberTokens, List.cons_append, List.nil_append, List.cons_append, run,
      step_ready he (by simp)]
    rfl
  | .object (member :: members), h => by
    rw [everyLeaf] at h
    have hmembers := run_members [] (.inr ⟨rfl, rfl⟩) frames rest (member :: members) (by simp) h
    rw [List.append_nil, closeObject_members] at hmembers
    simpa [tokens, run, step_ready he, start] using hmembers
  | .string text, _ => by simp [tokens, run, step_ready he, start]
  | .number text, h => by
    simp only [everyLeaf, faithfulLeaf, Bool.and_eq_true] at h
    simp [tokens, run, step_ready he, start, leaf, word?_number h.2]
  | .null, _ => by simp [tokens, run, step_ready he, start, leaf, word?]
  | .bool true, _ => by simp [tokens, run, step_ready he, start, leaf, word?]
  | .bool false, _ => by simp [tokens, run, step_ready he, start, leaf, word?]

theorem run_items {e : Expect} (he : Ready e) (items : List Json) (frames : List Frame)
    (rest : List Token) : (l : List Json) → l ≠ [] → everyItem faithfulLeaf l = true →
    run ⟨.array items :: frames, e⟩ (itemTokens l ++ .closeArray :: rest) =
      run (complete (.array (items.reverse ++ l)) frames) rest
  | [], hne, _ => absurd rfl hne
  | [item], _, h => by
    simp only [everyItem, Bool.and_true] at h
    rw [itemTokens, run_tokens he _ _ item h]
    simp [run, complete, step]
  | item :: next :: l, _, h => by
    rw [everyItem, Bool.and_eq_true] at h
    have hrest := run_items (.inl rfl) (item :: items) frames rest (next :: l) (by simp) h.2
    rw [itemTokens, List.append_assoc, run_tokens he _ _ item h.1]
    · simpa [run, complete, step] using hrest
    · simp

theorem run_members {e : Expect} (members : List (Option String × Json))
    (he : e = .name members ∨ e = .nameOrEnd ∧ members = []) (frames : List Frame)
    (rest : List Token) : (l : List (String × Json)) → l ≠ [] → everyMember faithfulLeaf l = true →
    run ⟨frames, e⟩ (memberTokens l ++ .closeObject :: rest) =
      run (complete (closeObject ((l.map fun m => (some m.1, m.2)).reverse ++ members)) frames) rest
  | [], hne, _ => absurd rfl hne
  | [(name, value)], _, h => by
    simp only [everyMember, Bool.and_true] at h
    rw [memberTokens, List.cons_append, List.cons_append, run_name he,
      run_tokens (.inl rfl) _ _ value h]
    simp [run, complete, step]
  | (name, value) :: next :: l, _, h => by
    rw [everyMember, Bool.and_eq_true] at h
    have hrest := run_members ((some name, value) :: members) (.inl rfl) frames rest (next :: l)
      (by simp) h.2
    rw [memberTokens, List.cons_append, List.cons_append, List.append_assoc, List.cons_append,
      run_name he, run_tokens (.inl rfl) _ _ value h.1]
    · simpa [run, complete, step] using hrest
    · simp
end

end Machine

/-- A text that is written by the tokens of a value reads as the value. -/
theorem parse?_of_spells {v : Json} {cs : List Char} (h : v.Faithful)
    (hspells : Lexer.Spells cs (tokens v)) : parse? (String.ofList cs) = some v := by
  obtain ⟨l, hrun, hholds⟩ := hspells []
  have htokens : tokenize? (String.ofList cs) = some (tokens v) := by
    rw [tokenize?, String.toList_ofList, hrun, Option.bind_some, hholds.finish?]
    simp
  have hvalue := Machine.run_tokens (.inl rfl) [] [] v h
  rw [List.append_nil] at hvalue
  rw [parse?, htokens, Option.bind_some, hvalue]
  rfl

/-- What is written on one line reads back. -/
theorem parse?_compact {v : Json} (h : v.Faithful) : parse? v.compact = some v :=
  parse?_of_spells h (spells_compact v h)

/-- What is written with indentation reads back. -/
theorem parse?_indented {v : Json} (h : v.Faithful) : parse? v.indented = some v :=
  parse?_of_spells h (spells_indented 0 v h)

theorem compact_inj {v w : Json} (hv : v.Faithful) (hw : w.Faithful)
    (h : v.compact = w.compact) : v = w :=
  Option.some.inj ((parse?_compact hv).symm.trans (h ▸ parse?_compact hw))

end Json

end SignalGraph
