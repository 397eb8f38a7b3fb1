import SignalGraph.Graph.Dot
import SignalGraph.Proofs.CanonicalText

/-!
# Reading drawings

A reader for the part of the DOT language that drawings are written in. The scanner takes a text to
lines of words, quoted texts and marks (`Scanner`), and every line has to be a statement
(`Drawing.add?`): a block begins or ends, a property is set, a node is declared or an edge is drawn.
The reader knows nothing of graphs, and gives up on a text with a line of any other kind.

A quoted text ends at the first quote that is not escaped, and must end on its line. What is quoted
in a drawing can be read back, whatever characters it has (`unescape_flatMap`, `runs_quoted`).
-/

namespace SignalGraph

namespace Dot

/-! ## Words, quoted texts and marks -/

inductive Token where
  | word (text : String)
  /-- What stands between two quotes, with its escapes. -/
  | quoted (raw : String)
  | mark (c : Char)
deriving DecidableEq, Repr

def isWord (c : Char) : Bool :=
  c.isAlphanum || c == '_'

def marks : List Char :=
  ['\x7b', '\x7d', '[', ']', '=', ',', ';', '-', '>']

/-- Where in a text the scanner stands. What is read of an open token is kept back to front. -/
inductive Place where
  | between
  | word (read : List Char)
  | quoted (read : List Char)
  /-- Right after a backslash. -/
  | escape (read : List Char)

/-- The lines that were read, the tokens of the line that is being read, and the place in the text.
Both lists are kept back to front. -/
structure Scanner where
  lines : List (List Token) := []
  line : List Token := []
  place : Place := .between

namespace Scanner

/-- A character that starts something new. -/
def start? (lines : List (List Token)) (line : List Token) (c : Char) : Option Scanner :=
  if c = ' ' then some ⟨lines, line, .between⟩
  else if c = '\n' then some ⟨line.reverse :: lines, [], .between⟩
  else if c = '"' then some ⟨lines, line, .quoted []⟩
  else if isWord c then some ⟨lines, line, .word [c]⟩
  else if c ∈ marks then some ⟨lines, .mark c :: line, .between⟩
  else none

def step? (s : Scanner) (c : Char) : Option Scanner :=
  match s.place with
  | .between => start? s.lines s.line c
  | .word read =>
    if isWord c then some { s with place := .word (c :: read) }
    else start? s.lines (.word (String.ofList read.reverse) :: s.line) c
  | .quoted read =>
    if c = '"' then some ⟨s.lines, .quoted (String.ofList read.reverse) :: s.line, .between⟩
    else if c = '\n' then none
    else if c = '\\' then some { s with place := .escape (c :: read) }
    else some { s with place := .quoted (c :: read) }
  | .escape read => if c = '\n' then none else some { s with place := .quoted (c :: read) }

end Scanner

/-- The lines of a text, which ends with one. -/
def scan? (text : String) : Option (List (List Token)) :=
  match text.toList.foldlM Scanner.step? {} with
  | some ⟨lines, [], .between⟩ => some lines.reverse
  | _ => none

/-- The text that a quoted text stands for; none if a quote, a backslash or the end of a line stands
in it without a backslash before it. -/
def unescape : List Char → Option (List Char)
  | [] => some []
  | '\\' :: c :: rest =>
    if c = '"' ∨ c = '\\' then (unescape rest).map (c :: ·)
    else if c = 'n' then (unescape rest).map ('\n' :: ·)
    else none
  | c :: rest =>
    if c = '"' ∨ c = '\\' ∨ c = '\n' then none else (unescape rest).map (c :: ·)

/-! ## Statements -/

def Token.text? : Token → Option String
  | .word text | .quoted text => some text
  | .mark _ => none

/-- The attributes of a node or an edge, up to the end of the statement. -/
def attributes? : List Token → Option (List (String × String))
  | [.word key, .mark '=', value, .mark ']', .mark ';'] =>
    value.text?.map fun text => [(key, text)]
  | .word key :: .mark '=' :: value :: .mark ',' :: rest => do
    let text ← value.text?
    let more ← attributes? rest
    return (key, text) :: more
  | _ => none

def number? (digits : List Char) : Option Nat :=
  if digits.isEmpty || !digits.all Char.isDigit then none else some (Numeral.ofDigits digits)

def nodeId? (name : String) : Option NodeId :=
  match name.toList with
  | 'n' :: digits => (number? digits).map Id.mk
  | _ => none

/-- A node that is declared in a block. -/
structure Declaration where
  block : String
  id : NodeId
  attributes : List (String × String)
deriving DecidableEq, Repr

/-- An edge into a slot of a node. -/
structure Edge where
  source : NodeId
  target : NodeId
  slot : Nat
  attributes : List (String × String)
deriving DecidableEq, Repr

/-- What was read of a drawing. -/
structure Drawing where
  /-- The names of the blocks that are open, the innermost first. -/
  blocks : List String := []
  nodes : List Declaration := []
  edges : List Edge := []
deriving DecidableEq, Repr

namespace Drawing

/-- A line is read. What `node` and `edge` say are defaults. -/
def add? (d : Drawing) : List Token → Option Drawing
  | [] => some d
  | [.mark '\x7d'] =>
    match d.blocks with
    | [] => none
    | _ :: outer => some { d with blocks := outer }
  | [.word kind, .word name, .mark '\x7b'] =>
    if kind = (if d.blocks.isEmpty then "digraph" else "subgraph") then
      some { d with blocks := name :: d.blocks }
    else none
  | [.word _, .mark '=', value, .mark ';'] => value.text?.map fun _ => d
  | .word source :: .mark '-' :: .mark '>' :: .word target :: .mark '[' :: rest => do
    let attributes ← attributes? rest
    let slot ← (attributes.lookup "headlabel").bind fun text => number? text.toList
    let edge := { source := ← nodeId? source, target := ← nodeId? target, slot, attributes }
    return { d with edges := d.edges ++ [edge] }
  | .word name :: .mark '[' :: rest => do
    let attributes ← attributes? rest
    if name = "node" ∨ name = "edge" then return d
    let declaration := { block := ← d.blocks.head?, id := ← nodeId? name, attributes }
    return { d with nodes := d.nodes ++ [declaration] }
  | _ => none

/-- The drawing that a text is, with all blocks closed. -/
def read? (text : String) : Option Drawing := do
  let d ← (← scan? text).foldlM add? {}
  if d.blocks.isEmpty then some d else none

end Drawing

/-! ## Quoted texts are read back -/

theorem unescape_escape (c : Char) (rest : List Char) :
    unescape (escape c ++ rest) = (unescape rest).map (c :: ·) := by
  rw [escape]
  split_ifs with hc hn
  · simp [unescape, hc]
  · simp [unescape, hn]
  · have hplain : ¬(c = '"' ∨ c = '\\' ∨ c = '\n') := by tauto
    rw [List.singleton_append, unescape.eq_3 _ _ fun _ _ h _ => hc (.inr h), if_neg hplain]

theorem unescape_flatMap (cs : List Char) : unescape (cs.flatMap escape) = some cs := by
  induction cs with
  | nil => rfl
  | cons c cs ih => rw [List.flatMap_cons, unescape_escape, ih, Option.map_some]

theorem newline_notMem_flatMap (cs : List Char) : '\n' ∉ cs.flatMap escape := by
  intro h
  obtain ⟨c, -, hc⟩ := List.mem_flatMap.1 h
  rw [escape] at hc
  split_ifs at hc with hq hn
  · rcases hq with rfl | rfl <;> simp at hc
  · simp at hc
  · exact hn (List.mem_singleton.1 hc).symm

/-- A text with nothing to escape. -/
def Plain (text : String) : Prop :=
  ∀ c ∈ text.toList, c ≠ '"' ∧ c ≠ '\\' ∧ c ≠ '\n'

theorem Plain.append {a b : String} (ha : Plain a) (hb : Plain b) : Plain (a ++ b) := by
  intro c hc
  rw [String.toList_append, List.mem_append] at hc
  exact hc.elim (ha c) (hb c)

theorem plain_repr (n : ℕ) : Plain n.repr := by
  intro c hc
  rw [Json.toList_nat] at hc
  have hdigit := Numeral.isDigit_toDigits n c hc
  refine ⟨?_, ?_, ?_⟩ <;> rintro rfl <;> exact absurd hdigit (by decide)

theorem Plain.flatMap_escape {text : String} (h : Plain text) :
    text.toList.flatMap escape = text.toList := by
  rw [Plain] at h
  generalize text.toList = cs at h ⊢
  induction cs with
  | nil => rfl
  | cons c cs ih =>
    obtain ⟨⟨hq, hb, hn⟩, hcs⟩ := List.forall_mem_cons.1 h
    simp [escape, hq, hb, hn, ih hcs]

namespace Scanner

/-- The scanner goes over some characters. -/
def Runs (s : Scanner) (cs : List Char) (s' : Scanner) : Prop :=
  cs.foldlM step? s = some s'

theorem Runs.append {s s' s'' : Scanner} {cs cs' : List Char} (h : Runs s cs s')
    (h' : Runs s' cs' s'') : Runs s (cs ++ cs') s'' := by
  rw [Runs, List.foldlM_append, h]
  exact h'

theorem Runs.cons {s s' s'' : Scanner} {c : Char} {cs : List Char} (h : step? s c = some s')
    (h' : Runs s' cs s'') : Runs s (c :: cs) s'' := by
  rw [Runs, List.foldlM_cons, h]
  exact h'

variable {lines : List (List Token)} {line : List Token} {read : List Char}

theorem runs_word {cs : List Char} (h : ∀ c ∈ cs, isWord c = true) :
    Runs ⟨lines, line, .word read⟩ cs ⟨lines, line, .word (cs.reverse ++ read)⟩ := by
  induction cs generalizing read with
  | nil => rfl
  | cons c cs ih =>
    obtain ⟨hc, hcs⟩ := List.forall_mem_cons.1 h
    rw [List.reverse_cons, List.append_assoc]
    exact .cons (if_pos hc) (ih hcs)

/-- Nothing that was escaped ends a quoted text. -/
theorem runs_escape (cs : List Char) :
    Runs ⟨lines, line, .quoted read⟩ (cs.flatMap escape)
      ⟨lines, line, .quoted ((cs.flatMap escape).reverse ++ read)⟩ := by
  induction cs generalizing read with
  | nil => rfl
  | cons c cs ih =>
    rw [List.flatMap_cons, List.reverse_append, List.append_assoc]
    refine Runs.append ?_ ih
    rw [escape]
    split_ifs with hc hn
    · rcases hc with rfl | rfl <;> rfl
    · rfl
    · rw [not_or] at hc
      simp [Runs, step?, hc, hn]

/-- What is quoted is read up to the quote that ends it. -/
theorem runs_quoted (cs : List Char) :
    Runs ⟨lines, line, .quoted []⟩ (cs.flatMap escape ++ ['"'])
      ⟨lines, .quoted (String.ofList (cs.flatMap escape)) :: line, .between⟩ := by
  have hclose : Runs ⟨lines, line, .quoted ((cs.flatMap escape).reverse ++ [])⟩ ['"']
      ⟨lines, .quoted (String.ofList ((cs.flatMap escape).reverse ++ []).reverse) :: line,
        .between⟩ := rfl
  rw [List.append_nil, List.reverse_reverse] at hclose
  refine (runs_escape cs).append ?_
  rwa [List.append_nil]

theorem runs_plain {text : String} (h : Plain text) :
    Runs ⟨lines, line, .quoted []⟩ (text.toList ++ ['"'])
      ⟨lines, .quoted text :: line, .between⟩ := by
  have hruns : Runs ⟨lines, line, .quoted []⟩ _ _ := runs_quoted text.toList
  rwa [h.flatMap_escape, String.ofList_toList] at hruns

end Scanner

/-! ## Names -/

theorem isWord_toDigits (n : ℕ) : ∀ c ∈ Nat.toDigits 10 n, isWord c = true := by
  intro c hc
  simp [isWord, Char.isAlphanum, Numeral.isDigit_toDigits n c hc]

theorem toList_nodeId (n : NodeId) : (toString n).toList = 'n' :: Nat.toDigits 10 n.index := by
  have htext : toString n = "n" ++ n.index.repr := rfl
  rw [htext, String.toList_append, Json.toList_nat]
  rfl

theorem number?_toDigits (n : ℕ) : number? (Nat.toDigits 10 n) = some n := by
  have hall : (Nat.toDigits 10 n).all Char.isDigit = true :=
    List.all_eq_true.2 (Numeral.isDigit_toDigits n)
  simp [number?, hall, Nat.toDigits_ne_nil]

@[simp] theorem nodeId?_toString (n : NodeId) : nodeId? (toString n) = some n := by
  rw [nodeId?, toList_nodeId]
  simp [number?_toDigits]

/-- The name of a node is one word. -/
theorem Scanner.runs_nodeId (n : NodeId) {lines : List (List Token)} {line : List Token} :
    Runs ⟨lines, line, .between⟩ (toString n).toList
      ⟨lines, line, .word (toString n).toList.reverse⟩ := by
  rw [toList_nodeId, List.reverse_cons]
  exact .cons rfl (runs_word (isWord_toDigits n.index))

/-! ## Lines -/

/-- A line of a drawing is read as these tokens. -/
def Reads (l : String) (ts : List Token) : Prop :=
  ∀ lines, Scanner.Runs ⟨lines, [], .between⟩ (l.toList ++ ['\n']) ⟨ts :: lines, [], .between⟩

theorem Reads.indent {pad l : String} {ts : List Token} (hpad : ∀ c ∈ pad.toList, c = ' ')
    (h : Reads l ts) : Reads (pad ++ l) ts := by
  have hblank : ∀ lines, Scanner.Runs ⟨lines, [], .between⟩ pad.toList ⟨lines, [], .between⟩ := by
    intro lines
    generalize pad.toList = cs at hpad
    induction cs with
    | nil => rfl
    | cons c cs ih =>
      obtain ⟨rfl, hcs⟩ := List.forall_mem_cons.1 hpad
      exact .cons rfl (ih hcs)
  intro lines
  rw [String.toList_append, List.append_assoc]
  exact (hblank lines).append (h lines)

/-- Lines that are read one after another take one drawing to another. -/
inductive Draws : List String → Drawing → Drawing → Prop where
  | nil (d : Drawing) : Draws [] d d
  | cons {l : String} {ls : List String} {ts : List Token} {d d' d'' : Drawing} : Reads l ts →
    d.add? ts = some d' → Draws ls d' d'' → Draws (l :: ls) d d''

namespace Draws

theorem append {ls ls' : List String} {d d' d'' : Drawing} (h : Draws ls d d')
    (h' : Draws ls' d' d'') : Draws (ls ++ ls') d d'' := by
  induction h with
  | nil => exact h'
  | cons hr ha _ ih => exact .cons hr ha (ih h')

theorem exists_tokens {ls : List String} {d d' : Drawing} (h : Draws ls d d') :
    ∃ tss : List (List Token), tss.foldlM Drawing.add? d = some d' ∧ ∀ lines,
      Scanner.Runs ⟨lines, [], .between⟩ (String.join (ls.map fun l => l ++ "\n")).toList
        ⟨tss.reverse ++ lines, [], .between⟩ := by
  induction h with
  | nil d => exact ⟨[], rfl, fun _ => rfl⟩
  | @cons l ls ts d d' d'' hr ha _ ih =>
    obtain ⟨tss, hadd, hruns⟩ := ih
    refine ⟨ts :: tss, ?_, fun lines => ?_⟩
    · rw [List.foldlM_cons, ha]
      exact hadd
    · rw [List.map_cons, String.join_cons, String.toList_append, String.toList_append,
        List.reverse_cons, List.append_assoc tss.reverse]
      exact (hr lines).append (hruns (ts :: lines))

/-- A text is read as the drawing that its lines make. -/
theorem read? {ls : List String} {d : Drawing} (h : Draws ls {} d) (hd : d.blocks = []) :
    Drawing.read? (String.join (ls.map fun l => l ++ "\n")) = some d := by
  obtain ⟨tss, hadd, hruns⟩ := h.exists_tokens
  have hscan : scan? (String.join (ls.map fun l => l ++ "\n")) = some tss := by
    have h := hruns []
    rw [Scanner.Runs] at h
    rw [scan?, h, List.append_nil]
    exact congrArg some (List.reverse_reverse tss)
  simp [Drawing.read?, hscan, hadd, hd]

end Draws

end Dot

end SignalGraph
