import SignalGraph.Proofs.DotText
import SignalGraph.Proofs.Upstream

/-!
# What a drawing shows

The drawing of a coherent graph can be read (`Drawing.read?`), whatever names its nodes have and
whatever its surface lists. It declares every live node once, in the block of its half and under its
label, and has one edge for every input that is fed, by node and then by slot (`Shows`).

Every piece of a drawing is a run of lines that adds declarations or edges to what was read before
(`Draws`). The blocks are put together from these.
-/

namespace SignalGraph

namespace Dot

/-! ## Declarations -/

/-- A label as it stands between its quotes. -/
def rawLabel (kind : Kind) : String :=
  String.ofList ((label kind).toList.flatMap escape)

def shapeAttributes : Kind → List (String × String)
  | .input .. => [("shape", "invhouse")]
  | .output .. => [("shape", "house")]
  | .constant _ => [("shape", "plaintext")]
  | .array _ | .struct _ => [("shape", "record")]
  | .call signature _ _ =>
    if signature.sideEffects then [("shape", "box"), ("peripheries", "2")] else [("shape", "box")]

/-- A node as it is declared in a block. -/
def declare (block : String) (node : Node) : Declaration where
  block := block
  id := node.id
  attributes := ("label", rawLabel node.kind) :: shapeAttributes node.kind

/-- The tokens of the shape, up to the end of the line. -/
def shapeTokens : Kind → List Token
  | .input .. => [.word "shape", .mark '=', .word "invhouse", .mark ']', .mark ';']
  | .output .. => [.word "shape", .mark '=', .word "house", .mark ']', .mark ';']
  | .constant _ => [.word "shape", .mark '=', .word "plaintext", .mark ']', .mark ';']
  | .array _ | .struct _ => [.word "shape", .mark '=', .word "record", .mark ']', .mark ';']
  | .call signature _ _ =>
    if signature.sideEffects then
      [.word "shape", .mark '=', .word "box", .mark ',',
       .word "peripheries", .mark '=', .word "2", .mark ']', .mark ';']
    else [.word "shape", .mark '=', .word "box", .mark ']', .mark ';']

def nodeTokens (node : Node) : List Token :=
  .word (toString node.id) :: .mark '[' :: .word "label" :: .mark '=' ::
    .quoted (rawLabel node.kind) :: .mark ',' :: shapeTokens node.kind

theorem attributes?_shapeTokens (kind : Kind) :
    attributes? (shapeTokens kind) = some (shapeAttributes kind) := by
  cases kind with
  | call signature factor latency =>
    rw [shapeTokens, shapeAttributes]
    split <;> rfl
  | _ => rfl

theorem runs_shape (kind : Kind) (lines : List (List Token)) (line : List Token) :
    Scanner.Runs ⟨lines, line, .between⟩ ((shape kind).toList ++ "];\n".toList)
      ⟨(line.reverse ++ shapeTokens kind) :: lines, [], .between⟩ := by
  rw [← List.reverse_reverse (shapeTokens kind), ← List.reverse_append]
  cases kind with
  | call signature factor latency =>
    simp only [shape, shapeTokens]
    split <;> exact rfl
  | _ =>
    simp only [shape, shapeTokens]
    exact rfl

/-- The name of a node, and the start of its label or of the label of an edge to it. -/
theorem runs_labelStart (n : NodeId) (lines : List (List Token)) (line : List Token) :
    Scanner.Runs ⟨lines, line, .between⟩ ((toString n).toList ++ " [label=\"".toList)
      ⟨lines, .mark '=' :: .word "label" :: .mark '[' :: .word (toString n) :: line,
        .quoted []⟩ := by
  have hopen : Scanner.Runs ⟨lines, line, .word (toString n).toList.reverse⟩ " [label=\"".toList
      ⟨lines, .mark '=' :: .word "label" :: .mark '[' ::
        .word (String.ofList (toString n).toList.reverse.reverse) :: line, .quoted []⟩ := rfl
  rw [List.reverse_reverse, String.ofList_toList] at hopen
  exact (Scanner.runs_nodeId n).append hopen

theorem reads_nodeLine (node : Node) : Reads (nodeLine node) (nodeTokens node) := by
  intro lines
  have hopen : (toString " [label=").toList = " [label=".toList := rfl
  have htext : (nodeLine node).toList ++ ['\n'] =
      ((toString node.id).toList ++ " [label=\"".toList) ++
        (((label node.kind).toList.flatMap escape ++ ['"']) ++
          (", ".toList ++ ((shape node.kind).toList ++ "];\n".toList))) := by
    simp [nodeLine, quote, hopen]
  have hcomma : Scanner.Runs ⟨lines, [.quoted (rawLabel node.kind), .mark '=', .word "label",
      .mark '[', .word (toString node.id)], .between⟩ ", ".toList
      ⟨lines, [.mark ',', .quoted (rawLabel node.kind), .mark '=', .word "label", .mark '[',
        .word (toString node.id)], .between⟩ := rfl
  rw [htext]
  exact (runs_labelStart node.id lines []).append
    ((Scanner.runs_quoted _).append (hcomma.append (runs_shape node.kind lines _)))

theorem add?_nodeTokens (d : Drawing) (node : Node) {block : String} {outer : List String}
    (hd : d.blocks = block :: outer) :
    d.add? (nodeTokens node) = some { d with nodes := d.nodes ++ [declare block node] } := by
  have hattributes : attributes? (.word "label" :: .mark '=' :: .quoted (rawLabel node.kind) ::
      .mark ',' :: shapeTokens node.kind) = some (declare block node).attributes := by
    have hshape := attributes?_shapeTokens node.kind
    rw [attributes?, hshape]
    rfl
  have hname : ¬(toString node.id = "node" ∨ toString node.id = "edge") := by
    have hid := nodeId?_toString node.id
    rintro (h | h) <;> · rw [h] at hid; cases hid
  rw [nodeTokens, Drawing.add?, hattributes]
  simp [hname, hd, declare]

/-- Declarations in the innermost block. -/
theorem draws_nodes {pad block : String} {outer : List String} (hpad : ∀ c ∈ pad.toList, c = ' ')
    (members : List Node) {nodes : List Declaration} {edges : List Edge} :
    Draws (members.map fun node => pad ++ nodeLine node) ⟨block :: outer, nodes, edges⟩
      ⟨block :: outer, nodes ++ members.map (declare block), edges⟩ := by
  induction members generalizing nodes with
  | nil =>
    rw [List.map_nil, List.map_nil, List.append_nil]
    exact .nil _
  | cons node members ih =>
    refine .cons ((reads_nodeLine node).indent hpad) (add?_nodeTokens _ node rfl) ?_
    rw [List.map_cons, List.append_cons nodes (declare block node) (members.map (declare block))]
    exact ih

/-- A line of a cluster that has no node in it. -/
theorem reads_cluster {name : String} (h : name = "voice" ∨ name = "effect") :
    Reads s!"    subgraph cluster_{name} \x7b"
        [.word "subgraph", .word s!"cluster_{name}", .mark '\x7b'] ∧
      Reads s!"        label=\"{name}\";" [.word "label", .mark '=', .quoted name, .mark ';'] := by
  rcases h with rfl | rfl <;> exact ⟨fun _ => rfl, fun _ => rfl⟩

theorem draws_cluster {name : String} (h : name = "voice" ∨ name = "effect") (members : List Node)
    {nodes : List Declaration} {edges : List Edge} :
    Draws (cluster name members) ⟨["program"], nodes, edges⟩
      ⟨["program"], nodes ++ members.map (declare s!"cluster_{name}"), edges⟩ := by
  rw [cluster]
  split_ifs with hmembers
  · rw [List.isEmpty_iff.1 hmembers, List.map_nil, List.append_nil]
    exact .nil _
  · obtain ⟨hopen, hlabel⟩ := reads_cluster h
    have hhead : Draws ["", s!"    subgraph cluster_{name} \x7b", s!"        label=\"{name}\";",
        "        style=rounded;", "        color=gray50;"] ⟨["program"], nodes, edges⟩
        ⟨[s!"cluster_{name}", "program"], nodes, edges⟩ := by
      refine .cons (fun _ => rfl) rfl (.cons hopen rfl (.cons hlabel rfl ?_))
      exact .cons (fun _ => rfl) rfl (.cons (fun _ => rfl) rfl (.nil _))
    refine (hhead.append (draws_nodes (by simp) members)).append ?_
    exact .cons (fun _ => rfl) rfl (.nil _)

theorem draws_loose (members : List Node) {nodes : List Declaration} {edges : List Edge} :
    Draws (loose members) ⟨["program"], nodes, edges⟩
      ⟨["program"], nodes ++ members.map (declare "program"), edges⟩ := by
  rw [loose]
  split_ifs with hmembers
  · rw [List.isEmpty_iff.1 hmembers, List.map_nil, List.append_nil]
    exact .nil _
  · exact .cons (fun _ => rfl) rfl (draws_nodes (by simp) members)

/-! ## Edges -/

/-- What stands beside an edge: the type and the latency of the port that it comes from. -/
def edgeLabel (port : OutputPort) : String :=
  port.type.text ++ if 0 < port.latency then s!" +{port.latency}" else ""

def edgeAttributes (port : OutputPort) (slot : Nat) : List (String × String) :=
  [("label", edgeLabel port), ("headlabel", slot.repr)]
    ++ if port.type.isConstant then [("style", "dashed")] else []

/-- The edge into an input in a slot of a node, if the input is fed. -/
def edge? (g : Graph) (n : NodeId) (slot : Nat) (i : InputId) : Option Edge :=
  ((g.source? i).bind g.output?).map fun port =>
    { source := port.node, target := n, slot, attributes := edgeAttributes port slot }

/-- The tokens of the style, which is dashed for a constant, up to the end of the line. -/
def styleTokens (constant : Bool) : List Token :=
  if constant then
    [.mark ',', .word "style", .mark '=', .word "dashed", .mark ']', .mark ';']
  else [.mark ']', .mark ';']

def edgeTokens (port : OutputPort) (n : NodeId) (slot : Nat) : List Token :=
  .word (toString port.node) :: .mark '-' :: .mark '>' :: .word (toString n) :: .mark '[' ::
    .word "label" :: .mark '=' :: .quoted (edgeLabel port) :: .mark ',' ::
    .word "headlabel" :: .mark '=' :: .quoted slot.repr :: styleTokens port.type.isConstant

theorem plain_text (t : DataType) : Plain t.text := by
  rw [DataType.text]
  refine Plain.append (Plain.append ?_ ?_) ?_
  · cases t.primitive with
    | none => simp [Plain]
    | some p => cases p <;> simp [Plain, Primitive.name]
  · split <;> simp [Plain]
  · cases t.factor with
    | none => simp [Plain]
    | some u => exact (show Plain "@" by simp [Plain]).append (plain_repr u)

theorem plain_edgeLabel (port : OutputPort) : Plain (edgeLabel port) := by
  refine (plain_text port.type).append ?_
  split
  · exact (show Plain " +" by simp [Plain]).append (plain_repr port.latency)
  · simp [Plain]

theorem runs_arrow (n : NodeId) (lines : List (List Token)) :
    Scanner.Runs ⟨lines, [], .between⟩ ((toString n).toList ++ " -> ".toList)
      ⟨lines, [.mark '>', .mark '-', .word (toString n)], .between⟩ := by
  have harrow : Scanner.Runs ⟨lines, [], .word (toString n).toList.reverse⟩ " -> ".toList
      ⟨lines, [.mark '>', .mark '-', .word (String.ofList (toString n).toList.reverse.reverse)],
        .between⟩ := rfl
  rw [List.reverse_reverse, String.ofList_toList] at harrow
  exact (Scanner.runs_nodeId n).append harrow

theorem runs_style (constant : Bool) (lines : List (List Token)) (line : List Token) :
    Scanner.Runs ⟨lines, line, .between⟩
      ((if constant then ", style=dashed" else "").toList ++ "];\n".toList)
      ⟨(line.reverse ++ styleTokens constant) :: lines, [], .between⟩ := by
  rw [← List.reverse_reverse (styleTokens constant), ← List.reverse_append]
  cases constant <;> exact rfl

theorem edgeLine?_eq_none {g : Graph} (n : NodeId) (slot : Nat) {i : InputId}
    (h : (g.source? i).bind g.output? = none) : edgeLine? g n slot i = none := by
  cases hs : g.source? i with
  | none => simp [edgeLine?, hs]
  | some o =>
    rw [hs, Option.bind_some] at h
    simp [edgeLine?, hs, h]

theorem reads_edgeLine? {g : Graph} (n : NodeId) (slot : Nat) {i : InputId} {port : OutputPort}
    (h : (g.source? i).bind g.output? = some port) :
    ∃ l, edgeLine? g n slot i = some l ∧ Reads l (edgeTokens port n slot) := by
  obtain ⟨o, hs, ho⟩ := Option.bind_eq_some_iff.1 h
  have hline : edgeLine? g n slot i = some ("    " ++ (toString port.node ++ " -> " ++
      (toString n ++ " [label=\"" ++ (edgeLabel port ++ "\"" ++ (", headlabel=\"" ++
        (slot.repr ++ "\"" ++ ((if port.type.isConstant then ", style=dashed" else "") ++
          "];"))))))) := by
    simp only [edgeLine?, hs, ho, Option.bind_eq_bind, Option.bind_some, Option.some.injEq,
      edgeLabel, String.append_assoc]
    rfl
  refine ⟨_, hline, Reads.indent (by simp) fun lines => ?_⟩
  have hslot : Scanner.Runs ⟨lines, [.quoted (edgeLabel port), .mark '=', .word "label", .mark '[',
      .word (toString n), .mark '>', .mark '-', .word (toString port.node)], .between⟩
      ", headlabel=\"".toList
      ⟨lines, [.mark '=', .word "headlabel", .mark ',', .quoted (edgeLabel port), .mark '=',
        .word "label", .mark '[', .word (toString n), .mark '>', .mark '-',
        .word (toString port.node)], .quoted []⟩ := rfl
  have hruns := (runs_arrow port.node lines).append ((runs_labelStart n lines _).append
    ((Scanner.runs_plain (plain_edgeLabel port)).append (hslot.append
      ((Scanner.runs_plain (plain_repr slot)).append (runs_style port.type.isConstant lines _)))))
  convert hruns using 1
  · simp
  · simp [edgeTokens]

theorem add?_edgeTokens (d : Drawing) (port : OutputPort) (n : NodeId) (slot : Nat) :
    d.add? (edgeTokens port n slot) = some { d with
      edges := d.edges ++ [⟨port.node, n, slot, edgeAttributes port slot⟩] } := by
  rw [edgeTokens, edgeAttributes, styleTokens]
  split <;> simp [Drawing.add?, attributes?, Token.text?, number?_toDigits, List.lookup]

/-- Edges into some inputs of a node, each with its slot. -/
theorem draws_edges (g : Graph) (n : NodeId) (l : List (InputId × Nat)) {blocks : List String}
    {nodes : List Declaration} {edges : List Edge} :
    Draws (l.filterMap fun p => edgeLine? g n p.2 p.1) ⟨blocks, nodes, edges⟩
      ⟨blocks, nodes, edges ++ l.filterMap fun p => edge? g n p.2 p.1⟩ := by
  induction l generalizing edges with
  | nil =>
    rw [List.filterMap_nil, List.filterMap_nil, List.append_nil]
    exact .nil _
  | cons p l ih =>
    cases hport : (g.source? p.1).bind g.output? with
    | none =>
      have hedge : edge? g n p.2 p.1 = none := by rw [edge?, hport, Option.map_none]
      simp only [List.filterMap_cons, edgeLine?_eq_none n p.2 hport, hedge]
      exact ih
    | some port =>
      obtain ⟨line, hline, hreads⟩ := reads_edgeLine? n p.2 hport
      have hedge : edge? g n p.2 p.1 = some ⟨port.node, n, p.2, edgeAttributes port p.2⟩ := by
        rw [edge?, hport, Option.map_some]
      simp only [List.filterMap_cons, hline, hedge]
      rw [List.append_cons]
      exact .cons hreads (add?_edgeTokens _ port n p.2) ih

/-! ## Drawings of graphs -/

def edgesInto (g : Graph) (node : Node) : List Edge :=
  node.inputs.zipIdx.filterMap fun p => edge? g node.id p.2 p.1

theorem draws_edgeLines (g : Graph) (members : List Node) {blocks : List String}
    {nodes : List Declaration} {edges : List Edge} :
    Draws (members.flatMap (edgeLines g)) ⟨blocks, nodes, edges⟩
      ⟨blocks, nodes, edges ++ members.flatMap (edgesInto g)⟩ := by
  induction members generalizing edges with
  | nil =>
    rw [List.flatMap_nil, List.flatMap_nil, List.append_nil]
    exact .nil _
  | cons node members ih =>
    rw [List.flatMap_cons, List.flatMap_cons, ← List.append_assoc]
    exact (draws_edges g node.id node.inputs.zipIdx).append ih

/-- The block that a node is declared in. The voice comes first. -/
def blockOf (g : Graph) (n : NodeId) : String :=
  if n ∈ g.voiceNodes then "cluster_voice"
  else if n ∈ g.effectNodes then "cluster_effect"
  else "program"

/-- The drawing of a graph. -/
def drawing (g : Graph) : Drawing where
  nodes :=
    (g.liveNodes.filter fun n => n.id ∈ g.voiceNodes).map (declare "cluster_voice")
      ++ (g.liveNodes.filter fun n => n.id ∉ g.voiceNodes ∧ n.id ∈ g.effectNodes).map
        (declare "cluster_effect")
      ++ (g.liveNodes.filter fun n => n.id ∉ g.voiceNodes ∧ n.id ∉ g.effectNodes).map
        (declare "program")
  edges := g.liveNodes.flatMap (edgesInto g)

theorem draws_lines (g : Graph) : Draws (lines g) {} (drawing g) := by
  have hhead : Draws ["digraph program \x7b", "    rankdir=LR;",
      "    node [fontname=\"Helvetica\", fontsize=10];",
      "    edge [fontname=\"Helvetica\", fontsize=9];"] {} ⟨["program"], [], []⟩ := by
    refine .cons (fun _ => rfl) rfl (.cons (fun _ => rfl) rfl ?_)
    exact .cons (fun _ => rfl) rfl (.cons (fun _ => rfl) rfl (.nil _))
  have hvoice := hhead.append (draws_cluster (.inl rfl)
    (g.liveNodes.filter fun n => n.id ∈ g.voiceNodes))
  have heffect := hvoice.append (draws_cluster (.inr rfl)
    (g.liveNodes.filter fun n => n.id ∉ g.voiceNodes ∧ n.id ∈ g.effectNodes))
  have hloose := heffect.append (draws_loose
    (g.liveNodes.filter fun n => n.id ∉ g.voiceNodes ∧ n.id ∉ g.effectNodes))
  have hedges (nodes : List Declaration) : Draws ("" :: g.liveNodes.flatMap (edgeLines g))
      ⟨["program"], nodes, []⟩ ⟨["program"], nodes, g.liveNodes.flatMap (edgesInto g)⟩ :=
    .cons (fun _ => rfl) rfl (draws_edgeLines g g.liveNodes)
  have hclose (nodes : List Declaration) (edges : List Edge) :
      Draws ["\x7d"] ⟨["program"], nodes, edges⟩ ⟨[], nodes, edges⟩ :=
    .cons (fun _ => rfl) rfl (.nil _)
  exact (hloose.append (hedges _)).append (hclose _ _)

theorem read?_dot (g : Graph) : Drawing.read? g.dot = some (drawing g) := by
  have hblocks : (drawing g).blocks = [] := rfl
  rw [Graph.dot]
  exact (draws_lines g).read? hblocks

theorem mem_nodes_drawing {g : Graph} {x : Declaration} :
    x ∈ (drawing g).nodes ↔ ∃ node ∈ g.liveNodes, declare (blockOf g node.id) node = x := by
  simp only [drawing, List.mem_append, List.mem_map, List.mem_filter, decide_eq_true_eq, blockOf]
  constructor
  · rintro ((⟨node, ⟨hlive, hv⟩, rfl⟩ | ⟨node, ⟨hlive, hv, he⟩, rfl⟩) |
      ⟨node, ⟨hlive, hv, he⟩, rfl⟩)
    · exact ⟨node, hlive, by rw [if_pos hv]⟩
    · exact ⟨node, hlive, by rw [if_neg hv, if_pos he]⟩
    · exact ⟨node, hlive, by rw [if_neg hv, if_neg he]⟩
  · rintro ⟨node, hlive, rfl⟩
    split_ifs with hv he
    · exact .inl (.inl ⟨node, ⟨hlive, hv⟩, rfl⟩)
    · exact .inl (.inr ⟨node, ⟨hlive, hv, he⟩, rfl⟩)
    · exact .inr ⟨node, ⟨hlive, hv, he⟩, rfl⟩

/-- The three parts have every live node in one of them. -/
theorem perm_ids_drawing (g : Graph) :
    ((drawing g).nodes.map Declaration.id).Perm g.nodeIds := by
  have hids (block : String) (l : List Node) :
      (l.map (declare block)).map Declaration.id = l.map Node.id := by
    rw [List.map_map]
    rfl
  have hrest := List.filter_append_perm (fun n : Node => decide (n.id ∈ g.effectNodes))
    (g.liveNodes.filter fun n => !decide (n.id ∈ g.voiceNodes))
  have hall := List.filter_append_perm (fun n : Node => decide (n.id ∈ g.voiceNodes)) g.liveNodes
  rw [List.filter_filter, List.filter_filter] at hrest
  rw [drawing, List.map_append, List.map_append, hids, hids, hids, ← List.map_append,
    ← List.map_append, List.append_assoc, Graph.nodeIds]
  refine List.Perm.map _ (.trans (.append_left _ ?_) hall)
  convert hrest using 3 <;> simp [Bool.and_comm]

theorem mem_edges_drawing {g : Graph} {e : Edge} :
    e ∈ (drawing g).edges ↔ ∃ node ∈ g.liveNodes, ∃ i, node.inputs[e.slot]? = some i ∧
      edge? g node.id e.slot i = some e := by
  simp only [drawing, edgesInto, List.mem_flatMap, List.mem_filterMap, Prod.exists,
    List.mem_zipIdx_iff_getElem?]
  constructor
  · rintro ⟨node, hlive, i, slot, hslot, he⟩
    obtain ⟨port, -, rfl⟩ := Option.map_eq_some_iff.1 he
    exact ⟨node, hlive, i, hslot, he⟩
  · rintro ⟨node, hlive, i, hslot, he⟩
    exact ⟨node, hlive, i, e.slot, hslot, he⟩

/-- An edge comes before another: by the node that it leads to, then by the slot. -/
def Edge.Before (e e' : Edge) : Prop :=
  e.target.index < e'.target.index ∨ e.target = e'.target ∧ e.slot < e'.slot

theorem target_of_mem_edgesInto {g : Graph} {node : Node} {e : Edge} (h : e ∈ edgesInto g node) :
    e.target = node.id := by
  obtain ⟨p, -, he⟩ := List.mem_filterMap.1 h
  obtain ⟨port, -, rfl⟩ := Option.map_eq_some_iff.1 he
  rfl

theorem pairwise_edgesInto (g : Graph) (node : Node) : (edgesInto g node).Pairwise Edge.Before := by
  have hslots : node.inputs.zipIdx.Pairwise fun p q => p.2 < q.2 := by
    rw [← List.pairwise_map, List.zipIdx_map_snd]
    exact List.pairwise_lt_range'
  refine List.pairwise_filterMap.2 (hslots.imp ?_)
  intro p q hlt e he e' he'
  obtain ⟨port, -, rfl⟩ := Option.map_eq_some_iff.1 he
  obtain ⟨port', -, rfl⟩ := Option.map_eq_some_iff.1 he'
  exact .inr ⟨rfl, hlt⟩

theorem pairwise_edges_drawing {g : Graph} (hg : g.Coherent) :
    (drawing g).edges.Pairwise Edge.Before := by
  have hids := hg.ascends_nodeIds
  rw [Graph.nodeIds, Ascends, List.pairwise_map] at hids
  refine List.pairwise_flatMap.2 ⟨fun node _ => pairwise_edgesInto g node, hids.imp ?_⟩
  intro a b hlt e he e' he'
  refine .inl ?_
  rw [target_of_mem_edgesInto he, target_of_mem_edgesInto he']
  exact hlt

/-- What there is to see of a graph in a drawing of it. -/
structure Drawing.Shows (d : Drawing) (g : Graph) : Prop where
  /-- Every live node is declared once, and nothing else is. -/
  declared (n : NodeId) :
    (d.nodes.map Declaration.id).count n = if g.contains n then 1 else 0
  voice {x : Declaration} : x ∈ d.nodes →
    (x.block = "cluster_voice" ↔ g.UpstreamOf g.surface.voiceSinks x.id)
  effect {x : Declaration} : x ∈ d.nodes → (x.block = "cluster_effect" ↔
    ¬ g.UpstreamOf g.surface.voiceSinks x.id ∧ g.UpstreamOf g.surface.effectSinks x.id)
  /-- What is in neither half stands outside the clusters. -/
  neither {x : Declaration} : x ∈ d.nodes → (x.block = "program" ↔
    ¬ g.UpstreamOf g.surface.voiceSinks x.id ∧ ¬ g.UpstreamOf g.surface.effectSinks x.id)
  labelled {x : Declaration} : x ∈ d.nodes → ∃ node raw, g.node? x.id = some node ∧
    x.attributes.lookup "label" = some raw ∧ '\n' ∉ raw.toList ∧
      unescape raw.toList = some (label node.kind).toList
  edge_of_input {n : NodeId} {node : Node} {slot : Nat} {i : InputId} {o : OutputId} :
    g.node? n = some node → node.inputs[slot]? = some i → g.source? i = some o →
      ∃ e ∈ d.edges, e.target = n ∧ e.slot = slot ∧ g.maker? o = some e.source
  input_of_edge {e : Edge} : e ∈ d.edges → ∃ node i o, g.node? e.target = some node ∧
    node.inputs[e.slot]? = some i ∧ g.source? i = some o ∧ g.maker? o = some e.source
  /-- No two edges lead into one slot, since each comes before the next. -/
  ordered : d.edges.Pairwise Edge.Before

section Shows

variable {g : Graph}

theorem count_ids_drawing (hg : g.Coherent) (n : NodeId) :
    ((drawing g).nodes.map Declaration.id).count n = if g.contains n then 1 else 0 := by
  rw [(perm_ids_drawing g).count_eq, hg.ascends_nodeIds.nodup.count]
  exact if_congr (hg.mem_nodeIds.trans Graph.contains_iff.symm) rfl rfl

/-- A node that is declared is live, and is declared in its block. -/
theorem exists_node_of_mem (hg : g.Coherent) {x : Declaration} (h : x ∈ (drawing g).nodes) :
    ∃ node, g.node? x.id = some node ∧ x = declare (blockOf g x.id) node := by
  obtain ⟨node, hlive, rfl⟩ := mem_nodes_drawing.1 h
  obtain ⟨n, hn⟩ := Graph.mem_liveNodes.1 hlive
  obtain rfl := hg.node_id hn
  exact ⟨node, hn, rfl⟩

theorem blockOf_iff (hg : g.Coherent) {n : NodeId} (hn : g.contains n = true) :
    (blockOf g n = "cluster_voice" ↔ g.UpstreamOf g.surface.voiceSinks n) ∧
    (blockOf g n = "cluster_effect" ↔ ¬ g.UpstreamOf g.surface.voiceSinks n ∧
      g.UpstreamOf g.surface.effectSinks n) ∧
    (blockOf g n = "program" ↔ ¬ g.UpstreamOf g.surface.voiceSinks n ∧
      ¬ g.UpstreamOf g.surface.effectSinks n) := by
  have hvoice : n ∈ g.voiceNodes ↔ g.UpstreamOf g.surface.voiceSinks n := by
    rw [Graph.voiceNodes, hg.mem_reachable_iff, and_iff_right hn]
  have heffect : n ∈ g.effectNodes ↔ g.UpstreamOf g.surface.effectSinks n := by
    rw [Graph.effectNodes, hg.mem_reachable_iff, and_iff_right hn]
  rw [← hvoice, ← heffect, blockOf]
  split_ifs with hv he
  · simp [hv]
  · simp [hv, he]
  · simp [hv, he]

theorem blocks_drawing (hg : g.Coherent) {x : Declaration} (h : x ∈ (drawing g).nodes) :
    (x.block = "cluster_voice" ↔ g.UpstreamOf g.surface.voiceSinks x.id) ∧
    (x.block = "cluster_effect" ↔ ¬ g.UpstreamOf g.surface.voiceSinks x.id ∧
      g.UpstreamOf g.surface.effectSinks x.id) ∧
    (x.block = "program" ↔ ¬ g.UpstreamOf g.surface.voiceSinks x.id ∧
      ¬ g.UpstreamOf g.surface.effectSinks x.id) := by
  obtain ⟨node, hn, he⟩ := exists_node_of_mem hg h
  have hblock : x.block = blockOf g x.id := congrArg Declaration.block he
  rw [hblock]
  exact blockOf_iff hg (Graph.contains_iff.2 ⟨node, hn⟩)

theorem labels_drawing (hg : g.Coherent) {x : Declaration} (h : x ∈ (drawing g).nodes) :
    ∃ node raw, g.node? x.id = some node ∧ x.attributes.lookup "label" = some raw ∧
      '\n' ∉ raw.toList ∧ unescape raw.toList = some (label node.kind).toList := by
  obtain ⟨node, hn, he⟩ := exists_node_of_mem hg h
  have hraw : (rawLabel node.kind).toList = (label node.kind).toList.flatMap escape :=
    String.toList_ofList
  refine ⟨node, rawLabel node.kind, hn, ?_, ?_, ?_⟩
  · rw [he]
    rfl
  · rw [hraw]
    exact newline_notMem_flatMap _
  · rw [hraw, unescape_flatMap]

theorem exists_edge_drawing (hg : g.Coherent) {n : NodeId} {node : Node} {slot : Nat} {i : InputId}
    {o : OutputId} (hn : g.node? n = some node) (hslot : node.inputs[slot]? = some i)
    (hs : g.source? i = some o) :
    ∃ e ∈ (drawing g).edges, e.target = n ∧ e.slot = slot ∧ g.maker? o = some e.source := by
  obtain ⟨port, ho⟩ := hg.source_live hs
  have hedge : edge? g node.id slot i = some ⟨port.node, n, slot, edgeAttributes port slot⟩ := by
    rw [edge?, hs, Option.bind_some, ho, hg.node_id hn]
    rfl
  have hmem : ⟨port.node, n, slot, edgeAttributes port slot⟩ ∈ (drawing g).edges :=
    mem_edges_drawing.2 ⟨node, Graph.mem_liveNodes.2 ⟨n, hn⟩, i, hslot, hedge⟩
  exact ⟨_, hmem, rfl, rfl, Graph.maker?_eq_some.2 ⟨port, ho, rfl⟩⟩

theorem exists_input_of_mem (hg : g.Coherent) {e : Edge} (h : e ∈ (drawing g).edges) :
    ∃ node i o, g.node? e.target = some node ∧ node.inputs[e.slot]? = some i ∧
      g.source? i = some o ∧ g.maker? o = some e.source := by
  obtain ⟨node, hlive, i, hslot, hedge⟩ := mem_edges_drawing.1 h
  obtain ⟨n, hn⟩ := Graph.mem_liveNodes.1 hlive
  obtain ⟨port, hport, heq⟩ := Option.map_eq_some_iff.1 hedge
  obtain ⟨o, hs, ho⟩ := Option.bind_eq_some_iff.1 hport
  have htarget : n = e.target := (hg.node_id hn).symm.trans (congrArg Edge.target heq)
  exact ⟨node, i, o, htarget ▸ hn, hslot, hs,
    Graph.maker?_eq_some.2 ⟨port, ho, congrArg Edge.source heq⟩⟩

theorem shows_drawing (hg : g.Coherent) : (drawing g).Shows g where
  declared := count_ids_drawing hg
  voice hx := (blocks_drawing hg hx).1
  effect hx := (blocks_drawing hg hx).2.1
  neither hx := (blocks_drawing hg hx).2.2
  labelled hx := labels_drawing hg hx
  edge_of_input hn hslot hs := exists_edge_drawing hg hn hslot hs
  input_of_edge he := exists_input_of_mem hg he
  ordered := pairwise_edges_drawing hg

end Shows

end Dot

/-- Whatever the names of its nodes and whatever its surface lists, the drawing of a coherent graph
can be read, and shows the graph. -/
theorem Graph.dot_shows {g : Graph} (hg : g.Coherent) :
    ∃ d, Dot.Drawing.read? g.dot = some d ∧ d.Shows g :=
  ⟨Dot.drawing g, Dot.read?_dot g, Dot.shows_drawing hg⟩

/-- Names that would end their quotes, their lines or the whole drawing if they stood there as they
are. The first input is in both halves, and the constant in neither. The array has an input that is
not fed. -/
def Operation.quoting : List Operation :=
  [.addInput "a\"]; n9 -> n0; \x7d" ⟨some .float, some 1, false⟩ none,
   .addInput "b\\\"\n\x7d\n" ⟨some .float, some 1, false⟩ none,
   .addOutput "\\n" ⟨some .float, some 1, false⟩ ⟨0⟩ none,
   .addArray .float [⟨0⟩, ⟨1⟩, ⟨1⟩] none,
   .connect ⟨2⟩ none,
   .addOutput "\\" ⟨some .float, some 1, true⟩ ⟨2⟩ none,
   .addConstant (.string "\"") none,
   .expose { outputs := [⟨4⟩], boundaryOutputs := [⟨2⟩] }]

/-- Where a node is declared. -/
def Dot.Declaration.place (x : Dot.Declaration) : String × Nat :=
  (x.block, x.id.index)

/-- Where an edge comes from, and the node and the slot that it leads to. -/
def Dot.Edge.ends (e : Dot.Edge) : Nat × Nat × Nat :=
  (e.source.index, e.target.index, e.slot)

theorem Graph.dot_shows_quoting :
    ∃ g d, Operation.performAll {} Operation.quoting = .ok g ∧ g.Coherent ∧
      Dot.Drawing.read? g.dot = some d ∧ d.Shows g ∧
      d.nodes.map Dot.Declaration.place =
        [("cluster_voice", 0), ("cluster_voice", 2), ("cluster_effect", 1), ("cluster_effect", 3),
         ("cluster_effect", 4), ("program", 5)] ∧
      d.edges.map Dot.Edge.ends = [(0, 2, 0), (0, 3, 0), (1, 3, 2), (3, 4, 0)] := by
  have hrun : (do
      let g ← Operation.performAll {} Operation.quoting
      return ((Dot.drawing g).nodes.map Dot.Declaration.place,
        (Dot.drawing g).edges.map Dot.Edge.ends)) =
      .ok ([("cluster_voice", 0), ("cluster_voice", 2), ("cluster_effect", 1),
        ("cluster_effect", 3), ("cluster_effect", 4), ("program", 5)],
        [(0, 2, 0), (0, 3, 0), (1, 3, 2), (3, 4, 0)]) := by cbv
  obtain ⟨g, h, hrun⟩ := bind_eq_ok.1 hrun
  simp only [pure_eq_ok, Except.ok.injEq, Prod.mk.injEq] at hrun
  have hg : g.Coherent := (Operation.performAll_made h .empty).1.coherent
  obtain ⟨d, hread, hshows⟩ := Graph.dot_shows hg
  obtain rfl : d = Dot.drawing g := Option.some.inj (hread.symm.trans (Dot.read?_dot g))
  exact ⟨g, _, h, hg, hread, hshows, hrun.1, hrun.2⟩

end SignalGraph
