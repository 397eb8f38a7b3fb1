import SignalGraph.Graph.Walk
import SignalGraph.Proofs.Ascending

/-!
# Coherent graphs

What the operations on graphs keep up between them (`Graph.Coherent`): places carry their own
numbers, the counters say how many places there are, every port is listed once and by its own
node, and the two ends of every link name each other.

In a coherent graph the inputs say all about links. So a graph is known by its nodes, its inputs
and its *bare* output ports, which are the ports without their consumers: two coherent graphs that
agree on these are the `Same`.
-/

namespace SignalGraph

/-- A port without the inputs it feeds. -/
def OutputPort.bare (p : OutputPort) : OutputPort :=
  { p with consumers := [] }

namespace Graph

def bare? (g : Graph) (o : OutputId) : Option OutputPort :=
  (g.output? o).map OutputPort.bare

/-- The node that an input belongs to. -/
def owner? (g : Graph) (i : InputId) : Option NodeId :=
  (g.input? i).map InputPort.node

/-- The node that an output belongs to. -/
def maker? (g : Graph) (o : OutputId) : Option NodeId :=
  (g.output? o).map OutputPort.node

/-- What holds of every graph between two operations. -/
structure Coherent (g : Graph) : Prop where
  counters : g.counters = ⟨g.nodes.size, g.inputs.size, g.outputs.size⟩
  node_id {n : NodeId} {node : Node} : g.node? n = some node → node.id = n
  input_id {i : InputId} {port : InputPort} : g.input? i = some port → port.id = i
  output_id {o : OutputId} {port : OutputPort} : g.output? o = some port → port.id = o
  mem_inputs {n : NodeId} {node : Node} {i : InputId} :
    g.node? n = some node → (i ∈ node.inputs ↔ g.owner? i = some n)
  mem_outputs {n : NodeId} {node : Node} {o : OutputId} :
    g.node? n = some node → (o ∈ node.outputs ↔ g.maker? o = some n)
  inputs_nodup {n : NodeId} {node : Node} : g.node? n = some node → node.inputs.Nodup
  outputs_nodup {n : NodeId} {node : Node} : g.node? n = some node → node.outputs.Nodup
  owner_live {i : InputId} {n : NodeId} : g.owner? i = some n → ∃ node, g.node? n = some node
  maker_live {o : OutputId} {n : NodeId} : g.maker? o = some n → ∃ node, g.node? n = some node
  mem_consumers {o : OutputId} {port : OutputPort} {i : InputId} :
    g.output? o = some port → (i ∈ port.consumers ↔ g.source? i = some o)
  source_live {i : InputId} {o : OutputId} :
    g.source? i = some o → ∃ port, g.output? o = some port
  ascends {o : OutputId} {port : OutputPort} : g.output? o = some port → Ascends port.consumers

theorem Coherent.empty : Coherent {} where
  counters := rfl
  node_id h := by cases h
  input_id h := by cases h
  output_id h := by cases h
  mem_inputs h := by cases h
  mem_outputs h := by cases h
  inputs_nodup h := by cases h
  outputs_nodup h := by cases h
  owner_live h := by cases h
  maker_live h := by cases h
  mem_consumers h := by cases h
  source_live h := by cases h
  ascends h := by cases h

/-- The surface has no part in it. -/
theorem Coherent.withSurface {g : Graph} (h : g.Coherent) (s : Surface) :
    { g with surface := s : Graph }.Coherent :=
  ⟨h.counters, h.node_id, h.input_id, h.output_id, h.mem_inputs, h.mem_outputs, h.inputs_nodup,
    h.outputs_nodup, h.owner_live, h.maker_live, h.mem_consumers, h.source_live, h.ascends⟩

/-- The same live parts with the same links, and the same surface. -/
structure Same (g g' : Graph) : Prop where
  node? (n : NodeId) : g'.node? n = g.node? n
  input? (i : InputId) : g'.input? i = g.input? i
  output? (o : OutputId) : g'.output? o = g.output? o
  surface : g'.surface = g.surface

/-! ## Reading ports -/

theorem owner?_eq_some {g : Graph} {i : InputId} {n : NodeId} :
    g.owner? i = some n ↔ ∃ port, g.input? i = some port ∧ port.node = n := by
  simp [owner?]

theorem maker?_eq_some {g : Graph} {o : OutputId} {n : NodeId} :
    g.maker? o = some n ↔ ∃ port, g.output? o = some port ∧ port.node = n := by
  simp [maker?]

theorem source?_eq_some {g : Graph} {i : InputId} {o : OutputId} :
    g.source? i = some o ↔ ∃ port, g.input? i = some port ∧ port.source = some o := by
  simp [source?, Option.bind_eq_some_iff]

theorem bare?_eq_some {g : Graph} {o : OutputId} {p : OutputPort} :
    g.bare? o = some p ↔ ∃ port, g.output? o = some port ∧ port.bare = p := by
  simp [bare?]

theorem maker?_eq_bare? (g : Graph) (o : OutputId) :
    g.maker? o = (g.bare? o).map OutputPort.node := by
  cases h : g.output? o <;> simp [maker?, bare?, h, OutputPort.bare]

theorem maker?_congr {g g' : Graph} {o : OutputId} (h : g'.bare? o = g.bare? o) :
    g'.maker? o = g.maker? o := by
  rw [maker?_eq_bare?, maker?_eq_bare?, h]

theorem source?_congr {g g' : Graph} {i : InputId} (h : g'.input? i = g.input? i) :
    g'.source? i = g.source? i := by
  rw [source?, source?, h]

theorem owner?_congr {g g' : Graph} {i : InputId} (h : g'.input? i = g.input? i) :
    g'.owner? i = g.owner? i := by
  rw [owner?, owner?, h]

theorem output?_of_bare? {g g' : Graph} {o : OutputId} {port : OutputPort}
    (h : g'.bare? o = g.bare? o) (hp : g.output? o = some port) :
    ∃ port', g'.output? o = some port' ∧ port'.bare = port.bare := by
  have hb : g.bare? o = some port.bare := bare?_eq_some.2 ⟨port, hp, rfl⟩
  exact bare?_eq_some.1 (h.trans hb)

theorem feeder?_eq (g : Graph) (i : InputId) : g.feeder? i = (g.source? i).bind g.maker? := by
  cases h : g.source? i <;> simp [feeder?, maker?, h]

theorem feeder?_eq_some {g : Graph} {i : InputId} {n : NodeId} :
    g.feeder? i = some n ↔ ∃ o, g.source? i = some o ∧ g.maker? o = some n := by
  rw [feeder?_eq, Option.bind_eq_some_iff]

/-! ## Live parts have been numbered -/

theorem lt_of_node? {g : Graph} {n : NodeId} {node : Node} (h : g.node? n = some node) :
    n.index < g.nodes.size :=
  Arena.lt_size_of_get? h

theorem lt_of_input? {g : Graph} {i : InputId} {port : InputPort} (h : g.input? i = some port) :
    i.index < g.inputs.size :=
  Arena.lt_size_of_get? h

theorem lt_of_output? {g : Graph} {o : OutputId} {port : OutputPort}
    (h : g.output? o = some port) : o.index < g.outputs.size :=
  Arena.lt_size_of_get? h

theorem lt_of_source? {g : Graph} {i : InputId} {o : OutputId} (h : g.source? i = some o) :
    i.index < g.inputs.size := by
  obtain ⟨port, hp, -⟩ := source?_eq_some.1 h
  exact lt_of_input? hp

theorem lt_of_maker? {g : Graph} {o : OutputId} {n : NodeId} (h : g.maker? o = some n) :
    o.index < g.outputs.size := by
  obtain ⟨port, hp, -⟩ := maker?_eq_some.1 h
  exact lt_of_output? hp

theorem mem_liveNodes {g : Graph} {node : Node} :
    node ∈ g.liveNodes ↔ ∃ n, g.node? n = some node := by
  rw [liveNodes, Arena.mem_toList]
  exact ⟨fun ⟨k, hk⟩ => ⟨⟨k⟩, hk⟩, fun ⟨n, hn⟩ => ⟨n.index, hn⟩⟩

theorem contains_iff {g : Graph} {n : NodeId} :
    g.contains n = true ↔ ∃ node, g.node? n = some node := by
  rw [contains, Option.isSome_iff_exists]

/-! ## Coherent graphs with the same parts -/

namespace Coherent

variable {g g' : Graph}

theorem mem_nodeIds (hg : g.Coherent) {n : NodeId} :
    n ∈ g.nodeIds ↔ ∃ node, g.node? n = some node := by
  simp only [nodeIds, List.mem_map, mem_liveNodes]
  constructor
  · rintro ⟨node, ⟨m, hm⟩, rfl⟩
    exact ⟨node, hg.node_id hm ▸ hm⟩
  · rintro ⟨node, hn⟩
    exact ⟨node, ⟨n, hn⟩, hg.node_id hn⟩

/-- The node of a live output port. -/
theorem node_of_output? (hg : g.Coherent) {o : OutputId} {port : OutputPort}
    (h : g.output? o = some port) : ∃ node, g.node? port.node = some node ∧ o ∈ node.outputs := by
  have hm : g.maker? o = some port.node := maker?_eq_some.2 ⟨port, h, rfl⟩
  obtain ⟨node, hn⟩ := hg.maker_live hm
  exact ⟨node, hn, (hg.mem_outputs hn).2 hm⟩

theorem source_maker (hg : g.Coherent) {i : InputId} {o : OutputId} (h : g.source? i = some o) :
    ∃ n node, g.maker? o = some n ∧ g.node? n = some node := by
  obtain ⟨port, hp⟩ := hg.source_live h
  obtain ⟨node, hn, -⟩ := hg.node_of_output? hp
  exact ⟨port.node, node, maker?_eq_some.2 ⟨port, hp, rfl⟩, hn⟩

/-- A port feeds the inputs that name it as their source, so it is known by its bare port. -/
theorem output?_eq (hg : g.Coherent) {o : OutputId} {port : OutputPort} {cs : List InputId}
    (hb : g.bare? o = some port.bare) (hcs : Ascends cs)
    (hmem : ∀ i, i ∈ cs ↔ g.source? i = some o) :
    g.output? o = some { port with consumers := cs } := by
  obtain ⟨port', hp, hbare⟩ := bare?_eq_some.1 hb
  have hc : port'.consumers = cs :=
    (hg.ascends hp).ext hcs fun i => (hg.mem_consumers hp).trans (hmem i).symm
  rw [hp, Option.some.injEq]
  cases port
  cases port'
  simp_all [OutputPort.bare]

/-- Nodes, inputs and bare outputs determine a coherent graph. -/
theorem same (hg : g.Coherent) (hg' : g'.Coherent) (hn : ∀ n, g'.node? n = g.node? n)
    (hi : ∀ i, g'.input? i = g.input? i) (hb : ∀ o, g'.bare? o = g.bare? o)
    (hs : g'.surface = g.surface) : Same g g' := by
  refine ⟨hn, hi, fun o => ?_, hs⟩
  cases h : g.output? o with
  | none =>
    have hb' := hb o
    simpa [bare?, h] using hb'
  | some port =>
    have hb' : g'.bare? o = some port.bare := (hb o).trans (bare?_eq_some.2 ⟨port, h, rfl⟩)
    refine hg'.output?_eq hb' (hg.ascends h) fun i => ?_
    rw [hg.mem_consumers h, source?_congr (hi i)]

end Coherent

namespace Same

variable {g g' g'' : Graph}

theorem refl (g : Graph) : Same g g :=
  ⟨fun _ => rfl, fun _ => rfl, fun _ => rfl, rfl⟩

theorem symm (h : Same g g') : Same g' g :=
  ⟨fun n => (h.node? n).symm, fun i => (h.input? i).symm, fun o => (h.output? o).symm,
    h.surface.symm⟩

theorem trans (h : Same g g') (h' : Same g' g'') : Same g g'' :=
  ⟨fun n => (h'.node? n).trans (h.node? n), fun i => (h'.input? i).trans (h.input? i),
    fun o => (h'.output? o).trans (h.output? o), h'.surface.trans h.surface⟩

theorem source? (h : Same g g') (i : InputId) : g'.source? i = g.source? i :=
  source?_congr (h.input? i)

theorem bare? (h : Same g g') (o : OutputId) : g'.bare? o = g.bare? o := by
  rw [Graph.bare?, Graph.bare?, h.output? o]

theorem maker? (h : Same g g') (o : OutputId) : g'.maker? o = g.maker? o :=
  maker?_congr (h.bare? o)

end Same

end Graph

end SignalGraph
