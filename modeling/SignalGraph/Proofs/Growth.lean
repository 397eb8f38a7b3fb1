import SignalGraph.Proofs.Flow
import SignalGraph.Rewriting.Step

/-!
# Building on a graph, and taking it back

While something is built on a graph, the graph itself stays as it was and new nodes draw on ports
of the graph or on each other (`Grown`). New nodes only use what was there before them, so they
can be removed latest first; the graph is then the same as at the beginning (`discard_spec`).
-/

namespace SignalGraph

namespace Graph

/-- `g'` is `g` with nodes added, which use of the ports of `g` only those in `b`. -/
structure Grown (b : List OutputId) (g g' : Graph) : Prop where
  nodes_le : g.nodes.size ≤ g'.nodes.size
  inputs_le : g.inputs.size ≤ g'.inputs.size
  outputs_le : g.outputs.size ≤ g'.outputs.size
  node? {n : NodeId} : n.index < g.nodes.size → g'.node? n = g.node? n
  input? {i : InputId} : i.index < g.inputs.size → g'.input? i = g.input? i
  bare? {o : OutputId} : o.index < g.outputs.size → g'.bare? o = g.bare? o
  /-- New inputs are fed from new ports or from ports in `b`. -/
  drawn {i : InputId} {o : OutputId} : g.inputs.size ≤ i.index → g'.source? i = some o →
    g.outputs.size ≤ o.index ∨ o ∈ b
  /-- New nodes are fed from nodes with lower numbers. -/
  forward {m n : NodeId} : g.nodes.size ≤ n.index → g'.Feeds m n → m.index < n.index
  surface : g'.surface = g.surface

/-- `g'` is the same as `g`, with perhaps more numbers in use. -/
structure Restored (g g' : Graph) : Prop extends Same g g' where
  coherent : g'.Coherent
  nodes_le : g.nodes.size ≤ g'.nodes.size
  inputs_le : g.inputs.size ≤ g'.inputs.size
  outputs_le : g.outputs.size ≤ g'.outputs.size

namespace Restored

variable {g g' g'' : Graph}

theorem refl (hg : g.Coherent) : Restored g g :=
  ⟨.refl g, hg, Nat.le_refl _, Nat.le_refl _, Nat.le_refl _⟩

theorem trans (h : Restored g g') (h' : Restored g' g'') : Restored g g'' :=
  ⟨h.toSame.trans h'.toSame, h'.coherent, Nat.le_trans h.nodes_le h'.nodes_le,
    Nat.le_trans h.inputs_le h'.inputs_le, Nat.le_trans h.outputs_le h'.outputs_le⟩

end Restored

namespace Grown

variable {b : List OutputId} {g g' g'' : Graph}

theorem refl (hg : g.Coherent) (b : List OutputId) : Grown b g g where
  nodes_le := Nat.le_refl _
  inputs_le := Nat.le_refl _
  outputs_le := Nat.le_refl _
  node? _ := rfl
  input? _ := rfl
  bare? _ := rfl
  drawn hi hs := absurd (lt_of_source? hs) (Nat.not_lt.2 hi)
  forward hn hf := by
    obtain ⟨-, node, hl⟩ := hg.feeds_live hf
    exact absurd (lt_of_node? hl) (Nat.not_lt.2 hn)
  surface := rfl

theorem source? (h : Grown b g g') {i : InputId} (hi : i.index < g.inputs.size) :
    g'.source? i = g.source? i :=
  source?_congr (h.input? hi)

theorem owner? (h : Grown b g g') {i : InputId} (hi : i.index < g.inputs.size) :
    g'.owner? i = g.owner? i :=
  owner?_congr (h.input? hi)

theorem maker? (h : Grown b g g') {o : OutputId} (ho : o.index < g.outputs.size) :
    g'.maker? o = g.maker? o :=
  maker?_congr (h.bare? ho)

theorem node?_eq_some (h : Grown b g g') {n : NodeId} {node : Node} (hn : g.node? n = some node) :
    g'.node? n = some node :=
  (h.node? (lt_of_node? hn)).trans hn

theorem output?_isSome (h : Grown b g g') {o : OutputId} {out : OutputPort}
    (ho : g.output? o = some out) : ∃ out', g'.output? o = some out' ∧ out'.bare = out.bare :=
  output?_of_bare? (h.bare? (lt_of_output? ho)) ho

/-- The inputs of an old node are old. -/
theorem lt_of_owner? (hg : g.Coherent) (hg' : g'.Coherent) (h : Grown b g g') {i : InputId}
    {n : NodeId} (hn : n.index < g.nodes.size) (hi : g'.owner? i = some n) :
    i.index < g.inputs.size := by
  obtain ⟨node, hl⟩ := hg'.owner_live hi
  have hmem : i ∈ node.inputs := (hg'.mem_inputs hl).2 hi
  rw [h.node? hn] at hl
  obtain ⟨port, hp, -⟩ := owner?_eq_some.1 ((hg.mem_inputs hl).1 hmem)
  exact lt_of_input? hp

/-- The outputs of an old node are old. -/
theorem lt_of_maker? (hg : g.Coherent) (hg' : g'.Coherent) (h : Grown b g g') {o : OutputId}
    {n : NodeId} (hn : n.index < g.nodes.size) (ho : g'.maker? o = some n) :
    o.index < g.outputs.size := by
  obtain ⟨node, hl⟩ := hg'.maker_live ho
  have hmem : o ∈ node.outputs := (hg'.mem_outputs hl).2 ho
  rw [h.node? hn] at hl
  exact Graph.lt_of_maker? ((hg.mem_outputs hl).1 hmem)

/-- The node of an old input is old. -/
theorem owner_lt (hg : g.Coherent) (h : Grown b g g') {i : InputId} {n : NodeId}
    (hi : i.index < g.inputs.size) (ho : g'.owner? i = some n) : n.index < g.nodes.size := by
  rw [h.owner? hi] at ho
  obtain ⟨node, hl⟩ := hg.owner_live ho
  exact lt_of_node? hl

/-- The node of an old output is old. -/
theorem maker_lt (hg : g.Coherent) (h : Grown b g g') {o : OutputId} {n : NodeId}
    (ho : o.index < g.outputs.size) (hm : g'.maker? o = some n) : n.index < g.nodes.size := by
  rw [h.maker? ho] at hm
  obtain ⟨node, hl⟩ := hg.maker_live hm
  exact lt_of_node? hl

/-- Old nodes are fed as before. -/
theorem feeds_old (hg : g.Coherent) (hg' : g'.Coherent) (h : Grown b g g') {m n : NodeId}
    (hn : n.index < g.nodes.size) : g'.Feeds m n ↔ g.Feeds m n := by
  rw [hg'.feeds_iff, hg.feeds_iff]
  constructor
  · rintro ⟨i, hi, hf⟩
    have hlt := h.lt_of_owner? hg hg' hn hi
    obtain ⟨o, hs, ho⟩ := feeder?_eq_some.1 hf
    rw [h.source? hlt] at hs
    obtain ⟨out, hout⟩ := hg.source_live hs
    rw [h.maker? (lt_of_output? hout)] at ho
    exact ⟨i, h.owner? hlt ▸ hi, feeder?_eq_some.2 ⟨o, hs, ho⟩⟩
  · rintro ⟨i, hi, hf⟩
    obtain ⟨port, hp, -⟩ := owner?_eq_some.1 hi
    have hlt := lt_of_input? hp
    obtain ⟨o, hs, ho⟩ := feeder?_eq_some.1 hf
    refine ⟨i, (h.owner? hlt).trans hi, feeder?_eq_some.2 ⟨o, (h.source? hlt).trans hs, ?_⟩⟩
    exact (h.maker? (Graph.lt_of_maker? ho)).trans ho

theorem trans (hg' : g'.Coherent) (hg'' : g''.Coherent) (h : Grown b g g')
    (h' : Grown b g' g'') : Grown b g g'' where
  nodes_le := Nat.le_trans h.nodes_le h'.nodes_le
  inputs_le := Nat.le_trans h.inputs_le h'.inputs_le
  outputs_le := Nat.le_trans h.outputs_le h'.outputs_le
  node? hn := (h'.node? (Nat.lt_of_lt_of_le hn h.nodes_le)).trans (h.node? hn)
  input? hi := (h'.input? (Nat.lt_of_lt_of_le hi h.inputs_le)).trans (h.input? hi)
  bare? ho := (h'.bare? (Nat.lt_of_lt_of_le ho h.outputs_le)).trans (h.bare? ho)
  drawn := by
    intro i o hi hs
    by_cases hlt : i.index < g'.inputs.size
    · rw [h'.source? hlt] at hs
      exact h.drawn hi hs
    · exact (h'.drawn (Nat.le_of_not_lt hlt) hs).imp_left (Nat.le_trans h.outputs_le)
  forward := by
    intro m n hn hf
    by_cases hlt : n.index < g'.nodes.size
    · exact h.forward hn ((h'.feeds_old hg' hg'' hlt).1 hf)
    · exact h'.forward (Nat.le_of_not_lt hlt) hf
  surface := h'.surface.trans h.surface

/-- A node that draws on ports in `b` and on new ports is added. -/
theorem insert {base : Graph} {kind : Kind} {location : Option Location} {sources : List OutputId}
    {results : List (DataType × Nat)} (hg : g.Coherent) (h : Grown b base g)
    (hi : Inserted g kind location sources results g')
    (hs : ∀ o ∈ sources, base.outputs.size ≤ o.index ∨ o ∈ b) : Grown b base g' where
  nodes_le := by
    rw [hi.nodes_size]
    exact Nat.le_succ_of_le h.nodes_le
  inputs_le := by
    rw [hi.inputs_size]
    exact Nat.le_add_right_of_le h.inputs_le
  outputs_le := by
    rw [hi.outputs_size]
    exact Nat.le_add_right_of_le h.outputs_le
  node? {n} hn := by
    have hne : n ≠ g.nextNode := by
      rintro rfl
      exact absurd (Nat.lt_of_lt_of_le hn h.nodes_le) (Nat.lt_irrefl _)
    rw [hi.node?, if_neg hne, h.node? hn]
  input? hj := by rw [hi.input?, if_pos (Nat.lt_of_lt_of_le hj h.inputs_le), h.input? hj]
  bare? ho := by rw [hi.bare?, if_pos (Nat.lt_of_lt_of_le ho h.outputs_le), h.bare? ho]
  drawn := by
    intro i o hb hso
    by_cases hlt : i.index < g.inputs.size
    · rw [hi.source?_old hlt] at hso
      exact h.drawn hb hso
    · obtain ⟨port, hp, hps⟩ := source?_eq_some.1 hso
      obtain ⟨-, o', ho', hs'⟩ := hi.input?_new (Nat.le_of_not_lt hlt) hp
      obtain rfl : o' = o := Option.some.inj (hs'.symm.trans hps)
      exact hs o' ho'
  forward := by
    intro m n hn hf
    rcases hi.feeds hg hf with ⟨-, hf⟩ | ⟨rfl, o, -, ho⟩
    · exact h.forward hn hf
    · obtain ⟨node, hl⟩ := hg.maker_live ho
      exact lt_of_node? hl
  surface := hi.surface.trans h.surface

/-- A new node is taken away again. -/
theorem without {base : Graph} {n : NodeId} (hbase : base.Coherent) (hg : g.Coherent)
    (h : Grown b base g) (hw : Without g n g') (hn : base.nodes.size ≤ n.index) :
    Grown b base g' where
  nodes_le := hw.nodes_size ▸ h.nodes_le
  inputs_le := hw.inputs_size ▸ h.inputs_le
  outputs_le := hw.outputs_size ▸ h.outputs_le
  node? {m} hm := by
    have hne : m ≠ n := by
      rintro rfl
      exact absurd hm (Nat.not_lt.2 hn)
    rw [hw.node?, if_neg hne, h.node? hm]
  input? {i} hi := by
    have hne : g.owner? i ≠ some n := fun ho => Nat.not_lt.2 hn (h.owner_lt hbase hi ho)
    rw [hw.input?, if_neg hne, h.input? hi]
  bare? {o} ho := by
    have hne : g.maker? o ≠ some n := fun hm => Nat.not_lt.2 hn (h.maker_lt hbase ho hm)
    rw [hw.bare?, if_neg hne, h.bare? ho]
  drawn {i o} hi hs := by
    have hin := hw.input? i
    split at hin
    · rw [Graph.source?, hin] at hs
      cases hs
    · exact h.drawn hi (source?_congr hin ▸ hs)
  forward hm hf := h.forward hm (hw.feeds hg hf)
  surface := hw.surface.trans h.surface

/-- A graph on which no new node is left is the same as before. -/
theorem restored (hg : g.Coherent) (hg' : g'.Coherent) (h : Grown b g g')
    (hnew : ∀ n, g.nodes.size ≤ n.index → g'.node? n = none) : Restored g g' := by
  refine ⟨hg.same hg' (fun n => ?_) (fun i => ?_) (fun o => ?_) h.surface, hg', h.nodes_le,
    h.inputs_le, h.outputs_le⟩
  · by_cases hn : n.index < g.nodes.size
    · exact h.node? hn
    · rw [hnew n (Nat.le_of_not_lt hn)]
      exact (Arena.get?_eq_none (Nat.le_of_not_lt hn)).symm
  · by_cases hi : i.index < g.inputs.size
    · exact h.input? hi
    · have hnone : g.input? i = none := Arena.get?_eq_none (Nat.le_of_not_lt hi)
      rw [hnone, Option.eq_none_iff_forall_ne_some]
      intro port hp
      have ho : g'.owner? i = some port.node := owner?_eq_some.2 ⟨port, hp, rfl⟩
      obtain ⟨node, hl⟩ := hg'.owner_live ho
      by_cases hlt : port.node.index < g.nodes.size
      · exact hi (h.lt_of_owner? hg hg' hlt ho)
      · rw [hnew _ (Nat.le_of_not_lt hlt)] at hl
        cases hl
  · by_cases ho : o.index < g.outputs.size
    · exact h.bare? ho
    · have hnone : g.output? o = none := Arena.get?_eq_none (Nat.le_of_not_lt ho)
      have hnone' : g'.output? o = none := by
        rw [Option.eq_none_iff_forall_ne_some]
        intro port hp
        have hm : g'.maker? o = some port.node := maker?_eq_some.2 ⟨port, hp, rfl⟩
        obtain ⟨node, hl⟩ := hg'.maker_live hm
        by_cases hlt : port.node.index < g.nodes.size
        · exact ho (h.lt_of_maker? hg hg' hlt hm)
        · rw [hnew _ (Nat.le_of_not_lt hlt)] at hl
          cases hl
      rw [Graph.bare?, Graph.bare?, hnone, hnone']

/-- The latest of the new nodes feeds nothing. -/
theorem unused_of_latest (hg : g.Coherent) (hg' : g'.Coherent) (h : Grown b g g') {n : NodeId}
    (hn : g.nodes.size ≤ n.index)
    (hlast : ∀ m node, g'.node? m = some node → m.index ≤ n.index) : g'.Unused n := by
  intro i o hs hm
  obtain ⟨port, hp, -⟩ := source?_eq_some.1 hs
  have hi : g'.owner? i = some port.node := owner?_eq_some.2 ⟨port, hp, rfl⟩
  have hf : g'.Feeds n port.node := hg'.feeds_of_source hi hs hm
  by_cases hlt : port.node.index < g.nodes.size
  · obtain ⟨⟨node, hl⟩, -⟩ := hg.feeds_live ((h.feeds_old hg hg' hlt).1 hf)
    exact Nat.not_lt.2 hn (lt_of_node? hl)
  · obtain ⟨node, hl⟩ := hg'.owner_live hi
    have hle := hlast _ node hl
    have hgt := h.forward (Nat.le_of_not_lt hlt) hf
    omega

end Grown

/-! ## Discarding -/

theorem mem_addedSince {g : Graph} {w n : NodeId} :
    n ∈ g.addedSince w ↔ w.index ≤ n.index ∧ ∃ node, g.node? n = some node := by
  simp only [addedSince, List.mem_filter, List.mem_map, List.mem_range'_1, contains_iff]
  constructor
  · rintro ⟨⟨k, hk, rfl⟩, hl⟩
    exact ⟨hk.1, hl⟩
  · rintro ⟨hle, node, hl⟩
    have := lt_of_node? hl
    exact ⟨⟨n.index, ⟨hle, by omega⟩, rfl⟩, node, hl⟩

theorem ascends_addedSince (g : Graph) (w : NodeId) : Ascends (g.addedSince w) := by
  refine Ascends.filter ?_ _
  rw [Ascends, List.pairwise_map]
  exact List.pairwise_lt_range'

/-- Takes away all new nodes, latest first. -/
theorem removeAll_spec {b : List OutputId} {base : Graph} (hbase : base.Coherent)
    (l : List NodeId) {g : Graph} (hg : g.Coherent) (h : Grown b base g)
    (hl : l.Pairwise fun m n => n.index < m.index)
    (hmem : ∀ n, n ∈ l ↔ base.nodes.size ≤ n.index ∧ ∃ node, g.node? n = some node) :
    ∃ g', g.removeAll l = .ok g' ∧ Restored base g' := by
  induction l generalizing g with
  | nil =>
    refine ⟨g, rfl, h.restored hbase hg fun n hn => ?_⟩
    rw [Option.eq_none_iff_forall_ne_some]
    exact fun node hl => nomatch (hmem n).2 ⟨hn, node, hl⟩
  | cons n l ih =>
    obtain ⟨hlt, hl⟩ := List.pairwise_cons.1 hl
    obtain ⟨hn, node, hnode⟩ := (hmem n).1 List.mem_cons_self
    have hu : g.Unused n := by
      refine h.unused_of_latest hbase hg hn fun m node' hm => ?_
      by_cases hnew : base.nodes.size ≤ m.index
      · rcases List.mem_cons.1 ((hmem m).2 ⟨hnew, node', hm⟩) with rfl | hm
        · exact Nat.le_refl _
        · exact Nat.le_of_lt (hlt m hm)
      · omega
    obtain ⟨g₁, hr, hw⟩ := remove_spec hg hnode hu
    obtain ⟨g₂, hr₂, hs⟩ := ih hw.coherent (h.without hbase hg hw hn) hl fun m => by
      rw [hw.node?]
      by_cases hm : m = n
      · have hnot : n ∉ l := fun hnl => Nat.lt_irrefl _ (hlt n hnl)
        simp [hm, hnot]
      · have hm' := hmem m
        rw [List.mem_cons] at hm'
        simpa [hm] using hm'
    exact ⟨g₂, by simp [removeAll, hr, hr₂], hs⟩

/-- What was built on a graph can be discarded, and the graph is the same as before. -/
theorem discard_spec {b : List OutputId} {g g' : Graph} (hg : g.Coherent) (hg' : g'.Coherent)
    (h : Grown b g g') : ∃ g'', g'.discard g.nextNode = .ok g'' ∧ Restored g g'' := by
  refine removeAll_spec hg _ hg' h ?_ fun n => ?_
  · rw [List.pairwise_reverse]
    exact ascends_addedSince g' g.nextNode
  · rw [List.mem_reverse, mem_addedSince]
    rfl

end Graph

end SignalGraph
