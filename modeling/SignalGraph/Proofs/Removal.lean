import SignalGraph.Graph.Collect
import SignalGraph.Proofs.Linking

/-!
# What removing a node does

A node can be removed if its outputs feed nothing, and only then (`remove_spec`,
`without_of_remove`). Removal takes away the node and its ports, and its inputs from the consumers
of what fed them; nothing else changes (`Without`).

While the inputs of the node are taken away one by one the graph is not coherent, so this is
followed by what it does to the ports (`Erasing`).
-/

namespace SignalGraph

namespace Graph

/-- No output of the node feeds anything. -/
def Unused (g : Graph) (n : NodeId) : Prop :=
  ∀ i o, g.source? i = some o → g.maker? o ≠ some n

/-- `g'` is `g` without the node `n` and its ports. -/
structure Without (g : Graph) (n : NodeId) (g' : Graph) : Prop where
  coherent : g'.Coherent
  unused : g.Unused n
  nodes_size : g'.nodes.size = g.nodes.size
  inputs_size : g'.inputs.size = g.inputs.size
  outputs_size : g'.outputs.size = g.outputs.size
  node? (m : NodeId) : g'.node? m = if m = n then none else g.node? m
  input? (j : InputId) : g'.input? j = if g.owner? j = some n then none else g.input? j
  bare? (p : OutputId) : g'.bare? p = if g.maker? p = some n then none else g.bare? p
  surface : g'.surface = g.surface

/-! ## Outputs that feed nothing -/

theorem checkUnused_eq_ok {g : Graph} {n : NodeId} {l : List OutputId} :
    g.checkUnused n l = .ok () ↔
      ∀ o ∈ l, ∃ port, g.output? o = some port ∧ port.consumers = [] := by
  induction l with
  | nil => simp [checkUnused]
  | cons o rest ih =>
    simp only [checkUnused, bind_eq_ok, output_eq_ok, List.forall_mem_cons]
    constructor
    · rintro ⟨port, hp, h⟩
      split at h
      · rename_i hc
        exact ⟨⟨port, hp, List.isEmpty_iff.1 hc⟩, ih.1 h⟩
      · cases h
    · rintro ⟨⟨port, hp, hc⟩, h⟩
      exact ⟨port, hp, by simpa [hc] using ih.2 h⟩

/-- A node is unused if its ports have no consumers. -/
theorem Coherent.unused_iff {g : Graph} (hg : g.Coherent) {n : NodeId} {node : Node}
    (hn : g.node? n = some node) :
    g.Unused n ↔ ∀ o ∈ node.outputs, ∃ port, g.output? o = some port ∧ port.consumers = [] := by
  constructor
  · intro h o ho
    have hm : g.maker? o = some n := (hg.mem_outputs hn).1 ho
    obtain ⟨port, hp, -⟩ := maker?_eq_some.1 hm
    refine ⟨port, hp, List.eq_nil_iff_forall_not_mem.2 fun i hi => ?_⟩
    exact h i o ((hg.mem_consumers hp).1 hi) hm
  · intro h i o hs hm
    obtain ⟨port, hp, hc⟩ := h o ((hg.mem_outputs hn).2 hm)
    have hi := (hg.mem_consumers hp).2 hs
    rw [hc] at hi
    cases hi

/-! ## Taking inputs away -/

/-- `h` is `g` without the inputs that are gone. The nodes still list them. -/
structure Erasing (g : Graph) (gone : InputId → Bool) (h : Graph) : Prop where
  counters : h.counters = g.counters
  nodes : h.nodes = g.nodes
  inputs_size : h.inputs.size = g.inputs.size
  outputs_size : h.outputs.size = g.outputs.size
  input? (j : InputId) : h.input? j = if gone j then none else g.input? j
  output? (p : OutputId) : h.output? p = (g.output? p).map fun out =>
    { out with consumers := out.consumers.filter fun j => !gone j }
  surface : h.surface = g.surface

theorem Erasing.refl (g : Graph) : Erasing g (fun _ => false) g :=
  ⟨rfl, rfl, rfl, rfl, fun _ => rfl, fun p => by cases g.output? p <;> simp, rfl⟩

theorem input?_erase (g : Graph) (i j : InputId) :
    { g with inputs := g.inputs.erase i.index : Graph }.input? j
      = if j = i then none else g.input? j := by
  have hk := Arena.get?_erase (a := g.inputs) (j := i.index) (k := j.index)
  by_cases hj : j = i
  · simpa [hj, input?] using hk
  · have hne : j.index ≠ i.index := fun he => hj (Id.ext_index he)
    simpa [hj, hne, input?] using hk

/-- An input that is no consumer may go without a difference. -/
theorem filter_gone {gone : InputId → Bool} {i : InputId} {l : List InputId} (h : i ∉ l) :
    (l.filter fun j => !gone j) = l.filter fun j => !(j = i || gone j) := by
  refine List.filter_congr fun j hj => ?_
  have hji : j ≠ i := fun e => h (e ▸ hj)
  simp [hji]

/-- Takes one input more away. -/
theorem Erasing.step {g h : Graph} {gone : InputId → Bool} (hg : g.Coherent)
    (he : Erasing g gone h) {i : InputId} {port : InputPort} (hi : g.input? i = some port)
    (hgone : gone i = false) :
    ∃ h', h.unlink i = .ok h' ∧
      Erasing g (fun j => j = i || gone j) { h' with inputs := h'.inputs.erase i.index } := by
  have hi' : h.input? i = some port := by simp [he.input?, hgone, hi]
  cases hs : port.source with
  | none =>
    refine ⟨h, by simp [unlink, input_eq_ok.2 hi', hs], ⟨he.counters, he.nodes, ?_, he.outputs_size,
      fun j => ?_, fun p => ?_, he.surface⟩⟩
    · exact Arena.size_erase.trans he.inputs_size
    · rw [input?_erase, he.input?]
      by_cases hj : j = i <;> simp [hj]
    · show h.output? p = _
      rw [he.output?]
      refine Option.map_congr fun out hp => ?_
      have hne : i ∉ out.consumers := by
        rw [hg.mem_consumers hp, source?, hi]
        simp [hs]
      rw [filter_gone hne]
  | some o =>
    have hso : g.source? i = some o := source?_eq_some.2 ⟨port, hi, hs⟩
    obtain ⟨out, ho⟩ := hg.source_live hso
    have hmem : i ∈ out.consumers := (hg.mem_consumers ho).2 hso
    obtain ⟨kept, hk⟩ : ∃ kept, kept = out.consumers.filter fun j => !gone j := ⟨_, rfl⟩
    have ho' : h.output? o = some { out with consumers := kept } := by
      rw [he.output?, ho, Option.map_some, hk]
    have hmem' : i ∈ kept := by simp [hk, hmem, hgone]
    refine ⟨h.rewire i port none o { out with consumers := kept } (kept.filter (· ≠ i)), ?_,
      ⟨he.counters, he.nodes, ?_, ?_, fun j => ?_, fun p => ?_, he.surface⟩⟩
    · simp [unlink, input_eq_ok.2 hi', hs, output_eq_ok.2 ho', OutputPort.detach, hmem', rewire]
    · exact Arena.size_erase.trans (Arena.size_set.trans he.inputs_size)
    · exact Arena.size_set.trans he.outputs_size
    · rw [input?_erase, input?_rewire hi', he.input?]
      by_cases hj : j = i <;> simp [hj]
    · show (h.rewire i port none o { out with consumers := kept } _).output? p = _
      rw [output?_rewire ho']
      by_cases hp : p = o
      · rw [if_pos hp, hp, ho, Option.map_some, hk, List.filter_filter]
        have hf : (fun j => decide (j ≠ i) && !gone j) = fun j => !(decide (j = i) || gone j) := by
          funext j
          by_cases hj : j = i <;> simp [hj]
        rw [hf]
      · rw [if_neg hp, he.output?]
        refine Option.map_congr fun out' hq => ?_
        have hne : i ∉ out'.consumers := by
          rw [hg.mem_consumers hq, hso, Option.some.injEq]
          exact fun e => hp e.symm
        rw [filter_gone hne]

theorem eraseInputs_spec {g : Graph} (hg : g.Coherent) (l : List InputId) {h : Graph}
    {gone : InputId → Bool} (he : Erasing g gone h) (hl : l.Nodup)
    (hlive : ∀ i ∈ l, gone i = false ∧ ∃ port, g.input? i = some port) :
    ∃ h', h.eraseInputs l = .ok h' ∧ Erasing g (fun j => j ∈ l || gone j) h' := by
  induction l generalizing h gone with
  | nil => exact ⟨h, rfl, by simpa using he⟩
  | cons i l ih =>
    obtain ⟨hgone, port, hi⟩ := hlive i List.mem_cons_self
    obtain ⟨hil, hl⟩ := List.nodup_cons.1 hl
    obtain ⟨h₁, hu, he₁⟩ := he.step hg hi hgone
    obtain ⟨h₂, hr, he₂⟩ := ih he₁ hl fun j hj => by
      have hji : j ≠ i := fun e => hil (e ▸ hj)
      simpa [hji] using hlive j (List.mem_cons_of_mem _ hj)
    refine ⟨h₂, by simp [eraseInputs, hu, hr], ?_⟩
    have hp : (fun j => decide (j ∈ l) || (decide (j = i) || gone j))
        = fun j => decide (j ∈ i :: l) || gone j := by
      funext j
      by_cases hj : j = i <;> simp [hj]
    exact hp ▸ he₂

theorem eraseOutputs_spec (l : List OutputId) (g : Graph) :
    (g.eraseOutputs l).counters = g.counters ∧ (g.eraseOutputs l).nodes = g.nodes ∧
      (g.eraseOutputs l).inputs = g.inputs ∧ (g.eraseOutputs l).outputs.size = g.outputs.size ∧
      (g.eraseOutputs l).surface = g.surface ∧
      ∀ p, (g.eraseOutputs l).output? p = if p ∈ l then none else g.output? p := by
  induction l generalizing g with
  | nil => exact ⟨rfl, rfl, rfl, rfl, rfl, fun p => by simp [eraseOutputs]⟩
  | cons o l ih =>
    obtain ⟨hc, hn, hi, hs, hf, ho⟩ := ih { g with outputs := g.outputs.erase o.index }
    refine ⟨hc, hn, hi, hs.trans Arena.size_erase, hf, fun p => ?_⟩
    rw [eraseOutputs, ho]
    have hk := Arena.get?_erase (a := g.outputs) (j := o.index) (k := p.index)
    simp only [List.mem_cons]
    by_cases hp : p = o
    · have hnone : { g with outputs := g.outputs.erase o.index : Graph }.output? o = none := by
        simpa [hp, output?] using hk
      simp [hp, hnone]
    · have hne : p.index ≠ o.index := fun he => hp (Id.ext_index he)
      simp only [hp, false_or]
      split
      · rfl
      · simpa [hne, output?] using hk

/-! ## Removal -/

section Remove

variable {g g' : Graph} {n : NodeId} {node : Node}

/-- What is left of `g` when `node` and the ports that it lists are taken away. -/
structure Stripped (g : Graph) (n : NodeId) (node : Node) (g' : Graph) : Prop where
  counters : g'.counters = g.counters
  nodes_size : g'.nodes.size = g.nodes.size
  inputs_size : g'.inputs.size = g.inputs.size
  outputs_size : g'.outputs.size = g.outputs.size
  node? (m : NodeId) : g'.node? m = if m = n then none else g.node? m
  input? (j : InputId) : g'.input? j = if j ∈ node.inputs then none else g.input? j
  output? (p : OutputId) : g'.output? p =
    if p ∈ node.outputs then none else (g.output? p).map fun out =>
      { out with consumers := out.consumers.filter fun j => j ∉ node.inputs }
  surface : g'.surface = g.surface

namespace Stripped

theorem node_left (h : Stripped g n node g') {m : NodeId} {left : Node}
    (hm : g'.node? m = some left) : m ≠ n ∧ g.node? m = some left := by
  rw [h.node?] at hm
  split at hm
  · cases hm
  · rename_i hne
    exact ⟨hne, hm⟩

theorem node_live (h : Stripped g n node g') {m : NodeId} (hne : m ≠ n)
    (hm : ∃ old, g.node? m = some old) : ∃ left, g'.node? m = some left := by
  rw [h.node?, if_neg hne]
  exact hm

theorem port_left (h : Stripped g n node g') {p : OutputId} {port : OutputPort}
    (hp : g'.output? p = some port) : ∃ out, g.output? p = some out ∧
      port = { out with consumers := out.consumers.filter fun j => j ∉ node.inputs } := by
  rw [h.output?] at hp
  split at hp
  · cases hp
  · obtain ⟨out, ho, rfl⟩ := Option.map_eq_some_iff.1 hp
    exact ⟨out, ho, rfl⟩

variable (hg : g.Coherent) (hn : g.node? n = some node)

include hg hn

theorem input?_eq (h : Stripped g n node g') (j : InputId) :
    g'.input? j = if g.owner? j = some n then none else g.input? j := by
  simp only [h.input?, hg.mem_inputs hn]

theorem owner? (h : Stripped g n node g') (j : InputId) :
    g'.owner? j = if g.owner? j = some n then none else g.owner? j := by
  rw [Graph.owner?, h.input?_eq hg hn]
  split
  · rfl
  · rfl

theorem source? (h : Stripped g n node g') (j : InputId) :
    g'.source? j = if g.owner? j = some n then none else g.source? j := by
  rw [Graph.source?, h.input?_eq hg hn]
  split
  · rfl
  · rfl

theorem bare? (h : Stripped g n node g') (p : OutputId) :
    g'.bare? p = if g.maker? p = some n then none else g.bare? p := by
  rw [Graph.bare?, h.output?]
  simp only [hg.mem_outputs hn]
  split
  · rfl
  · cases hp : g.output? p <;> simp [Graph.bare?, hp, OutputPort.bare]

theorem maker? (h : Stripped g n node g') (p : OutputId) :
    g'.maker? p = if g.maker? p = some n then none else g.maker? p := by
  rw [maker?_eq_bare?, h.bare? hg hn]
  split
  · rfl
  · exact (maker?_eq_bare? g p).symm

/-- What is left hangs together, if nothing was fed from what is gone. -/
theorem coherent (h : Stripped g n node g') (hu : g.Unused n) : g'.Coherent where
  counters := by
    rw [h.counters, h.nodes_size, h.inputs_size, h.outputs_size]
    exact hg.counters
  node_id hm := hg.node_id (h.node_left hm).2
  input_id hj := by
    rw [h.input?] at hj
    split at hj
    · cases hj
    · exact hg.input_id hj
  output_id hp := by
    obtain ⟨out, ho, rfl⟩ := h.port_left hp
    show out.id = _
    exact hg.output_id ho
  mem_inputs {m left j} hm := by
    obtain ⟨hne, hm⟩ := h.node_left hm
    rw [hg.mem_inputs hm, h.owner? hg hn]
    split
    · rename_i hj
      simp [hj, Ne.symm hne]
    · rfl
  mem_outputs {m left p} hm := by
    obtain ⟨hne, hm⟩ := h.node_left hm
    rw [hg.mem_outputs hm, h.maker? hg hn]
    split
    · rename_i hp
      simp [hp, Ne.symm hne]
    · rfl
  inputs_nodup hm := hg.inputs_nodup (h.node_left hm).2
  outputs_nodup hm := hg.outputs_nodup (h.node_left hm).2
  owner_live {j m} hj := by
    rw [h.owner? hg hn] at hj
    split at hj
    · cases hj
    · rename_i hne
      exact h.node_live (fun hm => hne (hm ▸ hj)) (hg.owner_live hj)
  maker_live {p m} hp := by
    rw [h.maker? hg hn] at hp
    split at hp
    · cases hp
    · rename_i hne
      exact h.node_live (fun hm => hne (hm ▸ hp)) (hg.maker_live hp)
  mem_consumers {p port j} hp := by
    obtain ⟨out, ho, rfl⟩ := h.port_left hp
    simp only [List.mem_filter, hg.mem_consumers ho, h.source? hg hn, hg.mem_inputs hn,
      decide_eq_true_eq]
    by_cases hj : g.owner? j = some n <;> simp [hj]
  source_live {j p} hj := by
    rw [h.source? hg hn] at hj
    split at hj
    · cases hj
    · obtain ⟨out, ho⟩ := hg.source_live hj
      have hp : p ∉ node.outputs := fun hp => hu j p hj ((hg.mem_outputs hn).1 hp)
      exact ⟨_, by rw [h.output?, if_neg hp, ho, Option.map_some]⟩
  ascends hp := by
    obtain ⟨out, ho, rfl⟩ := h.port_left hp
    exact (hg.ascends ho).filter _

theorem without (h : Stripped g n node g') (hu : g.Unused n) : Without g n g' where
  coherent := h.coherent hg hn hu
  unused := hu
  nodes_size := h.nodes_size
  inputs_size := h.inputs_size
  outputs_size := h.outputs_size
  node? := h.node?
  input? := h.input?_eq hg hn
  bare? := h.bare? hg hn
  surface := h.surface

end Stripped

/-- A live node whose outputs feed nothing can be removed. -/
theorem remove_spec (hg : g.Coherent) (hn : g.node? n = some node) (hu : g.Unused n) :
    ∃ g', g.remove n = .ok g' ∧ Without g n g' := by
  have hlive (i : InputId) (hi : i ∈ node.inputs) : ∃ port, g.input? i = some port := by
    obtain ⟨port, hp, -⟩ := owner?_eq_some.1 ((hg.mem_inputs hn).1 hi)
    exact ⟨port, hp⟩
  obtain ⟨g₁, h₁, he⟩ := eraseInputs_spec hg node.inputs (.refl g) (hg.inputs_nodup hn)
    fun i hi => ⟨rfl, hlive i hi⟩
  obtain ⟨hc, hns, his, hos, hsf, hout⟩ := eraseOutputs_spec node.outputs g₁
  refine ⟨{ g₁.eraseOutputs node.outputs with
    nodes := (g₁.eraseOutputs node.outputs).nodes.erase n.index }, ?_, ?_⟩
  · have hk : g.checkUnused n node.outputs = .ok () :=
      checkUnused_eq_ok.2 ((hg.unused_iff hn).1 hu)
    simp [remove, node_eq_ok.2 hn, hk, h₁]
  · refine Stripped.without hg hn ?_ hu
    refine
      { counters := hc.trans he.counters
        nodes_size := ?nodes_size
        inputs_size := ?inputs_size
        outputs_size := hos.trans he.outputs_size
        node? := fun m => ?node
        input? := fun j => ?input
        output? := fun p => ?output
        surface := hsf.trans he.surface }
    case nodes_size =>
      rw [hns, he.nodes]
      exact Arena.size_erase
    case inputs_size =>
      rw [his]
      exact he.inputs_size
    case node =>
      have hk := Arena.get?_erase (a := g.nodes) (j := n.index) (k := m.index)
      rw [hns, he.nodes]
      by_cases hm : m = n
      · simpa [hm, Graph.node?] using hk
      · have hne : m.index ≠ n.index := fun e => hm (Id.ext_index e)
        simpa [hm, hne, Graph.node?] using hk
    case input =>
      have hj := he.input? j
      simp only [Bool.or_false, decide_eq_true_eq] at hj
      rw [← hj, Graph.input?, Graph.input?, his]
    case output =>
      have hp := he.output? p
      simp only [Bool.or_false] at hp
      have ho := hout p
      rw [hp] at ho
      show (g₁.eraseOutputs node.outputs).output? p = _
      simpa using ho

/-- Only such a node can be removed. -/
theorem without_of_remove (hg : g.Coherent) (h : g.remove n = .ok g') :
    (∃ node, g.node? n = some node) ∧ Without g n g' := by
  have hr := h
  simp only [remove, bind_eq_ok, node_eq_ok] at h
  obtain ⟨node, hn, ⟨⟩, hc, -⟩ := h
  have hu : g.Unused n := (hg.unused_iff hn).2 (checkUnused_eq_ok.1 hc)
  obtain ⟨g₁, h₁, hw⟩ := remove_spec hg hn hu
  obtain rfl : g' = g₁ := Except.ok.inj (hr.symm.trans h₁)
  exact ⟨⟨node, hn⟩, hw⟩

end Remove

end Graph

end SignalGraph
