import SignalGraph.Graph.Build
import SignalGraph.Proofs.Linking

/-!
# What adding a node does

A node is added without ports, and then gets its inputs and its outputs one by one. Every one of
these steps keeps a graph coherent. Put together (`insert_spec`), `insert` succeeds if its sources
are live and leaves the graph as it was, but for the new node and its ports (`Inserted`).
-/

namespace SignalGraph

/-- Ids that follow each other. -/
def Id.range {part : Part} (start count : Nat) : List (Id part) :=
  (List.range' start count).map Id.mk

namespace Id

variable {part : Part}

@[simp] theorem range_zero (start : Nat) : (range start 0 : List (Id part)) = [] := rfl

theorem range_succ (start count : Nat) :
    (range start (count + 1) : List (Id part)) = ⟨start⟩ :: range (start + 1) count := by
  simp [range, List.range'_succ]

@[simp] theorem length_range (start count : Nat) :
    (range start count : List (Id part)).length = count := by
  simp [range]

theorem getElem?_range {start count k : Nat} (h : k < count) :
    (range start count : List (Id part))[k]? = some ⟨start + k⟩ := by
  simp [range, h]

end Id

namespace Graph

/-- The id that the next input will get. -/
def nextInput (g : Graph) : InputId :=
  ⟨g.inputs.size⟩

/-- The id that the next output will get. -/
def nextOutput (g : Graph) : OutputId :=
  ⟨g.outputs.size⟩

namespace Coherent

variable {g : Graph}

theorem next_node (hg : g.Coherent) : g.counters.next .node = g.nextNode := by
  simp [Counters.next, hg.counters, nextNode]

theorem next_input (hg : g.Coherent) : g.counters.next .input = g.nextInput := by
  simp [Counters.next, hg.counters, nextInput]

theorem next_output (hg : g.Coherent) : g.counters.next .output = g.nextOutput := by
  simp [Counters.next, hg.counters, nextOutput]

end Coherent

theorem node?_nextNode (g : Graph) : g.node? g.nextNode = none :=
  Arena.get?_eq_none (Nat.le_refl _)

theorem input?_nextInput (g : Graph) : g.input? g.nextInput = none :=
  Arena.get?_eq_none (Nat.le_refl _)

theorem output?_nextOutput (g : Graph) : g.output? g.nextOutput = none :=
  Arena.get?_eq_none (Nat.le_refl _)

/-! ## A node without ports -/

section AddNode

variable {g : Graph} (kind : Kind) (location : Option Location)

theorem node?_addNode (hg : g.Coherent) (m : NodeId) :
    (g.addNode kind location).1.node? m
      = if m = g.nextNode then some { id := g.nextNode, kind, location } else g.node? m := by
  have hpush := Arena.get?_push (a := g.nodes) (x := { id := g.nextNode, kind, location })
    (k := m.index)
  simp only [addNode, node?, hg.next_node]
  rw [hpush]
  by_cases hm : m = g.nextNode
  · simp [hm, nextNode]
  · have hne : m.index ≠ g.nodes.size := fun he => hm (Id.ext_index he)
    simp [hm, hne]

/-- A node of the new graph is the new one, or it was there. -/
theorem exists_of_addNode (hg : g.Coherent) {m : NodeId} {new : Node}
    (h : (g.addNode kind location).1.node? m = some new) :
    m = g.nextNode ∧ new = { id := g.nextNode, kind, location } ∨ g.node? m = some new := by
  rw [node?_addNode _ _ hg] at h
  split at h
  · rename_i hm
    cases h
    exact .inl ⟨hm, rfl⟩
  · exact .inr h

theorem node?_addNode_of_live (hg : g.Coherent) {m : NodeId} {node : Node}
    (h : g.node? m = some node) : (g.addNode kind location).1.node? m = some node := by
  have hm : m ≠ g.nextNode := by
    rintro rfl
    rw [node?_nextNode] at h
    cases h
  rw [node?_addNode _ _ hg, if_neg hm, h]

theorem Coherent.addNode (hg : g.Coherent) : (g.addNode kind location).1.Coherent where
  counters := by simp [Graph.addNode, Counters.advance, hg.counters]
  node_id h := by
    obtain ⟨rfl, rfl⟩ | h := exists_of_addNode _ _ hg h
    · rfl
    · exact hg.node_id h
  input_id := hg.input_id
  output_id := hg.output_id
  mem_inputs {n node i} h := by
    obtain ⟨rfl, rfl⟩ | h := exists_of_addNode _ _ hg h
    · refine iff_of_false List.not_mem_nil fun hi => ?_
      obtain ⟨node, hl⟩ := hg.owner_live hi
      rw [node?_nextNode] at hl
      cases hl
    · exact hg.mem_inputs h
  mem_outputs {n node o} h := by
    obtain ⟨rfl, rfl⟩ | h := exists_of_addNode _ _ hg h
    · refine iff_of_false List.not_mem_nil fun ho => ?_
      obtain ⟨node, hl⟩ := hg.maker_live ho
      rw [node?_nextNode] at hl
      cases hl
    · exact hg.mem_outputs h
  inputs_nodup h := by
    obtain ⟨-, rfl⟩ | h := exists_of_addNode _ _ hg h
    · exact List.nodup_nil
    · exact hg.inputs_nodup h
  outputs_nodup h := by
    obtain ⟨-, rfl⟩ | h := exists_of_addNode _ _ hg h
    · exact List.nodup_nil
    · exact hg.outputs_nodup h
  owner_live h := by
    obtain ⟨node, hl⟩ := hg.owner_live h
    exact ⟨node, node?_addNode_of_live _ _ hg hl⟩
  maker_live h := by
    obtain ⟨node, hl⟩ := hg.maker_live h
    exact ⟨node, node?_addNode_of_live _ _ hg hl⟩
  mem_consumers := hg.mem_consumers
  source_live := hg.source_live
  ascends := hg.ascends

end AddNode

/-! ## One input more -/

section AddInputPort

variable {g : Graph} {n : NodeId} {node : Node}

theorem input?_addInputPort (hg : g.Coherent) (j : InputId) :
    (g.addInputPort n).1.input? j
      = if j = g.nextInput then some { id := g.nextInput, node := n } else g.input? j := by
  have hpush := Arena.get?_push (a := g.inputs) (x := { id := g.nextInput, node := n })
    (k := j.index)
  simp only [addInputPort, input?, hg.next_input]
  rw [hpush]
  by_cases hj : j = g.nextInput
  · simp [hj, nextInput]
  · have hne : j.index ≠ g.inputs.size := fun he => hj (Id.ext_index he)
    simp [hj, hne]

theorem node?_addInputPort (hg : g.Coherent) (hn : g.node? n = some node) (m : NodeId) :
    (g.addInputPort n).1.node? m
      = if m = n then some { node with inputs := node.inputs ++ [g.nextInput] }
        else g.node? m := by
  have hget : g.nodes.get? n.index = some node := hn
  simp only [addInputPort, node?, hg.next_input, Arena.get?_modify, hget]
  by_cases hm : m = n
  · simp [hm]
  · have hne : m.index ≠ n.index := fun he => hm (Id.ext_index he)
    simp [hm, hne]

theorem owner?_addInputPort (hg : g.Coherent) (j : InputId) :
    (g.addInputPort n).1.owner? j = if j = g.nextInput then some n else g.owner? j := by
  rw [owner?, input?_addInputPort hg]
  split
  · rfl
  · rfl

theorem source?_addInputPort (hg : g.Coherent) (j : InputId) :
    (g.addInputPort n).1.source? j = g.source? j := by
  rw [source?, input?_addInputPort hg]
  split
  · rename_i hj
    rw [source?, hj, input?_nextInput]
    rfl
  · rfl

/-- The node that a node of the new graph was before. -/
theorem exists_of_addInputPort (hg : g.Coherent) (hn : g.node? n = some node) {m : NodeId}
    {new : Node} (h : (g.addInputPort n).1.node? m = some new) :
    ∃ old, g.node? m = some old ∧ new.id = old.id ∧ new.outputs = old.outputs ∧
      new.inputs = if m = n then old.inputs ++ [g.nextInput] else old.inputs := by
  rw [node?_addInputPort hg hn] at h
  split at h
  · rename_i hm
    cases h
    exact ⟨node, hm ▸ hn, rfl, rfl, (if_pos hm).symm⟩
  · rename_i hm
    exact ⟨new, h, rfl, rfl, (if_neg hm).symm⟩

theorem live_addInputPort (hg : g.Coherent) (hn : g.node? n = some node) {m : NodeId}
    (h : ∃ old, g.node? m = some old) : ∃ new, (g.addInputPort n).1.node? m = some new := by
  rw [node?_addInputPort hg hn]
  split
  · exact ⟨_, rfl⟩
  · exact h

theorem Coherent.nextInput_not_mem (hg : g.Coherent) (hn : g.node? n = some node) :
    g.nextInput ∉ node.inputs := by
  rw [hg.mem_inputs hn, owner?, input?_nextInput]
  simp

theorem Coherent.addInputPort (hg : g.Coherent) (hn : g.node? n = some node) :
    (g.addInputPort n).1.Coherent where
  counters := by simp [Graph.addInputPort, Counters.advance, hg.counters]
  node_id h := by
    obtain ⟨old, ho, hid, -⟩ := exists_of_addInputPort hg hn h
    exact hid.trans (hg.node_id ho)
  input_id h := by
    rw [input?_addInputPort hg] at h
    split at h
    · rename_i hj
      cases h
      exact hj.symm
    · exact hg.input_id h
  output_id := hg.output_id
  mem_inputs {m new j} h := by
    obtain ⟨old, ho, -, -, hinputs⟩ := exists_of_addInputPort hg hn h
    have hmem : j ∈ old.inputs ↔ g.owner? j = some m := hg.mem_inputs ho
    rw [hinputs, owner?_addInputPort hg]
    by_cases hj : j = g.nextInput
    · -- The new input is listed by its node, and by no other.
      have hnot := hg.nextInput_not_mem ho
      by_cases hm : m = n
      · simp [hj, hm]
      · simp [hj, hm, hnot, Ne.symm hm]
    · rw [if_neg hj, ← hmem]
      split
      · simp [hj]
      · rfl
  mem_outputs {m new o} h := by
    obtain ⟨old, ho, -, houtputs, -⟩ := exists_of_addInputPort hg hn h
    rw [houtputs]
    exact hg.mem_outputs ho
  inputs_nodup h := by
    obtain ⟨old, ho, -, -, hinputs⟩ := exists_of_addInputPort hg hn h
    rw [hinputs]
    split
    · simpa using (hg.inputs_nodup ho).concat (hg.nextInput_not_mem ho)
    · exact hg.inputs_nodup ho
  outputs_nodup h := by
    obtain ⟨old, ho, -, houtputs, -⟩ := exists_of_addInputPort hg hn h
    rw [houtputs]
    exact hg.outputs_nodup ho
  owner_live h := by
    rw [owner?_addInputPort hg] at h
    split at h
    · cases h
      exact live_addInputPort hg hn ⟨node, hn⟩
    · exact live_addInputPort hg hn (hg.owner_live h)
  maker_live h := live_addInputPort hg hn (hg.maker_live h)
  mem_consumers h := by
    rw [source?_addInputPort hg]
    exact hg.mem_consumers h
  source_live h := by
    rw [source?_addInputPort hg] at h
    exact hg.source_live h
  ascends := hg.ascends

end AddInputPort

/-! ## One output more -/

section AddOutputPort

variable {g : Graph} {n : NodeId} {node : Node} {type : DataType} {latency : Nat}

theorem output?_addOutputPort (hg : g.Coherent) (p : OutputId) :
    (g.addOutputPort n type latency).output? p
      = if p = g.nextOutput then some { id := g.nextOutput, node := n, type, latency }
        else g.output? p := by
  have hpush := Arena.get?_push (a := g.outputs)
    (x := { id := g.nextOutput, node := n, type, latency }) (k := p.index)
  simp only [addOutputPort, output?, hg.next_output]
  rw [hpush]
  by_cases hp : p = g.nextOutput
  · simp [hp, nextOutput]
  · have hne : p.index ≠ g.outputs.size := fun he => hp (Id.ext_index he)
    simp [hp, hne]

theorem node?_addOutputPort (hg : g.Coherent) (hn : g.node? n = some node) (m : NodeId) :
    (g.addOutputPort n type latency).node? m
      = if m = n then some { node with outputs := node.outputs ++ [g.nextOutput] }
        else g.node? m := by
  have hget : g.nodes.get? n.index = some node := hn
  simp only [addOutputPort, node?, hg.next_output, Arena.get?_modify, hget]
  by_cases hm : m = n
  · simp [hm]
  · have hne : m.index ≠ n.index := fun he => hm (Id.ext_index he)
    simp [hm, hne]

theorem bare?_addOutputPort (hg : g.Coherent) (p : OutputId) :
    (g.addOutputPort n type latency).bare? p
      = if p = g.nextOutput then some { id := g.nextOutput, node := n, type, latency }
        else g.bare? p := by
  rw [bare?, output?_addOutputPort hg]
  split
  · rfl
  · rfl

theorem maker?_addOutputPort (hg : g.Coherent) (p : OutputId) :
    (g.addOutputPort n type latency).maker? p
      = if p = g.nextOutput then some n else g.maker? p := by
  rw [maker?, output?_addOutputPort hg]
  split
  · rfl
  · rfl

/-- The node that a node of the new graph was before. -/
theorem exists_of_addOutputPort (hg : g.Coherent) (hn : g.node? n = some node) {m : NodeId}
    {new : Node} (h : (g.addOutputPort n type latency).node? m = some new) :
    ∃ old, g.node? m = some old ∧ new.id = old.id ∧ new.inputs = old.inputs ∧
      new.outputs = if m = n then old.outputs ++ [g.nextOutput] else old.outputs := by
  rw [node?_addOutputPort hg hn] at h
  split at h
  · rename_i hm
    cases h
    exact ⟨node, hm ▸ hn, rfl, rfl, (if_pos hm).symm⟩
  · rename_i hm
    exact ⟨new, h, rfl, rfl, (if_neg hm).symm⟩

theorem live_addOutputPort (hg : g.Coherent) (hn : g.node? n = some node) {m : NodeId}
    (h : ∃ old, g.node? m = some old) :
    ∃ new, (g.addOutputPort n type latency).node? m = some new := by
  rw [node?_addOutputPort hg hn]
  split
  · exact ⟨_, rfl⟩
  · exact h

/-- A port of the new graph is the new one, or it was there. -/
theorem exists_port_of_addOutputPort (hg : g.Coherent) {p : OutputId} {port : OutputPort}
    (h : (g.addOutputPort n type latency).output? p = some port) :
    p = g.nextOutput ∧ port = { id := g.nextOutput, node := n, type, latency } ∨
      g.output? p = some port := by
  rw [output?_addOutputPort hg] at h
  split at h
  · rename_i hp
    cases h
    exact .inl ⟨hp, rfl⟩
  · exact .inr h

theorem Coherent.nextOutput_not_mem (hg : g.Coherent) (hn : g.node? n = some node) :
    g.nextOutput ∉ node.outputs := by
  rw [hg.mem_outputs hn, maker?, output?_nextOutput]
  simp

theorem Coherent.source?_ne_nextOutput (hg : g.Coherent) (i : InputId) :
    g.source? i ≠ some g.nextOutput := by
  intro hs
  obtain ⟨port, hp⟩ := hg.source_live hs
  rw [output?_nextOutput] at hp
  cases hp

theorem Coherent.addOutputPort (hg : g.Coherent) (hn : g.node? n = some node) :
    (g.addOutputPort n type latency).Coherent where
  counters := by simp [Graph.addOutputPort, Counters.advance, hg.counters]
  node_id h := by
    obtain ⟨old, ho, hid, -⟩ := exists_of_addOutputPort hg hn h
    exact hid.trans (hg.node_id ho)
  input_id := hg.input_id
  output_id h := by
    obtain ⟨rfl, rfl⟩ | h := exists_port_of_addOutputPort hg h
    · rfl
    · exact hg.output_id h
  mem_inputs {m new i} h := by
    obtain ⟨old, ho, -, hinputs, -⟩ := exists_of_addOutputPort hg hn h
    rw [hinputs]
    exact hg.mem_inputs ho
  mem_outputs {m new p} h := by
    obtain ⟨old, ho, -, -, houtputs⟩ := exists_of_addOutputPort hg hn h
    have hmem : p ∈ old.outputs ↔ g.maker? p = some m := hg.mem_outputs ho
    rw [houtputs, maker?_addOutputPort hg]
    by_cases hp : p = g.nextOutput
    · -- The new port is listed by its node, and by no other.
      have hnot := hg.nextOutput_not_mem ho
      by_cases hm : m = n
      · simp [hp, hm]
      · simp [hp, hm, hnot, Ne.symm hm]
    · rw [if_neg hp, ← hmem]
      split
      · simp [hp]
      · rfl
  inputs_nodup h := by
    obtain ⟨old, ho, -, hinputs, -⟩ := exists_of_addOutputPort hg hn h
    rw [hinputs]
    exact hg.inputs_nodup ho
  outputs_nodup h := by
    obtain ⟨old, ho, -, -, houtputs⟩ := exists_of_addOutputPort hg hn h
    rw [houtputs]
    split
    · simpa using (hg.outputs_nodup ho).concat (hg.nextOutput_not_mem ho)
    · exact hg.outputs_nodup ho
  owner_live h := live_addOutputPort hg hn (hg.owner_live h)
  maker_live h := by
    rw [maker?_addOutputPort hg] at h
    split at h
    · cases h
      exact live_addOutputPort hg hn ⟨node, hn⟩
    · exact live_addOutputPort hg hn (hg.maker_live h)
  mem_consumers {p port i} h := by
    obtain ⟨rfl, rfl⟩ | h := exists_port_of_addOutputPort hg h
    · exact iff_of_false List.not_mem_nil (hg.source?_ne_nextOutput i)
    · exact hg.mem_consumers h
  source_live h := by
    rw [output?_addOutputPort hg]
    split
    · exact ⟨_, rfl⟩
    · exact hg.source_live h
  ascends h := by
    obtain ⟨-, rfl⟩ | h := exists_port_of_addOutputPort hg h
    · exact List.Pairwise.nil
    · exact hg.ascends h

end AddOutputPort

/-! ## All ports of a node -/

/-- Inputs for live sources. -/
theorem addInputs_spec {n : NodeId} (sources : List OutputId) {g : Graph} {node : Node}
    (hg : g.Coherent) (hn : g.node? n = some node)
    (hs : ∀ o ∈ sources, ∃ out, g.output? o = some out) :
    ∃ g', g.addInputs n sources = .ok g' ∧ g'.Coherent ∧ g'.surface = g.surface ∧
      g'.nodes.size = g.nodes.size ∧ g'.inputs.size = g.inputs.size + sources.length ∧
      g'.outputs.size = g.outputs.size ∧
      (∀ m, g'.node? m = if m = n then
        some { node with inputs := node.inputs ++ Id.range g.inputs.size sources.length }
        else g.node? m) ∧
      (∀ j, g'.input? j = if j.index < g.inputs.size then g.input? j
        else (sources[j.index - g.inputs.size]?).map fun o =>
          { id := j, node := n, source := some o }) ∧
      ∀ p, g'.bare? p = g.bare? p := by
  induction sources generalizing g node with
  | nil =>
    refine ⟨g, rfl, hg, rfl, rfl, rfl, rfl, fun m => ?_, fun j => ?_, fun p => rfl⟩
    · split
      · rename_i hm
        simp [hm, hn]
      · rfl
    · split
      · rfl
      · rename_i hj
        exact Arena.get?_eq_none (Nat.le_of_not_lt hj)
  | cons o rest ih =>
    have hg₁ := hg.addInputPort hn
    have hi : (g.addInputPort n).1.input? g.nextInput = some { id := g.nextInput, node := n } := by
      simp [input?_addInputPort hg]
    obtain ⟨g₂, hc, hr, hin⟩ := connect_spec hg₁ hi (some o) fun p hp => by
      cases hp
      exact hs o List.mem_cons_self
    have hn₂ : g₂.node? n = some { node with inputs := node.inputs ++ [g.nextInput] } := by
      rw [hr.node?, node?_addInputPort hg hn, if_pos rfl]
    obtain ⟨g₃, ha, hg₃, hsf, hns, his, hos, hnode, hinput, hbare⟩ := ih hr.coherent hn₂
      fun p hp => by
        obtain ⟨out, ho⟩ := hs p (List.mem_cons_of_mem _ hp)
        exact hr.output?_isSome (g := (g.addInputPort n).1) ho
    have hsize : g₂.inputs.size = g.inputs.size + 1 := by
      rw [hr.inputs_size]
      exact Arena.size_push
    have hsize' : g₂.nodes.size = g.nodes.size := by
      rw [hr.nodes]
      exact Arena.size_modify
    refine ⟨g₃, ?_, hg₃, hsf.trans hr.surface, hns.trans hsize', ?_,
      hos.trans hr.outputs_size, fun m => ?_, fun j => ?_, fun p => (hbare p).trans (hr.bare? p)⟩
    · have hid : (g.addInputPort n).2 = g.nextInput := hg.next_input
      simp [addInputs, hid, hc, ha]
    · rw [his, hsize, List.length_cons]
      omega
    · rw [hnode, hsize, List.length_cons, Id.range_succ]
      split
      · simp [nextInput]
      · rename_i hm
        rw [hr.node?, node?_addInputPort hg hn, if_neg hm]
    · rw [hinput, hsize, hin, input?_addInputPort hg]
      -- An input is an old one, the one just added, or one that is added later.
      rcases Nat.lt_trichotomy j.index g.inputs.size with hj | hj | hj
      · have hne : j ≠ g.nextInput := fun he => by simp [he, nextInput] at hj
        simp [hj, hne, Nat.lt_succ_of_lt hj]
      · have he : j = g.nextInput := Id.ext_index hj
        simp [he, nextInput]
      · have hsub : j.index - g.inputs.size = j.index - (g.inputs.size + 1) + 1 := by omega
        simp [Nat.not_lt.2 (Nat.le_of_lt hj), Nat.not_lt.2 (Nat.succ_le_of_lt hj), hsub]

/-- Only live sources can be given to inputs. -/
theorem live_of_addInputs {n : NodeId} (sources : List OutputId) {g g' : Graph} {node : Node}
    (hg : g.Coherent) (hn : g.node? n = some node) (h : g.addInputs n sources = .ok g') :
    ∀ o ∈ sources, ∃ out, g.output? o = some out := by
  induction sources generalizing g node with
  | nil => exact fun o ho => nomatch ho
  | cons o rest ih =>
    have hg₁ := hg.addInputPort hn
    have hid : (g.addInputPort n).2 = g.nextInput := hg.next_input
    have hi : (g.addInputPort n).1.input? g.nextInput = some { id := g.nextInput, node := n } := by
      simp [input?_addInputPort hg]
    simp only [addInputs, hid, bind_eq_ok] at h
    obtain ⟨g₂, hc, h⟩ := h
    have ho : ∃ out, g.output? o = some out := by
      simp only [connect, bind_eq_ok] at hc
      obtain ⟨out, ho, -⟩ := hc
      exact ⟨out, output_eq_ok.1 ho⟩
    obtain ⟨g₂', hc', hr, -⟩ := connect_spec hg₁ hi (some o) fun p hp => by
      cases hp
      exact ho
    obtain rfl : g₂ = g₂' := Except.ok.inj (hc.symm.trans hc')
    have hn₂ : g₂.node? n = some { node with inputs := node.inputs ++ [g.nextInput] } := by
      rw [hr.node?, node?_addInputPort hg hn, if_pos rfl]
    intro p hp
    rcases List.mem_cons.1 hp with rfl | hp
    · exact ho
    · obtain ⟨out, hout⟩ := ih hr.coherent hn₂ h p hp
      obtain ⟨out', hout', -⟩ := output?_of_bare? (hr.bare? p).symm hout
      exact ⟨out', hout'⟩

theorem addOutputs_spec {n : NodeId} (results : List (DataType × Nat)) {g : Graph} {node : Node}
    (hg : g.Coherent) (hn : g.node? n = some node) :
    (g.addOutputs n results).Coherent ∧ (g.addOutputs n results).surface = g.surface ∧
      (g.addOutputs n results).nodes.size = g.nodes.size ∧
      (g.addOutputs n results).inputs = g.inputs ∧
      (g.addOutputs n results).outputs.size = g.outputs.size + results.length ∧
      (∀ m, (g.addOutputs n results).node? m = if m = n then
        some { node with outputs := node.outputs ++ Id.range g.outputs.size results.length }
        else g.node? m) ∧
      ∀ p, (g.addOutputs n results).bare? p = if p.index < g.outputs.size then g.bare? p
        else (results[p.index - g.outputs.size]?).map fun r =>
          { id := p, node := n, type := r.1, latency := r.2 } := by
  induction results generalizing g node with
  | nil =>
    refine ⟨hg, rfl, rfl, rfl, rfl, fun m => ?_, fun p => ?_⟩
    · split
      · rename_i hm
        simp [hm, hn, addOutputs]
      · rfl
    · split
      · rfl
      · rename_i hp
        have hnone : g.output? p = none := Arena.get?_eq_none (Nat.le_of_not_lt hp)
        simp [addOutputs, bare?, hnone]
  | cons r rest ih =>
    obtain ⟨type, latency⟩ := r
    have hn₁ : (g.addOutputPort n type latency).node? n
        = some { node with outputs := node.outputs ++ [g.nextOutput] } := by
      rw [node?_addOutputPort hg hn, if_pos rfl]
    obtain ⟨hg₂, hsf, hns, his, hos, hnode, hbare⟩ := ih (hg.addOutputPort hn) hn₁
    have hsize : (g.addOutputPort n type latency).outputs.size = g.outputs.size + 1 :=
      Arena.size_push
    refine ⟨hg₂, hsf, hns.trans Arena.size_modify, his, ?_, fun m => ?_, fun p => ?_⟩
    · rw [addOutputs, hos, hsize, List.length_cons]
      omega
    · rw [addOutputs, hnode, hsize, List.length_cons, Id.range_succ]
      split
      · simp [nextOutput]
      · rename_i hm
        rw [node?_addOutputPort hg hn, if_neg hm]
    · rw [addOutputs, hbare, hsize, bare?_addOutputPort hg]
      rcases Nat.lt_trichotomy p.index g.outputs.size with hp | hp | hp
      · have hne : p ≠ g.nextOutput := fun he => by simp [he, nextOutput] at hp
        simp [hp, hne, Nat.lt_succ_of_lt hp]
      · have he : p = g.nextOutput := Id.ext_index hp
        simp [he, nextOutput]
      · have hsub : p.index - g.outputs.size = p.index - (g.outputs.size + 1) + 1 := by omega
        simp [Nat.not_lt.2 (Nat.le_of_lt hp), Nat.not_lt.2 (Nat.succ_le_of_lt hp), hsub]

/-- `g'` is `g` with one node more, which has an input for each of `sources` and an output for each
of `results`. -/
structure Inserted (g : Graph) (kind : Kind) (location : Option Location)
    (sources : List OutputId) (results : List (DataType × Nat)) (g' : Graph) : Prop where
  coherent : g'.Coherent
  sources_live : ∀ o ∈ sources, ∃ out, g.output? o = some out
  nodes_size : g'.nodes.size = g.nodes.size + 1
  inputs_size : g'.inputs.size = g.inputs.size + sources.length
  outputs_size : g'.outputs.size = g.outputs.size + results.length
  node? (m : NodeId) : g'.node? m = if m = g.nextNode then
    some { id := g.nextNode, kind, location,
           inputs := Id.range g.inputs.size sources.length,
           outputs := Id.range g.outputs.size results.length }
    else g.node? m
  input? (j : InputId) : g'.input? j = if j.index < g.inputs.size then g.input? j
    else (sources[j.index - g.inputs.size]?).map fun o =>
      { id := j, node := g.nextNode, source := some o }
  bare? (p : OutputId) : g'.bare? p = if p.index < g.outputs.size then g.bare? p
    else (results[p.index - g.outputs.size]?).map fun r =>
      { id := p, node := g.nextNode, type := r.1, latency := r.2 }
  surface : g'.surface = g.surface

section Insert

variable {g g' : Graph} {kind : Kind} {location : Option Location} {sources : List OutputId}
  {results : List (DataType × Nat)} {n : NodeId}

/-- A node with live sources can be added. -/
theorem insert_spec (hg : g.Coherent) (kind : Kind) (location : Option Location)
    (results : List (DataType × Nat)) (hs : ∀ o ∈ sources, ∃ out, g.output? o = some out) :
    ∃ g', g.insert kind location sources results = .ok (g', g.nextNode) ∧
      Inserted g kind location sources results g' := by
  have hn : (g.addNode kind location).1.node? g.nextNode
      = some { id := g.nextNode, kind, location } := by
    rw [node?_addNode _ _ hg, if_pos rfl]
  obtain ⟨g₂, ha, hg₂, hsf, hns, his, hos, hnode, hinput, hbare⟩ :=
    addInputs_spec sources (hg.addNode kind location) hn hs
  have hn₂ := hnode g.nextNode
  rw [if_pos rfl] at hn₂
  obtain ⟨hg₃, hsf₃, hns₃, his₃, hos₃, hnode₃, hbare₃⟩ := addOutputs_spec results hg₂ hn₂
  refine ⟨g₂.addOutputs g.nextNode results, ?_, ?_⟩
  · have hid : (g.addNode kind location).2 = g.nextNode := hg.next_node
    simp [insert, hid, ha]
  · refine ⟨hg₃, hs, ?_, ?_, ?_, fun m => ?_, fun j => ?_, fun p => ?_, hsf₃.trans hsf⟩
    · rw [hns₃, hns]
      exact Arena.size_push
    · rw [his₃, his]
      rfl
    · rw [hos₃, hos]
      rfl
    · rw [hnode₃, hnode, node?_addNode _ _ hg, hos]
      by_cases hm : m = g.nextNode
      · simp only [hm, if_true, List.nil_append]
        rfl
      · simp [hm]
    · have hin : (g₂.addOutputs g.nextNode results).input? j = g₂.input? j := by
        rw [Graph.input?, Graph.input?, his₃]
      rw [hin, hinput]
      rfl
    · rw [hbare₃, hbare, hos]
      rfl

theorem inserted_of_insert (hg : g.Coherent)
    (h : g.insert kind location sources results = .ok (g', n)) :
    n = g.nextNode ∧ Inserted g kind location sources results g' := by
  have hn : (g.addNode kind location).1.node? g.nextNode
      = some { id := g.nextNode, kind, location } := by
    rw [node?_addNode _ _ hg, if_pos rfl]
  have hid : (g.addNode kind location).2 = g.nextNode := hg.next_node
  have hs : ∀ o ∈ sources, ∃ out, g.output? o = some out := by
    simp only [insert, hid, bind_eq_ok] at h
    obtain ⟨g₂, ha, -⟩ := h
    have hl := live_of_addInputs sources (hg.addNode kind location) hn ha
    exact hl
  obtain ⟨g₁, h₁, hins⟩ := insert_spec hg kind location results hs
  rw [h, Except.ok.injEq, Prod.mk.injEq] at h₁
  obtain ⟨rfl, rfl⟩ := h₁
  exact ⟨rfl, hins⟩

/-! ## The new node -/

/-- The ports of a new node. -/
theorem Inserted.port_eq_ok (h : Inserted g kind location sources results g') {k : Nat}
    {o : OutputId} :
    g'.port g.nextNode k = .ok o ↔ k < results.length ∧ o = ⟨g.outputs.size + k⟩ := by
  have hn := h.node? g.nextNode
  rw [if_pos rfl] at hn
  simp only [port, bind_eq_ok, node_eq_ok, hn, Option.some.injEq, exists_eq_left']
  by_cases hk : k < results.length
  · simp only [Id.getElem?_range hk, hk, true_and, Except.ok.injEq]
    exact eq_comm
  · have hnone : (Id.range g.outputs.size results.length : List OutputId)[k]? = none := by
      simpa using Nat.le_of_not_lt hk
    simp only [hnone, hk, false_and, reduceCtorEq]

theorem Inserted.bare?_port (h : Inserted g kind location sources results g') {k : Nat} :
    g'.bare? ⟨g.outputs.size + k⟩ = (results[k]?).map fun r =>
      { id := ⟨g.outputs.size + k⟩, node := g.nextNode, type := r.1, latency := r.2 } := by
  rw [h.bare?, if_neg (by simp)]
  simp

theorem Inserted.source?_new (h : Inserted g kind location sources results g') (j : Nat) :
    g'.source? ⟨g.inputs.size + j⟩ = sources[j]? := by
  rw [Graph.source?, h.input?, if_neg (by simp), Nat.add_sub_cancel_left]
  cases sources[j]? <;> rfl

/-- A new node is fed from its sources, in their order. -/
theorem Inserted.map_source? (h : Inserted g kind location sources results g') :
    (Id.range g.inputs.size sources.length).map g'.source? = sources.map some := by
  refine List.ext_getElem? fun j => ?_
  by_cases hj : j < sources.length
  · rw [List.getElem?_map, Id.getElem?_range hj, Option.map_some, h.source?_new, List.getElem?_map,
      List.getElem?_eq_getElem hj, Option.map_some]
  · rw [List.getElem?_eq_none (by simpa using Nat.le_of_not_lt hj),
      List.getElem?_eq_none (by simpa using Nat.le_of_not_lt hj)]

theorem Inserted.output?_port (h : Inserted g kind location sources results g') {k : Nat}
    {r : DataType × Nat} (hk : results[k]? = some r) :
    ∃ p, g'.output? ⟨g.outputs.size + k⟩ = some p ∧
      p.node = g.nextNode ∧ p.type = r.1 ∧ p.latency = r.2 := by
  have hb := h.bare?_port (k := k)
  rw [hk, Option.map_some] at hb
  obtain ⟨p, hp, hb⟩ := bare?_eq_some.1 hb
  simp only [OutputPort.bare, OutputPort.mk.injEq] at hb
  exact ⟨p, hp, hb.2.1, hb.2.2.1, hb.2.2.2.1⟩

/-! ## Nodes without sources -/

theorem addInput_eq_insert (g : Graph) (name : String) (type : DataType)
    (location : Option Location) :
    g.insert (.input name type) location [] [(type, 0)] = .ok (g.addInput name type location) :=
  rfl

theorem addConstant_eq_insert (g : Graph) (value : Literal) (location : Option Location) :
    g.insert (.constant value) location [] [(value.dataType, 0)]
      = .ok (g.addConstant value location) :=
  rfl

/-! ## Additions that can be refused -/

section Checked

variable {check : Outcome BuildError (List (DataType × Nat))} {e : BuildError}

theorem insertChecked_eq_ok : g.insertChecked kind location sources check = .ok (g', .ok n) ↔
    ∃ results, check.run = .ok (.ok results) ∧
      g.insert kind location sources results = .ok (g', n) := by
  simp only [insertChecked, bind_eq_ok]
  constructor
  · rintro ⟨e | results, hr, h⟩
    · cases h
    · obtain ⟨⟨g', n⟩, hi, h⟩ := bind_eq_ok.1 h
      cases h
      exact ⟨results, hr, hi⟩
  · rintro ⟨results, hr, hi⟩
    exact ⟨.ok results, hr, by simp [hi]⟩

/-- A node that is refused leaves no trace. -/
theorem insertChecked_refused
    (h : g.insertChecked kind location sources check = .ok (g', .error e)) : g' = g := by
  simp only [insertChecked, bind_eq_ok] at h
  obtain ⟨e | results, -, h⟩ := h
  · cases h
    rfl
  · obtain ⟨r, -, h⟩ := bind_eq_ok.1 h
    cases h

theorem insertChecked_answers (hg : g.Coherent) (hr : ∃ r, check.run = .ok r)
    (hs : ∀ o ∈ sources, ∃ port, g.output? o = some port) :
    ∃ r, g.insertChecked kind location sources check = .ok r := by
  obtain ⟨e | results, hr⟩ := hr
  · exact ⟨(g, .error e), by simp [insertChecked, hr]⟩
  · obtain ⟨g', hi, -⟩ := insert_spec hg kind location results hs
    exact ⟨(g', .ok g.nextNode), by simp [insertChecked, hr, hi]⟩

end Checked

theorem addOutput_eq_ok {name : String} {type : DataType} {source : OutputId} :
    g.addOutput name type source location = .ok (g', .ok n) ↔
      ∃ port, g.output? source = some port ∧ suits type port.type = true ∧
        g.insert (.output name type) location [source] [] = .ok (g', n) := by
  simp only [addOutput, insertChecked_eq_ok, Outcome.bind_eq_ok, Outcome.lift_eq_ok, output_eq_ok]
  constructor
  · rintro ⟨results, ⟨port, hp, h⟩, hi⟩
    cases hsuits : suits type port.type with
    | false => simp [hsuits] at h
    | true =>
      simp only [hsuits] at h
      cases h
      exact ⟨port, hp, hsuits, hi⟩
  · rintro ⟨port, hp, hsuits, hi⟩
    exact ⟨[], ⟨port, hp, by simp [hsuits]⟩, hi⟩

theorem addOutput_answers (hg : g.Coherent) {name : String} {type : DataType} {source : OutputId}
    {port : OutputPort} (hp : g.output? source = some port) :
    ∃ r, g.addOutput name type source location = .ok r := by
  refine insertChecked_answers hg ?_ (by simp [hp])
  simp only [output_eq_ok.2 hp, Outcome.lift_ok_bind]
  split
  · exact ⟨_, rfl⟩
  · exact ⟨_, rfl⟩

theorem addArray_eq_ok {element : Primitive} {elements : List OutputId} :
    g.addArray element elements location = .ok (g', .ok n) ↔
      ∃ result, (g.arrayResult element elements).run = .ok (.ok result) ∧
        g.insert (.array element) location elements [result] = .ok (g', n) := by
  simp only [addArray, insertChecked_eq_ok, Outcome.bind_eq_ok]
  constructor
  · rintro ⟨results, ⟨result, hr, h⟩, hi⟩
    cases h
    exact ⟨result, hr, hi⟩
  · rintro ⟨result, hr, hi⟩
    exact ⟨[result], ⟨result, hr, rfl⟩, hi⟩

theorem checkFields_answers {fields : List (String × OutputId)} (seen : List String)
    (hl : ∀ f ∈ fields, ∃ port, g.output? f.2 = some port) :
    ∃ r, (g.checkFields seen fields).run = .ok r := by
  induction fields generalizing seen with
  | nil => exact ⟨_, rfl⟩
  | cons f fields ih =>
    obtain ⟨name, o⟩ := f
    obtain ⟨⟨port, hp⟩, hl⟩ := List.forall_mem_cons.1 hl
    simp only [checkFields, output_eq_ok.2 hp, Outcome.lift_ok_bind]
    split
    · exact ⟨_, rfl⟩
    · split
      · exact ⟨_, rfl⟩
      · exact ih _ hl

theorem addStruct_eq_ok {fields : List (String × OutputId)} :
    g.addStruct fields location = .ok (g', .ok n) ↔
      (g.checkFields [] fields).run = .ok (.ok ()) ∧
        g.insert (.struct (fields.map Prod.fst)) location (fields.map Prod.snd) [(.struct, 0)]
          = .ok (g', n) := by
  simp only [addStruct, insertChecked_eq_ok, Outcome.bind_eq_ok]
  constructor
  · rintro ⟨results, ⟨u, hr, h⟩, hi⟩
    cases h
    exact ⟨hr, hi⟩
  · rintro ⟨hr, hi⟩
    exact ⟨_, ⟨(), hr, rfl⟩, hi⟩

theorem addStruct_answers (hg : g.Coherent) {fields : List (String × OutputId)}
    (hl : ∀ f ∈ fields, ∃ port, g.output? f.2 = some port) :
    ∃ r, g.addStruct fields location = .ok r :=
  insertChecked_answers hg
    (Outcome.bind_answers (checkFields_answers [] hl) fun _ _ => ⟨_, rfl⟩)
    (List.forall_mem_map.2 hl)

end Insert

end Graph

end SignalGraph
