import SignalGraph.Proofs.Runs

/-!
# Histories of a graph

A graph is changed by one operation after the other (`Operation`). Some of them can be refused, and
then the graph stays as it was. Whatever the history, the two ends of every link agree and every
port is listed once, by the node it belongs to (`Linked`); a number that was given out and is dead
stays dead (`Retires`); and operations on live parts do not fault (`Proper`).

All of it comes from the few ways in which an operation can change a graph (`Change`).
-/

namespace SignalGraph

namespace Graph

/-! ## What holds between operations -/

/-- Numbers, ports and links are in step. -/
structure Linked (g : Graph) : Prop where
  node_id {k : Nat} {node : Node} : g.nodes.get? k = some node → node.id = ⟨k⟩
  input_id {k : Nat} {port : InputPort} : g.inputs.get? k = some port → port.id = ⟨k⟩
  output_id {k : Nat} {port : OutputPort} : g.outputs.get? k = some port → port.id = ⟨k⟩
  next_node : g.counters.next .node = ⟨g.nodes.size⟩
  next_input : g.counters.next .input = ⟨g.inputs.size⟩
  next_output : g.counters.next .output = ⟨g.outputs.size⟩
  /-- A live input is listed once by the node it belongs to. -/
  input_listed {i : InputId} {port : InputPort} : g.input? i = some port →
    ∃ node, g.node? port.node = some node ∧ node.inputs.count i = 1
  /-- No other node lists it, and only live inputs are listed. -/
  listed_input {n : NodeId} {node : Node} {i : InputId} : g.node? n = some node →
    i ∈ node.inputs → ∃ port, g.input? i = some port ∧ port.node = n
  output_listed {o : OutputId} {port : OutputPort} : g.output? o = some port →
    ∃ node, g.node? port.node = some node ∧ node.outputs.count o = 1
  listed_output {n : NodeId} {node : Node} {o : OutputId} : g.node? n = some node →
    o ∈ node.outputs → ∃ port, g.output? o = some port ∧ port.node = n
  linked {i : InputId} {port : InputPort} {o : OutputId} {out : OutputPort} :
    g.input? i = some port → g.output? o = some out → (port.source = some o ↔ i ∈ out.consumers)
  source_live {i : InputId} {port : InputPort} {o : OutputId} : g.input? i = some port →
    port.source = some o → ∃ out, g.output? o = some out
  consumer_live {o : OutputId} {out : OutputPort} {i : InputId} : g.output? o = some out →
    i ∈ out.consumers → ∃ port, g.input? i = some port
  consumers_nodup {o : OutputId} {out : OutputPort} : g.output? o = some out → out.consumers.Nodup

theorem Coherent.linked {g : Graph} (hg : g.Coherent) : g.Linked where
  node_id h := hg.node_id h
  input_id h := hg.input_id h
  output_id h := hg.output_id h
  next_node := hg.next_node
  next_input := hg.next_input
  next_output := hg.next_output
  input_listed {i port} h := by
    have ho : g.owner? i = some port.node := owner?_eq_some.2 ⟨port, h, rfl⟩
    obtain ⟨node, hn⟩ := hg.owner_live ho
    exact ⟨node, hn, List.count_eq_one_of_mem (hg.inputs_nodup hn) ((hg.mem_inputs hn).2 ho)⟩
  listed_input hn hi := owner?_eq_some.1 ((hg.mem_inputs hn).1 hi)
  output_listed {o port} h := by
    obtain ⟨node, hn, ho⟩ := hg.node_of_output? h
    exact ⟨node, hn, List.count_eq_one_of_mem (hg.outputs_nodup hn) ho⟩
  listed_output hn ho := maker?_eq_some.1 ((hg.mem_outputs hn).1 ho)
  linked {i port o out} hi ho := by
    rw [hg.mem_consumers ho, source?, hi]
    rfl
  source_live {i port o} hi hs := hg.source_live (source?_eq_some.2 ⟨port, hi, hs⟩)
  consumer_live {o out i} ho hi := by
    obtain ⟨port, hp, -⟩ := source?_eq_some.1 ((hg.mem_consumers ho).1 hi)
    exact ⟨port, hp⟩
  consumers_nodup ho := (hg.ascends ho).nodup

/-- Numbers of `g` are spent in `g'`: those that are dead stay so, and new parts get later ones. -/
structure Retires (g g' : Graph) : Prop where
  nodes_le : g.nodes.size ≤ g'.nodes.size
  inputs_le : g.inputs.size ≤ g'.inputs.size
  outputs_le : g.outputs.size ≤ g'.outputs.size
  node? {n : NodeId} : n.index < g.nodes.size → g.node? n = none → g'.node? n = none
  input? {i : InputId} : i.index < g.inputs.size → g.input? i = none → g'.input? i = none
  output? {o : OutputId} : o.index < g.outputs.size → g.output? o = none → g'.output? o = none

namespace Retires

variable {g g' g'' : Graph}

theorem refl (g : Graph) : Retires g g :=
  ⟨le_rfl, le_rfl, le_rfl, fun _ => id, fun _ => id, fun _ => id⟩

theorem trans (h : Retires g g') (h' : Retires g' g'') : Retires g g'' where
  nodes_le := h.nodes_le.trans h'.nodes_le
  inputs_le := h.inputs_le.trans h'.inputs_le
  outputs_le := h.outputs_le.trans h'.outputs_le
  node? hlt hn := h'.node? (hlt.trans_le h.nodes_le) (h.node? hlt hn)
  input? hlt hi := h'.input? (hlt.trans_le h.inputs_le) (h.input? hlt hi)
  output? hlt ho := h'.output? (hlt.trans_le h.outputs_le) (h.output? hlt ho)

end Retires

theorem output?_eq_none {g : Graph} {o : OutputId} : g.output? o = none ↔ g.bare? o = none := by
  simp [bare?]

theorem Inserted.retires {g g' : Graph} {kind : Kind} {location : Option Location}
    {sources : List OutputId} {results : List (DataType × Nat)}
    (h : Inserted g kind location sources results g') : Retires g g' where
  nodes_le := h.nodes_size ▸ Nat.le_succ _
  inputs_le := h.inputs_size ▸ Nat.le_add_right _ _
  outputs_le := h.outputs_size ▸ Nat.le_add_right _ _
  node? {n} hlt hn := by
    have hne : n ≠ g.nextNode := by
      rintro rfl
      exact absurd hlt (lt_irrefl _)
    rw [h.node?, if_neg hne, hn]
  input? hlt hi := by rw [h.input?, if_pos hlt, hi]
  output? hlt ho := by
    rw [output?_eq_none] at ho ⊢
    rw [h.bare?, if_pos hlt, ho]

theorem Rewired.retires {g g' : Graph} (hg : g.Coherent) (h : Rewired g g') : Retires g g' where
  nodes_le := h.nodes ▸ le_rfl
  inputs_le := h.inputs_size.ge
  outputs_le := h.outputs_size.ge
  node? _ hn := by rw [h.node?, hn]
  input? {i} _ hi := by
    -- Both graphs have the same nodes, and a live input is listed by one.
    cases hi' : g'.input? i with
    | none => rfl
    | some port =>
      have ho : g'.owner? i = some port.node := owner?_eq_some.2 ⟨port, hi', rfl⟩
      obtain ⟨node, hn⟩ := h.coherent.owner_live ho
      have hmem : i ∈ node.inputs := (h.coherent.mem_inputs hn).2 ho
      obtain ⟨port₀, hp, -⟩ := owner?_eq_some.1 ((hg.mem_inputs (h.node? _ ▸ hn)).1 hmem)
      rw [hi] at hp
      cases hp
  output? _ ho := by
    rw [output?_eq_none] at ho ⊢
    rw [h.bare?, ho]

theorem Pruned.retires {g g' : Graph} (h : Pruned g g') : Retires g g' where
  nodes_le := h.nodes_size.ge
  inputs_le := h.inputs_size.ge
  outputs_le := h.outputs_size.ge
  node? _ hn := Option.eq_none_iff_forall_ne_some.2 fun node hn' => by
    rw [h.node? hn'] at hn
    cases hn
  input? _ hi := Option.eq_none_iff_forall_ne_some.2 fun port hi' => by
    rw [h.input? hi'] at hi
    cases hi
  output? _ ho := by
    rw [output?_eq_none] at ho ⊢
    refine Option.eq_none_iff_forall_ne_some.2 fun port ho' => ?_
    rw [h.bare? ho'] at ho
    cases ho

/-! ## Changes -/

/-- The ways in which an operation changes a graph, if it does. -/
inductive Change (g : Graph) : Graph → Prop where
  | keep : Change g g
  | insert {g' : Graph} {kind : Kind} {location : Option Location} {sources : List OutputId}
    {results : List (DataType × Nat)} {n : NodeId} :
    g.insert kind location sources results = .ok (g', n) → Change g g'
  | connect {g' : Graph} {i : InputId} {next : Option OutputId} :
    g.connect i next = .ok g' → Change g g'
  | redirect {g' : Graph} {old new : OutputId} {count : Nat} :
    g.redirect old new = .ok (g', count) → Change g g'
  | remove {g' : Graph} {n : NodeId} : g.remove n = .ok g' → Change g g'
  | collect {g' : Graph} {seeds : List NodeId} {count : Nat} :
    g.collectFrom seeds = .ok (g', count) → Change g g'
  | surface (s : Surface) : Change g { g with surface := s }

namespace Change

variable {g g' : Graph}

theorem made (h : Change g g') (hg : g.Made) : g'.Made := by
  cases h with
  | keep => exact hg
  | insert h => exact hg.insert h
  | connect h => exact hg.connect h
  | redirect h => exact hg.redirect h
  | remove h => exact hg.remove h
  | collect h => exact hg.collect h
  | surface s => exact hg.surface s

theorem retires (hg : g.Coherent) (h : Change g g') : Retires g g' := by
  cases h with
  | keep => exact .refl g
  | insert h => exact (inserted_of_insert hg h).2.retires
  | connect h => exact (rewired_of_connect hg h).retires hg
  | redirect h => exact (rewired_of_redirect hg h).retires hg
  | remove h => exact (without_of_remove hg h).2.pruned.retires
  | collect h => exact (pruned_of_collectFrom hg h).retires
  | surface s => exact ⟨le_rfl, le_rfl, le_rfl, fun _ => id, fun _ => id, fun _ => id⟩

end Change

end Graph

/-! ## Operations -/

/-- What can be asked of a graph. -/
inductive Operation where
  | addInput (name : String) (type : DataType) (location : Option Location)
  | addOutput (name : String) (type : DataType) (source : OutputId) (location : Option Location)
  | addConstant (value : Literal) (location : Option Location)
  | addArray (element : Primitive) (elements : List OutputId) (location : Option Location)
  | addStruct (fields : List (String × OutputId)) (location : Option Location)
  | call (env : Environment) (module : ModuleId) (factor : Nat) (arguments : List OutputId)
    (location : Option Location)
  | connect (i : InputId) (next : Option OutputId)
  | redirect (old new : OutputId)
  | remove (n : NodeId)
  | collect
  | collectFrom (seeds : List NodeId)
  /-- Says what of the graph is seen from outside. -/
  | expose (surface : Surface)

namespace Operation

/-- The graph after an operation, also if it is refused. -/
def perform (g : Graph) : Operation → Except Fault Graph
  | .addInput name type location => .ok (g.addInput name type location).1
  | .addOutput name type source location =>
    (g.addOutput name type source location).map Prod.fst
  | .addConstant value location => .ok (g.addConstant value location).1
  | .addArray element elements location => (g.addArray element elements location).map Prod.fst
  | .addStruct fields location => (g.addStruct fields location).map Prod.fst
  | .call env module factor arguments location =>
    (Call.build env g module factor arguments location).map Prod.fst
  | .connect i next => g.connect i next
  | .redirect old new => (g.redirect old new).map Prod.fst
  | .remove n => g.remove n
  | .collect => g.collect.map Prod.fst
  | .collectFrom seeds => (g.collectFrom seeds).map Prod.fst
  | .expose surface => .ok { g with surface }

/-- The graph after a history. -/
def performAll (g : Graph) (history : List Operation) : Except Fault Graph :=
  history.foldlM perform g

/-- Operations on live parts, and on nodes that may go. Additions for which rates and types have to
be worked out are not among them. -/
def Proper (g : Graph) : Operation → Prop
  | .addInput .. | .addConstant .. | .collect | .collectFrom _ | .expose _ => True
  | .addOutput _ _ source _ => (g.output? source).isSome
  | .addStruct fields _ => ∀ f ∈ fields, (g.output? f.2).isSome
  | .connect i next => (g.input? i).isSome ∧ ∀ o ∈ next, (g.output? o).isSome
  | .redirect old new => (g.output? old).isSome ∧ (g.output? new).isSome
  | .remove n => (g.node? n).isSome ∧ g.Unused n
  | .addArray .. | .call .. => False

variable {g g' : Graph}

open SignalGraph.Graph

theorem change_of_insertChecked {kind : Kind} {location : Option Location}
    {sources : List OutputId} {check : Outcome BuildError (List (DataType × Nat))}
    {r : Except BuildError NodeId}
    (h : g.insertChecked kind location sources check = .ok (g', r)) : Change g g' := by
  cases r with
  | error e =>
    obtain rfl := insertChecked_refused h
    exact .keep
  | ok n =>
    obtain ⟨results, -, hi⟩ := insertChecked_eq_ok.1 h
    exact .insert hi

theorem change_of_build {env : Environment} {module : ModuleId} {factor : Nat}
    {arguments : List OutputId} {location : Option Location} {made : Call.Made NodeId}
    (h : Call.build env g module factor arguments location = .ok (g', made)) : Change g g' := by
  cases hr : made.result with
  | error e =>
    obtain rfl := Call.build_refused h hr
    exact .keep
  | ok n =>
    obtain ⟨c, -, hins⟩ := Call.ready_of_build h hr
    simp only [Call.Ready.insert, bind_eq_ok] at hins
    obtain ⟨latency, -, outputs, -, hi⟩ := hins
    exact .insert hi

/-- What an operation can do. -/
theorem perform_change {op : Operation} (h : perform g op = .ok g') : Change g g' := by
  cases op with
  | addInput name type location =>
    cases h
    exact .insert (addInput_eq_insert g name type location)
  | addOutput name type source location =>
    obtain ⟨⟨g₁, r⟩, hr, rfl⟩ := map_eq_ok.1 h
    exact change_of_insertChecked hr
  | addConstant value location =>
    cases h
    exact .insert (addConstant_eq_insert g value location)
  | addArray element elements location =>
    obtain ⟨⟨g₁, r⟩, hr, rfl⟩ := map_eq_ok.1 h
    exact change_of_insertChecked hr
  | addStruct fields location =>
    obtain ⟨⟨g₁, r⟩, hr, rfl⟩ := map_eq_ok.1 h
    exact change_of_insertChecked hr
  | call env module factor arguments location =>
    obtain ⟨⟨g₁, made⟩, hm, rfl⟩ := map_eq_ok.1 h
    exact change_of_build hm
  | connect i next => exact .connect h
  | redirect old new =>
    obtain ⟨⟨g₁, count⟩, hr, rfl⟩ := map_eq_ok.1 h
    exact .redirect hr
  | remove n => exact .remove h
  | collect =>
    obtain ⟨⟨g₁, count⟩, hc, rfl⟩ := map_eq_ok.1 h
    exact .collect hc
  | collectFrom seeds =>
    obtain ⟨⟨g₁, count⟩, hc, rfl⟩ := map_eq_ok.1 h
    exact .collect hc
  | expose s =>
    cases h
    exact .surface s

/-- What a whole history keeps. -/
theorem performAll_made {history : List Operation} (h : performAll g history = .ok g')
    (hg : g.Made) : g'.Made ∧ Retires g g' := by
  induction history generalizing g with
  | nil =>
    cases h
    exact ⟨hg, .refl _⟩
  | cons op rest ih =>
    rw [performAll, List.foldlM_cons] at h
    obtain ⟨g₁, hp, h⟩ := bind_eq_ok.1 h
    have hc := perform_change hp
    obtain ⟨hg', hr⟩ := ih h (hc.made hg)
    exact ⟨hg', (hc.retires hg.coherent).trans hr⟩

/-! ## Operations that do not fault -/

theorem perform_proper (hg : g.Coherent) {op : Operation} (h : op.Proper g) :
    ∃ g', perform g op = .ok g' := by
  cases op with
  | addInput name type location => exact ⟨_, rfl⟩
  | addConstant value location => exact ⟨_, rfl⟩
  | addOutput name type source location =>
    obtain ⟨port, hp⟩ := Option.isSome_iff_exists.1 h
    obtain ⟨r, hr⟩ := addOutput_answers hg hp
    exact ⟨r.1, map_eq_ok.2 ⟨r, hr, rfl⟩⟩
  | addStruct fields location =>
    obtain ⟨r, hr⟩ := addStruct_answers hg fun f hf => Option.isSome_iff_exists.1 (h f hf)
    exact ⟨r.1, map_eq_ok.2 ⟨r, hr, rfl⟩⟩
  | connect i next =>
    obtain ⟨port, hi⟩ := Option.isSome_iff_exists.1 h.1
    obtain ⟨g', hc, -⟩ := connect_spec hg hi next fun o ho =>
      Option.isSome_iff_exists.1 (h.2 o ho)
    exact ⟨g', hc⟩
  | redirect old new =>
    obtain ⟨out, ho⟩ := Option.isSome_iff_exists.1 h.1
    obtain ⟨out', hn⟩ := Option.isSome_iff_exists.1 h.2
    by_cases hne : old = new
    · exact ⟨g, by simp [perform, Graph.redirect, hne, Except.map]⟩
    · obtain ⟨g', hr, -⟩ := redirect_spec hg hne ho hn
      exact ⟨g', map_eq_ok.2 ⟨_, hr, rfl⟩⟩
  | remove n =>
    obtain ⟨node, hn⟩ := Option.isSome_iff_exists.1 h.1
    obtain ⟨g', hr, -⟩ := remove_spec hg hn h.2
    exact ⟨g', hr⟩
  | collect =>
    obtain ⟨g', count, hc, -⟩ := collect_spec hg
    exact ⟨g', map_eq_ok.2 ⟨_, hc, rfl⟩⟩
  | collectFrom seeds =>
    obtain ⟨g', count, hc, -⟩ := collectFrom_spec hg seeds
    exact ⟨g', map_eq_ok.2 ⟨_, hc, rfl⟩⟩
  | expose s => exact ⟨_, rfl⟩
  | addArray element elements location => cases h
  | call env module factor arguments location => cases h

/-- After every history from the empty graph, numbers, ports and links are in step, and operations
on live parts do not fault. Numbers that have been given out and are dead stay dead, whatever
happens next. -/
theorem history_linked {before after : List Operation} (h : performAll {} before = .ok g)
    (h' : performAll g after = .ok g') :
    g.Linked ∧ Retires g g' ∧ ∀ op, op.Proper g → ∃ g₁, perform g op = .ok g₁ := by
  obtain ⟨hg, -⟩ := performAll_made h .empty
  obtain ⟨-, hr⟩ := performAll_made h' hg
  exact ⟨hg.coherent.linked, hr, fun op hop => perform_proper hg.coherent hop⟩

/-- Two calls in a row, an array that is refused, and the first call removed after the second was
cut off. -/
def sampleBefore : List Operation :=
  [.addInput "x" (.constant .float) none,
   .call Negation.env Negation.signature.id 1 [⟨0⟩] none,
   .addArray .int [⟨0⟩] none,
   .call Negation.env Negation.signature.id 1 [⟨1⟩] none,
   .connect ⟨1⟩ none,
   .remove ⟨1⟩]

/-- The second call is fed again, but nothing uses it. -/
def sampleAfter : List Operation :=
  [.connect ⟨1⟩ (some ⟨0⟩), .redirect ⟨0⟩ ⟨2⟩, .connect ⟨1⟩ none, .collect,
   .addConstant (.int 1) none]

theorem history_linked_sample : ∃ g g', performAll {} sampleBefore = .ok g ∧
    performAll g sampleAfter = .ok g' ∧ g.nodeIds = [⟨0⟩, ⟨2⟩] ∧ g'.nodeIds = [⟨0⟩, ⟨3⟩] ∧
    g.Linked ∧ Retires g g' ∧ ∀ op, op.Proper g → ∃ g₁, perform g op = .ok g₁ := by
  have hrun : (do
      let g ← performAll {} sampleBefore
      let g' ← performAll g sampleAfter
      return (g.nodeIds, g'.nodeIds)) = .ok ([⟨0⟩, ⟨2⟩], [⟨0⟩, ⟨3⟩]) := by cbv
  obtain ⟨g, h, hrun⟩ := bind_eq_ok.1 hrun
  obtain ⟨g', h', hrun⟩ := bind_eq_ok.1 hrun
  obtain ⟨hn, hn'⟩ := Prod.mk.inj (Except.ok.inj hrun)
  exact ⟨g, g', h, h', hn, hn', history_linked h h'⟩

end Operation

end SignalGraph
