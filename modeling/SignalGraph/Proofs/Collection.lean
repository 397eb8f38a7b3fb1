import SignalGraph.Proofs.Asking

/-!
# Collecting garbage

Collecting takes nodes away and changes nothing else (`Pruned`). It never faults, it keeps the
nodes that have to stay, and it leaves no garbage if all garbage was on its worklist at the
beginning (`collectWithin_spec`): what becomes garbage on the way is a source of a node that went,
and those are added.

With this, all operations on graphs have been followed: whatever they make is coherent
(`Made.coherent`).
-/

namespace SignalGraph

namespace Kind

/-- The kinds of nodes that stay even if nothing uses them: channels, and calls that do more than
their outputs show. -/
inductive Kept : Kind → Prop where
  | input {name : String} {type : DataType} : Kept (.input name type)
  | output {name : String} {type : DataType} : Kept (.output name type)
  | call {signature : Signature} {factor latency : Nat} :
    signature.sideEffects = true → Kept (.call signature factor latency)

theorem isKept_iff {kind : Kind} : kind.isKept = true ↔ kind.Kept := by
  constructor
  · intro h
    cases kind with
    | input => exact .input
    | output => exact .output
    | call => exact .call h
    | constant | array | struct => cases h
  · intro h
    cases h with
    | input => rfl
    | output => rfl
    | call h => exact h

instance : DecidablePred Kept :=
  fun _ => decidable_of_iff _ isKept_iff

end Kind

namespace Graph

open Relation

variable {g g' g'' : Graph}

/-- `g'` is `g` with some nodes and their ports taken away. -/
structure Pruned (g g' : Graph) : Prop where
  coherent : g'.Coherent
  nodes_size : g'.nodes.size = g.nodes.size
  inputs_size : g'.inputs.size = g.inputs.size
  outputs_size : g'.outputs.size = g.outputs.size
  node? {n : NodeId} {node : Node} : g'.node? n = some node → g.node? n = some node
  input? {i : InputId} {port : InputPort} : g'.input? i = some port → g.input? i = some port
  bare? {o : OutputId} {port : OutputPort} : g'.bare? o = some port → g.bare? o = some port
  surface : g'.surface = g.surface

namespace Pruned

theorem refl (hg : g.Coherent) : Pruned g g :=
  ⟨hg, rfl, rfl, rfl, id, id, id, rfl⟩

theorem trans (h : Pruned g g') (h' : Pruned g' g'') : Pruned g g'' where
  coherent := h'.coherent
  nodes_size := h'.nodes_size.trans h.nodes_size
  inputs_size := h'.inputs_size.trans h.inputs_size
  outputs_size := h'.outputs_size.trans h.outputs_size
  node? hn := h.node? (h'.node? hn)
  input? hi := h.input? (h'.input? hi)
  bare? ho := h.bare? (h'.bare? ho)
  surface := h'.surface.trans h.surface

theorem source? (h : Pruned g g') {i : InputId} {o : OutputId} (hs : g'.source? i = some o) :
    g.source? i = some o := by
  obtain ⟨port, hp, ho⟩ := source?_eq_some.1 hs
  exact source?_eq_some.2 ⟨port, h.input? hp, ho⟩

theorem owner? (h : Pruned g g') {i : InputId} {n : NodeId} (ho : g'.owner? i = some n) :
    g.owner? i = some n := by
  obtain ⟨port, hp, hn⟩ := owner?_eq_some.1 ho
  exact owner?_eq_some.2 ⟨port, h.input? hp, hn⟩

theorem maker? (h : Pruned g g') {o : OutputId} {n : NodeId} (hm : g'.maker? o = some n) :
    g.maker? o = some n := by
  rw [maker?_eq_bare?, Option.map_eq_some_iff] at hm ⊢
  obtain ⟨port, hp, hn⟩ := hm
  exact ⟨port, h.bare? hp, hn⟩

/-- An input of a node that is still there is as it was. -/
theorem input?_of_owner? (hg : g.Coherent) (h : Pruned g g') {i : InputId} {n : NodeId}
    {node : Node} (hn : g'.node? n = some node) (ho : g.owner? i = some n) :
    g'.input? i = g.input? i := by
  have hmem : i ∈ node.inputs := (hg.mem_inputs (h.node? hn)).2 ho
  obtain ⟨port, hp, -⟩ := owner?_eq_some.1 ((h.coherent.mem_inputs hn).1 hmem)
  rw [hp, h.input? hp]

theorem feeds (hg : g.Coherent) (h : Pruned g g') {m n : NodeId} (hf : g'.Feeds m n) :
    g.Feeds m n := by
  obtain ⟨i, hi, hf⟩ := h.coherent.feeds_iff.1 hf
  obtain ⟨o, hs, ho⟩ := feeder?_eq_some.1 hf
  exact hg.feeds_of_source (h.owner? hi) (h.source? hs) (h.maker? ho)

theorem acyclic (hg : g.Coherent) (h : Pruned g g') (ha : g.Acyclic) : g'.Acyclic :=
  Subrelation.wf (h.feeds hg) ha

end Pruned

theorem Without.pruned {n : NodeId} (h : Without g n g') : Pruned g g' where
  coherent := h.coherent
  nodes_size := h.nodes_size
  inputs_size := h.inputs_size
  outputs_size := h.outputs_size
  node? {m node} hm := by
    have he := h.node? m
    split at he
    · rw [he] at hm
      cases hm
    · exact he ▸ hm
  input? {i port} hi := by
    have he := h.input? i
    split at he
    · rw [he] at hi
      cases hi
    · exact he ▸ hi
  bare? {o port} ho := by
    have he := h.bare? o
    split at he
    · rw [he] at ho
      cases ho
    · exact he ▸ ho
  surface := h.surface

/-! ## Garbage -/

theorem Coherent.isUnused_iff (hg : g.Coherent) {n : NodeId} {node : Node}
    (hn : g.node? n = some node) : node.outputs.all g.isUnused = true ↔ g.Unused n := by
  rw [hg.unused_iff hn, List.all_eq_true]
  refine forall₂_congr fun o ho => ?_
  obtain ⟨port, hp, -⟩ := maker?_eq_some.1 ((hg.mem_outputs hn).1 ho)
  simp [isUnused, hp]

/-- A node that would be missed neither by the surface nor by another node. -/
theorem Coherent.isGarbage_iff (hg : g.Coherent) {n : NodeId} :
    g.isGarbage n = true ↔ ∃ node, g.node? n = some node ∧ n ∉ g.surface.pinned ∧
      ¬ node.kind.Kept ∧ g.Unused n := by
  unfold isGarbage
  split
  · rename_i node hn
    simp [hn, hg.isUnused_iff hn, ← Kind.isKept_iff, and_assoc]
  · rename_i hn
    simp [hn]

/-- A node that stays whether or not something uses it. -/
def Stays (g : Graph) (n : NodeId) (node : Node) : Prop :=
  g.node? n = some node ∧ (n ∈ g.surface.pinned ∨ node.kind.Kept)

/-- What is garbage after a node went was garbage before, or fed it. -/
theorem Without.isGarbage (hg : g.Coherent) {n m : NodeId} (h : Without g n g')
    (hm : g'.isGarbage m = true) : m ≠ n ∧ (g.isGarbage m = true ∨ m ∈ g.sources n) := by
  obtain ⟨node, hl, hpin, hkept, hu⟩ := h.coherent.isGarbage_iff.1 hm
  have hl' := h.node? m
  split at hl'
  · rw [hl'] at hl
    cases hl
  · rename_i hne
    refine ⟨hne, ?_⟩
    by_cases hug : g.Unused m
    · exact .inl (hg.isGarbage_iff.2 ⟨node, hl' ▸ hl, h.surface ▸ hpin, hkept, hug⟩)
    · right
      obtain ⟨i, o, hs, ho⟩ : ∃ i o, g.source? i = some o ∧ g.maker? o = some m := by
        simpa [Unused] using hug
      -- The input that used `m` went with `n`.
      have hi : g.owner? i = some n := by
        by_contra hi
        have hin := h.input? i
        rw [if_neg hi] at hin
        have hbare := h.bare? o
        rw [if_neg fun he => hne (Option.some.inj (ho.symm.trans he))] at hbare
        exact hu i o (source?_congr hin ▸ hs) (maker?_congr hbare ▸ ho)
      exact hg.feeds_of_source hi hs ho

/-! ## How many nodes there are -/

theorem Coherent.ascends_nodeIds (hg : g.Coherent) : Ascends g.nodeIds := by
  have hid {k : Nat} {node : Node} (h : g.nodes.slots[k]? = some (some node)) :
      node.id.index = k := by
    have hn : g.node? ⟨k⟩ = some node := by simp [node?, Arena.get?, h]
    rw [hg.node_id hn]
  rw [Ascends, nodeIds, liveNodes, List.pairwise_map, Arena.toList, List.pairwise_filterMap,
    List.pairwise_iff_getElem]
  intro j k hj hk hlt a ha b hb
  have hja : g.nodes.slots[j]? = some (some a) := by
    rw [← Array.getElem?_toList, List.getElem?_eq_getElem hj]
    exact congrArg some ha
  have hkb : g.nodes.slots[k]? = some (some b) := by
    rw [← Array.getElem?_toList, List.getElem?_eq_getElem hk]
    exact congrArg some hb
  rw [hid hja, hid hkb]
  exact hlt

theorem Without.length_nodeIds (hg : g.Coherent) {n : NodeId} {node : Node} (h : Without g n g')
    (hn : g.node? n = some node) : g'.nodeIds.length + 1 = g.nodeIds.length := by
  have he : g'.nodeIds = g.nodeIds.erase n := by
    rw [hg.ascends_nodeIds.nodup.erase_eq_filter]
    refine h.coherent.ascends_nodeIds.ext (hg.ascends_nodeIds.filter _) fun m => ?_
    rw [List.mem_filter, h.coherent.mem_nodeIds, hg.mem_nodeIds, h.node?]
    by_cases hm : m = n <;> simp [hm]
  have hmem : n ∈ g.nodeIds := hg.mem_nodeIds.2 ⟨node, hn⟩
  rw [he, List.length_erase_of_mem hmem]
  exact Nat.sub_add_cancel (List.length_pos_of_mem hmem)

/-! ## Collecting -/

/-- What collecting from a worklist does. With a budget for all nodes and all garbage on the
worklist, it leaves no garbage. -/
theorem collectWithin_spec (budget : Nat) (worklist : List NodeId) (hg : g.Coherent)
    (removed : Nat) :
    ∃ g' count, collectWithin budget worklist g removed = .ok (g', count) ∧ Pruned g g' ∧
      (∀ n node, g.Stays n node → g'.node? n = some node) ∧
      (g.nodeIds.length ≤ budget → (∀ n, g.isGarbage n = true → n ∈ worklist) →
        ∀ n, g'.isGarbage n = false) := by
  fun_induction collectWithin budget worklist g removed with
  | case1 budget g removed =>
    refine ⟨g, removed, rfl, .refl hg, fun n node h => h.1, fun _ h n => ?_⟩
    exact Bool.eq_false_iff.2 fun hn => nomatch h n hn
  | case2 budget g removed n rest fault hn => cases hn.symm.trans (hg.askGarbage_eq n)
  | case3 budget g removed n rest hn ih =>
    have hn := hg.isGarbage_of_ask hn
    obtain ⟨g₂, count, hc, hp, hstay, hnone⟩ := ih hg
    refine ⟨g₂, count, hc, hp, hstay, fun hb hw => hnone hb fun m hm => ?_⟩
    refine (List.mem_cons.1 (hw m hm)).resolve_left ?_
    rintro rfl
    cases hm.symm.trans hn
  | case4 g removed n rest hn =>
    refine ⟨g, removed, rfl, .refl hg, fun n node h => h.1, fun h _ => ?_⟩
    obtain ⟨node, hl, -⟩ := hg.isGarbage_iff.1 (hg.isGarbage_of_ask hn)
    have := List.length_pos_of_mem (hg.mem_nodeIds.2 ⟨node, hl⟩)
    omega
  | case5 g removed n rest hn budget fault hr =>
    obtain ⟨node, hl, -, -, hu⟩ := hg.isGarbage_iff.1 (hg.isGarbage_of_ask hn)
    obtain ⟨g₁, hr', -⟩ := remove_spec hg hl hu
    cases hr.symm.trans (hg.takeOut_eq_ok.2 ⟨hr', rfl⟩)
  | case6 g removed n rest hn budget g₁ sources hr ih =>
    obtain ⟨hremove, rfl⟩ := hg.takeOut_eq_ok.1 hr
    obtain ⟨-, hw⟩ := without_of_remove hg hremove
    obtain ⟨node, hl, hpin, hkept, -⟩ := hg.isGarbage_iff.1 (hg.isGarbage_of_ask hn)
    obtain ⟨g₂, count, hc, hp, hstay, hnone⟩ := ih hw.coherent
    refine ⟨g₂, count, hc, hw.pruned.trans hp, fun m mode hm => hstay m mode ?_, fun hb hw' => ?_⟩
    · have hne : m ≠ n := by
        rintro rfl
        obtain rfl : mode = node := Option.some.inj (hm.1.symm.trans hl)
        rcases hm.2 with h | h
        · exact hpin h
        · exact hkept h
      exact ⟨by rw [hw.node?, if_neg hne, hm.1], by rw [hw.surface]; exact hm.2⟩
    · have hlen := hw.length_nodeIds hg hl
      refine hnone (by omega) fun m hm => ?_
      obtain ⟨hne, h⟩ := hw.isGarbage hg hm
      rw [Ascending.mem_union]
      exact h.imp_left fun h => (List.mem_cons.1 (hw' m h)).resolve_left hne

theorem collectFrom_spec (hg : g.Coherent) (seeds : List NodeId) :
    ∃ g' count, g.collectFrom seeds = .ok (g', count) ∧ Pruned g g' ∧
      (∀ n node, g.Stays n node → g'.node? n = some node) ∧
      ((∀ n, g.isGarbage n = true → n ∈ seeds) → ∀ n, g'.isGarbage n = false) := by
  obtain ⟨g', count, hc, hp, hstay, hnone⟩ :=
    collectWithin_spec g.nodes.size (Ascending.ofList seeds) hg 0
  refine ⟨g', count, hc, hp, hstay, fun h => hnone g.length_nodeIds_le fun n hn => ?_⟩
  rw [Ascending.mem_ofList]
  exact h n hn

theorem collect_spec (hg : g.Coherent) :
    ∃ g' count, g.collect = .ok (g', count) ∧ Pruned g g' ∧
      (∀ n node, g.Stays n node → g'.node? n = some node) ∧ ∀ n, g'.isGarbage n = false := by
  obtain ⟨g', count, hc, hp, hstay, hnone⟩ := collectFrom_spec hg g.nodeIds
  refine ⟨g', count, hc, hp, hstay, hnone fun n hn => ?_⟩
  obtain ⟨node, hl, -⟩ := hg.isGarbage_iff.1 hn
  exact hg.mem_nodeIds.2 ⟨node, hl⟩

/-- What goes is on the worklist, or something on it depends on what goes. -/
theorem collectWithin_upstream {budget removed count : Nat} {worklist : List NodeId} {m : NodeId}
    {node : Node} (hg : g.Coherent)
    (h : collectWithin budget worklist g removed = .ok (g', count)) (hm : g.node? m = some node)
    (hgone : g'.node? m = none) : ∃ w ∈ worklist, ReflTransGen g.Feeds m w := by
  have hkept {g : Graph} (h : g = g') (hm : g.node? m = some node) : False := by
    subst h
    cases hm.symm.trans hgone
  fun_induction collectWithin budget worklist g removed with
  | case1 budget g removed =>
    cases h
    exact (hkept rfl hm).elim
  | case2 budget g removed n rest fault hn => cases h
  | case3 budget g removed n rest hn ih =>
    obtain ⟨w, hmem, ht⟩ := ih hg h hm
    exact ⟨w, List.mem_cons_of_mem n hmem, ht⟩
  | case4 g removed n rest hn =>
    cases h
    exact (hkept rfl hm).elim
  | case5 g removed n rest hn budget fault hr => cases h
  | case6 g removed n rest hn budget g₁ sources hr ih =>
    obtain ⟨hremove, rfl⟩ := hg.takeOut_eq_ok.1 hr
    by_cases hne : m = n
    · exact ⟨n, List.mem_cons_self, hne ▸ .refl⟩
    · obtain ⟨-, hw⟩ := without_of_remove hg hremove
      have hm₁ : g₁.node? m = some node := by rw [hw.node?, if_neg hne, hm]
      obtain ⟨w, hmem, ht⟩ := ih hw.coherent h hm₁
      have hsub : g₁.Feeds ≤ g.Feeds := fun a b => hw.feeds hg
      have ht : ReflTransGen g.Feeds m w := ReflTransGen.mono hsub m w ht
      rcases Ascending.mem_union.1 hmem with hmem | hmem
      · exact ⟨w, List.mem_cons_of_mem n hmem, ht⟩
      · exact ⟨n, List.mem_cons_self, ht.tail hmem⟩

/-- Where there is no garbage, none is collected. -/
theorem collectWithin_of_clean (hg : g.Coherent) (budget : Nat) (worklist : List NodeId)
    (removed : Nat) (h : ∀ n, g.isGarbage n = false) :
    collectWithin budget worklist g removed = .ok (g, removed) := by
  induction worklist with
  | nil => rw [collectWithin.eq_def]
  | cons n rest ih =>
    rw [collectWithin.eq_def]
    simpa [hg.askGarbage_eq, h n] using ih

theorem collect_of_clean (hg : g.Coherent) (h : ∀ n, g.isGarbage n = false) :
    g.collect = .ok (g, 0) :=
  collectWithin_of_clean hg _ _ _ h

/-! ## Graphs that can be made -/

theorem rewired_of_connect (hg : g.Coherent) {i : InputId} {next : Option OutputId}
    (h : g.connect i next = .ok g') : Rewired g g' := by
  -- Connecting looks at the input, and at the output if there is one.
  have hlive : (∃ port, g.input? i = some port) ∧
      ∀ o, next = some o → ∃ out, g.output? o = some out := by
    have hunlink {g₁ : Graph} (hu : g.unlink i = .ok g₁) : ∃ port, g.input? i = some port := by
      obtain ⟨port, hp, -⟩ := bind_eq_ok.1 hu
      exact ⟨port, input_eq_ok.1 hp⟩
    cases next with
    | none => exact ⟨hunlink h, nofun⟩
    | some o =>
      obtain ⟨out, ho, h⟩ := bind_eq_ok.1 h
      obtain ⟨g₁, hu, -⟩ := bind_eq_ok.1 h
      refine ⟨hunlink hu, ?_⟩
      rintro o ⟨⟩
      exact ⟨out, output_eq_ok.1 ho⟩
  obtain ⟨⟨port, hi⟩, hn⟩ := hlive
  obtain ⟨g₁, hc, hr, -⟩ := connect_spec hg hi next hn
  cases hc.symm.trans h
  exact hr

theorem rewired_of_connectAll {o : OutputId} (l : List InputId) (hg : g.Coherent)
    (h : g.connectAll o l = .ok g') : Rewired g g' := by
  induction l generalizing g with
  | nil =>
    cases h
    exact .refl hg
  | cons i l ih =>
    obtain ⟨g₁, hc, h⟩ := bind_eq_ok.1 h
    have hr := rewired_of_connect hg hc
    exact hr.trans (ih hr.coherent h)

theorem rewired_of_redirect (hg : g.Coherent) {old new : OutputId} {count : Nat}
    (h : g.redirect old new = .ok (g', count)) : Rewired g g' := by
  simp only [Graph.redirect] at h
  split at h
  · cases h
    exact .refl hg
  · obtain ⟨out, -, h⟩ := bind_eq_ok.1 h
    obtain ⟨g₁, hc, h⟩ := bind_eq_ok.1 h
    cases h
    exact rewired_of_connectAll _ hg hc

theorem pruned_of_collectFrom (hg : g.Coherent) {seeds : List NodeId} {count : Nat}
    (h : g.collectFrom seeds = .ok (g', count)) : Pruned g g' := by
  obtain ⟨g₁, count', hc, hp, -⟩ := collectFrom_spec hg seeds
  cases hc.symm.trans h
  exact hp

/-- What the operations on graphs can make, in any order. -/
inductive Made : Graph → Prop where
  | empty : Made {}
  | insert {g g' : Graph} {kind : Kind} {location : Option Location} {sources : List OutputId}
    {results : List (DataType × Nat)} {n : NodeId} : Made g →
    g.insert kind location sources results = .ok (g', n) → Made g'
  | connect {g g' : Graph} {i : InputId} {next : Option OutputId} : Made g →
    g.connect i next = .ok g' → Made g'
  | redirect {g g' : Graph} {old new : OutputId} {count : Nat} : Made g →
    g.redirect old new = .ok (g', count) → Made g'
  | remove {g g' : Graph} {n : NodeId} : Made g → g.remove n = .ok g' → Made g'
  | collect {g g' : Graph} {seeds : List NodeId} {count : Nat} : Made g →
    g.collectFrom seeds = .ok (g', count) → Made g'
  | surface {g : Graph} (s : Surface) : Made g → Made { g with surface := s }

/-- Whatever the operations make is coherent. -/
theorem Made.coherent (h : g.Made) : g.Coherent := by
  induction h with
  | empty => exact .empty
  | insert _ h hg => exact (inserted_of_insert hg h).2.coherent
  | connect _ h hg => exact (rewired_of_connect hg h).coherent
  | redirect _ h hg => exact (rewired_of_redirect hg h).coherent
  | remove _ h hg => exact (without_of_remove hg h).2.coherent
  | collect _ h hg => exact (pruned_of_collectFrom hg h).coherent
  | surface s _ hg => exact hg.withSurface s

end Graph

end SignalGraph
