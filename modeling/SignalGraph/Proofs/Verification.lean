import SignalGraph.Graph.Verify
import SignalGraph.Proofs.Asking

/-!
# Verification is exact

A coherent graph has violations just if it has a cycle (`Coherent.verify_eq_nil`). Ports and links
of a coherent graph are in order, so this is about the search for cycles: the open nodes are a
path (`Trail`) from the node that is visited to the node where the search began. A source on the
path closes a cycle; a node all of whose sources were visited without one depends on no cycle. The
path is never longer than there are nodes, so the depth of the search is enough.

A search that asks for the nodes and ports it comes to does not fault (`Coherent.askVerify_eq`).
-/

namespace SignalGraph

namespace Graph

open Relation

variable {g : Graph}

/-- Different live nodes, each of which feeds the next. -/
structure Trail (g : Graph) (l : List NodeId) : Prop where
  nodup : l.Nodup
  live : ∀ n ∈ l, ∃ node, g.node? n = some node
  chain : l.IsChain g.Feeds

theorem Trail.length_le {l : List NodeId} (hg : g.Coherent) (h : Trail g l) :
    l.length ≤ g.nodes.size := by
  have hs : l ⊆ g.nodeIds := fun n hn => hg.mem_nodeIds.2 (h.live n hn)
  exact Nat.le_trans (List.subperm_of_subset h.nodup hs).length_le g.length_nodeIds_le

theorem Coherent.trail_singleton (hg : g.Coherent) {n : NodeId} (hn : n ∈ g.nodeIds) :
    Trail g [n] := by
  refine ⟨List.nodup_singleton n, fun m hm => ?_, .singleton n⟩
  rw [List.mem_singleton.1 hm]
  exact hg.mem_nodeIds.1 hn

/-- The head of a trail reaches everything on it. -/
theorem Trail.reaches {n : NodeId} {l : List NodeId} (h : Trail g (n :: l)) :
    ∀ m ∈ n :: l, ReflTransGen g.Feeds n m := by
  have hc := h.chain
  clear h
  induction l generalizing n with
  | nil =>
    intro m hm
    rw [List.mem_singleton.1 hm]
  | cons a l ih =>
    obtain ⟨hna, hc⟩ := List.isChain_cons_cons.1 hc
    intro m hm
    rcases List.mem_cons.1 hm with rfl | hm
    · exact .refl
    · exact .head hna (ih hc m hm)

/-- Sources that are not on a trail make it longer. -/
theorem Trail.cons_of_find? {n : NodeId} {l : List NodeId} (hg : g.Coherent)
    (h : Trail g (n :: l)) (hf : ((g.sources n).find? fun s => s ∈ n :: l) = none) :
    ∀ s ∈ (g.sources n).reverse, Trail g (s :: n :: l) := by
  intro s hs
  have hs : g.Feeds s n := List.mem_reverse.1 hs
  have hnot : s ∉ n :: l := by simpa using List.find?_eq_none.1 hf s hs
  refine ⟨List.nodup_cons.2 ⟨hnot, h.nodup⟩, ?_, List.isChain_cons_cons.2 ⟨hs, h.chain⟩⟩
  exact List.forall_mem_cons.2 ⟨(hg.feeds_live hs).1, h.live⟩

/-- What a search must find out: that all visited nodes depend on no cycle, among them the nodes
it was to visit; or else a node on a cycle. -/
def Searched (g : Graph) (done l : List NodeId) : Except NodeId (List NodeId) → Prop
  | .ok done' => (∀ m ∈ done', Acc g.Feeds m) ∧ (∀ m ∈ done, m ∈ done') ∧ ∀ m ∈ l, m ∈ done'
  | .error s => TransGen g.Feeds s s

theorem visitAll_searched {depth : Nat} {opened : List NodeId}
    (hv : ∀ {done n}, (∀ m ∈ done, Acc g.Feeds m) → Trail g (n :: opened) →
      Searched g done [n] (g.visit depth opened done n)) (l : List NodeId) {done : List NodeId}
    (hd : ∀ m ∈ done, Acc g.Feeds m) (hl : ∀ n ∈ l, Trail g (n :: opened)) :
    Searched g done l (g.visitAll depth opened done l) := by
  induction l generalizing done with
  | nil =>
    rw [visitAll]
    exact ⟨hd, fun m hm => hm, List.forall_mem_nil _⟩
  | cons n rest ih =>
    have hn := hv hd (hl n List.mem_cons_self)
    rw [visitAll]
    cases h : g.visit depth opened done n with
    | error s =>
      rw [h] at hn
      exact hn
    | ok done₁ =>
      rw [h] at hn
      obtain ⟨hd₁, hsub₁, hn₁⟩ := hn
      have hr := ih hd₁ fun m hm => hl m (List.mem_cons_of_mem _ hm)
      simp only
      cases h₂ : g.visitAll depth opened done₁ rest with
      | error s =>
        rw [h₂] at hr
        exact hr
      | ok done₂ =>
        rw [h₂] at hr
        obtain ⟨hd₂, hsub₂, hl₂⟩ := hr
        refine ⟨hd₂, fun m hm => hsub₂ m (hsub₁ m hm), fun m hm => ?_⟩
        rcases List.mem_cons.1 hm with rfl | hm
        · exact hsub₂ m (hn₁ m List.mem_cons_self)
        · exact hl₂ m hm

/-- By induction on the depth, which with the open nodes is more than there are nodes. -/
theorem visit_searched (hg : g.Coherent) (depth : Nat) {opened : List NodeId}
    (hdepth : g.nodes.size < depth + opened.length) {done : List NodeId} {n : NodeId}
    (hd : ∀ m ∈ done, Acc g.Feeds m) (ht : Trail g (n :: opened)) :
    Searched g done [n] (g.visit depth opened done n) := by
  induction depth generalizing opened done n with
  | zero =>
    have hle := ht.length_le hg
    rw [List.length_cons] at hle
    omega
  | succ depth ih =>
    rw [visit]
    split
    · rename_i hn
      exact ⟨hd, fun m hm => hm, fun m hm => List.mem_singleton.1 hm ▸ hn⟩
    · simp only
      split
      · rename_i s hf
        have hs : g.Feeds s n := List.mem_of_find?_eq_some hf
        have hmem : s ∈ n :: opened := by simpa using List.find?_some hf
        exact TransGen.trans_left (.single hs) (ht.reaches s hmem)
      · rename_i hf
        have hall := visitAll_searched
          (fun hd ht => ih (by rw [List.length_cons]; omega) hd ht) _ hd (ht.cons_of_find? hg hf)
        split
        · rename_i done₁ h
          rw [h] at hall
          obtain ⟨hd₁, hsub, hsources⟩ := hall
          have hacc : Acc g.Feeds n :=
            Acc.intro n fun m hm => hd₁ m (hsources m (List.mem_reverse.2 hm))
          refine ⟨List.forall_mem_cons.2 ⟨hacc, hd₁⟩, fun m hm => ?_, fun m hm => ?_⟩
          · exact List.mem_cons_of_mem _ (hsub m hm)
          · rw [List.mem_singleton.1 hm]
            exact List.mem_cons_self
        · rename_i s h
          rw [h] at hall
          exact hall

theorem Coherent.searched_nodeIds (hg : g.Coherent) :
    Searched g [] g.nodeIds (g.visitAll (g.nodes.size + 1) [] [] g.nodeIds) := by
  refine visitAll_searched (fun hd ht => visit_searched hg _ (by simp) hd ht) _
    (List.forall_mem_nil _) fun n hn => hg.trail_singleton hn

/-- The search finds a cycle just if there is one. -/
theorem Coherent.cycle?_eq_none (hg : g.Coherent) : g.cycle? = none ↔ g.Acyclic := by
  have hs := hg.searched_nodeIds
  unfold cycle?
  cases h : g.visitAll (g.nodes.size + 1) [] [] g.nodeIds with
  | error s =>
    rw [h] at hs
    simp only [reduceCtorEq, false_iff]
    exact fun ha => ha.not_feeds_back hs .refl
  | ok done =>
    rw [h] at hs
    obtain ⟨hd, -, hl⟩ := hs
    simp only [true_iff]
    refine ⟨fun n => Acc.intro n fun m hm => hd m (hl m ?_)⟩
    exact hg.mem_nodeIds.2 (hg.feeds_live hm).1

/-- What the search finds is on a cycle. -/
theorem Coherent.cycle?_eq_some (hg : g.Coherent) {n : NodeId} (h : g.cycle? = some n) :
    TransGen g.Feeds n n := by
  have hs := hg.searched_nodeIds
  unfold cycle? at h
  split at h
  · cases h
  · rename_i m hm
    rw [hm] at hs
    cases h
    exact hs

/-! ## Ports and links -/

theorem Coherent.nodeViolations_eq_nil (hg : g.Coherent) {n : NodeId} {node : Node}
    (hn : g.node? n = some node) : g.nodeViolations node = [] := by
  have hid := hg.node_id hn
  have hin : (node.inputs.filter fun i => !g.ownsInput node.id i) = [] := by
    refine List.filter_eq_nil_iff.2 fun i hi => ?_
    obtain ⟨port, hp, hpn⟩ := owner?_eq_some.1 ((hg.mem_inputs hn).1 hi)
    simp [ownsInput, hp, hpn, hid]
  have hout : (node.outputs.filter fun o => !g.ownsOutput node.id o) = [] := by
    refine List.filter_eq_nil_iff.2 fun o ho => ?_
    obtain ⟨port, hp, hpn⟩ := maker?_eq_some.1 ((hg.mem_outputs hn).1 ho)
    simp [ownsOutput, hp, hpn, hid]
  rw [nodeViolations, hin, hout]
  rfl

theorem Coherent.inputViolations_eq_nil (hg : g.Coherent) {i : InputId} {port : InputPort}
    (hi : g.input? i = some port) : g.inputViolations port = [] := by
  unfold inputViolations
  cases hs : port.source with
  | none => rfl
  | some o =>
    have hso : g.source? i = some o := source?_eq_some.2 ⟨port, hi, hs⟩
    obtain ⟨out, ho⟩ := hg.source_live hso
    have hmem : port.id ∈ out.consumers := hg.input_id hi ▸ (hg.mem_consumers ho).2 hso
    simp [ho, hmem]

theorem Coherent.outputViolations_eq_nil (hg : g.Coherent) {o : OutputId} {port : OutputPort}
    (ho : g.output? o = some port) : g.outputViolations port = [] := by
  have hc : (port.consumers.filter fun i => g.source? i ≠ some port.id) = [] := by
    refine List.filter_eq_nil_iff.2 fun i hi => ?_
    simp [(hg.mem_consumers ho).1 hi, hg.output_id ho]
  rw [outputViolations, hc]
  rfl

/-- All that can be wrong with a coherent graph is a cycle. -/
theorem Coherent.verify_eq (hg : g.Coherent) :
    g.verify = (g.cycle?.map Violation.cycle).toList := by
  have hnodes : g.liveNodes.flatMap g.nodeViolations = [] := by
    refine List.flatMap_eq_nil_iff.2 fun node h => ?_
    obtain ⟨n, hn⟩ := mem_liveNodes.1 h
    exact hg.nodeViolations_eq_nil hn
  have hinputs : g.inputs.toList.flatMap g.inputViolations = [] := by
    refine List.flatMap_eq_nil_iff.2 fun port h => ?_
    obtain ⟨k, hk⟩ := Arena.mem_toList.1 h
    exact hg.inputViolations_eq_nil (i := ⟨k⟩) hk
  have houtputs : g.outputs.toList.flatMap g.outputViolations = [] := by
    refine List.flatMap_eq_nil_iff.2 fun port h => ?_
    obtain ⟨k, hk⟩ := Arena.mem_toList.1 h
    exact hg.outputViolations_eq_nil (o := ⟨k⟩) hk
  rw [verify, linkViolations, hnodes, hinputs, houtputs]
  rfl

/-- A coherent graph passes verification just if it has no cycle. -/
theorem Coherent.verify_eq_nil (hg : g.Coherent) : g.verify = [] ↔ g.Acyclic := by
  rw [hg.verify_eq, ← hg.cycle?_eq_none]
  cases g.cycle? <;> simp

/-! ## Asking -/

theorem askVisitAll_eq {depth : Nat} (opened done : List NodeId)
    (hv : ∀ {done n}, (∃ node, g.node? n = some node) →
      (g.askVisit depth opened done n).run = .ok (g.visit depth opened done n)) (l : List NodeId)
    (hl : ∀ n ∈ l, ∃ node, g.node? n = some node) :
    (g.askVisitAll depth opened done l).run = .ok (g.visitAll depth opened done l) := by
  induction l generalizing done with
  | nil =>
    rw [askVisitAll, visitAll]
    rfl
  | cons n l ih =>
    obtain ⟨hn, hl⟩ := List.forall_mem_cons.1 hl
    rw [askVisitAll, visitAll, ExceptT.run_bind, hv hn, ok_bind]
    cases g.visit depth opened done n with
    | error s => rfl
    | ok done => exact ih done hl

/-- By induction on the depth: the sources of a live node are live. -/
theorem Coherent.askVisit_eq (hg : g.Coherent) (depth : Nat) {opened done : List NodeId}
    {n : NodeId} (hn : ∃ node, g.node? n = some node) :
    (g.askVisit depth opened done n).run = .ok (g.visit depth opened done n) := by
  induction depth generalizing opened done n with
  | zero =>
    rw [askVisit, visit]
    rfl
  | succ depth ih =>
    obtain ⟨node, hn⟩ := hn
    rw [askVisit, visit]
    split
    · rfl
    · rw [hg.askSources_eq hn, Outcome.lift_ok_bind]
      simp only
      split
      · rfl
      · have hall := askVisitAll_eq (n :: opened) done ih
          (g.sources n).reverse fun s hs => (hg.feeds_live (List.mem_reverse.1 hs)).1
        rw [ExceptT.run_bind, hall, ok_bind]
        cases g.visitAll depth (n :: opened) done (g.sources n).reverse with
        | error s => rfl
        | ok done => rfl

theorem Coherent.askVerify_eq (hg : g.Coherent) : g.askVerify = .ok g.verify := by
  have hall := askVisitAll_eq [] []
    (fun hn => hg.askVisit_eq (g.nodes.size + 1) hn) g.nodeIds fun n hn => hg.mem_nodeIds.1 hn
  have hcycle : g.askCycle = .ok g.cycle? := by
    rw [askCycle, hall, ok_bind, cycle?]
    cases g.visitAll (g.nodes.size + 1) [] [] g.nodeIds with
    | error s => rfl
    | ok done => rfl
  rw [askVerify, hcycle, ok_bind]
  rfl

end Graph

end SignalGraph
