import SignalGraph.Proofs.Runs

/-!
# Collecting keeps what is reachable

`reachable` finds just what the sinks need: the nodes from which a value flows to one of them
(`mem_reachable`). In a graph without cycles this is also what collecting keeps, if it starts from
the nodes that stay anyway (`roots`). One half holds step by step: what feeds a node that is kept is
kept. The other half goes with the flow, from a node that is kept and no root to one of its
consumers, and ends because no value depends on itself (`Pruned.live_iff`).

So a collection is known by the graph alone. It does not matter in which order nodes are looked at,
nor where it begins, as long as all garbage is among its seeds (`collectFrom_eq_collect`).
-/

namespace SignalGraph

open Relation

/-! ## Walks -/

section Gather

variable {α : Type} [DecidableEq α] {next : α → List α} {remaining pending : List α} {a b : α}

/-- What is found was to be found, and steps lead to it. -/
theorem gather_sound (h : a ∈ gather next remaining pending) :
    a ∈ remaining ∧ ∃ s ∈ pending, ReflTransGen (fun b c => b ∈ next c) a s := by
  fun_induction gather next remaining pending with
  | case1 => cases h
  | case2 remaining s rest hs ih =>
    rcases List.mem_cons.1 h with rfl | h
    · exact ⟨hs, a, List.mem_cons_self, .refl⟩
    · obtain ⟨hr, t, ht, hat⟩ := ih h
      refine ⟨List.mem_of_mem_erase hr, ?_⟩
      rcases List.mem_append.1 ht with ht | ht
      · exact ⟨s, List.mem_cons_self, hat.tail ht⟩
      · exact ⟨t, List.mem_cons_of_mem s ht, hat⟩
  | case3 remaining s rest _ ih =>
    obtain ⟨hr, t, ht, hat⟩ := ih h
    exact ⟨hr, t, List.mem_cons_of_mem s ht, hat⟩

/-- Nothing is found twice. -/
theorem gather_nodup (h : remaining.Nodup) : (gather next remaining pending).Nodup := by
  fun_induction gather next remaining pending with
  | case1 => exact List.nodup_nil
  | case2 remaining s rest hs ih =>
    refine List.nodup_cons.2 ⟨fun hmem => ?_, ih (h.erase s)⟩
    exact h.not_mem_erase (gather_sound hmem).1
  | case3 remaining s rest _ ih => exact ih h

/-- Everything pending is found, and so is every step from what is found. -/
theorem gather_closed (hb : b ∈ remaining)
    (h : b ∈ pending ∨ ∃ a ∈ gather next remaining pending, b ∈ next a) :
    b ∈ gather next remaining pending := by
  fun_induction gather next remaining pending with
  | case1 => simp at h
  | case2 remaining s rest hs ih =>
    rw [List.mem_cons]
    by_cases he : b = s
    · exact .inl he
    · refine .inr (ih ((List.mem_erase_of_ne he).2 hb) ?_)
      rcases h with h | ⟨a, ha, h⟩
      · exact .inl (List.mem_append_right _ ((List.mem_cons.1 h).resolve_left he))
      · rcases List.mem_cons.1 ha with rfl | ha
        · exact .inl (List.mem_append_left _ h)
        · exact .inr ⟨a, ha, h⟩
  | case3 remaining s rest hs ih =>
    refine ih hb (h.imp_left fun h => (List.mem_cons.1 h).resolve_left ?_)
    rintro rfl
    exact hs hb

end Gather

namespace Graph

variable {g g' g'' : Graph} {n m : NodeId}

/-- A walk to the sources of nodes finds those from which values flow to where it starts. The order
in which it goes to them does not matter. -/
theorem mem_gather (hg : g.Coherent) {next : NodeId → List NodeId}
    (hnext : ∀ m n, m ∈ next n ↔ g.Feeds m n) {sinks : List NodeId} :
    n ∈ gather next g.nodeIds sinks ↔
      ∃ s ∈ sinks, (∃ node, g.node? s = some node) ∧ ReflTransGen g.Feeds n s := by
  constructor
  · intro hfound
    obtain ⟨hn, s, hs, hns⟩ := gather_sound hfound
    simp only [hnext] at hns
    refine ⟨s, hs, ?_, hns⟩
    rcases ReflTransGen.cases_tail hns with rfl | ⟨m, -, hf⟩
    · exact hg.mem_nodeIds.1 hn
    · exact (hg.feeds_live hf).2
  · rintro ⟨s, hs, hlive, hns⟩
    induction hns using ReflTransGen.head_induction_on with
    | refl => exact gather_closed (hg.mem_nodeIds.2 hlive) (.inl hs)
    | head hf _ ih =>
      exact gather_closed (hg.mem_nodeIds.2 (hg.feeds_live hf).1) (.inr ⟨_, ih, (hnext _ _).2 hf⟩)

/-- The nodes that a sink needs are those from which values flow to it. -/
theorem mem_reachable (hg : g.Coherent) {sinks : List NodeId} :
    n ∈ g.reachable sinks ↔
      ∃ s ∈ sinks, (∃ node, g.node? s = some node) ∧ ReflTransGen g.Feeds n s := by
  rw [reachable, List.mem_filter, decide_eq_true_eq, ← mem_gather hg fun _ _ => Iff.rfl]
  exact and_iff_right_of_imp fun hfound => (gather_sound hfound).1

/-- In a graph without cycles, what holds of a node if it holds of its consumers holds of all. -/
theorem Acyclic.induction_downstream (hg : g.Coherent) (ha : g.Acyclic) {P : NodeId → Prop}
    (h : ∀ n, (∀ m, g.Feeds n m → P m) → P n) (n : NodeId) : P n := by
  induction hk : g.nodes.size - g.rank n using Nat.strong_induction_on generalizing n with
  | _ k ih =>
    refine h n fun m hf => ih _ ?_ m rfl
    have hlt := rank_lt hg ha hf
    have hle := g.rank_le m
    omega

/-! ## What is left after collecting -/

/-- The nodes that stay whether or not something uses them. -/
def roots (g : Graph) : List NodeId :=
  g.nodeIds.filter fun n =>
    n ∈ g.surface.pinned || (g.node? n).any fun node => node.kind.Kept

theorem mem_roots (hg : g.Coherent) : n ∈ g.roots ↔ ∃ node, g.Stays n node := by
  simp only [roots, List.mem_filter, hg.mem_nodeIds, Bool.or_eq_true, decide_eq_true_eq, Stays]
  constructor
  · rintro ⟨⟨node, hn⟩, h⟩
    exact ⟨node, hn, by simpa [hn] using h⟩
  · rintro ⟨node, hn, h⟩
    exact ⟨⟨node, hn⟩, by simpa [hn] using h⟩

namespace Pruned

/-- Links to nodes that are still there are still there. -/
theorem feeds_of_live (hg : g.Coherent) (h : Pruned g g') {node : Node}
    (hn : g'.node? n = some node) (hf : g.Feeds m n) : g'.Feeds m n := by
  obtain ⟨i, hi, hs⟩ := hg.feeds_iff.1 hf
  obtain ⟨o, hs, ho⟩ := feeder?_eq_some.1 hs
  have hin := h.input?_of_owner? hg hn hi
  rw [← owner?_congr hin] at hi
  rw [← source?_congr hin] at hs
  obtain ⟨m', -, hm', -⟩ := h.coherent.source_maker hs
  obtain rfl : m = m' := Option.some.inj (ho.symm.trans (h.maker? hm'))
  exact h.coherent.feeds_of_source hi hs hm'

/-- What is left is reachable from the roots, if these are left and there is no garbage. -/
theorem live_iff (hg : g.Coherent) (ha : g.Acyclic) (h : Pruned g g')
    (hstay : ∀ n node, g.Stays n node → g'.node? n = some node)
    (hclean : ∀ n, g'.isGarbage n = false) :
    (∃ node, g'.node? n = some node) ↔ n ∈ g.reachable g.roots := by
  rw [mem_reachable hg]
  constructor
  · induction n using ha.induction_downstream hg with
    | h n ih =>
      rintro ⟨node, hn⟩
      by_cases hroot : n ∈ g.surface.pinned ∨ node.kind.Kept
      · have hn' := h.node? hn
        exact ⟨n, (mem_roots hg).2 ⟨node, hn', hroot⟩, ⟨node, hn'⟩, .refl⟩
      · -- It is no garbage, so something uses it that is left.
        rw [not_or] at hroot
        have hused : ¬ g'.Unused n := fun hu => by
          have hgarbage := h.coherent.isGarbage_iff.2
            ⟨node, hn, by rw [h.surface]; exact hroot.1, hroot.2, hu⟩
          rw [hclean n] at hgarbage
          cases hgarbage
        obtain ⟨i, o, hs, ho⟩ : ∃ i o, g'.source? i = some o ∧ g'.maker? o = some n := by
          simpa [Unused] using hused
        obtain ⟨port, hp, -⟩ := source?_eq_some.1 hs
        have hf := h.coherent.feeds_of_source (owner?_eq_some.2 ⟨port, hp, rfl⟩) hs ho
        have hfg := h.feeds hg hf
        obtain ⟨s, hs, hlive, hpath⟩ := ih _ hfg (h.coherent.feeds_live hf).2
        exact ⟨s, hs, hlive, .head hfg hpath⟩
  · rintro ⟨s, hs, -, hpath⟩
    obtain ⟨node, hroot⟩ := (mem_roots hg).1 hs
    induction hpath using ReflTransGen.head_induction_on with
    | refl => exact ⟨node, hstay s node hroot⟩
    | head hf _ ih =>
      obtain ⟨_, hm⟩ := ih
      exact (h.coherent.feeds_live (h.feeds_of_live hg hm hf)).1

/-- A node is left as it was. -/
theorem node?_eq (h : Pruned g g') (n : NodeId) :
    g'.node? n = if g'.contains n then g.node? n else none := by
  cases hn : g'.node? n with
  | none => simp [contains, hn]
  | some node => simp [contains, hn, h.node? hn]

/-- The inputs that are left are those of the nodes that are left. -/
theorem input?_eq (hg : g.Coherent) (h : Pruned g g') (i : InputId) :
    g'.input? i = if (g.owner? i).any g'.contains then g.input? i else none := by
  cases hi : g'.input? i with
  | none =>
    rw [eq_comm, ite_eq_right_iff]
    intro hany
    obtain ⟨n, hn, hlive⟩ := (Option.any_eq_true _ _).1 hany
    obtain ⟨node, hn'⟩ := contains_iff.1 hlive
    rw [← h.input?_of_owner? hg hn' hn, hi]
  | some port =>
    have ho : g'.owner? i = some port.node := owner?_eq_some.2 ⟨port, hi, rfl⟩
    rw [h.owner? ho, Option.any_some, if_pos (contains_iff.2 (h.coherent.owner_live ho)),
      h.input? hi]

/-- The outputs that are left are those of the nodes that are left. -/
theorem bare?_eq (hg : g.Coherent) (h : Pruned g g') (o : OutputId) :
    g'.bare? o = if (g.maker? o).any g'.contains then g.bare? o else none := by
  cases ho : g'.bare? o with
  | none =>
    rw [eq_comm, ite_eq_right_iff]
    intro hany
    obtain ⟨n, hn, hlive⟩ := (Option.any_eq_true _ _).1 hany
    obtain ⟨node, hn'⟩ := contains_iff.1 hlive
    have hmem : o ∈ node.outputs := (hg.mem_outputs (h.node? hn')).2 hn
    have hmk := (h.coherent.mem_outputs hn').1 hmem
    rw [maker?_eq_bare?, ho] at hmk
    cases hmk
  | some port =>
    have hm : g'.maker? o = some port.node := by rw [maker?_eq_bare?, ho, Option.map_some]
    rw [h.maker? hm, Option.any_some, if_pos (contains_iff.2 (h.coherent.maker_live hm)),
      h.bare? ho]

/-- A port that is left has lost the consumers that went, and nothing else. -/
theorem output?_of_live (hg : g.Coherent) (h : Pruned g g') {node : Node} {o : OutputId}
    (hn : g'.node? n = some node) (ho : o ∈ node.outputs) :
    ∃ port, g.output? o = some port ∧ g'.output? o = some
      { port with consumers := port.consumers.filter fun i => (g.owner? i).any g'.contains } := by
  obtain ⟨port', hp', -⟩ := maker?_eq_some.1 ((h.coherent.mem_outputs hn).1 ho)
  have hb' : g'.bare? o = some port'.bare := bare?_eq_some.2 ⟨port', hp', rfl⟩
  obtain ⟨port, hp, hbare⟩ := bare?_eq_some.1 (h.bare? hb')
  refine ⟨port, hp, h.coherent.output?_eq (hbare ▸ hb') ((hg.ascends hp).filter _) fun i => ?_⟩
  rw [List.mem_filter, hg.mem_consumers hp, Graph.source?, Graph.source?, h.input?_eq hg]
  split <;> simp_all

/-- What was taken away says what is left. -/
theorem eq_of_contains (hg : g.Coherent) (h : Pruned g g') (h' : Pruned g g'')
    (hlive : ∀ n, g'.contains n = g''.contains n) : g' = g'' := by
  have hlive : g'.contains = g''.contains := funext hlive
  have hsame : Same g'' g' := by
    refine h'.coherent.same h.coherent (fun n => ?_) (fun i => ?_) (fun o => ?_)
      (h.surface.trans h'.surface.symm)
    · rw [h.node?_eq, h'.node?_eq, hlive]
    · rw [h.input?_eq hg, h'.input?_eq hg, hlive]
    · rw [h.bare?_eq hg, h'.bare?_eq hg, hlive]
  have hnodes : g'.nodes = g''.nodes :=
    Arena.ext_get? (h.nodes_size.trans h'.nodes_size.symm) fun k => hsame.node? ⟨k⟩
  have hinputs : g'.inputs = g''.inputs :=
    Arena.ext_get? (h.inputs_size.trans h'.inputs_size.symm) fun k => hsame.input? ⟨k⟩
  have houtputs : g'.outputs = g''.outputs :=
    Arena.ext_get? (h.outputs_size.trans h'.outputs_size.symm) fun k => hsame.output? ⟨k⟩
  have hcounters : g'.counters = g''.counters := by
    rw [h.coherent.counters, h'.coherent.counters, hnodes, hinputs, houtputs]
  have hsurface := hsame.surface
  cases g'
  cases g''
  simp_all

end Pruned

/-! ## Collecting -/

/-- As many nodes are counted as went. -/
theorem collectWithin_count {budget removed count : Nat} {worklist : List NodeId} (hg : g.Coherent)
    (h : collectWithin budget worklist g removed = .ok (g', count)) :
    count + g'.nodeIds.length = removed + g.nodeIds.length := by
  fun_induction collectWithin budget worklist g removed with
  | case1 budget g removed =>
    cases h
    rfl
  | case2 budget g removed n rest fault hn => cases h
  | case3 budget g removed n rest hn ih => exact ih hg h
  | case4 g removed n rest hn =>
    cases h
    rfl
  | case5 g removed n rest hn budget fault hr => cases h
  | case6 g removed n rest hn budget g₁ sources hr ih =>
    obtain ⟨hremove, rfl⟩ := hg.takeOut_eq_ok.1 hr
    obtain ⟨⟨node, hl⟩, hw⟩ := without_of_remove hg hremove
    have hcount := ih hw.coherent h
    have hlen := hw.length_nodeIds hg hl
    omega

/-- `g'` is what collecting leaves of `g`: the nodes that the roots need, with the links between
them. -/
structure Collected (g g' : Graph) : Prop where
  coherent : g'.Coherent
  live (n : NodeId) : g'.contains n = true ↔ n ∈ g.reachable g.roots
  node? {n : NodeId} {node : Node} : g'.node? n = some node → g.node? n = some node
  input? {n : NodeId} {node : Node} {i : InputId} : g'.node? n = some node → i ∈ node.inputs →
    g'.input? i = g.input? i
  output? {n : NodeId} {node : Node} {o : OutputId} : g'.node? n = some node →
    o ∈ node.outputs → ∃ port, g.output? o = some port ∧ g'.output? o = some
      { port with consumers := port.consumers.filter fun i => (g.owner? i).any g'.contains }
  surface : g'.surface = g.surface

theorem Pruned.collected (hg : g.Coherent) (h : Pruned g g')
    (hlive : ∀ n, g'.contains n = true ↔ n ∈ g.reachable g.roots) : Collected g g' where
  coherent := h.coherent
  live := hlive
  node? hn := h.node? hn
  input? hn hi := h.input?_of_owner? hg hn ((hg.mem_inputs (h.node? hn)).1 hi)
  output? hn ho := h.output?_of_live hg hn ho
  surface := h.surface

/-- As many nodes went as there are fewer. -/
theorem Pruned.length_nodeIds (hg : g.Coherent) (h : Pruned g g') :
    (g.nodeIds.filter fun n => !g'.contains n).length + g'.nodeIds.length = g.nodeIds.length := by
  have he : g'.nodeIds = g.nodeIds.filter g'.contains := by
    refine h.coherent.ascends_nodeIds.ext (hg.ascends_nodeIds.filter _) fun n => ?_
    rw [List.mem_filter, h.coherent.mem_nodeIds, hg.mem_nodeIds, contains_iff]
    exact ⟨fun ⟨node, hn⟩ => ⟨⟨node, h.node? hn⟩, node, hn⟩, And.right⟩
  rw [he, ← List.countP_eq_length_filter, ← List.countP_eq_length_filter, Nat.add_comm]
  simpa using (List.length_eq_countP_add_countP g'.contains).symm

/-- Collecting from seeds that include all garbage leaves what is reachable, and counts the rest. -/
theorem collectFrom_collected (hg : g.Coherent) (ha : g.Acyclic) {seeds : List NodeId}
    (hseeds : ∀ n, g.isGarbage n = true → n ∈ seeds) :
    ∃ g' count, g.collectFrom seeds = .ok (g', count) ∧ Pruned g g' ∧
      (∀ n, g'.contains n = true ↔ n ∈ g.reachable g.roots) ∧
      count = (g.nodeIds.filter fun n => !g'.contains n).length ∧
      ∀ n, g'.isGarbage n = false := by
  obtain ⟨g', count, hc, hp, hstay, hclean⟩ := collectFrom_spec hg seeds
  refine ⟨g', count, hc, hp, fun n => ?_, ?_, hclean hseeds⟩
  · rw [contains_iff]
    exact hp.live_iff hg ha hstay (hclean hseeds)
  · have hcount := collectWithin_count hg hc
    have hlen := hp.length_nodeIds hg
    omega

theorem mem_nodeIds_of_isGarbage (hg : g.Coherent) (h : g.isGarbage n = true) : n ∈ g.nodeIds := by
  obtain ⟨node, hn, -⟩ := hg.isGarbage_iff.1 h
  exact hg.mem_nodeIds.2 ⟨node, hn⟩

/-- It does not matter where collecting starts, as long as no garbage is missed. -/
theorem collectFrom_eq_collect (hg : g.Coherent) (ha : g.Acyclic) {seeds : List NodeId}
    (hseeds : ∀ n, g.isGarbage n = true → n ∈ seeds) : g.collectFrom seeds = g.collect := by
  obtain ⟨g₁, count₁, hc₁, hp₁, hlive₁, hcount₁, -⟩ := collectFrom_collected hg ha hseeds
  obtain ⟨g₂, count₂, hc₂, hp₂, hlive₂, hcount₂, -⟩ :=
    collectFrom_collected hg ha fun n => mem_nodeIds_of_isGarbage (n := n) hg
  obtain rfl : g₁ = g₂ := hp₁.eq_of_contains hg hp₂ fun n => by
    rw [Bool.eq_iff_iff, hlive₁, hlive₂]
  rw [hc₁, collect, hc₂, hcount₁, hcount₂]

/-- Collecting leaves the nodes that the roots need, and counts the others. There is nothing left to
collect after it. -/
theorem collect_reachable (hg : g.Coherent) (ha : g.Acyclic) :
    ∃ g' count, g.collect = .ok (g', count) ∧ Collected g g' ∧
      count = (g.nodeIds.filter fun n => !g'.contains n).length ∧ g'.collect = .ok (g', 0) := by
  obtain ⟨g', count, hc, hp, hlive, hcount, hclean⟩ :=
    collectFrom_collected hg ha fun n => mem_nodeIds_of_isGarbage (n := n) hg
  exact ⟨g', count, hc, hp.collected hg hlive, hcount, collect_of_clean hp.coherent hclean⟩

end Graph

/-! ## Two ways to the same node

A value is negated, and negated again, and both go into an array that nothing uses. The first
negation is looked at before the second one has gone, and again after it. -/

namespace Negation

def unused : Description where
  inputs := [{ name := "in", type := { primitive := .float } }]
  entries :=
    [{ name := "a", kind := .call "negate" 1 ["in"] },
     { name := "b", kind := .call "negate" 1 ["a"] },
     { name := "both", kind := .array .float ["a", "b"] },
     { name := "c", kind := .call "negate" 1 ["in"] }]
  outputs := [{ name := "out", type := { primitive := .float }, source := "c" }]

/-- What the roots need, what is left, and how many nodes go. -/
def leftover (d : Description) : Option (List NodeId × List NodeId × Nat) :=
  match d.build env with
  | .ok (_, .ok g) =>
    match g.collect with
    | .ok (g', count) => some (g.reachable g.roots, g'.nodeIds, count)
    | .error _ => none
  | _ => none

theorem collect_unused : ∃ runs g g', unused.build env = .ok (runs, .ok g) ∧
    g.reachable g.roots = [⟨0⟩, ⟨4⟩, ⟨5⟩] ∧ g.collect = .ok (g', 3) ∧
    g'.nodeIds = [⟨0⟩, ⟨4⟩, ⟨5⟩] := by
  have h : leftover unused = some ([⟨0⟩, ⟨4⟩, ⟨5⟩], [⟨0⟩, ⟨4⟩, ⟨5⟩], 3) := by cbv
  rw [leftover] at h
  split at h
  · rename_i runs g hb
    split at h
    · rename_i g' count hc
      simp only [Option.some.injEq, Prod.mk.injEq] at h
      obtain ⟨hreach, hleft, rfl⟩ := h
      exact ⟨runs, g, g', hb, hreach, hc, hleft⟩
    · cases h
  · cases h

end Negation

theorem Graph.collect_reachable_unused :
    ∃ runs g g', Negation.unused.build Negation.env = .ok (runs, .ok g) ∧ g.Coherent ∧ g.Acyclic ∧
      g.reachable g.roots = [⟨0⟩, ⟨4⟩, ⟨5⟩] ∧ g.collect = .ok (g', 3) ∧
      g'.nodeIds = [⟨0⟩, ⟨4⟩, ⟨5⟩] ∧ Collected g g' ∧
      3 = (g.nodeIds.filter fun n => !g'.contains n).length ∧ g'.collect = .ok (g', 0) := by
  obtain ⟨runs, g, g', hb, hreach, hc, hleft⟩ := Negation.collect_unused
  have hv := (Description.build_loaded Negation.reached hb).valid
  obtain ⟨g₁, count, hc₁, hcollected, hcount, hagain⟩ := collect_reachable hv.coherent hv.acyclic
  cases hc₁.symm.trans hc
  exact ⟨runs, g, g', hb, hv.coherent, hv.acyclic, hreach, hc, hleft, hcollected, hcount, hagain⟩

end SignalGraph
