import SignalGraph.Graph.Latency
import SignalGraph.Proofs.Loading
import SignalGraph.Proofs.Runs

/-!
# What stays the same at inputs

An input that is there before and after a rewrite may be fed from another port, but not from one
that looks different. What can be seen of a port is an `Observable` if it does not change when a
graph is built on, when nodes are taken away, and when ports that look the same are exchanged. A
rewrite whose new port looks like the anchor then shows every input that survives what it had before
(`Rewrite.carries`), and so does a whole run (`Reaches.carries`). Numbers are used once, so an input
with an old number is the old input.

The type and the latency of a port are observable (`observable_profile`).
-/

namespace SignalGraph

open SignalGraph.Graph

universe u

variable {α : Type u} {registry : Registry}

/-- Something seen of a port that changes of a graph elsewhere do not change. -/
structure Observable (registry : Registry) (see : Graph → OutputId → α) : Prop where
  same {g g' : Graph} (o : OutputId) : g.Valid registry → g'.Valid registry → Same g g' →
    see g' o = see g o
  grown {b : List OutputId} {g g' : Graph} {o : OutputId} {out : OutputPort} :
    g.Valid registry → g'.Valid registry → Grown b g g' → g.output? o = some out →
    see g' o = see g o
  pruned {g g' : Graph} {o : OutputId} {out : OutputPort} : g.Valid registry → Pruned g g' →
    g'.output? o = some out → see g' o = see g o
  redirected {g g' : Graph} {old new : OutputId} (o : OutputId) : g.Valid registry →
    g'.Valid registry → Redirected g old new g' → see g new = see g old → see g' o = see g o

/-- What is there in both graphs is the same node, and is fed with the same; and what has to stay is
there. -/
structure Carries (see : Graph → OutputId → α) (g g' : Graph) : Prop where
  nodes_le : g.nodes.size ≤ g'.nodes.size
  inputs_le : g.inputs.size ≤ g'.inputs.size
  surface : g'.surface = g.surface
  node {n : NodeId} {node : Node} : n.index < g.nodes.size → g'.node? n = some node →
    g.node? n = some node
  stays {n : NodeId} {node : Node} : g.Stays n node → g'.Stays n node
  input {i : InputId} {p' : InputPort} : i.index < g.inputs.size → g'.input? i = some p' →
    ∃ p, g.input? i = some p ∧ p'.source.map (see g') = p.source.map (see g)

namespace Carries

variable {see : Graph → OutputId → α} {g g' g'' : Graph}

theorem trans (h : Carries see g g') (h' : Carries see g' g'') : Carries see g g'' where
  nodes_le := Nat.le_trans h.nodes_le h'.nodes_le
  inputs_le := Nat.le_trans h.inputs_le h'.inputs_le
  surface := h'.surface.trans h.surface
  node hn hl := h.node hn (h'.node (Nat.lt_of_lt_of_le hn h.nodes_le) hl)
  stays hs := h'.stays (h.stays hs)
  input hi hp := by
    obtain ⟨p', hp', he'⟩ := h'.input (Nat.lt_of_lt_of_le hi h.inputs_le) hp
    obtain ⟨p, hp, he⟩ := h.input hi hp'
    exact ⟨p, hp, he'.trans he⟩

theorem of_restored (hobs : Observable registry see) (hv : g.Valid registry)
    (h : Restored g g') : Carries see g g' where
  nodes_le := h.nodes_le
  inputs_le := h.inputs_le
  surface := h.surface
  node _ hl := h.node? _ ▸ hl
  stays hs := ⟨(h.node? _).trans hs.1, by rw [h.surface]; exact hs.2⟩
  input {i p'} _ hp := by
    rw [h.input?] at hp
    refine ⟨p', hp, Option.map_congr fun o _ => ?_⟩
    exact hobs.same o hv (h.valid hv) h.toSame

theorem of_pruned (hobs : Observable registry see) (hv : g.Valid registry) (h : Pruned g g')
    (hstay : ∀ n node, g.Stays n node → g'.node? n = some node) : Carries see g g' where
  nodes_le := Nat.le_of_eq h.nodes_size.symm
  inputs_le := Nat.le_of_eq h.inputs_size.symm
  surface := h.surface
  node _ hl := h.node? hl
  stays hs := ⟨hstay _ _ hs, by rw [h.surface]; exact hs.2⟩
  input {i p'} _ hp := by
    refine ⟨p', h.input? hp, Option.map_congr fun o ho => ?_⟩
    obtain ⟨out, hout⟩ := h.coherent.source_live (source?_eq_some.2 ⟨p', hp, ho⟩)
    exact hobs.pruned hv h hout

/-- What feeds the inputs of a node that is still there. -/
theorem map_source? (h : Carries see g g') (hg : g.Coherent) (hg' : g'.Coherent) {n : NodeId}
    {node node' : Node} (hn : g.node? n = some node) (hn' : g'.node? n = some node') :
    node' = node ∧ ∀ i ∈ node.inputs, (g'.source? i).map (see g') = (g.source? i).map (see g) := by
  obtain rfl : node' = node :=
    Option.some.inj ((h.node (lt_of_node? hn) hn').symm.trans hn)
  refine ⟨rfl, fun i hi => ?_⟩
  obtain ⟨p', hp', -⟩ := owner?_eq_some.1 ((hg'.mem_inputs hn').1 hi)
  obtain ⟨q, hq, -⟩ := owner?_eq_some.1 ((hg.mem_inputs hn).1 hi)
  obtain ⟨p, hp, he⟩ := h.input (lt_of_input? hq) hp'
  rw [source?, source?, hp, hp', Option.bind_some, Option.bind_some, he]

end Carries

/-- Where ports can always be seen, two sources that look the same are both missing, or show the
same. -/
theorem fed_of_map_eq {see : Graph → OutputId → Option α} {g g' : Graph}
    {source source' : Option OutputId} (hsee : ∀ o, source = some o → ∃ v, see g o = some v)
    (h : source'.map (see g') = source.map (see g)) :
    source = none ∧ source' = none ∨ ∃ o o' v, source = some o ∧ source' = some o' ∧
      see g o = some v ∧ see g' o' = some v := by
  cases source with
  | none => exact .inl ⟨rfl, Option.map_eq_none_iff.1 h⟩
  | some o =>
    obtain ⟨v, hv⟩ := hsee o rfl
    obtain ⟨o', hs', he⟩ := Option.map_eq_some_iff.1 h
    exact .inr ⟨o, o', v, rfl, hs', hv, he.trans hv⟩

/-- A rewrite whose new port looks like the anchor. -/
theorem Rewrite.carries {env : Environment} {rule : Rule} {n : NodeId} {g g' : Graph}
    {see : Graph → OutputId → α} (r : Rewrite env rule n g g') (hr : env.registry.Reached)
    (hv : g.Valid env.registry) (hc : rule.Checked env.registry)
    (hobs : Observable env.registry see)
    (hsee : see r.workspace.graph r.port.id = see r.workspace.graph r.anchor.id) :
    Carries see g g' := by
  have hb := r.built_spec hv hc hr
  have hred := r.redirected_valid hv hc hr
  obtain ⟨hp, hstay⟩ := r.collected
  have hsurface : r.redirected.surface = g.surface := r.redirect.surface.trans hb.grown.surface
  -- A port that is there at the end looked the same before the garbage was collected.
  have hend {o : OutputId} {out : OutputPort} (ho : g'.output? o = some out) :
      see g' o = see r.workspace.graph o :=
    (hobs.pruned hred hp ho).trans (hobs.redirected o hb.valid hred r.redirect hsee)
  constructor
  case nodes_le =>
    rw [hp.nodes_size, r.redirect.nodes]
    exact hb.grown.nodes_le
  case inputs_le =>
    rw [hp.inputs_size, r.redirect.inputs_size]
    exact hb.grown.inputs_le
  case surface => exact hp.surface.trans hsurface
  case node =>
    intro m node hm hl
    rw [← hb.grown.node? hm, ← r.redirect.node?]
    exact hp.node? hl
  case stays =>
    intro m node hs
    have hl : r.redirected.node? m = some node :=
      (r.redirect.node? m).trans (hb.grown.node?_eq_some hs.1)
    refine ⟨hstay m node ⟨hl, ?_⟩, ?_⟩
    · rw [hsurface]
      exact hs.2
    · rw [hp.surface, hsurface]
      exact hs.2
  case input =>
    intro i p' hi hl
    have hin := hp.input? hl
    rw [r.redirect.input?, hb.grown.input? hi, Option.map_eq_some_iff] at hin
    obtain ⟨p, hpi, rfl⟩ := hin
    refine ⟨p, hpi, ?_⟩
    cases hs : p.source with
    | none => simp [hs]
    | some o =>
      obtain ⟨out, hout⟩ := hv.coherent.source_live (source?_eq_some.2 ⟨p, hpi, hs⟩)
      have hold : see r.workspace.graph o = see g o := hobs.grown hv hb.valid hb.grown hout
      by_cases ho : o = r.anchor.id
      · subst ho
        simp only [hs, if_true, Option.map_some, Option.some.injEq] at hl ⊢
        obtain ⟨out', hout'⟩ := hp.coherent.source_live (source?_eq_some.2 ⟨_, hl, rfl⟩)
        rw [hend hout', hsee, hold]
      · have hne : ¬ some o = some r.anchor.id := fun h => ho (Option.some.inj h)
        simp only [hs, hne, if_false, Option.map_some, Option.some.injEq] at hl ⊢
        obtain ⟨out', hout'⟩ := hp.coherent.source_live (source?_eq_some.2 ⟨p, hl, hs⟩)
        rw [hend hout', hold]

/-- A run of rewrites whose new ports look like their anchors. -/
theorem Reaches.carries {env : Environment} {rules : RuleSet} {g g' : Graph}
    {see : Graph → OutputId → α} (hr : env.registry.Reached)
    (hrules : ∀ rule ∈ rules.ordered, rule.Checked env.registry) (hv : g.Valid env.registry)
    (hobs : Observable env.registry see)
    (hsee : ∀ {rule n g₁ g₂} (r : Rewrite env rule n g₁ g₂), rule ∈ rules.ordered →
      g₁.Valid env.registry →
      see r.workspace.graph r.port.id = see r.workspace.graph r.anchor.id)
    (h : Reaches env rules g g') : Carries see g g' := by
  induction h with
  | refl => exact .of_restored hobs hv (.refl hv.coherent)
  | restore h hs ih => exact ih.trans (.of_restored hobs (h.valid hr hrules hv) hs)
  | rewrite h hm r ih =>
    have hv₁ := h.valid hr hrules hv
    exact ih.trans (r.carries hr hv₁ (hrules _ hm) hobs (hsee r hm hv₁))

/-- Optimizing with rules whose new ports look like their anchors. -/
theorem Rewriting.optimize_carries {env : Environment} {rules : RuleSet} {g : Graph}
    {see : Graph → OutputId → α} {s : Rewriting} {result : Except RewriteError Report}
    (hr : env.registry.Reached) (hrules : ∀ rule ∈ rules.ordered, rule.Checked env.registry)
    (hv : g.Valid env.registry) (hobs : Observable env.registry see)
    (hsee : ∀ {rule n g₁ g₂} (r : Rewrite env rule n g₁ g₂), rule ∈ rules.ordered →
      g₁.Valid env.registry →
      see r.workspace.graph r.port.id = see r.workspace.graph r.anchor.id)
    (h : optimize env rules g = .ok (s, result)) : Carries see g s.graph := by
  obtain ⟨g₀, hp, hstay, hreach⟩ := optimize_reaches hr hrules hv h
  exact (Carries.of_pruned hobs hv hp hstay).trans
    (hreach.carries hr hrules (hp.valid hv) hobs hsee)

/-- Values that are computed along the flow. -/
theorem observable_fold (f : OutputPort → Node → List (Option α) → Option α) :
    Observable registry fun g o => g.fold f o where
  same _ hv hv' h := h.agree.fold hv.coherent hv.acyclic hv'.coherent hv'.acyclic trivial
  grown hv hv' h ho :=
    (h.agree hv.coherent).fold hv.coherent hv.acyclic hv'.coherent hv'.acyclic (lt_of_output? ho)
  pruned hv h ho :=
    (h.agree hv.coherent).fold hv.coherent hv.acyclic h.coherent (h.valid hv).acyclic ⟨_, ho⟩
  redirected o hv hv' h he := h.fold hv.coherent hv.acyclic hv'.acyclic he o

/-! ## Types and latencies -/

namespace Graph

/-- The type and the latency of a port. -/
def profile (g : Graph) (o : OutputId) : Option (DataType × Nat) :=
  (g.output? o).map fun p => (p.type, p.latency)

theorem profile_congr {g g' : Graph} {o : OutputId} (h : g'.bare? o = g.bare? o) :
    g'.profile o = g.profile o := by
  have hbare (g : Graph) : g.profile o = (g.bare? o).map fun p => (p.type, p.latency) := by
    rw [profile, bare?, Option.map_map]
    rfl
  rw [hbare, hbare, h]

end Graph

theorem observable_profile : Observable registry Graph.profile where
  same o _ _ h := profile_congr (h.bare? o)
  grown _ _ h ho := profile_congr (h.bare? (lt_of_output? ho))
  pruned _ h ho := by
    have hb := bare?_eq_some.2 ⟨_, ho, rfl⟩
    exact profile_congr (hb.trans (h.bare? hb).symm)
  redirected o _ _ h _ := profile_congr (h.bare? o)

theorem Rewrite.profile_eq {env : Environment} {rule : Rule} {n : NodeId} {g g' : Graph}
    (r : Rewrite env rule n g g') (hr : env.registry.Reached) (hv : g.Valid env.registry)
    (hc : rule.Checked env.registry) :
    r.workspace.graph.profile r.port.id = r.workspace.graph.profile r.anchor.id := by
  have hb := r.built_spec hv hc hr
  have ha : r.workspace.graph.profile r.anchor.id = g.profile r.anchor.id :=
    observable_profile.grown hv hb.valid hb.grown r.anchor_live
  rw [ha, profile, profile, r.port_live, r.anchor_live, Option.map_some, Option.map_some, r.type,
    r.latency]

/-- Optimizing with checked rules shows every input that stays a port of the same type and
latency. -/
theorem Rewriting.optimize_carries_profile {env : Environment} {rules : RuleSet} {g : Graph}
    {s : Rewriting} {result : Except RewriteError Report} (hr : env.registry.Reached)
    (hrules : ∀ rule ∈ rules.ordered, rule.Checked env.registry) (hv : g.Valid env.registry)
    (ho : optimize env rules g = .ok (s, result)) : Carries profile g s.graph :=
  optimize_carries hr hrules hv observable_profile
    (fun r hm hv₁ => r.profile_eq hr hv₁ (hrules _ hm)) ho

/-! ## The latency of a program -/

namespace Graph

variable {g g' : Graph}

/-- The latency of a port at the base rate is given by its type and latency. -/
theorem baseLatency_congr {o o' : OutputId} {out : OutputPort} (ho : g.output? o = some out)
    (h : g'.profile o' = g.profile o) : g'.baseLatency o' = g.baseLatency o := by
  rw [profile, profile, ho, Option.map_some, Option.map_eq_some_iff] at h
  obtain ⟨out', ho', he⟩ := h
  obtain ⟨ht, hl⟩ := Prod.mk.inj he
  simp only [baseLatency, output_eq_ok.2 ho, output_eq_ok.2 ho', ok_bind, ht, hl]

/-- Inputs that are fed with the same are late by the same. -/
theorem latencyFrom_congr (hg : g.Coherent) (l : List InputId)
    (h : ∀ i ∈ l, ∃ p p', g.input? i = some p ∧ g'.input? i = some p' ∧
      p'.source.map g'.profile = p.source.map g.profile) (most : Nat) :
    g'.latencyFrom most l = g.latencyFrom most l := by
  induction l generalizing most with
  | nil => simp only [latencyFrom]
  | cons i l ih =>
    obtain ⟨⟨p, p', hp, hp', hs⟩, hl⟩ := List.forall_mem_cons.1 h
    simp only [latencyFrom, source, input_eq_ok.2 hp, input_eq_ok.2 hp', Except.map, ok_bind]
    cases ho : p.source with
    | none =>
      rw [ho, Option.map_none, Option.map_eq_none_iff] at hs
      simp only [hs, ih hl]
    | some o =>
      rw [ho, Option.map_some, Option.map_eq_some_iff] at hs
      obtain ⟨o', ho', hprof⟩ := hs
      obtain ⟨out, hout⟩ := hg.source_live (source?_eq_some.2 ⟨p, hp, ho⟩)
      simp only [ho', baseLatency_congr hout hprof, ih hl]

theorem sinkLatency_congr (hg : g.Coherent) (hg' : g'.Coherent) (h : Carries profile g g')
    (sinks : List NodeId)
    (hs : ∀ n ∈ sinks, ∃ node, g.node? n = some node ∧ g'.node? n = some node) :
    g'.sinkLatency sinks = g.sinkLatency sinks := by
  have hnodes : sinks.filterMap g'.node? = sinks.filterMap g.node? := by
    refine List.filterMap_congr fun n hn => ?_
    obtain ⟨node, hl, hl'⟩ := hs n hn
    rw [hl, hl']
  have hinputs : g'.sinkInputs sinks = g.sinkInputs sinks := by
    rw [sinkInputs, sinkInputs, hnodes]
  rw [sinkLatency, sinkLatency, hinputs]
  refine latencyFrom_congr hg _ (fun i hi => ?_) 0
  obtain ⟨node, hnode, hi⟩ := List.mem_flatMap.1 hi
  obtain ⟨n, hn, hl⟩ := List.mem_filterMap.1 hnode
  obtain ⟨node', hl₁, hl₁'⟩ := hs n hn
  obtain rfl : node = node' := Option.some.inj (hl.symm.trans hl₁)
  obtain ⟨p', hp', -⟩ := owner?_eq_some.1 ((hg'.mem_inputs hl₁').1 hi)
  obtain ⟨q, hq, -⟩ := owner?_eq_some.1 ((hg.mem_inputs hl).1 hi)
  obtain ⟨p, hp, he⟩ := h.input (lt_of_input? hq) hp'
  exact ⟨p, p', hp, hp', he⟩

theorem totalLatency_congr (hg : g.Coherent) (hg' : g'.Coherent) (h : Carries profile g g')
    (hs : g.Surfaced) : g'.totalLatency = g.totalLatency := by
  have hpin (n : NodeId) (hn : n ∈ g.surface.pinned) :
      ∃ node, g.node? n = some node ∧ g'.node? n = some node := by
    obtain ⟨node, hl⟩ := hs n hn
    exact ⟨node, hl, (h.stays ⟨hl, .inl hn⟩).1⟩
  have hvoice := sinkLatency_congr hg hg' h g.surface.boundaryOutputs fun n hn =>
    hpin n (mem_pinned.2 (by simp [hn]))
  have heffect := sinkLatency_congr hg hg' h g.surface.outputs fun n hn =>
    hpin n (mem_pinned.2 (by simp [hn]))
  rw [totalLatency, totalLatency, h.surface, hvoice, heffect]

end Graph

end SignalGraph
