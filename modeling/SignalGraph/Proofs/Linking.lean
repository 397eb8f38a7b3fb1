import SignalGraph.Graph.Link
import SignalGraph.Proofs.Coherence
import SignalGraph.Proofs.Outcome

/-!
# What changing links does

Links change one input at a time, together with the output at the other end (`rewire`). A change
that keeps both ends in step keeps a graph coherent (`InStep.coherent`); `unlink` and `link` are
such changes. `connect` and `redirect` are then known by what they do to the inputs:

* `connect_spec`: one input is fed from the new source, and all else is `Rewired`;
* `redirect_spec`: the inputs fed from the old port are fed from the new one (`Redirected`).
-/

namespace SignalGraph

namespace Graph

/-- The same nodes and ports, linked in another way. -/
structure Rewired (g g' : Graph) : Prop where
  coherent : g'.Coherent
  nodes : g'.nodes = g.nodes
  inputs_size : g'.inputs.size = g.inputs.size
  outputs_size : g'.outputs.size = g.outputs.size
  bare? (o : OutputId) : g'.bare? o = g.bare? o
  surface : g'.surface = g.surface

namespace Rewired

variable {g g' g'' : Graph}

theorem refl (hg : g.Coherent) : Rewired g g :=
  ⟨hg, rfl, rfl, rfl, fun _ => rfl, rfl⟩

theorem trans (h : Rewired g g') (h' : Rewired g' g'') : Rewired g g'' :=
  ⟨h'.coherent, h'.nodes.trans h.nodes, h'.inputs_size.trans h.inputs_size,
    h'.outputs_size.trans h.outputs_size, fun o => (h'.bare? o).trans (h.bare? o),
    h'.surface.trans h.surface⟩

theorem node? (h : Rewired g g') (n : NodeId) : g'.node? n = g.node? n := by
  rw [Graph.node?, Graph.node?, h.nodes]

theorem output?_isSome (h : Rewired g g') {o : OutputId} {port : OutputPort}
    (ho : g.output? o = some port) : ∃ port', g'.output? o = some port' := by
  obtain ⟨port', h', -⟩ := output?_of_bare? (h.bare? o) ho
  exact ⟨port', h'⟩

end Rewired

/-- One input with another source, and one output with other consumers. -/
def rewire (g : Graph) (i : InputId) (port : InputPort) (next : Option OutputId) (o : OutputId)
    (out : OutputPort) (consumers : List InputId) : Graph :=
  { g with
    inputs := g.inputs.set i.index { port with source := next }
    outputs := g.outputs.set o.index { out with consumers } }

section Rewire

variable {g : Graph} {i : InputId} {port : InputPort} {next : Option OutputId} {o : OutputId}
  {out : OutputPort} {cs : List InputId}

theorem input?_rewire (hi : g.input? i = some port) (j : InputId) :
    (g.rewire i port next o out cs).input? j
      = if j = i then some { port with source := next } else g.input? j := by
  have hk := Arena.get?_set (x := { port with source := next }) (k := j.index) (lt_of_input? hi)
  by_cases hj : j = i
  · simpa [hj, rewire, input?] using hk
  · have hne : j.index ≠ i.index := fun he => hj (Id.ext_index he)
    simpa [hj, hne, rewire, input?] using hk

theorem output?_rewire (ho : g.output? o = some out) (p : OutputId) :
    (g.rewire i port next o out cs).output? p
      = if p = o then some { out with consumers := cs } else g.output? p := by
  have hk := Arena.get?_set (x := { out with consumers := cs }) (k := p.index) (lt_of_output? ho)
  by_cases hp : p = o
  · simpa [hp, rewire, output?] using hk
  · have hne : p.index ≠ o.index := fun he => hp (Id.ext_index he)
    simpa [hp, hne, rewire, output?] using hk

theorem source?_rewire (hi : g.input? i = some port) (j : InputId) :
    (g.rewire i port next o out cs).source? j = if j = i then next else g.source? j := by
  rw [source?, input?_rewire hi]
  split
  · rfl
  · rfl

theorem owner?_rewire (hi : g.input? i = some port) (j : InputId) :
    (g.rewire i port next o out cs).owner? j = g.owner? j := by
  rw [owner?, input?_rewire hi]
  split
  · rename_i hj
    rw [hj, owner?, hi]
    rfl
  · rfl

theorem bare?_rewire (ho : g.output? o = some out) (p : OutputId) :
    (g.rewire i port next o out cs).bare? p = g.bare? p := by
  rw [bare?, output?_rewire ho]
  split
  · rename_i hp
    rw [hp, bare?, ho]
    rfl
  · rfl

theorem maker?_rewire (ho : g.output? o = some out) (p : OutputId) :
    (g.rewire i port next o out cs).maker? p = g.maker? p :=
  maker?_congr (bare?_rewire ho p)

/-- A change of one link, in step at both ends: the input had no other output than `o` as its
source before, has no other after, and is a consumer of `o` just if `o` is its source. -/
structure InStep (g : Graph) (i : InputId) (port : InputPort) (next : Option OutputId)
    (o : OutputId) (cs : List InputId) : Prop where
  before (p : OutputId) : port.source = some p → p = o
  after (p : OutputId) : next = some p → p = o
  ascends : Ascends cs
  mem_iff (j : InputId) : j ∈ cs ↔ if j = i then next = some o else g.source? j = some o

/-- The consumers of a port are still the inputs that name it as their source. -/
theorem InStep.mem_consumers (h : InStep g i port next o cs) (hg : g.Coherent)
    (hi : g.input? i = some port) (ho : g.output? o = some out) {p : OutputId} {q : OutputPort}
    {j : InputId} (hq : (g.rewire i port next o out cs).output? p = some q) :
    j ∈ q.consumers ↔ (g.rewire i port next o out cs).source? j = some p := by
  rw [output?_rewire ho] at hq
  rw [source?_rewire hi]
  split at hq
  · rename_i hp
    cases hq
    subst hp
    rw [h.mem_iff]
    split
    · rfl
    · rfl
  · rename_i hp
    rw [hg.mem_consumers hq]
    split
    · rename_i hj
      have hsource : g.source? j = port.source := by simp [source?, hj, hi]
      rw [hsource]
      exact ⟨fun hs => absurd (h.before p hs) hp, fun hs => absurd (h.after p hs) hp⟩
    · rfl

theorem InStep.coherent (h : InStep g i port next o cs) (hg : g.Coherent)
    (hi : g.input? i = some port) (ho : g.output? o = some out) :
    (g.rewire i port next o out cs).Coherent where
  counters := by
    have hsize : (g.rewire i port next o out cs).inputs.size = g.inputs.size := Arena.size_set
    have hsize' : (g.rewire i port next o out cs).outputs.size = g.outputs.size := Arena.size_set
    rw [hsize, hsize']
    exact hg.counters
  node_id := hg.node_id
  input_id {j q} hq := by
    rw [input?_rewire hi] at hq
    split at hq
    · rename_i hj
      cases hq
      exact (hg.input_id hi).trans hj.symm
    · exact hg.input_id hq
  output_id {p q} hq := by
    rw [output?_rewire ho] at hq
    split at hq
    · rename_i hp
      cases hq
      exact (hg.output_id ho).trans hp.symm
    · exact hg.output_id hq
  mem_inputs hn := by
    rw [owner?_rewire hi]
    exact hg.mem_inputs hn
  mem_outputs hn := by
    rw [maker?_rewire ho]
    exact hg.mem_outputs hn
  inputs_nodup := hg.inputs_nodup
  outputs_nodup := hg.outputs_nodup
  owner_live hj := by
    rw [owner?_rewire hi] at hj
    exact hg.owner_live hj
  maker_live hp := by
    rw [maker?_rewire ho] at hp
    exact hg.maker_live hp
  mem_consumers := h.mem_consumers hg hi ho
  source_live {j p} hj := by
    rw [source?_rewire hi] at hj
    rw [output?_rewire ho]
    split
    · exact ⟨_, rfl⟩
    · rename_i hp
      split at hj
      · exact absurd (h.after p hj) hp
      · exact hg.source_live hj
  ascends hq := by
    rw [output?_rewire ho] at hq
    split at hq
    · cases hq
      exact h.ascends
    · exact hg.ascends hq

theorem InStep.rewired (h : InStep g i port next o cs) (hg : g.Coherent)
    (hi : g.input? i = some port) (ho : g.output? o = some out) :
    Rewired g (g.rewire i port next o out cs) where
  coherent := h.coherent hg hi ho
  nodes := rfl
  inputs_size := Arena.size_set
  outputs_size := Arena.size_set
  bare? := bare?_rewire ho
  surface := rfl

end Rewire

theorem input_eq_ok {g : Graph} {i : InputId} {port : InputPort} :
    g.input i = .ok port ↔ g.input? i = some port := by
  unfold input
  split
  · rename_i h
    simp [h]
  · rename_i h
    simp [h]

theorem output_eq_ok {g : Graph} {o : OutputId} {port : OutputPort} :
    g.output o = .ok port ↔ g.output? o = some port := by
  unfold output
  split
  · rename_i h
    simp [h]
  · rename_i h
    simp [h]

theorem node_eq_ok {g : Graph} {n : NodeId} {node : Node} :
    g.node n = .ok node ↔ g.node? n = some node := by
  unfold Graph.node
  split
  · rename_i h
    simp [h]
  · rename_i h
    simp [h]

theorem unlink_spec {g : Graph} (hg : g.Coherent) {i : InputId} {port : InputPort}
    (hi : g.input? i = some port) :
    ∃ g', g.unlink i = .ok g' ∧ Rewired g g' ∧
      ∀ j, g'.input? j = if j = i then some { port with source := none } else g.input? j := by
  cases hs : port.source with
  | none =>
    refine ⟨g, ?_, .refl hg, fun j => ?_⟩
    · simp [unlink, input_eq_ok.2 hi, hs]
    · split
      · rename_i hj
        rw [hj, hi, ← hs]
      · rfl
  | some o =>
    have hso : g.source? i = some o := source?_eq_some.2 ⟨port, hi, hs⟩
    obtain ⟨out, ho⟩ := hg.source_live hso
    have hmem : i ∈ out.consumers := (hg.mem_consumers ho).2 hso
    refine ⟨g.rewire i port none o out (out.consumers.filter (· ≠ i)), ?_, ?_, input?_rewire hi⟩
    · simp [unlink, input_eq_ok.2 hi, hs, output_eq_ok.2 ho, OutputPort.detach, hmem, rewire]
    · have hstep : InStep g i port none o (out.consumers.filter (· ≠ i)) :=
        { before := fun p hp => Option.some.inj (hp.symm.trans hs)
          after := by simp
          ascends := (hg.ascends ho).filter _
          mem_iff := fun j => by
            rw [List.mem_filter, hg.mem_consumers ho]
            by_cases hj : j = i <;> simp [hj] }
      exact hstep.rewired hg hi ho

theorem link_spec {g : Graph} (hg : g.Coherent) {i : InputId} {port : InputPort} {o : OutputId}
    {out : OutputPort} (hi : g.input? i = some port) (hs : port.source = none)
    (ho : g.output? o = some out) :
    ∃ g', g.link i o = .ok g' ∧ Rewired g g' ∧
      ∀ j, g'.input? j = if j = i then some { port with source := some o } else g.input? j := by
  have hmem : i ∉ out.consumers := by
    rw [hg.mem_consumers ho, source?, hi]
    simp [hs]
  refine ⟨g.rewire i port (some o) o out (Ascending.insert i out.consumers), ?_, ?_,
    input?_rewire hi⟩
  · simp [link, input_eq_ok.2 hi, output_eq_ok.2 ho, OutputPort.attach, hmem, rewire]
  · have hstep : InStep g i port (some o) o (Ascending.insert i out.consumers) :=
      { before := by simp [hs]
        after := fun p hp => (Option.some.inj hp).symm
        ascends := Ascending.ascends_insert (hg.ascends ho)
        mem_iff := fun j => by
          rw [Ascending.mem_insert, hg.mem_consumers ho]
          by_cases hj : j = i <;> simp [hj] }
    exact hstep.rewired hg hi ho

/-- Connecting an input changes its source, and nothing else but the lists of consumers. -/
theorem connect_spec {g : Graph} (hg : g.Coherent) {i : InputId} {port : InputPort}
    (hi : g.input? i = some port) (next : Option OutputId)
    (hn : ∀ o, next = some o → ∃ out, g.output? o = some out) :
    ∃ g', g.connect i next = .ok g' ∧ Rewired g g' ∧
      ∀ j, g'.input? j = if j = i then some { port with source := next } else g.input? j := by
  obtain ⟨g₁, hu, hr, hin⟩ := unlink_spec hg hi
  cases next with
  | none => exact ⟨g₁, hu, hr, hin⟩
  | some o =>
    obtain ⟨out, ho⟩ := hn o rfl
    obtain ⟨out₁, ho₁⟩ := hr.output?_isSome ho
    have hi₁ : g₁.input? i = some { port with source := none } := by simp [hin]
    obtain ⟨g₂, hl, hr₂, hin₂⟩ := link_spec hr.coherent hi₁ rfl ho₁
    refine ⟨g₂, ?_, hr.trans hr₂, fun j => ?_⟩
    · simp [connect, output_eq_ok.2 ho, hu, hl]
    · rw [hin₂, hin]
      split
      · rfl
      · rfl

theorem connectAll_spec {o : OutputId} (l : List InputId) {g : Graph} (hg : g.Coherent)
    {out : OutputPort} (ho : g.output? o = some out)
    (hl : ∀ i ∈ l, ∃ port, g.input? i = some port) :
    ∃ g', g.connectAll o l = .ok g' ∧ Rewired g g' ∧
      ∀ j, g'.input? j = if j ∈ l then (g.input? j).map fun p => { p with source := some o }
        else g.input? j := by
  induction l generalizing g out with
  | nil => exact ⟨g, rfl, .refl hg, by simp⟩
  | cons i l ih =>
    obtain ⟨port, hi⟩ := hl i List.mem_cons_self
    obtain ⟨g₁, hc, hr, hin⟩ := connect_spec hg hi (some o) fun p hp => by
      cases hp
      exact ⟨out, ho⟩
    obtain ⟨out₁, ho₁⟩ := hr.output?_isSome ho
    obtain ⟨g₂, hc₂, hr₂, hin₂⟩ := ih hr.coherent ho₁ fun j hj => by
      rw [hin]
      split
      · exact ⟨_, rfl⟩
      · exact hl j (List.mem_cons_of_mem _ hj)
    refine ⟨g₂, ?_, hr.trans hr₂, fun j => ?_⟩
    · simp [connectAll, hc, hc₂]
    · rw [hin₂, hin]
      by_cases hj : j = i
      · simp [hj, hi]
      · simp [hj]

/-- The same nodes and ports, and `new` feeds in addition what `old` fed. -/
structure Redirected (g : Graph) (old new : OutputId) (g' : Graph) : Prop extends
    Rewired g g' where
  input? (j : InputId) : g'.input? j = (g.input? j).map fun p =>
    if p.source = some old then { p with source := some new } else p

namespace Redirected

variable {g g' : Graph} {old new : OutputId}

theorem owner? (h : Redirected g old new g') (j : InputId) : g'.owner? j = g.owner? j := by
  rw [Graph.owner?, Graph.owner?, h.input?, Option.map_map]
  congr 1
  funext p
  simp only [Function.comp_apply]
  split
  · rfl
  · rfl

theorem source? (h : Redirected g old new g') (j : InputId) :
    g'.source? j = if g.source? j = some old then some new else g.source? j := by
  rw [Graph.source?, Graph.source?, h.input?]
  cases g.input? j with
  | none => rfl
  | some p => by_cases hs : p.source = some old <;> simp [hs]

theorem maker? (h : Redirected g old new g') (o : OutputId) : g'.maker? o = g.maker? o :=
  maker?_congr (h.bare? o)

end Redirected

/-- Redirecting feeds from `new` what was fed from `old`. -/
theorem redirect_spec {g : Graph} (hg : g.Coherent) {old new : OutputId} {out out' : OutputPort}
    (hne : old ≠ new) (ho : g.output? old = some out) (hn : g.output? new = some out') :
    ∃ g', g.redirect old new = .ok (g', out.consumers.length) ∧ Redirected g old new g' := by
  obtain ⟨g', hc, hr, hin⟩ := connectAll_spec out.consumers hg hn fun i hi => by
    obtain ⟨port, hp, -⟩ := source?_eq_some.1 ((hg.mem_consumers ho).1 hi)
    exact ⟨port, hp⟩
  refine ⟨g', ?_, hr, fun j => ?_⟩
  · simp [redirect, hne, output_eq_ok.2 ho, hc]
  · rw [hin]
    simp only [hg.mem_consumers ho]
    cases hj : g.input? j with
    | none => simp
    | some p => by_cases hs : p.source = some old <;> simp [source?, hj, hs]

end Graph

end SignalGraph
