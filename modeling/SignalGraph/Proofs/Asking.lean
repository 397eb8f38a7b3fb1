import SignalGraph.Graph.Collect
import SignalGraph.Graph.Known
import SignalGraph.Proofs.Flow

/-!
# Asking for what is there

The functions that begin with `ask` fault where a node or a port that they come to is dead. In a
coherent graph nothing that is live leads to anything dead: a node lists live ports, a port belongs
to a live node, and both ends of a link are there. So asking about something live does not fault,
and gives what the function gives that passes over what is dead (`Coherent.askSources_eq`,
`Coherent.askConsumers_eq`, `Coherent.askGarbage_eq`, `Coherent.askLiteral_eq`,
`Coherent.askValue_eq`).
-/

namespace SignalGraph

namespace Graph

variable {g g' : Graph} {n : NodeId} {node : Node} {i : InputId} {o : OutputId} {port : OutputPort}

/-! ## What is live -/

theorem Coherent.input_live (hg : g.Coherent) (hn : g.node? n = some node) (hi : i ∈ node.inputs) :
    ∃ port, g.input? i = some port := by
  obtain ⟨port, hp, -⟩ := owner?_eq_some.1 ((hg.mem_inputs hn).1 hi)
  exact ⟨port, hp⟩

theorem Coherent.output_live (hg : g.Coherent) (hn : g.node? n = some node)
    (ho : o ∈ node.outputs) : ∃ port, g.output? o = some port := by
  obtain ⟨port, hp, -⟩ := maker?_eq_some.1 ((hg.mem_outputs hn).1 ho)
  exact ⟨port, hp⟩

theorem source_eq_ok {port : InputPort} (hi : g.input? i = some port) :
    g.source i = .ok (g.source? i) := by
  rw [source, input_eq_ok.2 hi, source?, hi]
  rfl

/-! ## Links -/

theorem Coherent.askFeeders_eq (hg : g.Coherent) {l : List InputId}
    (h : ∀ i ∈ l, ∃ port, g.input? i = some port) :
    g.askFeeders l = .ok (l.filterMap g.feeder?) := by
  induction l with
  | nil => rfl
  | cons i l ih =>
    obtain ⟨⟨port, hp⟩, hl⟩ := List.forall_mem_cons.1 h
    rw [askFeeders, source_eq_ok hp, ok_bind]
    cases hs : g.source? i with
    | none =>
      have hnone : g.feeder? i = none := by rw [feeder?, hs]; rfl
      rw [List.filterMap_cons_none hnone]
      exact ih hl
    | some o =>
      obtain ⟨out, ho⟩ := hg.source_live hs
      have hsome : g.feeder? i = some out.node := by
        rw [feeder?, hs, Option.bind_some, ho]
        rfl
      rw [List.filterMap_cons_some hsome]
      simp [output_eq_ok.2 ho, ih hl]

theorem Coherent.askSources_eq (hg : g.Coherent) (hn : g.node? n = some node) :
    g.askSources n = .ok (g.sources n) := by
  rw [askSources, node_eq_ok.2 hn, ok_bind, hg.askFeeders_eq fun i hi => hg.input_live hn hi,
    sources, hn]

theorem Coherent.askFed_eq (hg : g.Coherent) (ho : g.output? o = some port) :
    g.askFed o = .ok (g.fed o) := by
  rw [askFed, output_eq_ok.2 ho, ok_bind, fed, ho]
  refine mapM_ok_filterMap fun i hi => ?_
  obtain ⟨input, hin, -⟩ := source?_eq_some.1 ((hg.mem_consumers ho).1 hi)
  exact ⟨input.node, by simp [input_eq_ok.2 hin], by simp [hin]⟩

theorem Coherent.askConsumers_eq (hg : g.Coherent) (hn : g.node? n = some node) :
    g.askConsumers n = .ok (g.consumers n) := by
  have hfed : node.outputs.mapM g.askFed = .ok (node.outputs.map g.fed) := by
    refine mapM_ok fun o ho => ?_
    obtain ⟨port, hp⟩ := hg.output_live hn ho
    exact hg.askFed_eq hp
  rw [askConsumers, node_eq_ok.2 hn, ok_bind, hfed, consumers, hn]
  rfl

/-! ## Garbage -/

theorem Coherent.askGarbage_eq (hg : g.Coherent) (n : NodeId) :
    g.askGarbage n = .ok (g.isGarbage n) := by
  unfold askGarbage isGarbage
  cases hn : g.node? n with
  | none => rfl
  | some node =>
    have hall : (node.outputs.allM fun o => do
        return (← g.output o).consumers.isEmpty : Except Fault Bool)
        = .ok (node.outputs.all g.isUnused) := by
      refine allM_ok fun o ho => ?_
      obtain ⟨port, hp⟩ := hg.output_live hn ho
      simp [output_eq_ok.2 hp, isUnused, hp]
    simp only [hall]
    by_cases hpin : n ∈ g.surface.pinned
    · simp [hpin]
    · cases hkept : node.kind.isKept with
      | true => simp [hpin]
      | false => simp [hpin]

theorem Coherent.isGarbage_of_ask (hg : g.Coherent) {garbage : Bool}
    (h : g.askGarbage n = .ok garbage) : g.isGarbage n = garbage :=
  Except.ok.inj ((hg.askGarbage_eq n).symm.trans h)

/-- Taking a node out is removing it. -/
theorem Coherent.takeOut_eq_ok (hg : g.Coherent) {l : List NodeId} :
    g.takeOut n = .ok (g', l) ↔ g.remove n = .ok g' ∧ l = g.sources n := by
  simp only [takeOut, bind_eq_ok, pure_eq_ok, Except.ok.injEq, Prod.mk.injEq]
  constructor
  · rintro ⟨l', hl', g₁, hr, rfl, rfl⟩
    obtain ⟨node, hn, -⟩ := bind_eq_ok.1 hl'
    rw [hg.askSources_eq (node_eq_ok.1 hn)] at hl'
    exact ⟨hr, (Except.ok.inj hl').symm⟩
  · rintro ⟨hr, rfl⟩
    obtain ⟨node, hn, -⟩ := bind_eq_ok.1 hr
    exact ⟨_, hg.askSources_eq (node_eq_ok.1 hn), g', hr, rfl, rfl⟩

/-! ## Known values -/

theorem askLiteral_eq (ho : g.output? o = some port) (hn : g.node? port.node = some node) :
    g.askLiteral o = .ok (g.literal? o) := by
  simp only [askLiteral, literal?, output_eq_ok.2 ho, ok_bind, node_eq_ok.2 hn, ho, hn,
    Option.bind_eq_bind, Option.bind_some]
  cases node.kind <;> rfl

theorem Coherent.askLiteral_eq (hg : g.Coherent) (ho : g.output? o = some port) :
    g.askLiteral o = .ok (g.literal? o) := by
  obtain ⟨node, hn, -⟩ := hg.node_of_output? ho
  exact Graph.askLiteral_eq ho hn

theorem literal?_of_ask {value? : Option Literal} (h : g.askLiteral o = .ok value?) :
    g.literal? o = value? := by
  obtain ⟨port, hp, hask⟩ := bind_eq_ok.1 h
  obtain ⟨node, hn, -⟩ := bind_eq_ok.1 hask
  exact Except.ok.inj ((askLiteral_eq (output_eq_ok.1 hp) (node_eq_ok.1 hn)).symm.trans h)

/-- By induction on the depth: what feeds a live node is live. -/
theorem Coherent.askValueWithin_eq (hg : g.Coherent) (depth : Nat)
    (ho : g.output? o = some port) :
    (g.askValueWithin depth o).run = .ok (g.valueWithin depth o) := by
  induction depth generalizing o port with
  | zero => rfl
  | succ depth ih =>
    obtain ⟨node, hn, -⟩ := hg.node_of_output? ho
    have hparts : (node.inputs.mapM fun i => do
        g.askValueWithin depth (← OptionT.mk (g.source i))).run
        = .ok (node.inputs.mapM fun i => do g.valueWithin depth (← g.source? i)) := by
      refine optionT_mapM_ok fun i hi => ?_
      obtain ⟨input, hin⟩ := hg.input_live hn hi
      refine optionT_bind_ok (source_eq_ok hin) fun source hs => ?_
      obtain ⟨out, hout⟩ := hg.source_live hs
      exact ih hout
    simp only [askValueWithin, valueWithin, output_eq_ok.2 ho, node_eq_ok.2 hn, ho, hn,
      optionT_lift_ok_bind, Option.bind_eq_bind, Option.bind_some]
    refine optionT_bind_ok ?_ fun _ _ => ?_
    · cases port.type.isConstant <;> rfl
    · cases node.kind with
      | array element => exact optionT_bind_ok hparts fun _ _ => rfl
      | struct fields => exact optionT_bind_ok hparts fun _ _ => rfl
      | _ => rfl

theorem Coherent.askValue_eq (hg : g.Coherent) (ho : g.output? o = some port) :
    g.askValue o = .ok (g.value? o) :=
  hg.askValueWithin_eq _ ho

theorem askValue_of_dead (ho : g.output? o = none) : g.askValue o = .error (.deadOutput o) := by
  have hdead : g.output o = .error (.deadOutput o) := by rw [output, ho]
  rw [askValue, askValueWithin, hdead]
  rfl

theorem Coherent.value?_of_ask (hg : g.Coherent) {value? : Option Value}
    (h : g.askValue o = .ok value?) : g.value? o = value? := by
  cases ho : g.output? o with
  | none => cases h.symm.trans (askValue_of_dead ho)
  | some port => exact Except.ok.inj ((hg.askValue_eq ho).symm.trans h)

end Graph

end SignalGraph
