import SignalGraph.Proofs.SafeRewriting

/-!
# Compilations do not fault

Every plan begins with loading. After it there is a valid graph with sound types, each pass keeps it
so (`runPass_sound`), and on such a graph no pass can fault, except that a number may outgrow its 32
bits (`safe_runPass`). So a compilation ends with an answer or with an overflow
(`run_returns_or_overflows`).
-/

namespace SignalGraph

open SignalGraph.Graph

/-! ## Latency -/

namespace Graph

variable {g : Graph}

theorem baseLatency_answers (ht : g.Typed) {o : OutputId} {port : OutputPort}
    (ho : g.output? o = some port) : ∃ latency, g.baseLatency o = .ok latency := by
  simp only [baseLatency, output_eq_ok.2 ho, ok_bind]
  split
  · rename_i u hu
    have hpos : 0 < u := (ht.output? ho).factor_pos hu
    rw [Word.divCeil, if_neg (Nat.ne_of_gt hpos)]
    exact ⟨_, rfl⟩
  · exact ⟨_, rfl⟩

theorem latencyFrom_answers (hg : g.Coherent) (ht : g.Typed) (most : Nat) (l : List InputId)
    (hl : ∀ i ∈ l, ∃ n, g.owner? i = some n) : ∃ latency, g.latencyFrom most l = .ok latency := by
  induction l generalizing most with
  | nil => exact ⟨most, rfl⟩
  | cons i l ih =>
    obtain ⟨hi, hl⟩ := List.forall_mem_cons.1 hl
    obtain ⟨source, hs⟩ := exists_source hi
    simp only [latencyFrom, hs, ok_bind]
    cases source with
    | none => exact ih most hl
    | some o =>
      obtain ⟨port, hp, hsource⟩ := map_eq_ok.1 hs
      obtain ⟨out, hout⟩ :=
        hg.source_live (source?_eq_some.2 ⟨port, input_eq_ok.1 hp, hsource⟩)
      obtain ⟨base, hbase⟩ := baseLatency_answers ht hout
      simp only [hbase, ok_bind]
      exact ih _ hl

theorem Coherent.sinkInputs_owned (hg : g.Coherent) {sinks : List NodeId} :
    ∀ i ∈ g.sinkInputs sinks, ∃ n, g.owner? i = some n := by
  intro i hi
  simp only [sinkInputs, List.mem_flatMap, List.mem_filterMap] at hi
  obtain ⟨node, ⟨n, -, hn⟩, hi⟩ := hi
  exact ⟨n, (hg.mem_inputs hn).1 hi⟩

theorem sinkLatency_answers (hg : g.Coherent) (ht : g.Typed) (sinks : List NodeId) :
    ∃ latency, g.sinkLatency sinks = .ok latency :=
  latencyFrom_answers hg ht 0 _ hg.sinkInputs_owned

theorem safe_totalLatency (hg : g.Coherent) (ht : g.Typed) : Safe g.totalLatency := by
  obtain ⟨voice, hvoice⟩ := sinkLatency_answers hg ht g.surface.boundaryOutputs
  obtain ⟨effect, heffect⟩ := sinkLatency_answers hg ht g.surface.outputs
  rw [totalLatency, hvoice, ok_bind, heffect, ok_bind]
  exact Word.safe_add voice effect

end Graph

/-! ## Passes -/

namespace Compilation

variable {c : Compilation} {e : Effect} {p : Pass}

/-- The compilation has a graph that its passes can work on. -/
def Sound (c : Compilation) : Prop :=
  ∃ g, c.graph = some g ∧ g.Valid c.env.registry ∧ g.Typed

section

variable (hr : c.env.registry.Reached)
  (hrules : ∀ rule ∈ c.rules.ordered, rule.Checked c.env.registry)

include hr

theorem safe_loadGraph : Safe (c.runPass .loadGraph) := by
  refine (c.description.build_safe hr).bind fun r _ => ?_
  obtain ⟨runs, r⟩ := r
  cases r with
  | error e => exact safe_ok _
  | ok g => exact safe_ok _

include hrules

theorem safe_runPass (hs : c.Sound) : Safe (c.runPass p) := by
  obtain ⟨g, hg, hv, ht⟩ := hs
  cases p with
  | loadGraph => exact safe_loadGraph hr
  | optimize =>
    simp only [runPass, Compilation.optimize, loaded, hg, ok_bind]
    refine (Rewriting.optimize_safe hr hrules hv ht).bind fun r _ => ?_
    obtain ⟨s, result⟩ := r
    cases result with
    | error e => exact safe_ok _
    | ok report => exact safe_ok _
  | verify =>
    simp only [runPass, Compilation.verify, loaded, hg, hv.coherent.askVerify_eq, ok_bind]
    exact safe_ok _
  | latency =>
    simp only [runPass, Compilation.latency, loaded, hg, ok_bind, updateLatency]
    exact ((safe_totalLatency hv.coherent ht).bind fun _ _ => safe_ok _).bind fun _ _ => safe_ok _

end

/-- A pass without an error leaves a graph that the next pass can work on. -/
theorem runPass_sound (hr : c.env.registry.Reached)
    (hrules : ∀ rule ∈ c.rules.ordered, rule.Checked c.env.registry)
    (hs : p = .loadGraph ∨ c.Sound) (h : c.runPass p = .ok e)
    (hd : e.diagnostics.any Diagnostic.isError = false) : e.compilation.Sound := by
  cases p with
  | loadGraph =>
    obtain ⟨runs, g, hb, hc⟩ := loadGraph_eq_ok h hd
    rw [hc]
    exact ⟨g, rfl, (Description.build_loaded hr hb).valid, Description.build_typed hb⟩
  | optimize =>
    obtain ⟨g, hg, hv, ht⟩ := hs.resolve_left (by simp)
    obtain ⟨s, result, ho, hgraph⟩ := optimize_eq_ok hg h
    refine ⟨s.graph, hgraph, ?_, Rewriting.optimize_typed hr hrules hv ht ho⟩
    rw [(runPass_given h).1]
    exact Rewriting.optimize_valid hr hrules hv ho
  | verify =>
    obtain ⟨g, hg, hv, ht⟩ := hs.resolve_left (by simp)
    simp only [runPass, Compilation.verify, loaded, hg, hv.coherent.askVerify_eq, ok_bind] at h
    cases h
    exact ⟨g, hg, hv, ht⟩
  | latency =>
    obtain ⟨g, hg, hv, ht⟩ := hs.resolve_left (by simp)
    simp only [runPass, Compilation.latency, loaded, hg, ok_bind, updateLatency] at h
    obtain ⟨g', hg', h⟩ := bind_eq_ok.1 h
    obtain ⟨latency, -, hg'⟩ := bind_eq_ok.1 hg'
    cases hg'
    cases h
    exact ⟨_, rfl, ⟨hv.coherent.withSurface _, hv.acyclic, hv.fits⟩, ht⟩

/-- What a run of passes does: it ends with an overflow, or with an answer. Then there is a graph in
order, unless a pass reported an error. -/
def Returns (x : Except Fault (Compilation × Trace)) : Prop :=
  Safe x ∧ ∀ c' t, x = .ok (c', t) → t.failing = none → c'.Sound

/-- One pass, and then the rest. -/
theorem Returns.cons {rest : List Pass} (hr : c.env.registry.Reached)
    (hrules : ∀ rule ∈ c.rules.ordered, rule.Checked c.env.registry)
    (hs : p = .loadGraph ∨ c.Sound)
    (hrest : ∀ e, c.runPass p = .ok e → e.after.Sound → Returns (e.after.runPasses rest)) :
    Returns (c.runPasses (p :: rest)) := by
  have hnext {e : Effect} (he : c.runPass p = .ok e)
      (hd : e.diagnostics.any Diagnostic.isError = false) : Returns (e.after.runPasses rest) :=
    hrest e he (runPass_sound hr hrules hs he hd)
  constructor
  · have hsafe : Safe (c.runPass p) := by
      rcases hs with rfl | hs
      · exact safe_loadGraph hr
      · exact safe_runPass hr hrules hs
    simp only [runPasses]
    refine hsafe.bind fun e he => ?_
    split
    · exact safe_ok _
    · rename_i hd
      exact (hnext he (Bool.eq_false_iff.2 hd)).1.bind fun _ _ => safe_ok _
  · intro c' t h hf
    obtain ⟨e, he, ⟨-, hfail, -⟩ | ⟨hd, later, hlater, hfail⟩⟩ := runPasses_cons h
    · cases hf.symm.trans hfail
    · exact (hnext he hd).2 c' later hlater (hfail ▸ hf)

theorem runPasses_returns (hr : c.env.registry.Reached)
    (hrules : ∀ rule ∈ c.rules.ordered, rule.Checked c.env.registry) (hs : c.Sound)
    (ps : List Pass) : Returns (c.runPasses ps) := by
  induction ps generalizing c with
  | nil =>
    refine ⟨safe_ok _, ?_⟩
    rintro c' t ⟨⟩ -
    exact hs
  | cons p ps ih =>
    refine .cons hr hrules (.inr hs) fun e he hse => ?_
    obtain ⟨henv, hgiven⟩ := runPass_given he
    exact ih (by rwa [Effect.after_env, henv])
      (by rwa [Effect.after_rules, Effect.after_env, henv, hgiven]) hse

theorem plan_eq_cons (terminal : Pass) (optimizing : Bool) :
    ∃ rest, plan terminal optimizing = .loadGraph :: rest := by
  cases terminal <;> cases optimizing <;> exact ⟨_, rfl⟩

/-- With a registry that came about by registration and rules that were checked against it, every
compilation of any description ends with an answer, whatever the settings, or because a number
outgrew its 32 bits. No other fault can occur. After a run without errors there is a graph, with all
links in order, without cycles, with calls of registered modules only and with sound types. -/
theorem run_returns_or_overflows {l : List Rule} (hr : c.env.registry.Reached)
    (hmake : RuleSet.make c.env.registry l = .ok c.rules) (terminal : Pass) (optimizing : Bool) :
    (∃ c' t, c.run terminal optimizing = .ok (c', t) ∧ (t.failing = none → c'.Sound)) ∨
      c.run terminal optimizing = .error .addOverflow ∨
      c.run terminal optimizing = .error .mulOverflow := by
  obtain ⟨-, -, hrules⟩ := RuleSet.make_eq_ok hmake
  obtain ⟨rest, hplan⟩ := plan_eq_cons terminal optimizing
  have hreturns : Returns (c.run terminal optimizing) := by
    rw [run, hplan]
    refine .cons hr hrules (.inl rfl) fun e he hse => ?_
    obtain ⟨henv, hgiven⟩ := runPass_given he
    exact runPasses_returns (by rwa [Effect.after_env, henv])
      (by rwa [Effect.after_rules, Effect.after_env, henv, hgiven]) hse rest
  cases hrun : c.run terminal optimizing with
  | ok r =>
    obtain ⟨c', t⟩ := r
    exact .inl ⟨c', t, rfl, hreturns.2 c' t hrun⟩
  | error f =>
    have hf := Fault.isOverflow_iff.1 (hreturns.1 f hrun)
    exact .inr (hf.imp (congrArg Except.error) (congrArg Except.error))

theorem run_returns_or_overflows_thrice :
    Negation.compilation.env.registry.Reached ∧
    RuleSet.make Negation.compilation.env.registry [Negation.rule]
      = .ok Negation.compilation.rules ∧
    ∃ c' t, Negation.compilation.run .latency true = .ok (c', t) ∧ t.failing = none ∧ c'.Sound := by
  refine ⟨Negation.reached, Negation.make_rules, ?_⟩
  obtain ⟨c', t, hrun, hf⟩ := Negation.run_thrice true
  rcases run_returns_or_overflows (c := Negation.compilation) Negation.reached Negation.make_rules
    .latency true with ⟨c₁, t₁, hrun₁, hs⟩ | hover | hover
  · cases hrun.symm.trans hrun₁
    exact ⟨c', t, hrun, hf, hs hf⟩
  · cases hrun.symm.trans hover
  · cases hrun.symm.trans hover

end Compilation

end SignalGraph
