import SignalGraph.Compilation
import SignalGraph.Proofs.Interface

/-!
# What the passes may rely on

Loading makes graphs that are valid and whose surface is there, and optimizing keeps them so. So
verification after it finds nothing (`optimize_verified`), and the latency of a program is the same
with and without optimizing (`optimize_interface`).
-/

namespace SignalGraph

open SignalGraph.Graph

namespace Compilation

variable {c c' : Compilation} {t : Trace} {e : Effect}

/-- The compilation after a pass, with the messages of the pass. -/
def Effect.after (e : Effect) : Compilation :=
  { e.compilation with diagnostics := e.compilation.diagnostics ++ e.diagnostics }

@[simp] theorem Effect.after_graph (e : Effect) : e.after.graph = e.compilation.graph := rfl
@[simp] theorem Effect.after_env (e : Effect) : e.after.env = e.compilation.env := rfl
@[simp] theorem Effect.after_rules (e : Effect) : e.after.rules = e.compilation.rules := rfl

/-- A pass keeps what the compilation was given. -/
theorem runPass_given {p : Pass} (h : c.runPass p = .ok e) :
    e.compilation.env = c.env ∧ e.compilation.rules = c.rules := by
  cases p with
  | loadGraph =>
    obtain ⟨⟨runs, r⟩, -, h⟩ := bind_eq_ok.1 h
    cases r <;> cases h <;> exact ⟨rfl, rfl⟩
  | optimize =>
    obtain ⟨g, -, h⟩ := bind_eq_ok.1 h
    obtain ⟨⟨s, r⟩, -, h⟩ := bind_eq_ok.1 h
    cases r <;> cases h <;> exact ⟨rfl, rfl⟩
  | verify =>
    obtain ⟨g, -, h⟩ := bind_eq_ok.1 h
    obtain ⟨violations, -, h⟩ := bind_eq_ok.1 h
    cases h
    exact ⟨rfl, rfl⟩
  | latency =>
    obtain ⟨g, -, h⟩ := bind_eq_ok.1 h
    obtain ⟨g', -, h⟩ := bind_eq_ok.1 h
    cases h
    exact ⟨rfl, rfl⟩

/-- A pass reports an error and ends the run, or the run goes on after it. -/
theorem runPasses_cons {p : Pass} {rest : List Pass}
    (h : c.runPasses (p :: rest) = .ok (c', t)) : ∃ e, c.runPass p = .ok e ∧
      (e.diagnostics.any Diagnostic.isError = true ∧ t.failing = some p ∧
          c'.graph = e.compilation.graph ∨
        e.diagnostics.any Diagnostic.isError = false ∧ ∃ later,
          e.after.runPasses rest = .ok (c', later) ∧ t.failing = later.failing) := by
  simp only [runPasses] at h
  obtain ⟨e, he, h⟩ := bind_eq_ok.1 h
  refine ⟨e, he, ?_⟩
  split at h
  · rename_i hd
    cases h
    exact .inl ⟨hd, rfl, rfl⟩
  · rename_i hd
    obtain ⟨⟨c₁, later⟩, hr, h⟩ := bind_eq_ok.1 h
    cases h
    exact .inr ⟨Bool.eq_false_iff.2 hd, later, hr, rfl⟩

theorem isError_diagnostic (e : DescriptionError) : e.diagnostic.isError = true := by
  cases e <;> rfl

/-- Loading without an error makes a graph. -/
theorem loadGraph_eq_ok (h : c.runPass .loadGraph = .ok e)
    (hd : e.diagnostics.any Diagnostic.isError = false) :
    ∃ runs g, c.description.build c.env = .ok (runs, .ok g) ∧
      e.compilation = { c with graph := some g } := by
  obtain ⟨⟨runs, r⟩, hb, h⟩ := bind_eq_ok.1 h
  cases r with
  | error err =>
    cases h
    simp [isError_diagnostic] at hd
  | ok g =>
    cases h
    exact ⟨runs, g, hb, rfl⟩

/-- Optimizing without an error replaces the graph. -/
theorem optimize_eq_ok {g : Graph} (hg : c.graph = some g) (h : c.runPass .optimize = .ok e) :
    ∃ s result, Rewriting.optimize c.env c.rules g = .ok (s, result) ∧
      e.compilation.graph = some s.graph := by
  simp only [runPass, Compilation.optimize, loaded, hg, ok_bind] at h
  obtain ⟨⟨s, result⟩, ho, h⟩ := bind_eq_ok.1 h
  refine ⟨s, result, ho, ?_⟩
  cases result <;> cases h <;> rfl

/-- A valid graph passes verification, and gets its latency. -/
theorem finish_eq_ok {registry : Registry} {g : Graph} (hg : c.graph = some g)
    (hv : g.Valid registry) (h : c.runPasses [.verify, .latency] = .ok (c', t)) :
    t.failing = none ∧ ∃ latency, g.totalLatency = .ok latency ∧
      c'.graph = some { g with surface := { g.surface with latency } } := by
  have hok : g.askVerify = .ok [] :=
    hv.coherent.askVerify_eq.trans (congrArg Except.ok (hv.coherent.verify_eq_nil.2 hv.acyclic))
  obtain ⟨e, he, ⟨hd, -⟩ | ⟨-, later, hrest, hf⟩⟩ := runPasses_cons h
  · simp only [runPass, Compilation.verify, loaded, hg, hok, ok_bind] at he
    cases he
    cases hd
  · simp only [runPass, Compilation.verify, loaded, hg, hok, ok_bind] at he
    cases he
    obtain ⟨e, he, hlast⟩ := runPasses_cons hrest
    simp only [runPass, Compilation.latency, loaded, Effect.after_graph, hg, ok_bind,
      updateLatency] at he
    obtain ⟨g', hg', he⟩ := bind_eq_ok.1 he
    obtain ⟨latency, hlat, hg'⟩ := bind_eq_ok.1 hg'
    cases hg'
    cases he
    obtain ⟨hd, -⟩ | ⟨-, last, hend, hf'⟩ := hlast
    · cases hd
    · cases hend
      exact ⟨hf.trans hf', latency, hlat, rfl⟩

/-- A run up to the latency fails while loading or optimizing, or gives the loaded graph, optimized
or not, its latency. -/
theorem run_latency_cases {optimizing : Bool} (hr : c.env.registry.Reached)
    (hrules : ∀ rule ∈ c.rules.ordered, rule.Checked c.env.registry)
    (h : c.run .latency optimizing = .ok (c', t)) : ∃ e, c.runPass .loadGraph = .ok e ∧
      (e.diagnostics.any Diagnostic.isError = true ∧ t.failing = some .loadGraph ∧
          c'.graph = e.compilation.graph ∨
        e.diagnostics.any Diagnostic.isError = false ∧
          (optimizing = true ∧ t.failing = some .optimize ∨
            t.failing = none ∧ ∃ g g₁ latency, e.compilation.graph = some g ∧
              g.Loaded c.env.registry ∧
              (g₁ = g ∨ ∃ s result, Rewriting.optimize c.env c.rules g = .ok (s, result) ∧
                g₁ = s.graph) ∧
              g₁.totalLatency = .ok latency ∧
              c'.graph = some { g₁ with surface := { g₁.surface with latency } })) := by
  have hplan : plan .latency optimizing =
      .loadGraph :: ((if optimizing then [.optimize] else []) ++ [.verify, .latency]) := by
    cases optimizing <;> rfl
  rw [run, hplan] at h
  obtain ⟨e, he, hload | ⟨hd, later, hrest, hf⟩⟩ := runPasses_cons h
  · exact ⟨e, he, .inl hload⟩
  · obtain ⟨runs, g, hb, hc⟩ := loadGraph_eq_ok he hd
    have hl := Description.build_loaded hr hb
    refine ⟨e, he, .inr ⟨hd, ?_⟩⟩
    rw [hf]
    have hg : e.after.graph = some g := by rw [Effect.after_graph, hc]
    cases optimizing with
    | false =>
      obtain ⟨hnone, latency, hlat, hg'⟩ := finish_eq_ok hg hl.valid hrest
      exact .inr ⟨hnone, g, g, latency, hg, hl, .inl rfl, hlat, hg'⟩
    | true =>
      obtain ⟨e', he', ⟨-, hf', -⟩ | ⟨-, last, hrest', hf'⟩⟩ := runPasses_cons hrest
      · exact .inl ⟨rfl, hf'⟩
      · rw [hf']
        obtain ⟨s, result, ho, hg₁⟩ := optimize_eq_ok hg he'
        rw [Effect.after_env, Effect.after_rules, hc] at ho
        obtain ⟨hnone, latency, hlat, hg'⟩ :=
          finish_eq_ok (c := e'.after) hg₁ (Rewriting.optimize_valid hr hrules hl.valid ho) hrest'
        exact .inr ⟨hnone, g, s.graph, latency, hg, hl, .inr ⟨s, result, ho, rfl⟩, hlat, hg'⟩

/-- The latency that is shown after loading had this effect: none was computed after an error. -/
def Effect.latency? (e : Effect) : Option Nat :=
  if e.diagnostics.any Diagnostic.isError then e.compilation.graph.map (·.surface.latency)
  else e.compilation.graph.bind fun g => g.totalLatency.toOption

/-- A run up to the latency shows the latency of the graph that was loaded, unless it fails while
optimizing. -/
theorem run_latency_eq {optimizing : Bool} (hr : c.env.registry.Reached)
    (hrules : ∀ rule ∈ c.rules.ordered, rule.Checked c.env.registry)
    (h : c.run .latency optimizing = .ok (c', t))
    (hne : optimizing = true → t.failing ≠ some .optimize) :
    ∃ e, c.runPass .loadGraph = .ok e ∧ c'.graph.map (·.surface.latency) = e.latency? := by
  obtain ⟨e, he, ⟨hd, -, hg'⟩ | ⟨hd, ⟨ho, hf⟩ | ⟨-, g, g₁, latency, hg, hl, hg₁, hlat, hg'⟩⟩⟩ :=
    run_latency_cases hr hrules h
  · refine ⟨e, he, ?_⟩
    rw [Effect.latency?, if_pos hd, hg']
  · exact absurd hf (hne ho)
  · have hsame : g.totalLatency = .ok latency := by
      obtain rfl | ⟨s, result, ho, rfl⟩ := hg₁
      · exact hlat
      · rw [← hlat]
        exact (totalLatency_congr hl.valid.coherent
          (Rewriting.optimize_valid hr hrules hl.valid ho).coherent
          (Rewriting.optimize_carries_profile hr hrules hl.valid ho) hl.surfaced).symm
    refine ⟨e, he, ?_⟩
    simp [Effect.latency?, hd, hg, hg', hsame, Except.toOption]

end Compilation

namespace Negation

def compilation : Compilation := { env, rules, description := thrice }

theorem run_thrice (optimizing : Bool) :
    ∃ c' t, compilation.run .latency optimizing = .ok (c', t) ∧ t.failing = none := by
  have h : (compilation.run .latency optimizing).toOption.any (·.2.failing.isNone) = true := by
    cases optimizing <;> cbv
  cases hrun : compilation.run .latency optimizing with
  | error fault => simp [hrun, Except.toOption] at h
  | ok r => exact ⟨r.1, r.2, rfl, by simpa [hrun, Except.toOption] using h⟩

end Negation

namespace Rewriting

variable {env : Environment} {l : List Rule} {rules : RuleSet}

/-- Optimizing keeps ports, links and calls in order and closes no cycle. So no run of passes fails
in verification. -/
theorem optimize_verified (hr : env.registry.Reached)
    (hmake : RuleSet.make env.registry l = .ok rules) :
    (∀ {g : Graph} {s : Rewriting} {result : Except RewriteError Report},
      g.Coherent → g.verify = [] → g.CallsFrom env.registry →
      optimize env rules g = .ok (s, result) →
      s.graph.Coherent ∧ s.graph.verify = [] ∧ s.graph.CallsFrom env.registry) ∧
    ∀ {c c' : Compilation} {t : Compilation.Trace} {optimizing : Bool},
      c.env = env → c.rules = rules → c.run .latency optimizing = .ok (c', t) →
      t.failing ≠ some .verify := by
  obtain ⟨-, -, hrules⟩ := RuleSet.make_eq_ok hmake
  constructor
  · intro g s result hg hverify hcalls ho
    exact valid_iff.1 (optimize_valid hr hrules (valid_iff.2 ⟨hg, hverify, hcalls⟩) ho)
  · rintro c c' t optimizing rfl rfl h
    obtain ⟨e, -, ⟨-, hf, -⟩ | ⟨-, ⟨-, hf⟩ | ⟨hf, -⟩⟩⟩ := Compilation.run_latency_cases hr hrules h
    all_goals simp [hf]

theorem optimize_verified_thrice :
    (∃ runs g s report, Negation.thrice.build Negation.env = .ok (runs, .ok g) ∧
      optimize Negation.env Negation.rules g = .ok (s, .ok report) ∧ report.rewrites = 1 ∧
      s.graph.Coherent ∧ s.graph.verify = [] ∧ s.graph.CallsFrom Negation.env.registry) ∧
    ∃ c' t, Negation.compilation.run .latency true = .ok (c', t) ∧ t.failing ≠ some .verify := by
  obtain ⟨runs, g, s, report, hb, ho, hrw, -⟩ := Negation.optimize_thrice
  obtain ⟨c', t, hrun, -⟩ := Negation.run_thrice true
  have hverified := optimize_verified Negation.reached Negation.make_rules
  have hv := (Description.build_loaded Negation.reached hb).valid
  exact ⟨⟨runs, g, s, report, hb, ho, hrw,
      hverified.1 hv.coherent (valid_iff.1 hv).2.1 hv.fits ho⟩,
    c', t, hrun, hverified.2 rfl rfl hrun⟩

/-- Optimizing keeps what is seen of a program from outside: the surface, the nodes that have to
stay, the types and latencies that arrive at every input that stays, and the latency. So the
latency of a program is the same with and without optimizing. -/
theorem optimize_interface (hr : env.registry.Reached)
    (hmake : RuleSet.make env.registry l = .ok rules) :
    (∀ {g : Graph} {s : Rewriting} {result : Except RewriteError Report},
      g.Coherent → g.verify = [] → g.CallsFrom env.registry → g.Surfaced →
      optimize env rules g = .ok (s, result) →
      s.graph.surface = g.surface ∧
      (∀ n node, g.Stays n node → s.graph.node? n = some node) ∧
      (∀ n node node', g.node? n = some node → s.graph.node? n = some node' →
        node' = node ∧ ∀ i ∈ node.inputs,
          g.source? i = none ∧ s.graph.source? i = none ∨
          ∃ o o' seen, g.source? i = some o ∧ s.graph.source? i = some o' ∧
            g.profile o = some seen ∧ s.graph.profile o' = some seen) ∧
      s.graph.totalLatency = g.totalLatency) ∧
    ∀ {c c₁ c₂ : Compilation} {t₁ t₂ : Compilation.Trace}, c.env = env → c.rules = rules →
      c.run .latency true = .ok (c₁, t₁) → c.run .latency false = .ok (c₂, t₂) →
      t₁.failing ≠ some .optimize →
      c₁.graph.map (·.surface.latency) = c₂.graph.map (·.surface.latency) := by
  obtain ⟨-, -, hrules⟩ := RuleSet.make_eq_ok hmake
  constructor
  · intro g s result hg hverify hcalls hsurf ho
    have hv : g.Valid env.registry := valid_iff.2 ⟨hg, hverify, hcalls⟩
    have hg' := (optimize_valid hr hrules hv ho).coherent
    have hc := optimize_carries_profile hr hrules hv ho
    refine ⟨hc.surface, fun n node hs => (hc.stays hs).1, fun n node node' hn hn' => ?_,
      totalLatency_congr hg hg' hc hsurf⟩
    obtain ⟨rfl, hi⟩ := hc.map_source? hg hg' hn hn'
    refine ⟨rfl, fun i hmem => fed_of_map_eq (fun o hs => ?_) (hi i hmem)⟩
    obtain ⟨out, hout⟩ := hg.source_live hs
    exact ⟨(out.type, out.latency), by rw [profile, hout, Option.map_some]⟩
  · rintro c c₁ c₂ t₁ t₂ rfl rfl h₁ h₂ hne
    obtain ⟨e, he, hl₁⟩ := Compilation.run_latency_eq hr hrules h₁ fun _ => hne
    obtain ⟨e', he', hl₂⟩ := Compilation.run_latency_eq hr hrules h₂ (by simp)
    obtain rfl : e = e' := Except.ok.inj (he.symm.trans he')
    rw [hl₁, hl₂]

theorem optimize_interface_thrice :
    (∃ runs g s report, Negation.thrice.build Negation.env = .ok (runs, .ok g) ∧
      optimize Negation.env Negation.rules g = .ok (s, .ok report) ∧ report.rewrites = 1 ∧
      s.graph.surface = g.surface ∧ s.graph.totalLatency = g.totalLatency) ∧
    ∃ c₁ c₂ t₁ t₂, Negation.compilation.run .latency true = .ok (c₁, t₁) ∧
      Negation.compilation.run .latency false = .ok (c₂, t₂) ∧
      c₁.graph.map (·.surface.latency) = c₂.graph.map (·.surface.latency) := by
  obtain ⟨runs, g, s, report, hb, ho, hrw, -⟩ := Negation.optimize_thrice
  obtain ⟨c₁, t₁, h₁, hf⟩ := Negation.run_thrice true
  obtain ⟨c₂, t₂, h₂, -⟩ := Negation.run_thrice false
  have hkept := optimize_interface Negation.reached Negation.make_rules
  have hl := Description.build_loaded Negation.reached hb
  obtain ⟨hsurface, -, -, hlat⟩ := hkept.1 hl.valid.coherent (valid_iff.1 hl.valid).2.1
    hl.valid.fits hl.surfaced ho
  exact ⟨⟨runs, g, s, report, hb, ho, hrw, hsurface, hlat⟩,
    c₁, c₂, t₁, t₂, h₁, h₂, hkept.2 rfl rfl h₁ h₂ (by simp [hf])⟩

end Rewriting

end SignalGraph
