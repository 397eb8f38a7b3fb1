import SignalGraph.Proofs.Limits
import SignalGraph.Proofs.Reachability

/-!
# Collecting from the node that was rewritten

A rewrite hands the consumers of an anchor to a replacement (`HandedOver`) and then collects
garbage. It looks at the node of the anchor alone, and goes on from there to what feeds it. That is
enough if there was no garbage before: every other node keeps its consumers, and each node that was
built for the replacement is used by another one or by the consumers of the anchor. So it takes away
just what collecting everything would (`HandedOver.collectFrom_eq`).

There is no garbage when a run starts, and by this no turn leaves any (`Turn.clean`).
-/

namespace SignalGraph

open SignalGraph.Graph Relation

/-- The garbage after a rewrite is all found from the node of the anchor. -/
theorem Rewrite.collectFrom_redirected {env : Environment} {rule : Rule} {n : NodeId}
    {g g' : Graph} (r : Rewrite env rule n g g') (hr : env.registry.Reached)
    (hv : g.Valid env.registry) (hc : rule.Checked env.registry) (h : g.Clean) :
    r.redirected.collectFrom [n] = r.redirected.collect :=
  collectFrom_eq_collect r.redirect.coherent (r.redirected_acyclic hv hc hr) fun _ hm =>
    List.mem_singleton.2 (r.eq_of_isGarbage hr hv hc h hm)

namespace Rewriting

variable {env : Environment} {rules : RuleSet} {location : Option Location} {g g' : Graph}
  {n : NodeId} {sig : Signature} {name : String}

/-! ## Handing over -/

/-- At a call, the first of the alternatives of a rule that fits was built, perhaps after other
rules were tried in vain, and `g'` is the graph in which it has the consumers of the anchor. -/
inductive HandedOver (env : Environment) (rules : List Rule) (sig : Signature) (n : NodeId)
    (location : Option Location) (g : Graph) : String → Graph → Prop where
  | intro {rule : Rule} {anchor : OutputPort} {b : Bindings} {g₁ w g' : Graph}
    {runs runs' : List Preparation} {r : Replacement} {count : ℕ} (mem : rule ∈ rules)
    (anchored : anchor? g sig n rule = .ok (some anchor))
    (matched : rule.input.matchAt g anchor.id = .ok (some b)) (restored : Restored g g₁)
    (replaced : replace env b anchor location g₁ runs rule.outputs = .ok (w, runs', some r))
    (redirect : w.redirect anchor.id r.port = .ok (g', count)) :
    HandedOver env rules sig n location g rule.name g'

namespace HandedOver

variable {l : List Rule}

theorem cons {rule : Rule} {g₁ : Graph} (hv : g.Valid env.registry) (hres : Restored g g₁)
    (h : HandedOver env l sig n location g₁ name g') :
    HandedOver env (rule :: l) sig n location g name g' := by
  cases h with
  | intro mem anchored matched restored replaced redirect =>
    rw [anchor?_same hres.toSame] at anchored
    rw [Pattern.matchAt, Pattern.matchFrom_same hv.coherent hv.acyclic hres.coherent
      hres.toSame] at matched
    exact .intro (List.mem_cons_of_mem rule mem) anchored matched (hres.trans restored) replaced
      redirect

/-- What was handed over is a rewrite but for its garbage. -/
theorem exists_rewrite (hr : env.registry.Reached) (hv : g.Valid env.registry)
    (hrules : ∀ rule ∈ l, rule.Checked env.registry)
    (h : HandedOver env l sig n location g name g') :
    ∃ rule ∈ l, ∃ g₁ g₂, Restored g g₁ ∧
      ∃ made : Rewrite env rule n g₁ g₂, made.redirected = g' := by
  cases h with
  | @intro rule anchor b g₁ w g' runs runs' r count mem anchored matched restored replaced
      redirect =>
    have hc := hrules rule mem
    have hv₁ := restored.valid hv
    obtain ⟨hlive, hnode, hused⟩ := anchor?_eq_ok hv.coherent anchored
    rw [← restored.output?] at hlive
    rw [Pattern.matchAt, ← Pattern.matchFrom_same hv.coherent hv.acyclic restored.coherent
      restored.toSame] at matched
    obtain ⟨hblive, hbne⟩ := bound_of_matchAt hv₁ hc hlive matched
    cases replace_spec hr hv₁ hblive hbne hlive rule.outputs replaced with
    | @accepted g₂ w p port r restored₂ mem₂ built graph live ne type latency =>
      subst graph
      have hlive₂ := (restored₂.output? _).trans hlive
      have hmatched₂ := (Pattern.matchFrom_same hv₁.coherent hv₁.acyclic restored₂.coherent
        restored₂.toSame [] anchor.id rule.input).trans matched
      obtain ⟨g₃, _, _, made, hred, -⟩ := exists_commit (.ofRules l) hr (restored₂.valid hv₁) hc
        hlive₂ hnode hused hmatched₂ mem₂ built live ne type latency
      cases hred.symm.trans redirect
      exact ⟨rule, mem, g₂, g₃, restored.trans restored₂, made, rfl⟩

/-- Where there was no garbage, all that there is now is found from the node of the anchor. -/
theorem collectFrom_eq (hr : env.registry.Reached) (hv : g.Valid env.registry)
    (hrules : ∀ rule ∈ l, rule.Checked env.registry) (hclean : g.Clean)
    (h : HandedOver env l sig n location g name g') : g'.collectFrom [n] = g'.collect := by
  obtain ⟨rule, hmem, g₁, g₂, hres, made, rfl⟩ := h.exists_rewrite hr hv hrules
  exact made.collectFrom_redirected hr (hres.valid hv) (hrules rule hmem) (hres.toSame.clean hclean)

end HandedOver

section

variable {s s' : Rewriting} {allowed : Bool} {removed : ℕ} {requeue : List NodeId}

/-- A rule that is applied hands over, and then collects. -/
theorem handedOver_of_tryRules {depths : Depths} (hr : env.registry.Reached)
    (hv : s.graph.Valid env.registry) (l : List Rule)
    (hrules : ∀ rule ∈ l, rule.Checked env.registry)
    (h : tryRules env depths allowed sig n location s l =
      .ok (s', .rewritten name removed requeue)) :
    ∃ g', HandedOver env l sig n location s.graph name g' ∧
      g'.collectFrom [n] = .ok (s'.graph, removed) := by
  obtain rfl := allowed_of_tryRules l h
  induction l generalizing s with
  | nil => cases h
  | cons rule l ih =>
    obtain ⟨hc, hrules⟩ := List.forall_mem_cons.1 hrules
    -- What a later rule does was possible before this one was tried.
    have hlater {s₁ : Rewriting} (hres : Restored s.graph s₁.graph)
        (h : tryRules env depths true sig n location s₁ l =
          .ok (s', .rewritten name removed requeue)) :
        ∃ g', HandedOver env (rule :: l) sig n location s.graph name g' ∧
          g'.collectFrom [n] = .ok (s'.graph, removed) := by
      obtain ⟨g', hover, hcol⟩ := ih (hres.valid hv) hrules h
      exact ⟨g', hover.cons hv hres, hcol⟩
    rw [tryRules] at h
    obtain ⟨anchor, hanchor, h⟩ := bind_eq_ok.1 h
    cases anchor with
    | none => exact hlater (.refl hv.coherent) h
    | some anchor =>
      obtain ⟨found, hm, h⟩ := bind_eq_ok.1 h
      cases found with
      | none => exact hlater (.refl hv.coherent) h
      | some b =>
        simp only [Bool.not_true, Bool.false_eq_true, if_false] at h
        obtain ⟨⟨g₁, runs₁, found⟩, hrep, h⟩ := bind_eq_ok.1 h
        cases found with
        | none =>
          obtain ⟨hlive, -⟩ := anchor?_eq_ok hv.coherent hanchor
          obtain ⟨hblive, hbne⟩ := bound_of_matchAt hv hc hlive hm
          cases replace_spec hr hv hblive hbne hlive rule.outputs hrep with
          | rejected restored _ =>
            simp only [askWarn_eq ((restored.output? _).trans hlive), ok_bind] at h
            exact hlater (by simpa using restored) h
        | some r =>
          obtain ⟨⟨g₂, removed₂, requeue₂⟩, hcommit, h⟩ := bind_eq_ok.1 h
          cases h
          obtain ⟨⟨g', count⟩, hredirect, hcommit⟩ := bind_eq_ok.1 hcommit
          obtain ⟨⟨g₃, removed₃⟩, hcol, hcommit⟩ := bind_eq_ok.1 hcommit
          obtain ⟨port, -, hcommit⟩ := bind_eq_ok.1 hcommit
          obtain ⟨requeue₃, -, hcommit⟩ := bind_eq_ok.1 hcommit
          cases hcommit
          exact ⟨g', .intro List.mem_cons_self hanchor hm (.refl hv.coherent) hrep hredirect, hcol⟩

theorem handedOver_of_visit (hr : env.registry.Reached)
    (hrules : ∀ rule ∈ rules.ordered, rule.Checked env.registry)
    (hv : s.graph.Valid env.registry)
    (h : visit env rules allowed s n = .ok (s', .rewritten name removed requeue)) :
    ∃ node sig factor latency g', s.graph.node? n = some node ∧
      node.kind = .call sig factor latency ∧
      HandedOver env (rules.rootedAt sig.id) sig n node.location s.graph name g' ∧
      g'.collectFrom [n] = .ok (s'.graph, removed) := by
  simp only [visit, bind_eq_ok, node_eq_ok] at h
  obtain ⟨node, hn, h⟩ := h
  split at h
  · rename_i sig factor latency hk
    obtain ⟨g', hover, hcol⟩ := handedOver_of_tryRules hr hv _ (fun rule hrule =>
      hrules rule (List.mem_filter.1 hrule).1) h
    exact ⟨node, sig, factor, latency, g', hn, hk, hover, hcol⟩
  · cases h

end

/-! ## Runs -/

/-- No turn leaves garbage behind. -/
theorem Turn.clean {p q : Position} (hr : env.registry.Reached)
    (hrules : ∀ rule ∈ rules.ordered, rule.Checked env.registry)
    (hv : p.state.graph.Valid env.registry) (hclean : p.state.graph.Clean)
    (h : Turn env rules p q) : q.state.graph.Valid env.registry ∧ q.state.graph.Clean := by
  cases h with
  | sweep => exact ⟨hv, hclean⟩
  | skip => exact ⟨hv, hclean⟩
  | pass _ _ visit =>
    exact ⟨(visit_reaches hr hv hrules visit).valid hr hrules hv,
      visit_clean hr hrules hv hclean visit⟩
  | rewrite _ _ visit =>
    exact ⟨(visit_reaches hr hv hrules visit).valid hr hrules hv,
      visit_clean hr hrules hv hclean visit⟩

theorem turns_clean {p q : Position} (hr : env.registry.Reached)
    (hrules : ∀ rule ∈ rules.ordered, rule.Checked env.registry)
    (hv : p.state.graph.Valid env.registry) (hclean : p.state.graph.Clean)
    (h : ReflTransGen (Turn env rules) p q) :
    q.state.graph.Valid env.registry ∧ q.state.graph.Clean := by
  induction h with
  | refl => exact ⟨hv, hclean⟩
  | tail _ ht ih => exact ht.clean hr hrules ih.1 ih.2

theorem Stop.clean {p : Position} {s : Rewriting} {result : Except RewriteError Report}
    (hr : env.registry.Reached) (hrules : ∀ rule ∈ rules.ordered, rule.Checked env.registry)
    (hv : p.state.graph.Valid env.registry) (hclean : p.state.graph.Clean)
    (h : Stop env rules p (.ok (s, result))) : s.graph.Clean := by
  cases h with
  | settled => exact hclean
  | limited _ _ visit => exact visit_clean hr hrules hv hclean visit

/-- Optimizing collects everything at first, and never has to again. Wherever a run stands there is
no garbage, and whatever rule is applied there, collecting from the node that was rewritten leaves
and counts what collecting everything would. There is no garbage at the end either, at a fixpoint
or at the limit. -/
theorem optimize_collects {l : List Rule} (hr : env.registry.Reached)
    (hmake : RuleSet.make env.registry l = .ok rules) (hg : g.Coherent) (hverify : g.verify = [])
    (hcalls : g.CallsFrom env.registry) :
    ∃ g₀ removed, g.collect = .ok (g₀, removed) ∧
      (l = [] → optimize env rules g = .ok ({ graph := g₀ }, .ok { removed })) ∧
      (l ≠ [] → Ends env rules (.start g₀ removed) (optimize env rules g)) ∧
      (∀ p, ReflTransGen (Turn env rules) (.start g₀ removed) p →
        p.state.graph.Clean ∧
        (∀ n node sig factor latency name g', p.state.graph.node? n = some node →
          node.kind = .call sig factor latency →
          HandedOver env (rules.rootedAt sig.id) sig n node.location p.state.graph name g' →
          g'.collectFrom [n] = g'.collect) ∧
        ∀ n s name count requeue,
          visit env rules (p.allowed env) p.state n = .ok (s, .rewritten name count requeue) →
          ∃ node sig factor latency g', p.state.graph.node? n = some node ∧
            node.kind = .call sig factor latency ∧
            HandedOver env (rules.rootedAt sig.id) sig n node.location p.state.graph name g' ∧
            g'.collectFrom [n] = .ok (s.graph, count) ∧ g'.collect = .ok (s.graph, count)) ∧
      ∀ s result, optimize env rules g = .ok (s, result) → s.graph.Clean := by
  obtain ⟨rfl, -, hrules⟩ := RuleSet.make_eq_ok hmake
  have hv : g.Valid env.registry := valid_iff.2 ⟨hg, hverify, hcalls⟩
  obtain ⟨g₀, removed, hc, hp, -, hclean₀⟩ := collect_spec hg
  have hv₀ : g₀.Valid env.registry := hp.valid hv
  refine ⟨g₀, removed, hc, optimize_of_isEmpty hc, optimize_ends hc, fun p hturns => ?_,
    fun s result h => ?_⟩
  · obtain ⟨hvp, hclean⟩ := turns_clean (p := .start g₀ removed) hr hrules hv₀ hclean₀ hturns
    have hchecked (id : ModuleId) : ∀ rule ∈ rules.rootedAt id, rule.Checked env.registry :=
      fun rule hrule => hrules rule (List.mem_filter.1 hrule).1
    refine ⟨hclean, fun n node sig factor latency name g' _ _ hover => ?_,
      fun n s name count requeue hvisit => ?_⟩
    · exact hover.collectFrom_eq hr hvp (hchecked sig.id) hclean
    · obtain ⟨node, sig, factor, latency, g', hn, hk, hover, hcol⟩ :=
        handedOver_of_visit hr hrules hvp hvisit
      have hall := hover.collectFrom_eq hr hvp (hchecked sig.id) hclean
      exact ⟨node, sig, factor, latency, g', hn, hk, hover, hcol, hall.symm.trans hcol⟩
  · by_cases hempty : rules.rules = []
    · rw [optimize_of_isEmpty hc hempty] at h
      cases h
      exact hclean₀
    · obtain ⟨p, ⟨hvp, hclean⟩, hstop⟩ := (optimize_ends hc hempty).exists_stop
        (P := fun p => p.state.graph.Valid env.registry ∧ p.state.graph.Clean)
        (fun p q hp ht => ht.clean hr hrules hp.1 hp.2) ⟨hv₀, hclean₀⟩
      exact (h ▸ hstop).clean hr hrules hvp hclean

end Rewriting

/-! ## Two negations that go -/

namespace Negation

/-- How many nodes are collected at first, and what comes of visiting the second negation then. -/
def secondVisit (d : Description) : Option (Nat × String × Nat) :=
  match d.build env with
  | .ok (_, .ok g) =>
    match g.collect with
    | .ok (g₀, removed) =>
      match Rewriting.visit env rules true { graph := g₀ } ⟨2⟩ with
      | .ok (_, .rewritten name count _) => some (removed, name, count)
      | _ => none
    | .error _ => none
  | _ => none

theorem visit_thrice : ∃ runs g g₀ s requeue, thrice.build env = .ok (runs, .ok g) ∧
    g.collect = .ok (g₀, 0) ∧ Rewriting.visit env rules true { graph := g₀ } ⟨2⟩ =
      .ok (s, .rewritten "involution" 2 requeue) := by
  have h : secondVisit thrice = some (0, "involution", 2) := by cbv
  rw [secondVisit] at h
  split at h
  · rename_i runs g hb
    split at h
    · rename_i g₀ removed hc
      split at h
      · rename_i s name count requeue hvisit
        simp only [Option.some.injEq, Prod.mk.injEq] at h
        obtain ⟨rfl, rfl, rfl⟩ := h
        exact ⟨runs, g, g₀, s, requeue, hb, hc, hvisit⟩
      · cases h
    · cases h
  · cases h

end Negation

theorem Rewriting.optimize_collects_thrice :
    ∃ runs g g₀ s requeue, Negation.thrice.build Negation.env = .ok (runs, .ok g) ∧
      g.collect = .ok (g₀, 0) ∧
      (∀ p, ReflTransGen (Turn Negation.env Negation.rules) (.start g₀ 0) p →
        p.state.graph.Clean) ∧
      visit Negation.env Negation.rules true { graph := g₀ } ⟨2⟩ =
        .ok (s, .rewritten "involution" 2 requeue) ∧
      (∃ sig location g', HandedOver Negation.env (Negation.rules.rootedAt sig.id) sig ⟨2⟩ location
          g₀ "involution" g' ∧
        g'.collectFrom [⟨2⟩] = .ok (s.graph, 2) ∧ g'.collect = .ok (s.graph, 2)) ∧
      ∀ s result, optimize Negation.env Negation.rules g = .ok (s, result) → s.graph.Clean := by
  obtain ⟨runs, g, g₀, s, requeue, hb, hc, hvisit⟩ := Negation.visit_thrice
  have hv := (Description.build_loaded Negation.reached hb).valid
  obtain ⟨g₁, removed, hc₁, -, -, hturns, hclean⟩ := optimize_collects Negation.reached
    Negation.make_rules hv.coherent (valid_iff.1 hv).2.1 hv.fits
  cases hc₁.symm.trans hc
  obtain ⟨-, -, hvisits⟩ := hturns (.start g₀ 0) .refl
  obtain ⟨node, sig, _, _, g', -, -, hover, hfrom, hall⟩ :=
    hvisits ⟨2⟩ s "involution" 2 requeue hvisit
  exact ⟨runs, g, g₀, s, requeue, hb, hc, fun p hp => (hturns p hp).1, hvisit,
    ⟨sig, node.location, g', hover, hfrom, hall⟩, hclean⟩

end SignalGraph
