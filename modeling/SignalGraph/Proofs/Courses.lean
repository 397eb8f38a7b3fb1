import SignalGraph.Proofs.Steps

/-!
# The course of a visit

`tryRules` tries one rule after another, and each of them can change the numbering of the graph, add
to what was reported, or end the visit. `Course` has one constructor for each of these cases, with
all that is kept of a try: the messages, what was reported, and for a rule that is applied the
replacement and what its commit gave. Whatever holds along a visit is shown from
`course_of_tryRules` by induction on it.
-/

namespace SignalGraph

open SignalGraph.Graph

namespace Rewriting

/-- A rule matches at an anchor of a call that something uses. -/
structure Matches (g : Graph) (sig : Signature) (n : NodeId) (rule : Rule) (anchor : OutputPort)
    (b : Bindings) : Prop where
  anchored : anchor? g sig n rule = .ok (some anchor)
  matched : rule.input.matchAt g anchor.id = .ok (some b)

/-- A rule is applied to `g`: `r` is what takes the place of the anchor, and its commit gives the
nodes `requeue`. -/
structure Applies (env : Environment) (depths : Depths) (rule : Rule) (n : NodeId) (g g' : Graph)
    (r : Replacement) (requeue : List NodeId) extends Rewrite env rule n g g' where
  port_id : port.id = r.port
  watermark : r.watermark = g.nextNode
  said : r.diagnostics = Preparation.diagnostics workspace.runs.reverse
  committed : commit depths workspace.graph n anchor.id r = .ok (g', removed, requeue)

/-- Trying rules at a call leads from one state to another. -/
inductive Course (env : Environment) (depths : Depths) (allowed : Bool) (sig : Signature)
    (n : NodeId) (location : Option Location) :
    Rewriting → List Rule → Rewriting → Visit → Prop where
  | done {s : Rewriting} : Course env depths allowed sig n location s [] s .unchanged
  | pass {s s' : Rewriting} {rule : Rule} {l : List Rule} {v : Visit}
    (unmatched : ∀ anchor b, ¬ Matches s.graph sig n rule anchor b)
    (rest : Course env depths allowed sig n location s l s' v) :
    Course env depths allowed sig n location s (rule :: l) s' v
  | limit {s : Rewriting} {rule : Rule} {l : List Rule} {anchor : OutputPort} {b : Bindings}
    (forbidden : allowed = false) (matched : Matches s.graph sig n rule anchor b) :
    Course env depths allowed sig n location s (rule :: l) s (.limited rule.name)
  | warn {s s' : Rewriting} {rule : Rule} {l : List Rule} {v : Visit} {anchor : OutputPort}
    {b : Bindings} {g : Graph} {runs : List Preparation} (allow : allowed = true)
    (matched : Matches s.graph sig n rule anchor b) (restored : Restored s.graph g)
    (rejected : ∀ p ∈ rule.outputs, Rejected env b anchor location s.graph p)
    (rest : Course env depths allowed sig n location
      (warn ⟨g, runs, s.warned, s.diagnostics⟩ rule.name anchor location) l s' v) :
    Course env depths allowed sig n location s (rule :: l) s' v
  | rewrite {s : Rewriting} {rule : Rule} {l : List Rule} {g g' : Graph} {r : Replacement}
    {runs : List Preparation} {requeue : List NodeId} (allow : allowed = true)
    (restored : Restored s.graph g) (applies : Applies env depths rule n g g' r requeue) :
    Course env depths allowed sig n location s (rule :: l)
      ⟨g', runs, s.warned, s.diagnostics ++ r.diagnostics⟩
      (.rewritten rule.name applies.removed requeue)

variable {env : Environment} {depths : Depths} {allowed : Bool} {sig : Signature} {n : NodeId}
  {location : Option Location} {s s' : Rewriting} {v : Visit}

theorem course_of_tryRules (hr : env.registry.Reached) (hv : s.graph.Valid env.registry)
    (rules : List Rule) (hrules : ∀ rule ∈ rules, rule.Checked env.registry)
    (h : tryRules env depths allowed sig n location s rules = .ok (s', v)) :
    Course env depths allowed sig n location s rules s' v := by
  induction rules generalizing s with
  | nil =>
    cases h
    exact .done
  | cons rule rules ih =>
    obtain ⟨hc, hrules⟩ := List.forall_mem_cons.1 hrules
    simp only [tryRules] at h
    obtain ⟨anchor?, ha, h⟩ := bind_eq_ok.1 h
    cases anchor? with
    | none =>
      refine .pass (fun anchor b hm => ?_) (ih hv hrules h)
      cases ha.symm.trans hm.anchored
    | some anchor =>
      obtain ⟨hlive, hnode, hused⟩ := anchor?_eq_ok hv.coherent ha
      obtain ⟨found, hm, h⟩ := bind_eq_ok.1 h
      cases found with
      | none =>
        refine .pass (fun anchor' b hm' => ?_) (ih hv hrules h)
        cases ha.symm.trans hm'.anchored
        cases hm.symm.trans hm'.matched
      | some b =>
        obtain ⟨hblive, hbne⟩ := bound_of_matchAt hv hc hlive hm
        cases allowed with
        | false =>
          cases h
          exact .limit rfl ⟨ha, hm⟩
        | true =>
          simp only [Bool.not_true, Bool.false_eq_true, if_false] at h
          obtain ⟨⟨g₁, runs₁, found⟩, hrep, h⟩ := bind_eq_ok.1 h
          cases replace_spec hr hv hblive hbne hlive rule.outputs hrep with
          | rejected restored all =>
            simp only [askWarn_eq ((restored.output? _).trans hlive), ok_bind] at h
            refine .warn rfl ⟨ha, hm⟩ restored all (ih ?_ hrules h)
            simpa using restored.valid hv
          | @accepted g₂ w p port r restored mem built graph live ne type latency watermark _
              said =>
            subst graph
            obtain ⟨⟨g₃, removed, requeue⟩, hcommit, h⟩ := bind_eq_ok.1 h
            cases h
            have hm₂ := (Pattern.matchFrom_same hv.coherent hv.acyclic restored.coherent
              restored.toSame [] anchor.id rule.input).trans hm
            have hlive₂ := (restored.output? _).trans hlive
            have hblive₂ := (bound_of_matchAt (restored.valid hv) hc hlive₂ hm₂).1
            have hbuilt := Pattern.instantiate_spec (w := { graph := g₂ }) hr (restored.valid hv)
              hblive₂ p built
            obtain ⟨out, hout, -⟩ := hbuilt.grown.output?_isSome hlive₂
            obtain ⟨g₁, hred, hcol⟩ := commit_eq_ok hbuilt.valid.coherent hout live ne hcommit
            obtain ⟨made, -, rfl, hport, rfl, rfl⟩ := exists_rewrite hbuilt.valid.coherent hlive₂
              hnode hused hm₂ mem built live ne type latency hred hcol
            exact .rewrite rfl restored ⟨made, hport, watermark, said, hcommit⟩

/-- Visiting a node that is no call does nothing. -/
theorem course_of_visit {rules : RuleSet} (hr : env.registry.Reached)
    (hrules : ∀ rule ∈ rules.ordered, rule.Checked env.registry)
    (hv : s.graph.Valid env.registry) (h : visit env rules allowed s n = .ok (s', v)) :
    ∃ node, s.graph.node? n = some node ∧
      ((node.kind.isCall = false ∧ s' = s ∧ v = .unchanged) ∨
        ∃ sig factor latency, node.kind = .call sig factor latency ∧
          Course env rules.depths allowed sig n node.location s (rules.rootedAt sig.id) s' v) := by
  obtain ⟨node, hn, hspec⟩ := visit_spec hr hv hrules h
  refine ⟨node, hn, hspec.imp_right ?_⟩
  rintro ⟨sig, factor, latency, hk, -⟩
  simp only [visit, node_eq_ok.2 hn, ok_bind, hk] at h
  exact ⟨sig, factor, latency, hk, course_of_tryRules hr hv _
    (fun rule hrule => hrules rule (List.mem_filter.1 hrule).1) h⟩

theorem Matches.same {registry : Registry} {g g' : Graph} {rule : Rule} {anchor : OutputPort}
    {b : Bindings} (hv : g.Valid registry) (hg' : g'.Coherent) (hs : Same g g') :
    Matches g' sig n rule anchor b ↔ Matches g sig n rule anchor b := by
  have hmatch := Pattern.matchFrom_same hv.coherent hv.acyclic hg' hs [] anchor.id rule.input
  constructor
  · rintro ⟨ha, hm⟩
    exact ⟨(anchor?_same hs sig rule).symm.trans ha, hmatch.symm.trans hm⟩
  · rintro ⟨ha, hm⟩
    exact ⟨(anchor?_same hs sig rule).trans ha, hmatch.trans hm⟩

end Rewriting

end SignalGraph
