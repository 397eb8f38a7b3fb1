import SignalGraph.Proofs.Accounting
import SignalGraph.Proofs.Fixpoint

/-!
# What the limit on rewrites says

Rewriting that ends at its limit names a call and a rule. The rule is the first one by precedence
that matches there, at an anchor in use (`Due`). That it would be applied is more than this: one of
its alternatives has to be built with the type and the latency of the anchor (`Accepted`). The limit
is looked at before that is tried, so there are two cases (`optimize_limit`). Either one more visit
applies the rule, or the rule has nothing to do there, and the graph may be at a fixpoint already
(`LateSum`).
-/

namespace SignalGraph

open SignalGraph.Graph

namespace Rewriting

variable {env : Environment} {b : Bindings} {anchor : OutputPort} {location : Option Location}
  {g g' : Graph} {n : NodeId} {sig : Signature} {rule : Rule}

/-! ## Rules that match -/

/-- An alternative can be built with the type and the latency of the anchor. -/
def Accepted (env : Environment) (b : Bindings) (anchor : OutputPort) (location : Option Location)
    (g : Graph) (p : Pattern) : Prop :=
  ∃ w o port, p.instantiate env b location { graph := g } = .ok (w, .ok o) ∧
    w.graph.output? o = some port ∧ port.type = anchor.type ∧ port.latency = anchor.latency

theorem Accepted.same {p : Pattern} (hr : env.registry.Reached) (hv : g.Valid env.registry)
    (hg' : g'.Coherent) (hs : Same g g') (hb : ∀ x ∈ b, ∃ out, g.output? x = some out)
    (h : Accepted env b anchor location g p) : Accepted env b anchor location g' p := by
  obtain ⟨w, o, port, hi, hport, htype, hlatency⟩ := h
  have hpar := instantiate_parallel location hr hv hg' hs hb p
  rw [hi] at hpar
  generalize hy : p.instantiate env b location { graph := g' } = y at hpar
  cases hpar with
  | @built _ v _ c ha =>
    obtain ⟨port₁, port₂, hp, hq, ht, hl⟩ := ha.like
    obtain rfl : port = port₁ := Option.some.inj (hport.symm.trans hp)
    exact ⟨v, c, port₂, hy, hq, ht ▸ htype, hl ▸ hlatency⟩

/-- A rule is the first of a list that matches at a call, with this anchor and these bindings. -/
structure Due (env : Environment) (rules : List Rule) (sig : Signature) (n : NodeId)
    (location : Option Location) (g : Graph) (rule : Rule) (anchor : OutputPort) (b : Bindings) :
    Prop where
  split : ∃ before after, rules = before ++ rule :: after ∧
    ∀ q ∈ before, Idle env false sig n location g q
  anchored : anchor? g sig n rule = .ok (some anchor)
  matched : rule.input.matchAt g anchor.id = .ok (some b)

namespace Due

variable {rules : List Rule}

theorem mem (h : Due env rules sig n location g rule anchor b) : rule ∈ rules := by
  obtain ⟨before, after, rfl, -⟩ := h.split
  simp

theorem same (hr : env.registry.Reached) (hv : g.Valid env.registry)
    (hrules : ∀ q ∈ rules, q.Checked env.registry) (hg' : g'.Coherent) (hs : Same g g')
    (h : Due env rules sig n location g rule anchor b) :
    Due env rules sig n location g' rule anchor b := by
  obtain ⟨⟨before, after, hsplit, hidle⟩, ha, hm⟩ := h
  refine ⟨⟨before, after, hsplit, fun q hq => ?_⟩, (anchor?_same hs sig rule).trans ha, ?_⟩
  · have hc : q.Checked env.registry := hrules q (by simp [hsplit, hq])
    exact (hidle q hq).same hr hv hc hg' hs
  · exact (Pattern.matchFrom_same hv.coherent hv.acyclic hg' hs _ _ _).trans hm

/-- A rule that is due is applied if it may be and one of its alternatives fits. If none fits, it
has nothing to do. -/
theorem tried {depths : Depths} {s s' : Rewriting} {v : Visit} (hr : env.registry.Reached)
    (hv : s.graph.Valid env.registry) (hrules : ∀ q ∈ rules, q.Checked env.registry)
    (h : Due env rules sig n location s.graph rule anchor b)
    (ht : tryRules env depths true sig n location s rules = .ok (s', v)) :
    (∃ removed requeue, v = .rewritten rule.name removed requeue ∧
      ∃ p ∈ rule.outputs, Accepted env b anchor location s.graph p) ∨
    Idle env true sig n location s.graph rule := by
  obtain ⟨hlive, -⟩ := anchor?_eq_ok hv.coherent h.anchored
  have hc : rule.Checked env.registry := hrules rule h.mem
  obtain ⟨hblive, -⟩ := bound_of_matchAt hv hc hlive h.matched
  obtain ⟨before, after, hsplit, hidle⟩ := h.split
  -- The rules before it are passed over, whether or not they may be applied.
  have hpass (q : Rule) (hq : q ∈ before) : Idle env true sig n location s.graph q := by
    obtain ⟨anchor, ha, hm⟩ := hidle q hq
    refine ⟨anchor, ha, fun port hp => ?_⟩
    obtain ⟨found, hfound, hall⟩ := hm port hp
    exact ⟨found, hfound, fun b hb => ⟨rfl, (hall b hb).2⟩⟩
  obtain ⟨s₁, hres, happend⟩ := tryRules_append depths hr hv before
    (fun q hq => hrules q (by simp [hsplit, hq])) hpass
  have hv₁ := hres.valid hv
  have hlive₁ := (hres.output? _).trans hlive
  have hm₁ : rule.input.matchAt s₁.graph anchor.id = .ok (some b) :=
    (Pattern.matchFrom_same hv.coherent hv.acyclic hres.coherent hres.toSame _ _ _).trans h.matched
  obtain ⟨hblive₁, hbne⟩ := bound_of_matchAt hv₁ hc hlive₁ hm₁
  rw [hsplit, happend, tryRules, (anchor?_same hres.toSame sig rule).trans h.anchored,
    ok_bind] at ht
  simp only [hm₁, ok_bind, Bool.not_true, Bool.false_eq_true, if_false] at ht
  obtain ⟨⟨g₁, runs₁, found⟩, hrep, ht⟩ := bind_eq_ok.1 ht
  cases replace_spec hr hv₁ hblive₁ hbne hlive₁ rule.outputs hrep with
  | rejected _ all =>
    refine .inr ⟨some anchor, h.anchored, ?_⟩
    rintro port ⟨⟩
    refine ⟨some b, h.matched, ?_⟩
    rintro b ⟨⟩
    exact ⟨rfl, fun p hp => (all p hp).same hr hv₁ hv.coherent hres.symm hblive₁⟩
  | @accepted g₂ w p port r restored mem built graph live ne type latency =>
    subst graph
    obtain ⟨⟨g₃, removed, requeue⟩, -, ht⟩ := bind_eq_ok.1 ht
    cases ht
    have hback := hres.trans restored
    have hacc : Accepted env b anchor location g₂ p := ⟨w, r.port, port, built, live, type, latency⟩
    refine .inl ⟨removed, requeue, rfl, p, mem, hacc.same hr (hback.valid hv) hv.coherent hback.symm
      fun x hx => ?_⟩
    rw [hback.output?]
    exact hblive x hx

end Due

variable {rules : RuleSet}

/-- A visit comes to the limit at the first rule that matches. -/
theorem due_of_visit {allowed : Bool} {s s' : Rewriting} {name : String}
    (hr : env.registry.Reached) (hrules : ∀ rule ∈ rules.ordered, rule.Checked env.registry)
    (hv : s.graph.Valid env.registry) (h : visit env rules allowed s n = .ok (s', .limited name)) :
    Restored s.graph s'.graph ∧
    ∃ node sig factor latency rule anchor b, s'.graph.node? n = some node ∧
      node.kind = .call sig factor latency ∧ rule.name = name ∧
      Due env (rules.rootedAt sig.id) sig n node.location s'.graph rule anchor b := by
  obtain ⟨node, hn, ⟨-, -, hv⟩ | ⟨sig, factor, latency, hk, hvis⟩⟩ := visit_spec hr hv hrules h
  · cases hv
  · cases hvis with
    | @limited rule before after anchor b forbidden restored split idle anchored matched =>
      subst forbidden
      have hdue : Due env (rules.rootedAt sig.id) sig n node.location s.graph rule anchor b :=
        ⟨⟨before, after, split, idle⟩, anchored, matched⟩
      refine ⟨restored, node, sig, factor, latency, rule, anchor, b, (restored.node? n).trans hn,
        hk, rfl, hdue.same hr hv (fun q hq => ?_) restored.coherent restored.toSame⟩
      exact hrules q (List.mem_filter.1 hq).1

/-! ## The limit -/

/-- At the limit, the rule that is named matches at an anchor of the call that is named, and no rule
before it does. One more visit there, with a rewrite allowed, applies the rule if an alternative of
it fits. Otherwise the rule has nothing to do there, and the limit stopped nothing of it. -/
theorem optimize_limit {l : List Rule} {s : Rewriting} {limit : ℕ} {name : String}
    (hr : env.registry.Reached) (hmake : RuleSet.make env.registry l = .ok rules) (hg : g.Coherent)
    (hverify : g.verify = []) (hcalls : g.CallsFrom env.registry)
    (h : optimize env rules g = .ok (s, .error (.limitExceeded limit name n))) :
    ∃ node sig factor latency rule anchor b, s.graph.node? n = some node ∧
      node.kind = .call sig factor latency ∧ rule ∈ l ∧ rule.name = name ∧
      s.graph.output? anchor.id = some anchor ∧ anchor.node = n ∧ anchor.consumers ≠ [] ∧
      Due env (rules.rootedAt sig.id) sig n node.location s.graph rule anchor b ∧
      ((∃ fault, visit env rules true s n = .error fault ∧
          (g.Typed → fault = .addOverflow ∨ fault = .mulOverflow)) ∨
        ∃ s' v, visit env rules true s n = .ok (s', v) ∧
          ((∃ removed requeue, v = .rewritten name removed requeue ∧
            ∃ p ∈ rule.outputs, Accepted env b anchor node.location s.graph p) ∨
          Idle env true sig n node.location s.graph rule)) := by
  obtain ⟨rfl, hmem, hrules⟩ := RuleSet.make_eq_ok hmake
  have hv : g.Valid env.registry := valid_iff.2 ⟨hg, hverify, hcalls⟩
  obtain ⟨g₀, removed, hc, hp, -⟩ := collect_spec hg
  obtain ⟨p, names, hpos, hs⟩ :=
    optimize_stop hr hrules (hp.valid hv) hc (rules_ne_nil hc h)
  rw [h] at hs
  cases hs with
  | limited _ _ hvisit =>
    have hvalid := hpos.applied.reaches.valid hr hrules (hp.valid hv)
    obtain ⟨hres, node, sig, factor, latency, rule, anchor, b, hn, hk, hname, hdue⟩ :=
      due_of_visit hr hrules hvalid hvisit
    have hvs : s.graph.Valid env.registry := hres.valid hvalid
    have hrooted (q : Rule) (hq : q ∈ rules.rootedAt sig.id) : q ∈ rules.ordered :=
      (List.mem_filter.1 hq).1
    obtain ⟨hlive, hnode, hused⟩ := anchor?_eq_ok hvs.coherent hdue.anchored
    refine ⟨node, sig, factor, latency, rule, anchor, b, hn, hk,
      (hmem rule).1 (hrooted rule hdue.mem), hname, hlive, hnode, hused, hdue, ?_⟩
    cases hagain : visit env rules true s n with
    | error fault =>
      refine .inl ⟨fault, rfl, fun ht => ?_⟩
      have hts : s.graph.Typed := optimize_typed hr hrules hv ht h
      exact Fault.isOverflow_iff.1 (safe_visit hr hvs hts hrules hn fault hagain)
    | ok r =>
      obtain ⟨s', v⟩ := r
      refine .inr ⟨s', v, rfl, ?_⟩
      simp only [visit, node_eq_ok.2 hn, ok_bind, hk] at hagain
      rw [← hname]
      exact hdue.tried hr hvs (fun q hq => hrules q (hrooted q hq)) hagain

end Rewriting

/-! ## A limit that stops nothing

Negating twice gives the value back, which is the one rewrite that is allowed. The other rule has a
delay take the place of a sum. It matches the sum, but a delay is late and the sum is not. -/

namespace LateSum

def negate : Signature := .unary 1 "negate"

def sum : Signature where
  id := .ofNat 2
  name := "sum"
  parameters := [.float "a" .input, .float "b" .input, .float "c" .output]
  returnParameter := some 2

def delay : Signature := .unary 3 "delay"

def env : Environment where
  registry :=
    { modules :=
        [(negate.id, .hosted negate (.fixed 0)), (sum.id, .hosted sum (.fixed 0)),
         (delay.id, .hosted delay (.fixed 8))]
      names := [("delay", delay.id), ("sum", sum.id), ("negate", negate.id)] }
  settings := { maxRewrites := 1 }

def involution : Rule where
  name := "involution"
  input := .call negate.id 1 1 [.call negate.id 1 1 [.wildcard false, .result], .result]
  outputs := [.slot 0]

def late : Rule where
  name := "late-sum"
  input := .call sum.id 1 2 [.wildcard false, .wildcard false, .result]
  outputs := [.call delay.id 1 1 [.slot 0, .result]]

def rules : RuleSet where
  rules := [involution, late]
  ordered := [involution, late]
  depths := .ofRules [involution, late]

def program : Description where
  inputs := [{ name := "in", type := { primitive := .float } }]
  entries :=
    [{ name := "a", kind := .call "negate" 1 ["in"] },
     { name := "b", kind := .call "negate" 1 ["a"] },
     { name := "c", kind := .call "sum" 1 ["b", "in"] }]
  outputs := [{ name := "out", type := { primitive := .float }, source := "c" }]

theorem reached : env.registry.Reached :=
  ((Registry.Reached.empty.insert (m := .hosted negate (.fixed 0)) rfl).insert
    (m := .hosted sum (.fixed 0)) rfl).insert (m := .hosted delay (.fixed 8)) rfl

theorem make_rules : RuleSet.make env.registry [involution, late] = .ok rules := by
  cbv

/-- The error of optimizing, and how many rewrites another run makes of the graph that it leaves, if
one more visit finds nothing to do at the sum. -/
def summary (d : Description) : Option (RewriteError × ℕ) :=
  match d.build env with
  | .ok (_, .ok g) =>
    match Rewriting.optimize env rules g with
    | .ok (s, .error e) =>
      match Rewriting.visit env rules true s ⟨3⟩, Rewriting.optimize env rules s.graph with
      | .ok (_, .unchanged), .ok (_, .ok report) => some (e, report.rewrites)
      | _, _ => none
    | _ => none
  | _ => none

theorem optimize_program : ∃ runs g s s₁ s₂ report, program.build env = .ok (runs, .ok g) ∧
    Rewriting.optimize env rules g = .ok (s, .error (.limitExceeded 1 "late-sum" ⟨3⟩)) ∧
    Rewriting.visit env rules true s ⟨3⟩ = .ok (s₁, .unchanged) ∧
    Rewriting.optimize env rules s.graph = .ok (s₂, .ok report) ∧ report.rewrites = 0 := by
  have h : summary program = some (.limitExceeded 1 "late-sum" ⟨3⟩, 0) := by cbv
  rw [summary] at h
  split at h
  · rename_i runs g hb
    split at h
    · rename_i s e ho
      split at h
      · rename_i s₁ s₂ report hvisit hagain
        obtain ⟨rfl, hrw⟩ := Prod.mk.inj (Option.some.inj h)
        exact ⟨runs, g, s, s₁, s₂, report, hb, ho, hvisit, hagain, hrw⟩
      · cases h
    · cases h
  · cases h

end LateSum

/-- The limit is reported for a rule that has nothing to do, and another run finds nothing to do
anywhere. -/
theorem Rewriting.optimize_limit_lateSum :
    ∃ runs g s s₂ report, LateSum.program.build LateSum.env = .ok (runs, .ok g) ∧
      optimize LateSum.env LateSum.rules g =
        .ok (s, .error (.limitExceeded 1 "late-sum" ⟨3⟩)) ∧
      (∃ node sig rule anchor b, s.graph.node? ⟨3⟩ = some node ∧
        rule ∈ [LateSum.involution, LateSum.late] ∧ rule.name = "late-sum" ∧
        Due LateSum.env (LateSum.rules.rootedAt sig.id) sig ⟨3⟩ node.location s.graph rule anchor
          b ∧
        Idle LateSum.env true sig ⟨3⟩ node.location s.graph rule) ∧
      optimize LateSum.env LateSum.rules s.graph = .ok (s₂, .ok report) ∧ report.rewrites = 0 := by
  obtain ⟨runs, g, s, s₁, s₂, report, hb, ho, hvisit, hagain, hrw⟩ := LateSum.optimize_program
  have hv := (Description.build_loaded LateSum.reached hb).valid
  obtain ⟨node, sig, factor, latency, rule, anchor, b, hn, -, hmem, hname, -, -, -, hdue, hcases⟩ :=
    optimize_limit LateSum.reached LateSum.make_rules hv.coherent (valid_iff.1 hv).2.1 hv.fits ho
  refine ⟨runs, g, s, s₂, report, hb, ho, ⟨node, sig, rule, anchor, b, hn, hmem, hname, hdue, ?_⟩,
    hagain, hrw⟩
  rcases hcases with ⟨fault, hfault, -⟩ | ⟨s', v, hok, ⟨removed, requeue, rfl, -⟩ | hidle⟩
  · cases hvisit.symm.trans hfault
  · cases hvisit.symm.trans hok
  · exact hidle

end SignalGraph
