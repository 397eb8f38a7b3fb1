import SignalGraph.Proofs.Loading
import SignalGraph.Proofs.Steps

/-!
# Runs of rewriting

A run goes from graph to graph by rewrites and by attempts that leave the graph the same
(`Reaches`). Whatever both keep, a run keeps (`run_reaches`, `optimize_reaches`), whether or not it
ends at its limit.
-/

namespace SignalGraph

open SignalGraph.Graph

/-- `g'` comes from `g` by rewrites with rules of a set and by attempts that change nothing. -/
inductive Reaches (env : Environment) (rules : RuleSet) (g : Graph) : Graph → Prop where
  | refl : Reaches env rules g g
  | restore {g₁ g₂ : Graph} : Reaches env rules g g₁ → Restored g₁ g₂ → Reaches env rules g g₂
  | rewrite {g₁ g₂ : Graph} {rule : Rule} {n : NodeId} : Reaches env rules g g₁ →
    rule ∈ rules.ordered → Rewrite env rule n g₁ g₂ → Reaches env rules g g₂

namespace Reaches

variable {env : Environment} {rules : RuleSet} {g g₁ g₂ : Graph}

theorem trans (h : Reaches env rules g g₁) (h' : Reaches env rules g₁ g₂) :
    Reaches env rules g g₂ := by
  induction h' with
  | refl => exact h
  | restore _ hs ih => exact ih.restore hs
  | rewrite _ hm hrw ih => exact ih.rewrite hm hrw

theorem valid (hr : env.registry.Reached)
    (hrules : ∀ rule ∈ rules.ordered, rule.Checked env.registry) (hv : g.Valid env.registry)
    (h : Reaches env rules g g₁) : g₁.Valid env.registry := by
  induction h with
  | refl => exact hv
  | restore _ hs ih => exact hs.valid ih
  | rewrite _ hm hrw ih => exact hrw.valid hr ih (hrules _ hm)

end Reaches

namespace Rewriting

variable {env : Environment} {rules : RuleSet} {s s' : Rewriting}

theorem visit_reaches {allowed : Bool} {n : NodeId} {v : Visit} (hr : env.registry.Reached)
    (hv : s.graph.Valid env.registry)
    (hrules : ∀ rule ∈ rules.ordered, rule.Checked env.registry)
    (h : visit env rules allowed s n = .ok (s', v)) : Reaches env rules s.graph s'.graph := by
  obtain ⟨node, -, ⟨-, rfl, -⟩ | ⟨sig, factor, latency, -, hvis⟩⟩ := visit_spec hr hv hrules h
  · exact .refl
  · cases hvis with
    | unchanged restored idle => exact .restore .refl restored
    | limited _ restored => exact .restore .refl restored
    | @rewritten _ rule _ _ requeue allow restored split _ rewrite =>
      have mem : rule ∈ rules.rootedAt sig.id := by simp [split]
      exact (Reaches.refl.restore restored).rewrite (List.mem_filter.1 mem).1 rewrite

theorem run_reaches {report : Report} {changed : Bool} {agenda : Agenda}
    {result : Except RewriteError Report} (hr : env.registry.Reached)
    (hrules : ∀ rule ∈ rules.ordered, rule.Checked env.registry)
    (hv : s.graph.Valid env.registry)
    (h : run env rules report changed agenda s = .ok (s', result)) :
    Reaches env rules s.graph s'.graph := by
  fun_induction run env rules report changed agenda s with
  | case1 report agenda s _ ih => exact ih hv h
  | case2 report changed agenda s =>
    cases h
    exact .refl
  | case3 => cases h
  | case4 report changed agenda s n rest _ _ s₁ hvis ih =>
    have hreach := visit_reaches hr hv hrules hvis
    exact hreach.trans (ih (hreach.valid hr hrules hv) h)
  | case5 report changed agenda s n rest _ _ s₁ rule hvis =>
    cases h
    exact visit_reaches hr hv hrules hvis
  | case6 report changed agenda s n rest _ _ s₁ rule removed requeue hvis _ ih =>
    have hreach := visit_reaches hr hv hrules hvis
    exact hreach.trans (ih (hreach.valid hr hrules hv) h)
  | case7 report changed agenda s n rest _ _ s₁ rule removed requeue hvis =>
    cases h
    exact visit_reaches hr hv hrules hvis
  | case8 report changed agenda s n rest _ _ ih => exact ih hv h

/-- Optimizing is collecting all garbage, and then a run. -/
theorem optimize_reaches {g : Graph} {result : Except RewriteError Report}
    (hr : env.registry.Reached) (hrules : ∀ rule ∈ rules.ordered, rule.Checked env.registry)
    (hv : g.Valid env.registry) (h : optimize env rules g = .ok (s, result)) :
    ∃ g₀, Pruned g g₀ ∧ (∀ n node, g.Stays n node → g₀.node? n = some node) ∧
      Reaches env rules g₀ s.graph := by
  obtain ⟨g₀, removed, hc, hp, hstay, -⟩ := collect_spec hv.coherent
  refine ⟨g₀, hp, hstay, ?_⟩
  simp only [optimize, hc, ok_bind] at h
  split at h
  · cases h
    exact .refl
  · exact run_reaches hr hrules (hp.valid hv) h

/-- Optimizing keeps graphs valid. -/
theorem optimize_valid {g : Graph} {result : Except RewriteError Report}
    (hr : env.registry.Reached) (hrules : ∀ rule ∈ rules.ordered, rule.Checked env.registry)
    (hv : g.Valid env.registry) (h : optimize env rules g = .ok (s, result)) :
    s.graph.Valid env.registry := by
  obtain ⟨g₀, hp, -, hreach⟩ := optimize_reaches hr hrules hv h
  exact hreach.valid hr hrules (hp.valid hv)

end Rewriting

/-! ## A program to look at

A value is negated three times. One rewrite undoes the first two negations, and their calls are
garbage after it; the third one stays. -/

namespace Negation

def signature : Signature := .unary 1 "negate"

def env : Environment where
  registry :=
    { modules := [(signature.id, .hosted signature (.fixed 0))]
      names := [("negate", signature.id)] }
  settings := {}

/-- Negating twice gives the value back. -/
def rule : Rule where
  name := "involution"
  input := .call signature.id 1 1 [.call signature.id 1 1 [.wildcard false, .result], .result]
  outputs := [.slot 0]

def rules : RuleSet where
  rules := [rule]
  ordered := [rule]
  depths := .ofRules [rule]

def thrice : Description where
  inputs := [{ name := "in", type := { primitive := .float } }]
  entries :=
    [{ name := "a", kind := .call "negate" 1 ["in"] },
     { name := "b", kind := .call "negate" 1 ["a"] },
     { name := "c", kind := .call "negate" 1 ["b"] }]
  outputs := [{ name := "out", type := { primitive := .float }, source := "c" }]

theorem reached : env.registry.Reached :=
  Registry.Reached.empty.insert (m := .hosted signature (.fixed 0)) rfl

theorem make_rules : RuleSet.make env.registry [rule] = .ok rules := by
  cbv

/-- How many rewrites optimizing makes, and which calls are left. -/
def summary (d : Description) : Option (Nat × List NodeId) :=
  match d.build env with
  | .ok (_, .ok g) =>
    match Rewriting.optimize env rules g with
    | .ok (s, .ok report) => some (report.rewrites, s.graph.callIds)
    | _ => none
  | _ => none

theorem optimize_thrice : ∃ runs g s report, thrice.build env = .ok (runs, .ok g) ∧
    Rewriting.optimize env rules g = .ok (s, .ok report) ∧ report.rewrites = 1 ∧
    s.graph.callIds = [⟨3⟩] := by
  have h : summary thrice = some (1, [⟨3⟩]) := by cbv
  rw [summary] at h
  split at h
  · rename_i runs g hb
    split at h
    · rename_i s report ho
      obtain ⟨hrw, hcalls⟩ := Prod.mk.inj (Option.some.inj h)
      exact ⟨runs, g, s, report, hb, ho, hrw, hcalls⟩
    · cases h
  · cases h

end Negation

end SignalGraph
