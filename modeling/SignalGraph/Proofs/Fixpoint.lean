import SignalGraph.Proofs.Runs

/-!
# Where rewriting ends

A run that ends within its limit ends at a fixpoint: at no call does any rule have anything to do
(`optimize_settled`). The last sweep visits every call of a graph that stays the same, though every
attempt numbers and discards nodes. A rewrite leaves garbage only where its anchor was, so there is
no garbage at the end (`Rewrite.clean`).

Whether a rule has anything to do depends on the live parts of a graph only. So a second run finds
nothing to do either, and leaves everything as it was (`optimize_fixpoint`).
-/

namespace SignalGraph

open SignalGraph.Graph

/-! ## Garbage -/

namespace Graph

variable {g g' : Graph}

/-- Nothing is left that nobody would miss. -/
def Clean (g : Graph) : Prop :=
  ∀ n, g.isGarbage n = false

theorem Same.clean (h : Same g g') (hc : g.Clean) : g'.Clean := by
  have hu : g'.isUnused = g.isUnused := funext fun o => by rw [isUnused, isUnused, h.output?]
  intro n
  rw [← hc n, isGarbage, isGarbage, h.node?, h.surface, hu]

end Graph

/-- Handing the consumers of an anchor to its replacement leaves no garbage but the node of the
anchor. -/
theorem Rewrite.eq_of_isGarbage {env : Environment} {rule : Rule} {n m : NodeId} {g g' : Graph}
    (r : Rewrite env rule n g g') (hr : env.registry.Reached) (hv : g.Valid env.registry)
    (hc : rule.Checked env.registry) (h : g.Clean) (hm : r.redirected.isGarbage m = true) :
    m = n := by
  have hb := r.built_spec hv hc hr
  obtain ⟨node, hl, hpin, hkept, hu⟩ := r.redirect.coherent.isGarbage_iff.1 hm
  rw [r.redirect.node?] at hl
  rw [r.redirect.surface, hb.grown.surface] at hpin
  by_contra hne
  have hmk : r.workspace.graph.maker? r.anchor.id = some n :=
    (hb.grown.maker? (lt_of_output? r.anchor_live)).trans r.maker_anchor
  -- Only the node of the anchor loses consumers.
  have hunused : r.workspace.graph.Unused m := by
    intro i x hs hx
    have hxa : x ≠ r.anchor.id := by
      rintro rfl
      exact hne (Option.some.inj (hx.symm.trans hmk))
    refine hu i x ?_ ((r.redirect.maker? x).trans hx)
    rw [r.redirect.source?, if_neg (by simpa [hs] using hxa), hs]
  by_cases hlt : m.index < g.nodes.size
  · have hug : g.Unused m := Offers.unused_of_grown hb.grown hv.coherent hunused
    have hgarbage := hv.coherent.isGarbage_iff.2
      ⟨node, (hb.grown.node? hlt) ▸ hl, hpin, hkept, hug⟩
    rw [h m] at hgarbage
    cases hgarbage
  · obtain ⟨x, hx, hm⟩ := ((hb.offers rfl).used (Nat.le_of_not_lt hlt) hl).resolve_right
      (not_not.2 hunused)
    -- A new node that gives the port has the consumers of the anchor.
    obtain rfl := List.mem_singleton.1 hx
    obtain ⟨i, hi⟩ := List.exists_mem_of_ne_nil _ r.anchor_used
    have hs := (hv.coherent.mem_consumers r.anchor_live).1 hi
    rw [← hb.grown.source? (lt_of_source? hs)] at hs
    refine hu i r.port.id ?_ ((r.redirect.maker? _).trans hm)
    rw [r.redirect.source?, if_pos hs]

/-- A rewrite leaves no garbage behind. -/
theorem Rewrite.clean {env : Environment} {rule : Rule} {n : NodeId} {g g' : Graph}
    (r : Rewrite env rule n g g') (hr : env.registry.Reached) (hv : g.Valid env.registry)
    (hc : rule.Checked env.registry) (h : g.Clean) : g'.Clean := by
  obtain ⟨g₁, count, hcollect, -, -, hclean⟩ := collectFrom_spec r.redirect.coherent [n]
  cases hcollect.symm.trans r.collect
  exact hclean fun m hm => List.mem_singleton.2 (r.eq_of_isGarbage hr hv hc h hm)

namespace Rewriting

variable {env : Environment} {rules : RuleSet} {allowed : Bool} {n : NodeId} {g g' : Graph}
  {s s' : Rewriting}

/-! ## Calls where nothing is to be done -/

/-- No rule has anything to do at a node. -/
def Settled (env : Environment) (rules : RuleSet) (allowed : Bool) (g : Graph) (n : NodeId) :
    Prop :=
  ∀ ⦃node : Node⦄ ⦃sig : Signature⦄ ⦃factor latency : Nat⦄, g.node? n = some node →
    node.kind = .call sig factor latency → ∀ rule ∈ rules.rootedAt sig.id,
    Idle env allowed sig n node.location g rule

theorem Settled.of_dead (h : g.node? n = none) : Settled env rules allowed g n :=
  fun _ _ _ _ hn => nomatch h.symm.trans hn

theorem Settled.same (hr : env.registry.Reached)
    (hrules : ∀ rule ∈ rules.ordered, rule.Checked env.registry) (hv : g.Valid env.registry)
    (hg' : g'.Coherent) (hs : Same g g') (h : Settled env rules allowed g n) :
    Settled env rules allowed g' n := by
  intro node sig factor latency hn hk rule hm
  rw [hs.node?] at hn
  exact (h hn hk rule hm).same hr hv (hrules rule (List.mem_filter.1 hm).1) hg' hs

/-- A rule that may be applied may be tried where it has nothing to do. -/
theorem Settled.mono {allowed' : Bool} (ha : allowed = true → allowed' = true)
    (h : Settled env rules allowed g n) : Settled env rules allowed' g n := by
  intro node sig factor latency hn hk rule hm
  obtain ⟨anchor, hanchor, hidle⟩ := h hn hk rule hm
  refine ⟨anchor, hanchor, fun port hp => ?_⟩
  obtain ⟨found, hfound, hrej⟩ := hidle port hp
  exact ⟨found, hfound, fun b hb => (hrej b hb).imp_left ha⟩

/-- Alternatives none of which fits leave the graph as it was. -/
theorem replace_of_rejected {b : Bindings} {anchor : OutputPort} {location : Option Location}
    (hr : env.registry.Reached) (hv : g.Valid env.registry)
    (hb : ∀ x ∈ b, ∃ out, g.output? x = some out) (runs : List Preparation) (ps : List Pattern)
    (h : ∀ p ∈ ps, Rejected env b anchor location g p) :
    ∃ g' runs', replace env b anchor location g runs ps = .ok (g', runs', none) ∧
      Restored g g' := by
  induction ps generalizing g runs with
  | nil => exact ⟨g, runs, rfl, .refl hv.coherent⟩
  | cons p ps ih =>
    obtain ⟨⟨w, r, hi, hdiff⟩, h⟩ := List.forall_mem_cons.1 h
    have hbuilt := Pattern.instantiate_spec (w := { graph := g }) hr hv hb p hi
    obtain ⟨g₁, hd, hres⟩ := discard_spec hv.coherent hbuilt.valid.coherent hbuilt.grown
    have hb₁ (x : OutputId) (hx : x ∈ b) : ∃ out, g₁.output? x = some out := by
      rw [hres.output?]
      exact hb x hx
    obtain ⟨g₂, runs₂, hrest, hres₂⟩ := ih (hres.valid hv) hb₁ (w.runs ++ runs) fun q hq =>
      (h q hq).same hr hv hres.coherent hres.toSame hb
    refine ⟨g₂, runs₂, ?_, hres.trans hres₂⟩
    simp only [replace, hi, ok_bind]
    cases r with
    | error e => simp only [hd, ok_bind, hrest]
    | ok o =>
      obtain ⟨port, hp, hdiff⟩ := hdiff o rfl
      have hnot : ¬ (o ≠ anchor.id ∧ port.type = anchor.type ∧ port.latency = anchor.latency) :=
        fun h => hdiff.elim (· h.2.1) (· h.2.2)
      simp only [output_eq_ok.2 hp, ok_bind, if_neg hnot, hd, hrest]

/-- Rules that have nothing to do are passed over. -/
theorem tryRules_append {sig : Signature} {location : Option Location} (depths : Depths)
    (hr : env.registry.Reached) (hv : s.graph.Valid env.registry) (l : List Rule)
    (hrules : ∀ rule ∈ l, rule.Checked env.registry)
    (h : ∀ rule ∈ l, Idle env allowed sig n location s.graph rule) :
    ∃ s', Restored s.graph s'.graph ∧ ∀ rest, tryRules env depths allowed sig n location s
      (l ++ rest) = tryRules env depths allowed sig n location s' rest := by
  induction l generalizing s with
  | nil => exact ⟨s, .refl hv.coherent, fun _ => rfl⟩
  | cons rule l ih =>
    obtain ⟨hc, hrules⟩ := List.forall_mem_cons.1 hrules
    obtain ⟨⟨anchor, ha, hidle⟩, h⟩ := List.forall_mem_cons.1 h
    simp only [List.cons_append, tryRules, ha, ok_bind]
    cases anchor with
    | none => exact ih hv hrules h
    | some anchor =>
      obtain ⟨found, hm, hrej⟩ := hidle anchor rfl
      simp only [hm, ok_bind]
      cases found with
      | none => exact ih hv hrules h
      | some b =>
        obtain ⟨rfl, hall⟩ := hrej b rfl
        obtain ⟨hanchor, -⟩ := anchor?_eq_ok hv.coherent ha
        obtain ⟨hlive, -⟩ := bound_of_matchAt hv hc hanchor hm
        obtain ⟨g₁, runs₁, hrep, hres⟩ :=
          replace_of_rejected hr hv hlive s.runs rule.outputs hall
        have hidle₁ (q : Rule) (hq : q ∈ l) : Idle env true sig n location g₁ q :=
          (h q hq).same hr hv (hrules q hq) hres.coherent hres.toSame
        obtain ⟨s', hres', htry⟩ :=
          ih (s := warn ⟨g₁, runs₁, s.warned, s.diagnostics⟩ rule.name anchor location)
            (by simpa using hres.valid hv) hrules (by simpa using hidle₁)
        rw [graph_warn] at hres'
        refine ⟨s', hres.trans hres', fun rest => ?_⟩
        simpa [hrep, askWarn_eq ((hres.output? _).trans hanchor)] using htry rest

/-- A visit that changes nothing finds nothing to do. -/
theorem settled_of_visit (hr : env.registry.Reached)
    (hrules : ∀ rule ∈ rules.ordered, rule.Checked env.registry)
    (hv : s.graph.Valid env.registry) (h : visit env rules allowed s n = .ok (s', .unchanged)) :
    Restored s.graph s'.graph ∧ Settled env rules allowed s.graph n := by
  obtain ⟨node, hn, ⟨hk, rfl, -⟩ | ⟨sig, factor, latency, hk, hvis⟩⟩ := visit_spec hr hv hrules h
  · refine ⟨.refl hv.coherent, fun node' sig factor latency hn' hk' => ?_⟩
    obtain rfl := Option.some.inj (hn.symm.trans hn')
    rw [hk'] at hk
    cases hk
  · cases hvis with
    | unchanged restored idle =>
      refine ⟨restored, fun node' sig' factor' latency' hn' hk' => ?_⟩
      obtain rfl := Option.some.inj (hn.symm.trans hn')
      cases hk.symm.trans hk'
      exact idle

/-- No visit leaves garbage behind. -/
theorem visit_clean {v : Visit} (hr : env.registry.Reached)
    (hrules : ∀ rule ∈ rules.ordered, rule.Checked env.registry)
    (hv : s.graph.Valid env.registry) (hclean : s.graph.Clean)
    (h : visit env rules allowed s n = .ok (s', v)) : s'.graph.Clean := by
  obtain ⟨node, -, ⟨-, rfl, -⟩ | ⟨sig, factor, latency, -, hvis⟩⟩ := visit_spec hr hv hrules h
  · exact hclean
  · cases hvis with
    | unchanged restored _ => exact restored.toSame.clean hclean
    | limited _ restored => exact restored.toSame.clean hclean
    | @rewritten _ rule _ _ _ _ restored split _ rewrite =>
      have mem : rule ∈ rules.rootedAt sig.id := by simp [split]
      exact rewrite.clean hr (restored.valid hv) (hrules _ (List.mem_filter.1 mem).1)
        (restored.toSame.clean hclean)

/-- Visiting a node where nothing is to be done changes nothing. -/
theorem visit_of_settled (hr : env.registry.Reached)
    (hrules : ∀ rule ∈ rules.ordered, rule.Checked env.registry)
    (hv : s.graph.Valid env.registry) (hlive : s.graph.contains n = true)
    (h : Settled env rules allowed s.graph n) :
    ∃ s', visit env rules allowed s n = .ok (s', .unchanged) ∧ Restored s.graph s'.graph := by
  obtain ⟨node, hn⟩ := Option.isSome_iff_exists.1 hlive
  simp only [visit, node_eq_ok.2 hn, ok_bind]
  split
  · rename_i sig factor latency hk
    obtain ⟨s', hres, htry⟩ := tryRules_append rules.depths hr hv _
      (fun rule hm => hrules rule (List.mem_filter.1 hm).1) (h hn hk)
    have hnil := htry []
    rw [List.append_nil] at hnil
    exact ⟨s', hnil, hres⟩
  · exact ⟨s, rfl, .refl hv.coherent⟩

/-! ## Runs -/

/-- What a sweep without a change has found so far: no rule has anything to do at the nodes before
the cursor, and only nodes from there on are left. -/
structure Swept (env : Environment) (rules : RuleSet) (allowed : Bool) (g : Graph)
    (agenda : Agenda) : Prop where
  passed : agenda.passed = []
  stop {n : NodeId} {node : Node} : g.node? n = some node → n.index < agenda.stop
  settled {n : NodeId} : n.index < agenda.cursor → Settled env rules allowed g n

theorem Swept.all (g : Graph) : Swept env rules allowed g (.all g) where
  passed := rfl
  stop hn := lt_of_node? hn
  settled hn := absurd hn (Nat.not_lt_zero _)

/-- A sweep without a change is over when no node is left. -/
theorem Swept.done {agenda : Agenda} (h : Swept env rules allowed g agenda)
    (hd : agenda.next? = none) (n : NodeId) : Settled env rules allowed g n := by
  cases hn : g.node? n with
  | none => exact .of_dead hn
  | some node =>
    have hstop := h.stop hn
    simp only [Agenda.next?, h.passed] at hd
    split at hd
    · cases hd
    · exact h.settled (Nat.lt_of_lt_of_le hstop (Nat.le_of_not_lt ‹_›))

/-- A sweep goes on to the next node after one where nothing is to be done. -/
theorem Swept.next {agenda rest : Agenda} (hr : env.registry.Reached)
    (hrules : ∀ rule ∈ rules.ordered, rule.Checked env.registry) (hv : g.Valid env.registry)
    (hres : Restored g g') (hd : agenda.next? = some (n, rest))
    (hn : Settled env rules allowed g n) (h : Swept env rules allowed g agenda) :
    Swept env rules allowed g' rest := by
  simp only [Agenda.next?, h.passed] at hd
  split at hd
  · cases hd
    refine ⟨rfl, fun hm => h.stop (hres.node? _ ▸ hm), fun {m} hm => ?_⟩
    have hset : Settled env rules allowed g m := by
      by_cases hlt : m.index < agenda.cursor
      · exact h.settled hlt
      · obtain rfl : m = ⟨agenda.cursor⟩ := by
          cases m
          simp only [Id.mk.injEq] at *
          omega
        exact hn
    exact hset.same hr hrules hv hres.coherent hres.toSame
  · cases hd

/-- A run that ends within its limit ends where nothing is to be done. -/
theorem run_settled {report report' : Report} {changed : Bool} {agenda : Agenda}
    (hr : env.registry.Reached) (hrules : ∀ rule ∈ rules.ordered, rule.Checked env.registry)
    (hv : s.graph.Valid env.registry) (hclean : s.graph.Clean)
    (hswept : changed = false →
      Swept env rules (report.rewrites < env.settings.maxRewrites) s.graph agenda)
    (h : run env rules report changed agenda s = .ok (s', .ok report')) :
    s'.graph.Clean ∧ ∀ n,
      Settled env rules (report'.rewrites < env.settings.maxRewrites) s'.graph n := by
  fun_induction run env rules report changed agenda s with
  | case1 report agenda s _ ih => exact ih hv hclean (fun _ => .all _) h
  | case2 report changed agenda s hd hc =>
    cases h
    exact ⟨hclean, (hswept (by simpa using hc)).done hd⟩
  | case3 => cases h
  | case4 report changed agenda s n rest hd hlive s₁ hvis ih =>
    obtain ⟨hres, hset⟩ := settled_of_visit hr hrules hv hvis
    exact ih (hres.valid hv) (hres.toSame.clean hclean)
      (fun hc => (hswept hc).next hr hrules hv hres hd hset) h
  | case5 => cases h
  | case6 report changed agenda s n rest hd hlive s₁ rule removed requeue hvis _ ih =>
    exact ih ((visit_reaches hr hv hrules hvis).valid hr hrules hv)
      (visit_clean hr hrules hv hclean hvis) (by simp) h
  | case7 => cases h
  | case8 report changed agenda s n rest hd hlive ih =>
    have hdead : Settled env rules (report.rewrites < env.settings.maxRewrites) s.graph n :=
      .of_dead (by simpa [contains] using hlive)
    exact ih hv hclean
      (fun hc => (hswept hc).next hr hrules hv (.refl hv.coherent) hd hdead) h

/-- A run on a graph where nothing is to be done does nothing. -/
theorem run_of_settled {changed : Bool} (report : Report) (agenda : Agenda)
    (hr : env.registry.Reached) (hrules : ∀ rule ∈ rules.ordered, rule.Checked env.registry)
    (hv : s.graph.Valid env.registry) (hc : changed = false)
    (h : ∀ n, Settled env rules (report.rewrites < env.settings.maxRewrites) s.graph n) :
    ∃ s', run env rules report changed agenda s = .ok (s', .ok report) ∧
      Restored s.graph s'.graph := by
  fun_induction run env rules report changed agenda s with
  | case1 report agenda s _ ih => cases hc
  | case2 report changed agenda s hd _ => exact ⟨s, rfl, .refl hv.coherent⟩
  | case3 report changed agenda s n rest hd hlive fault hvis =>
    obtain ⟨_, hvis', -⟩ := visit_of_settled hr hrules hv hlive (h n)
    cases hvis.symm.trans hvis'
  | case4 report changed agenda s n rest hd hlive s₁ hvis ih =>
    obtain ⟨hres, -⟩ := settled_of_visit hr hrules hv hvis
    obtain ⟨s', hrun, hres'⟩ := ih (hres.valid hv) hc fun m =>
      (h m).same hr hrules hv hres.coherent hres.toSame
    exact ⟨s', hrun, hres.trans hres'⟩
  | case5 report changed agenda s n rest hd hlive s₁ rule hvis =>
    obtain ⟨_, hvis', -⟩ := visit_of_settled hr hrules hv hlive (h n)
    cases hvis.symm.trans hvis'
  | case6 report changed agenda s n rest hd hlive s₁ rule removed requeue hvis =>
    obtain ⟨_, hvis', -⟩ := visit_of_settled hr hrules hv hlive (h n)
    cases hvis.symm.trans hvis'
  | case7 report changed agenda s n rest hd hlive s₁ rule removed requeue hvis =>
    obtain ⟨_, hvis', -⟩ := visit_of_settled hr hrules hv hlive (h n)
    cases hvis.symm.trans hvis'
  | case8 report changed agenda s n rest hd hlive ih => exact ih hv hc h

/-! ## Optimizing -/

/-- Optimizing ends within its limit where nothing is to be done and no garbage is left. -/
theorem optimize_settled {report : Report} (hr : env.registry.Reached)
    (hmem : ∀ rule, rule ∈ rules.ordered ↔ rule ∈ rules.rules)
    (hrules : ∀ rule ∈ rules.ordered, rule.Checked env.registry) (hv : g.Valid env.registry)
    (h : optimize env rules g = .ok (s, .ok report)) :
    s.graph.Clean ∧
      ∀ n, Settled env rules (report.rewrites < env.settings.maxRewrites) s.graph n := by
  obtain ⟨g₀, removed, hc, hp, -, hclean⟩ := collect_spec hv.coherent
  simp only [optimize, hc, ok_bind] at h
  split at h
  · rename_i hempty
    cases h
    refine ⟨hclean, fun n node sig factor latency _ _ rule hm => ?_⟩
    have hin := (hmem rule).1 (List.mem_filter.1 hm).1
    rw [List.isEmpty_iff.1 hempty] at hin
    cases hin
  · exact run_settled (s := { graph := g₀ }) hr hrules (hp.valid hv) hclean (fun _ => .all g₀) h

/-- Optimizing does nothing where nothing is to be done and no garbage is left. -/
theorem optimize_of_settled (hr : env.registry.Reached)
    (hrules : ∀ rule ∈ rules.ordered, rule.Checked env.registry) (hv : g.Valid env.registry)
    (hclean : g.Clean) (h : ∀ n, Settled env rules (0 < env.settings.maxRewrites) g n) :
    ∃ s report, optimize env rules g = .ok (s, .ok report) ∧ report.rewrites = 0 ∧
      report.removed = 0 ∧ Same g s.graph := by
  simp only [optimize, collect_of_clean hv.coherent hclean, ok_bind]
  split
  · exact ⟨_, _, rfl, rfl, rfl, (Restored.refl hv.coherent).toSame⟩
  · obtain ⟨s, hrun, hres⟩ := run_of_settled (s := { graph := g }) { removed := 0, sweeps := 1 }
      (.all g) hr hrules hv rfl h
    exact ⟨s, _, hrun, rfl, rfl, hres.toSame⟩

/-- A run that ends within its limit ends at a fixpoint: no rule has anything to do at any call, and
a second run does nothing. -/
theorem optimize_fixpoint {l : List Rule} {report : Report} (hr : env.registry.Reached)
    (hmake : RuleSet.make env.registry l = .ok rules) (hg : g.Coherent) (hverify : g.verify = [])
    (hcalls : g.CallsFrom env.registry) (h : optimize env rules g = .ok (s, .ok report)) :
    (∀ n node sig factor latency, s.graph.node? n = some node →
      node.kind = .call sig factor latency → ∀ rule ∈ l, rule.root? = some sig.id →
      Idle env true sig n node.location s.graph rule) ∧
    ∃ s' report', optimize env rules s.graph = .ok (s', .ok report') ∧ report'.rewrites = 0 ∧
      report'.removed = 0 ∧ Same s.graph s'.graph := by
  obtain ⟨rfl, hmem, hrules⟩ := RuleSet.make_eq_ok hmake
  have hv : g.Valid env.registry := valid_iff.2 ⟨hg, hverify, hcalls⟩
  obtain ⟨hclean, hset⟩ := optimize_settled hr hmem hrules hv h
  constructor
  · intro n node sig factor latency hn hk rule hm hroot
    have hrooted : rule ∈ rules.rootedAt sig.id :=
      List.mem_filter.2 ⟨(hmem rule).2 hm, by simpa using hroot⟩
    exact (hset n).mono (fun _ => rfl) hn hk rule hrooted
  · refine optimize_of_settled hr hrules (optimize_valid hr hrules hv h) hclean fun n => ?_
    refine (hset n).mono fun hlt => ?_
    simp only [decide_eq_true_eq] at hlt ⊢
    omega

theorem optimize_fixpoint_thrice :
    ∃ runs g s report, Negation.thrice.build Negation.env = .ok (runs, .ok g) ∧
      optimize Negation.env Negation.rules g = .ok (s, .ok report) ∧ report.rewrites = 1 ∧
      s.graph.callIds = [⟨3⟩] ∧
      (∀ n node sig factor latency, s.graph.node? n = some node →
        node.kind = .call sig factor latency → ∀ rule ∈ [Negation.rule],
        rule.root? = some sig.id →
        Idle Negation.env true sig n node.location s.graph rule) ∧
      ∃ s' report', optimize Negation.env Negation.rules s.graph = .ok (s', .ok report') ∧
        report'.rewrites = 0 ∧ report'.removed = 0 ∧ Same s.graph s'.graph := by
  obtain ⟨runs, g, s, report, hb, ho, hrw, hcalls⟩ := Negation.optimize_thrice
  have hv := (Description.build_loaded Negation.reached hb).valid
  exact ⟨runs, g, s, report, hb, ho, hrw, hcalls, optimize_fixpoint Negation.reached
    Negation.make_rules hv.coherent (valid_iff.1 hv).2.1 hv.fits ho⟩

end Rewriting

end SignalGraph
