import SignalGraph.Proofs.Accounting
import SignalGraph.Proofs.Additions
import SignalGraph.Proofs.Courses
import SignalGraph.Proofs.Limits
import SignalGraph.Proofs.Passes

/-!
# What rewriting tells

A run of rewriting tells two things (`Message`): what hooks said of the calls of a replacement, once
it has taken the place of its anchor, and that a rule matched without a fitting alternative. `Tells`
follows the graphs of a run and says which message comes at which step. What hooks said of calls
that were discarded is in none of them.

A hook that reports an error refuses its call, so no message of a replacement is an error
(`Additions.quiet`). Rules without a fitting alternative are reported once for each anchor
(`Told.once`), and the last sweep finds every rule that matches reported (`Noted`). So only a run
that came to its limit makes the pass fail (`optimize_messages`).
-/

namespace SignalGraph

open SignalGraph.Graph

/-! ## Calls that were built -/

/-- A call is ready if its hook reports no error. -/
theorem Call.quiet_of_ready {env : Environment} {g : Graph} {module : ModuleId} {factor : Nat}
    {arguments : List OutputId} {location : Option Location} {made : Made Ready} {c : Ready}
    (h : ready env g module factor arguments location = .ok made) (hc : made.result = .ok c) :
    ∀ run ∈ made.run, Diagnostic.errorCount run.prepared.diagnostics = 0 := by
  obtain ⟨m, run, -, hrun, hprepared⟩ := prepared_of_ready h hc
  rw [hrun]
  rintro _ ⟨⟩
  exact hprepared.quiet

/-- The hooks of calls that were added reported no error. -/
theorem Additions.quiet {env : Environment} {g g' : Graph} {runs : List Preparation}
    (h : Additions env g runs g') :
    ∀ run ∈ runs, Diagnostic.errorCount run.prepared.diagnostics = 0 := by
  induction h with
  | nil => exact List.forall_mem_nil _
  | snoc _ ha ih =>
    refine List.forall_mem_append.2 ⟨ih, ?_⟩
    cases ha with
    | plain | array | surface => exact List.forall_mem_nil _
    | call hready =>
      intro run hrun
      exact Call.quiet_of_ready hready rfl run (Option.mem_toList.1 hrun)

theorem Diagnostic.level_of_errorCount {ds : List Diagnostic} (h : errorCount ds = 0) :
    ∀ d ∈ ds, d.level = .warning := by
  intro d hd
  have hnot := List.filter_eq_nil_iff.1 (List.eq_nil_of_length_eq_zero h) d hd
  cases hl : d.level with
  | error => simp [isError, hl] at hnot
  | warning => rfl

namespace Pattern

variable {env : Environment} {b : Bindings} {location : Option Location}

/-- Nodes were added to a workspace, and the hooks of the calls among them are noted. -/
def Extends (env : Environment) (w w' : Workspace) : Prop :=
  ∃ runs, Additions env w.graph runs w'.graph ∧ w'.runs = runs.reverse ++ w.runs

theorem Extends.refl (env : Environment) (w : Workspace) : Extends env w w :=
  ⟨[], .nil, rfl⟩

theorem Extends.trans {w w₁ w₂ : Workspace} (h : Extends env w w₁) (h' : Extends env w₁ w₂) :
    Extends env w w₂ := by
  obtain ⟨runs, ha, hruns⟩ := h
  obtain ⟨runs', ha', hruns'⟩ := h'
  exact ⟨runs ++ runs', ha.trans ha', by simp [hruns, hruns']⟩

theorem extends_of_added {w w' : Workspace} {runs noted : List Preparation} {g : Graph}
    {n : NodeId} {slot : Nat} {r : Except BuildError OutputId} (ha : Addition env w.graph runs g)
    (hnoted : noted = runs.reverse ++ w.runs) (h : Workspace.added noted g n slot = .ok (w', r)) :
    Extends env w w' := by
  obtain ⟨o, -, h⟩ := bind_eq_ok.1 h
  cases h
  exact ⟨runs, ha.one, hnoted⟩

theorem extends_of_instantiateCall {w w' : Workspace} {s : Signature} {module : ModuleId}
    {factor place : Nat} {arguments : List OutputId} {o : OutputId}
    (h : instantiateCall env w location s module factor place arguments = .ok (w', .ok o)) :
    Extends env w w' := by
  simp only [instantiateCall, bind_eq_ok] at h
  obtain ⟨⟨run, result⟩, hmade, h⟩ := h
  cases result with
  | error e => cases h
  | ok c =>
    obtain ⟨⟨g, n⟩, hins, h⟩ := bind_eq_ok.1 h
    dsimp only at h
    split at h
    · cases h
    · exact extends_of_added (Addition.call hmade hins) (by cases run <;> rfl) h

theorem extends_of_instantiateArray {w w' : Workspace} {ports : List OutputId} {o : OutputId}
    (h : instantiateArray w location ports = .ok (w', .ok o)) : Extends env w w' := by
  simp only [instantiateArray, bind_eq_ok] at h
  obtain ⟨element?, -, h⟩ := h
  split at h
  · cases h
  · obtain ⟨result?, hres, h⟩ := bind_eq_ok.1 h
    split at h
    · cases h
    · obtain ⟨⟨g, n⟩, hins, h⟩ := bind_eq_ok.1 h
      exact extends_of_added (Addition.array hres hins) rfl h

mutual
/-- What is built for a pattern comes with the runs of its hooks. -/
theorem instantiate_extends {w w' : Workspace} {o : OutputId} :
    (p : Pattern) → instantiate env b location w p = .ok (w', .ok o) → Extends env w w'
  | .call module factor place children, h => by
    simp only [instantiate] at h
    split at h
    · cases h
    · obtain ⟨⟨w₁, r₁⟩, ha, h⟩ := bind_eq_ok.1 h
      cases r₁ with
      | error e => cases h
      | ok arguments =>
        exact (instantiateArguments_extends _ children ha).trans (extends_of_instantiateCall h)
  | .literal value, h => by
    simp only [instantiate] at h
    exact extends_of_added (Addition.constant w.graph value location) rfl h
  | .array elements, h => by
    simp only [instantiate] at h
    obtain ⟨⟨w₁, r₁⟩, he, h⟩ := bind_eq_ok.1 h
    cases r₁ with
    | error e => cases h
    | ok ports =>
      exact (instantiateElements_extends elements he).trans (extends_of_instantiateArray h)
  | .slot k, h => by
    simp only [instantiate, bind_eq_ok, pure_eq_ok] at h
    obtain ⟨o, -, h⟩ := h
    cases h
    exact .refl env w
  | .wildcard _, h => by cases h
  | .result, h => by cases h
  | .ellipsis, h => by cases h

theorem instantiateArguments_extends {w w' : Workspace} {ports : List OutputId}
    (parameters : List Parameter) : (cs : List Pattern) →
    instantiateArguments env b location w parameters cs = .ok (w', .ok ports) → Extends env w w'
  | [], h => by
    rw [instantiateArguments] at h
    cases h
    exact .refl env w
  | c :: cs, h => by
    cases parameters with
    | nil =>
      rw [instantiateArguments] at h
      cases h
      exact .refl env w
    | cons q parameters =>
      by_cases hq : q.isInput = true
      · obtain ⟨w₁, o, rest, hc, hcs, -⟩ := instantiateArguments_cons hq h
        exact (instantiate_extends c hc).trans (instantiateArguments_extends parameters cs hcs)
      · rw [instantiateArguments, if_neg hq] at h
        exact instantiateArguments_extends parameters cs h

theorem instantiateElements_extends {w w' : Workspace} {ports : List OutputId} :
    (es : List Pattern) → instantiateElements env b location w es = .ok (w', .ok ports) →
    Extends env w w'
  | [], h => by
    rw [instantiateElements] at h
    cases h
    exact .refl env w
  | e :: es, h => by
    obtain ⟨w₁, o, rest, he, hes, -⟩ := instantiateElements_cons h
    exact (instantiate_extends e he).trans (instantiateElements_extends es hes)
end

end Pattern

/-- The hooks that ran for a rewrite are those of the calls that were added for it. -/
theorem Rewrite.additions_runs {env : Environment} {rule : Rule} {n : NodeId} {g g' : Graph}
    (r : Rewrite env rule n g g') :
    Additions env g r.workspace.runs.reverse r.workspace.graph := by
  obtain ⟨runs, hadd, hruns⟩ := Pattern.instantiate_extends r.alternative r.built
  simpa [hruns] using hadd

/-! ## Messages -/

/-- What a run of rewriting tells. -/
inductive Message where
  /-- A replacement took the place of an anchor; these hooks ran for its calls. -/
  | replaced (rule : String) (runs : List Preparation)
  /-- A rule matched, and none of its alternatives fits. -/
  | unreplaceable (rule : String) (anchor : OutputPort) (location : Option Location)

namespace Message

def diagnostics : Message → List Diagnostic
  | .replaced _ runs => Preparation.diagnostics runs
  | .unreplaceable rule anchor location => [Rewriting.unreplaceable rule anchor location]

/-- The rule and the anchor that were reported. -/
def reported? : Message → Option (String × OutputId)
  | .replaced .. => none
  | .unreplaceable rule anchor _ => some (rule, anchor.id)

end Message

/-- The rules and anchors that these messages report, in order. -/
def Message.reported (told : List Message) : List (String × OutputId) :=
  told.filterMap Message.reported?

theorem Message.reported_append (told : List Message) (m : Message) :
    reported (told ++ [m]) = reported told ++ m.reported?.toList := by
  simp only [reported, List.filterMap_append, List.filterMap_cons, List.filterMap_nil]
  cases m.reported? <;> rfl

namespace Rewriting

/-- Rewriting leads from `g` to another graph and tells these messages on the way. -/
inductive Tells (env : Environment) (rules : RuleSet) (g : Graph) :
    List Message → Graph → Prop where
  | refl : Tells env rules g [] g
  | restore {told : List Message} {g₁ g₂ : Graph} : Tells env rules g told g₁ → Restored g₁ g₂ →
    Tells env rules g told g₂
  | warn {told : List Message} {g₁ : Graph} {rule : Rule} {n : NodeId} {node : Node}
    {sig : Signature} {factor latency : Nat} {anchor : OutputPort} {b : Bindings} :
    Tells env rules g told g₁ → rule ∈ rules.ordered → g₁.node? n = some node →
    node.kind = .call sig factor latency → Matches g₁ sig n rule anchor b →
    (∀ p ∈ rule.outputs, Rejected env b anchor node.location g₁ p) →
    (rule.name, anchor.id) ∉ Message.reported told →
    Tells env rules g (told ++ [.unreplaceable rule.name anchor node.location]) g₁
  | rewrite {told : List Message} {g₁ g₂ : Graph} {rule : Rule} {n : NodeId} :
    Tells env rules g told g₁ → rule ∈ rules.ordered → (r : Rewrite env rule n g₁ g₂) →
    Tells env rules g (told ++ [.replaced rule.name r.workspace.runs.reverse]) g₂

variable {env : Environment} {rules : RuleSet} {depths : Depths} {allowed : Bool} {sig : Signature}
  {n : NodeId} {location : Option Location} {g g' : Graph} {s s' : Rewriting} {v : Visit}
  {told : List Message}

/-- A run never tells an error. -/
theorem Tells.warning (h : Tells env rules g told g') :
    ∀ d ∈ told.flatMap Message.diagnostics, d.level = .warning := by
  induction h with
  | refl => exact List.forall_mem_nil _
  | restore _ _ ih => exact ih
  | warn _ _ _ _ _ _ _ ih =>
    rw [List.flatMap_append, List.forall_mem_append]
    refine ⟨ih, ?_⟩
    simp [Message.diagnostics, unreplaceable, Diagnostic.warning]
  | rewrite _ _ r ih =>
    rw [List.flatMap_append, List.forall_mem_append]
    refine ⟨ih, fun d hd => ?_⟩
    simp only [List.flatMap_cons, List.flatMap_nil, List.append_nil, Message.diagnostics,
      Preparation.diagnostics, List.mem_flatMap] at hd
    obtain ⟨run, hrun, hd⟩ := hd
    exact Diagnostic.level_of_errorCount (r.additions_runs.quiet run hrun) d hd

/-- What a run has told so far is what its state says. -/
structure Told (env : Environment) (rules : RuleSet) (g : Graph) (s : Rewriting)
    (told : List Message) : Prop where
  tells : Tells env rules g told s.graph
  diagnostics : s.diagnostics = told.flatMap Message.diagnostics
  warned : s.warned = (Message.reported told).reverse
  once : (Message.reported told).Nodup

theorem Told.start (env : Environment) (rules : RuleSet) (g : Graph) :
    Told env rules g { graph := g } [] :=
  ⟨.refl, rfl, rfl, List.nodup_nil⟩

theorem Told.restore (h : Told env rules g s told) (hres : Restored s.graph g')
    (runs : List Preparation) : Told env rules g ⟨g', runs, s.warned, s.diagnostics⟩ told :=
  ⟨h.tells.restore hres, h.diagnostics, h.warned, h.once⟩

/-- A rule without a fitting alternative is reported, unless it was before. -/
theorem Told.warn {rule : Rule} {node : Node} {factor latency : Nat} {anchor : OutputPort}
    {b : Bindings} (h : Told env rules g s told) (hmem : rule ∈ rules.ordered)
    (hn : s.graph.node? n = some node) (hk : node.kind = .call sig factor latency)
    (hm : Matches s.graph sig n rule anchor b)
    (hrej : ∀ p ∈ rule.outputs, Rejected env b anchor node.location s.graph p) :
    ∃ told', Told env rules g (s.warn rule.name anchor node.location) told' := by
  unfold Rewriting.warn
  split
  · exact ⟨told, h⟩
  · rename_i hnew
    rw [h.warned, List.mem_reverse] at hnew
    refine ⟨_, h.tells.warn hmem hn hk hm hrej hnew, ?_, ?_, ?_⟩
    · rw [List.flatMap_append, h.diagnostics]
      rfl
    · rw [Message.reported_append, h.warned]
      simp [Message.reported?]
    · rw [Message.reported_append]
      simpa [Message.reported?, List.concat_eq_append] using h.once.concat hnew

/-- A replacement tells what the hooks said of its calls. -/
theorem Told.rewrite {rule : Rule} {r : Replacement} {requeue : List NodeId}
    (h : Told env rules g s told) (hmem : rule ∈ rules.ordered)
    (happ : Applies env depths rule n s.graph g' r requeue) (runs : List Preparation) :
    ∃ told', Told env rules g ⟨g', runs, s.warned, s.diagnostics ++ r.diagnostics⟩ told' := by
  refine ⟨_, h.tells.rewrite hmem happ.toRewrite, ?_, ?_, ?_⟩
  · rw [List.flatMap_append, h.diagnostics, happ.said]
    simp [Message.diagnostics]
  · rw [Message.reported_append, h.warned]
    simp [Message.reported?]
  · rw [Message.reported_append]
    simpa [Message.reported?] using h.once

/-- What is reported does not depend on the graph. -/
theorem warn_eq (s : Rewriting) (g : Graph) (runs : List Preparation) (rule : String)
    (anchor : OutputPort) (location : Option Location) :
    warn ⟨g, runs, s.warned, s.diagnostics⟩ rule anchor location =
      ⟨g, runs, (s.warn rule anchor location).warned,
        (s.warn rule anchor location).diagnostics⟩ := by
  unfold warn
  split <;> rfl

/-- What was told along a visit is what the state says after it. -/
theorem Course.exists_told {l : List Rule} {node : Node} {factor latency : Nat}
    (hc : Course env depths allowed sig n location s l s' v)
    (hmem : ∀ rule ∈ l, rule ∈ rules.ordered) (hn : s.graph.node? n = some node)
    (hk : node.kind = .call sig factor latency) (hloc : node.location = location)
    (h : Told env rules g s told) : ∃ told', Told env rules g s' told' := by
  induction hc generalizing told with
  | done => exact ⟨told, h⟩
  | pass _ _ ih => exact ih (fun rule hr => hmem rule (List.mem_cons_of_mem _ hr)) hn h
  | limit => exact ⟨told, h⟩
  | @warn s s' rule l v anchor b g₁ runs _ matched restored rejected _ ih =>
    subst hloc
    obtain ⟨told₁, h₁⟩ := h.warn (hmem rule List.mem_cons_self) hn hk matched rejected
    have h₂ := h₁.restore (by simpa using restored) runs
    rw [← warn_eq] at h₂
    refine ih (fun rule hr => hmem rule (List.mem_cons_of_mem _ hr)) ?_ h₂
    simpa [restored.node?] using hn
  | rewrite _ restored applies =>
    exact (h.restore restored []).rewrite (hmem _ List.mem_cons_self) applies _

/-! ## What the last sweep finds -/

theorem warned_subset_warn (s : Rewriting) (rule : String) (anchor : OutputPort)
    (location : Option Location) : s.warned ⊆ (s.warn rule anchor location).warned := by
  unfold warn
  split
  · exact List.Subset.refl _
  · exact List.subset_cons_self _ _

theorem mem_warned_warn (s : Rewriting) (rule : String) (anchor : OutputPort)
    (location : Option Location) : (rule, anchor.id) ∈ (s.warn rule anchor location).warned := by
  unfold warn
  split
  · assumption
  · exact List.mem_cons_self

theorem Course.warned_subset {l : List Rule}
    (hc : Course env depths allowed sig n location s l s' v) : s.warned ⊆ s'.warned := by
  induction hc with
  | done => exact List.Subset.refl _
  | pass _ _ ih => exact ih
  | limit => exact List.Subset.refl _
  | @warn _ _ _ _ _ _ _ g₁ runs _ _ _ _ _ ih =>
    exact List.Subset.trans (warned_subset_warn ⟨g₁, runs, _, _⟩ _ _ _) ih
  | rewrite => exact List.Subset.refl _

/-- A visit that changes nothing leaves every rule that matches reported. -/
theorem Course.mem_warned {l : List Rule} (hv : s.graph.Valid env.registry)
    (hc : Course env depths allowed sig n location s l s' v) (hun : v = .unchanged) :
    ∀ rule ∈ l, ∀ anchor b, Matches s.graph sig n rule anchor b →
      (rule.name, anchor.id) ∈ s'.warned := by
  induction hc with
  | done => exact List.forall_mem_nil _
  | pass unmatched _ ih =>
    refine List.forall_mem_cons.2 ⟨fun anchor b hm => absurd hm (unmatched anchor b), ih hv hun⟩
  | limit | rewrite => cases hun
  | @warn s s' rule l v anchor b g₁ runs _ matched restored _ rest ih =>
    refine List.forall_mem_cons.2 ⟨fun anchor' b' hm => ?_, fun rule' hmem anchor' b' hm => ?_⟩
    · obtain rfl : anchor = anchor' :=
        Option.some.inj (Except.ok.inj (matched.anchored.symm.trans hm.anchored))
      exact rest.warned_subset (mem_warned_warn ⟨g₁, runs, _, _⟩ _ _ _)
    · refine ih (by simpa using restored.valid hv) hun rule' hmem anchor' b' ?_
      rw [graph_warn]
      exact (Matches.same hv restored.coherent restored.toSame).2 hm

/-- Every rule that matches at a node was reported. -/
def Noted (rules : RuleSet) (s : Rewriting) (n : NodeId) : Prop :=
  ∀ ⦃node : Node⦄ ⦃sig : Signature⦄ ⦃factor latency : Nat⦄, s.graph.node? n = some node →
    node.kind = .call sig factor latency → ∀ rule ∈ rules.rootedAt sig.id, ∀ anchor b,
    Matches s.graph sig n rule anchor b → (rule.name, anchor.id) ∈ s.warned

theorem Noted.same (hv : s.graph.Valid env.registry) (hres : Restored s.graph s'.graph)
    (hsub : s.warned ⊆ s'.warned) (h : Noted rules s n) : Noted rules s' n := by
  intro node sig factor latency hn hk rule hmem anchor b hm
  rw [hres.node?] at hn
  exact hsub (h hn hk rule hmem anchor b
    ((Matches.same hv hres.coherent hres.toSame).1 hm))

section

variable (hr : env.registry.Reached)
  (hrules : ∀ rule ∈ rules.ordered, rule.Checked env.registry) (hv : s.graph.Valid env.registry)

include hr hrules hv

theorem visit_told (hvis : visit env rules allowed s n = .ok (s', v))
    (h : Told env rules g s told) : ∃ told', Told env rules g s' told' := by
  obtain ⟨node, hn, ⟨-, rfl, -⟩ | ⟨sig, factor, latency, hk, hc⟩⟩ :=
    course_of_visit hr hrules hv hvis
  · exact ⟨told, h⟩
  · exact hc.exists_told (fun rule hm => (List.mem_filter.1 hm).1) hn hk rfl h

theorem visit_noted (hvis : visit env rules allowed s n = .ok (s', .unchanged)) :
    Noted rules s' n ∧ Restored s.graph s'.graph ∧ s.warned ⊆ s'.warned := by
  have hres := (settled_of_visit hr hrules hv hvis).1
  obtain ⟨node, hn, ⟨hk, rfl, -⟩ | ⟨sig, factor, latency, hk, hc⟩⟩ :=
    course_of_visit hr hrules hv hvis
  · refine ⟨fun node' sig factor latency hn' hk' => ?_, hres, List.Subset.refl _⟩
    obtain rfl := Option.some.inj (hn.symm.trans hn')
    rw [hk'] at hk
    cases hk
  · refine ⟨fun node' sig' factor' latency' hn' hk' rule hm anchor b hmatch => ?_, hres,
      hc.warned_subset⟩
    rw [hres.node?, hn] at hn'
    obtain rfl := Option.some.inj hn'
    cases hk.symm.trans hk'
    exact hc.mem_warned hv rfl rule hm anchor b
      ((Matches.same hv hres.coherent hres.toSame).1 hmatch)

end

/-- What holds wherever a run on `g` stands: its state says what was told, and in a sweep without a
change every rule that matches before the cursor was reported. -/
structure Telling (env : Environment) (rules : RuleSet) (g : Graph) (p : Position) : Prop where
  valid : p.state.graph.Valid env.registry
  told : ∃ told, Told env rules g p.state told
  passed : p.changed = false → p.agenda.passed = []
  stop {n : NodeId} {node : Node} : p.changed = false → p.state.graph.node? n = some node →
    n.index < p.agenda.stop
  noted {n : NodeId} : p.changed = false → n.index < p.agenda.cursor → Noted rules p.state n

namespace Telling

variable {p q : Position}

theorem start (rules : RuleSet) {g : Graph} (hv : g.Valid env.registry) (removed : ℕ) :
    Telling env rules g (.start g removed) where
  valid := hv
  told := ⟨[], .start env rules g⟩
  passed _ := rfl
  stop _ hn := lt_of_node? hn
  noted _ hn := absurd hn (Nat.not_lt_zero _)

/-- A sweep without a change goes on to the next node when the rules at a node were reported. -/
theorem next {rest : Agenda} (h : Telling env rules g p)
    (hd : p.agenda.next? = some (n, rest)) (hn : Noted rules s n)
    (hres : Restored p.state.graph s.graph) (hsub : p.state.warned ⊆ s.warned)
    (htold : ∃ told, Told env rules g s told) :
    Telling env rules g { p with agenda := rest, state := s } := by
  have hagenda (hc : p.changed = false) : n = ⟨p.agenda.cursor⟩ ∧
      rest = { p.agenda with cursor := p.agenda.cursor + 1 } := by
    simp only [Agenda.next?, h.passed hc] at hd
    split at hd
    · cases hd
      exact ⟨rfl, by simp [h.passed hc]⟩
    · cases hd
  refine ⟨hres.valid h.valid, htold, fun hc => ?_, fun {m node} hc hm => ?_, fun {m} hc hm => ?_⟩
  · obtain ⟨-, rfl⟩ := hagenda hc
    exact h.passed hc
  · obtain ⟨-, rfl⟩ := hagenda hc
    exact h.stop hc (hres.node? m ▸ hm)
  · obtain ⟨rfl, rfl⟩ := hagenda hc
    by_cases hlt : m.index < p.agenda.cursor
    · exact (h.noted hc hlt).same h.valid hres hsub
    · obtain rfl : m = ⟨p.agenda.cursor⟩ := by
        cases m
        simp only [Id.mk.injEq] at *
        omega
      exact hn

theorem turn (hr : env.registry.Reached)
    (hrules : ∀ rule ∈ rules.ordered, rule.Checked env.registry) (h : Telling env rules g p)
    (ht : Turn env rules p q) : Telling env rules g q := by
  obtain ⟨told, htold⟩ := h.told
  cases ht with
  | sweep => exact ⟨h.valid, h.told, fun _ => rfl, fun _ hn => lt_of_node? hn,
      fun _ hn => absurd hn (Nat.not_lt_zero _)⟩
  | skip next dead =>
    refine h.next next ?_ (.refl h.valid.coherent) (List.Subset.refl _) h.told
    intro node sig factor latency hn
    rw [contains, hn] at dead
    cases dead
  | pass next _ visit =>
    obtain ⟨hnoted, hres, hsub⟩ := visit_noted hr hrules h.valid visit
    exact h.next next hnoted hres hsub (visit_told hr hrules h.valid visit htold)
  | rewrite _ _ visit =>
    refine ⟨(visit_reaches hr h.valid hrules visit).valid hr hrules h.valid,
      visit_told hr hrules h.valid visit htold, ?_, ?_, ?_⟩
    all_goals simp

/-- Where a run ends, its state says what was told. -/
theorem told_of_stop {result : Except RewriteError Report} (hr : env.registry.Reached)
    (hrules : ∀ rule ∈ rules.ordered, rule.Checked env.registry) (h : Telling env rules g p)
    (hs : Stop env rules p (.ok (s, result))) : ∃ told, Told env rules g s told := by
  obtain ⟨told, htold⟩ := h.told
  cases hs with
  | settled => exact ⟨told, htold⟩
  | limited _ _ visit => exact visit_told hr hrules h.valid visit htold

/-- Where a run ends within its limit, every rule that matches was reported. -/
theorem noted_of_stop {report : Report} (h : Telling env rules g p)
    (hs : Stop env rules p (.ok (s, .ok report))) (n : NodeId) : Noted rules s n := by
  cases hs with
  | settled drained unchanged =>
    intro node sig factor latency hn
    have hstop := h.stop unchanged hn
    simp only [Agenda.next?, h.passed unchanged] at drained
    split at drained
    · cases drained
    · exact h.noted unchanged (Nat.lt_of_lt_of_le hstop (Nat.le_of_not_lt ‹_›)) hn

end Telling

/-- A run says what was told, and at a fixpoint every rule that matches was reported. -/
theorem told_of_optimize {g₀ : Graph} {removed : ℕ} {result : Except RewriteError Report}
    (hr : env.registry.Reached) (hrules : ∀ rule ∈ rules.ordered, rule.Checked env.registry)
    (hmem : ∀ rule ∈ rules.ordered, rule ∈ rules.rules) (hv : g₀.Valid env.registry)
    (hc : g.collect = .ok (g₀, removed)) (h : optimize env rules g = .ok (s, result)) :
    ∃ told, Told env rules g₀ s told ∧ ∀ report, result = .ok report → ∀ n, Noted rules s n := by
  by_cases hempty : rules.rules = []
  · rw [optimize_of_isEmpty hc hempty] at h
    cases h
    refine ⟨[], .start env rules g₀, fun _ _ n node sig factor latency _ _ rule hrule => ?_⟩
    have hin := hmem rule (List.mem_filter.1 hrule).1
    rw [hempty] at hin
    cases hin
  · have hends : Ends env rules (.start g₀ removed) (optimize env rules g) :=
      optimize_ends hc hempty
    rw [h] at hends
    obtain ⟨p, hp, hs⟩ :=
      hends.exists_stop (fun p q hp ht => hp.turn hr hrules ht) (Telling.start rules hv removed)
    obtain ⟨told, htold⟩ := hp.told_of_stop hr hrules hs
    refine ⟨told, htold, ?_⟩
    rintro report rfl
    exact hp.noted_of_stop hs

end Rewriting

/-! ## The pass -/

namespace Compilation

variable {c c' : Compilation} {t : Trace}

/-- Only a pass of the run can fail. -/
theorem mem_of_failing {p : Pass} {passes : List Pass} (h : c.runPasses passes = .ok (c', t))
    (hf : t.failing = some p) : p ∈ passes := by
  induction passes generalizing c t with
  | nil =>
    cases h
    cases hf
  | cons q rest ih =>
    obtain ⟨e, -, ⟨-, hq, -⟩ | ⟨-, later, hrest, hlater⟩⟩ := runPasses_cons h
    · cases hq.symm.trans hf
      exact List.mem_cons_self
    · exact List.mem_cons_of_mem q (ih hrest (hlater.symm.trans hf))

/-- The pass says what rewriting told, and the error if it came to its limit. -/
theorem diagnostics_of_optimize {g : Graph} {e : Effect} {s : Rewriting}
    {result : Except RewriteError Report} (hg : c.graph = some g)
    (ho : Rewriting.optimize c.env c.rules g = .ok (s, result))
    (h : c.runPass .optimize = .ok e) :
    e.diagnostics = s.diagnostics ++ match result with
      | .ok _ => []
      | .error err => [err.diagnostic] := by
  simp only [runPass, Compilation.optimize, loaded, hg, ho, ok_bind] at h
  cases result with
  | ok report =>
    cases h
    simp
  | error err =>
    cases h
    rfl

/-- If rewriting told warnings only, the pass fails at the limit and nowhere else. -/
theorem failing_optimize {g : Graph} {s : Rewriting} {result : Except RewriteError Report}
    {rest : List Pass} (hg : c.graph = some g)
    (ho : Rewriting.optimize c.env c.rules g = .ok (s, result))
    (hwarnings : ∀ d ∈ s.diagnostics, d.level = .warning) (hrest : .optimize ∉ rest)
    (h : c.runPasses (.optimize :: rest) = .ok (c', t)) :
    t.failing = some .optimize ↔
      ∃ limit name n, result = .error (.limitExceeded limit name n) := by
  have hquiet : s.diagnostics.any Diagnostic.isError = false := by
    rw [List.any_eq_false]
    intro d hd
    simp [Diagnostic.isError, hwarnings d hd]
  obtain ⟨e, he, hcases⟩ := runPasses_cons h
  have hdiag := diagnostics_of_optimize hg ho he
  cases result with
  | ok report =>
    obtain ⟨herror, -⟩ | ⟨-, later, hlater, hfailing⟩ := hcases
    · simp [hdiag, hquiet] at herror
    · rw [hfailing]
      refine ⟨fun hf => absurd (mem_of_failing hlater hf) hrest, ?_⟩
      simp
  | error err =>
    obtain ⟨limit, name, n⟩ := err
    obtain ⟨-, hfailing, -⟩ | ⟨herror, -⟩ := hcases
    · exact ⟨fun _ => ⟨limit, name, n, rfl⟩, fun _ => hfailing⟩
    · simp [hdiag, Diagnostic.isError, RewriteError.diagnostic] at herror

end Compilation

namespace Rewriting

variable {env : Environment} {rules : RuleSet} {g : Graph} {s : Rewriting}

/-- The messages of optimizing are, in order, what hooks said of the calls of replacements that were
put in place, and reports of rules that matched without a fitting alternative. All of them are
warnings. A rule is reported at most once for an anchor, and at a fixpoint just once for every
anchor in use where it matches. So the pass fails only at the limit. -/
theorem optimize_messages {l : List Rule} {result : Except RewriteError Report}
    (hr : env.registry.Reached) (hmake : RuleSet.make env.registry l = .ok rules)
    (hg : g.Coherent) (hverify : g.verify = []) (hcalls : g.CallsFrom env.registry)
    (h : optimize env rules g = .ok (s, result)) :
    ∃ g₀ removed told, g.collect = .ok (g₀, removed) ∧ Tells env rules g₀ told s.graph ∧
      s.diagnostics = told.flatMap Message.diagnostics ∧
      (∀ d ∈ s.diagnostics, d.level = .warning) ∧ (Message.reported told).Nodup ∧
      (∀ report, result = .ok report → ∀ n node sig factor latency,
        s.graph.node? n = some node → node.kind = .call sig factor latency →
        ∀ rule ∈ l, rule.root? = some sig.id → ∀ anchor b,
        anchor? s.graph sig n rule = .ok (some anchor) →
        rule.input.matchAt s.graph anchor.id = .ok (some b) →
        (Message.reported told).count (rule.name, anchor.id) = 1) ∧
      ∀ (c c' : Compilation) t rest, c.env = env → c.rules = rules → c.graph = some g →
        .optimize ∉ rest → c.runPasses (.optimize :: rest) = .ok (c', t) →
        (t.failing = some .optimize ↔
          ∃ limit name n, result = .error (.limitExceeded limit name n)) := by
  obtain ⟨rfl, hmem, hrules⟩ := RuleSet.make_eq_ok hmake
  have hv : g.Valid env.registry := valid_iff.2 ⟨hg, hverify, hcalls⟩
  obtain ⟨g₀, removed, hc, hp, -⟩ := collect_spec hg
  have hv₀ : g₀.Valid env.registry := hp.valid hv
  obtain ⟨told, htold, hnoted⟩ :=
    told_of_optimize hr hrules (fun rule => (hmem rule).1) hv₀ hc h
  have hwarnings : ∀ d ∈ s.diagnostics, d.level = .warning := by
    rw [htold.diagnostics]
    exact htold.tells.warning
  refine ⟨g₀, removed, told, hc, htold.tells, htold.diagnostics, hwarnings, htold.once, ?_, ?_⟩
  · intro report hreport n node sig factor latency hn hk rule hrule hroot anchor b ha hm
    have hrooted : rule ∈ rules.rootedAt sig.id :=
      List.mem_filter.2 ⟨(hmem rule).2 hrule, by simpa using hroot⟩
    have hin := hnoted report hreport n hn hk rule hrooted anchor b ⟨ha, hm⟩
    rw [htold.warned, List.mem_reverse] at hin
    exact List.count_eq_one_of_mem htold.once hin
  · rintro c c' t rest rfl rfl hgraph hrest hrun
    exact Compilation.failing_optimize hgraph h hwarnings hrest hrun

end Rewriting

/-! ## Hooks that warn and hooks that refuse -/

namespace Clipping

def gain : Signature := .unary 2 "gain"

def limiter : Signature := .unary 3 "limiter"

/-- Calls of `gain` are built with a warning. -/
def gainModule : Module :=
  .hosted gain fun context _ => ⟨0, [.warning context.location "may clip" none]⟩

/-- Calls of `limiter` are refused. -/
def limiterModule : Module :=
  .hosted limiter fun context _ => ⟨0, [.error context.location "not licensed" none]⟩

def env (maxRewrites : Nat) : Environment where
  registry :=
    { modules :=
        [(LateSum.negate.id, .hosted LateSum.negate (.fixed 0)), (gain.id, gainModule),
         (limiter.id, limiterModule)]
      names := [("limiter", limiter.id), ("gain", gain.id), ("negate", LateSum.negate.id)] }
  settings := { maxRewrites }

def limited : Pattern :=
  .call limiter.id 1 1 [.slot 0, .result]

def amplify : Rule where
  name := "amplify"
  input := .call LateSum.negate.id 1 1 [.wildcard false, .result]
  outputs := [limited, .call gain.id 1 1 [.slot 0, .result]]

def limit : Rule where
  name := "limit"
  input := .call gain.id 1 1 [.wildcard false, .result]
  outputs := [limited]

def rules : RuleSet where
  rules := [amplify, limit]
  ordered := [amplify, limit]
  depths := .ofRules [amplify, limit]

def program : Description where
  inputs := [{ name := "in", type := { primitive := .float } }]
  entries := [{ name := "a", kind := .call "negate" 1 ["in"] }]
  outputs := [{ name := "out", type := { primitive := .float }, source := "a" }]

theorem reached (maxRewrites : Nat) : (env maxRewrites).registry.Reached :=
  ((Registry.Reached.empty.insert (m := .hosted LateSum.negate (.fixed 0)) rfl).insert
    (m := gainModule) rfl).insert (m := limiterModule) rfl

theorem make_rules (maxRewrites : Nat) :
    RuleSet.make (env maxRewrites).registry [amplify, limit] = .ok rules := by
  cbv

/-- The messages of optimizing, and the anchor where `limit` still matches after it. -/
def summary : Option (List (Option Code) × OutputId) :=
  match program.build (env 2) with
  | .ok (_, .ok g) =>
    match Rewriting.optimize (env 2) rules g with
    | .ok (s, .ok _) =>
      match s.graph.node? ⟨3⟩, Rewriting.anchor? s.graph gain ⟨3⟩ limit with
      | some ⟨_, .call signature _ _, _, _, _⟩, .ok (some anchor) =>
        match limit.input.matchAt s.graph anchor.id with
        | .ok (some _) =>
          if signature = gain then some (s.diagnostics.map Diagnostic.code, anchor.id) else none
        | _ => none
      | _, _ => none
    | _ => none
  | _ => none

theorem exists_summary : ∃ runs g s report node factor latency anchor b,
    program.build (env 2) = .ok (runs, .ok g) ∧
    Rewriting.optimize (env 2) rules g = .ok (s, .ok report) ∧
    s.diagnostics.map Diagnostic.code = [none, some .W0401] ∧
    s.graph.node? ⟨3⟩ = some node ∧ node.kind = .call gain factor latency ∧
    Rewriting.anchor? s.graph gain ⟨3⟩ limit = .ok (some anchor) ∧ anchor.id = ⟨2⟩ ∧
    limit.input.matchAt s.graph anchor.id = .ok (some b) := by
  have h : summary = some ([none, some .W0401], ⟨2⟩) := by cbv
  rw [summary] at h
  split at h
  · rename_i runs g hb
    split at h
    · rename_i s report ho
      split at h
      · rename_i anchor hn ha
        split at h
        · rename_i b hm
          split at h
          · rename_i hgain
            obtain ⟨hcodes, hanchor⟩ := Prod.mk.inj (Option.some.inj h)
            subst hgain
            exact ⟨runs, g, s, report, _, _, _, anchor, b, hb, ho, hcodes, hn, rfl, ha, hanchor,
              hm⟩
          · cases h
        · cases h
      · cases h
    · cases h
  · cases h

/-- A compilation that may not rewrite, with the graph of the program. -/
def compilation (g : Graph) : Compilation where
  env := env 0
  rules := rules
  description := program
  graph := some g

/-- Where optimizing comes to its limit. -/
def stopped : Option RewriteError :=
  match program.build (env 0) with
  | .ok (_, .ok g) =>
    match Rewriting.optimize (env 0) rules g with
    | .ok (_, .error e) => some e
    | _ => none
  | _ => none

theorem exists_stopped : ∃ runs g s c t, program.build (env 0) = .ok (runs, .ok g) ∧
    Rewriting.optimize (env 0) rules g = .ok (s, .error (.limitExceeded 0 "amplify" ⟨1⟩)) ∧
    (compilation g).runPasses [.optimize, .verify] = .ok (c, t) := by
  have h : stopped = some (.limitExceeded 0 "amplify" ⟨1⟩) := by cbv
  rw [stopped] at h
  split at h
  · rename_i runs g hb
    split at h
    · rename_i s e ho
      obtain rfl := Option.some.inj h
      have hrun : ∃ answer, (compilation g).runPasses [.optimize, .verify] = .ok answer := by
        simp [Compilation.runPasses, Compilation.runPass, Compilation.optimize, compilation,
          Compilation.loaded, ho, ok_bind, pure_eq_ok, Diagnostic.isError, RewriteError.diagnostic]
      obtain ⟨⟨c, t⟩, hrun⟩ := hrun
      exact ⟨runs, g, s, c, t, hb, ho, hrun⟩
    · cases h
  · cases h

end Clipping

open Clipping in
/-- Of the alternatives of `amplify` the one that is refused says nothing, and the other one warns.
Then `limit` is reported once, though it matches in two sweeps. Without rewrites the pass fails. -/
theorem Rewriting.optimize_messages_clipping :
    (∃ runs g s report told, program.build (env 2) = .ok (runs, .ok g) ∧
      optimize (env 2) rules g = .ok (s, .ok report) ∧
      s.diagnostics.map Diagnostic.code = [none, some .W0401] ∧
      s.diagnostics = told.flatMap Message.diagnostics ∧
      (∀ d ∈ s.diagnostics, d.level = .warning) ∧
      (Message.reported told).count ("limit", ⟨2⟩) = 1) ∧
    ∃ runs g s c t, program.build (env 0) = .ok (runs, .ok g) ∧
      optimize (env 0) rules g = .ok (s, .error (.limitExceeded 0 "amplify" ⟨1⟩)) ∧
      (compilation g).runPasses [.optimize, .verify] = .ok (c, t) ∧
      t.failing = some .optimize := by
  constructor
  · obtain ⟨runs, g, s, report, node, factor, latency, anchor, b, hb, ho, hcodes, hn, hk, ha, hid,
      hm⟩ := exists_summary
    have hv := (Description.build_loaded (reached 2) hb).valid
    obtain ⟨-, -, told, -, -, hsaid, hwarnings, -, honce, -⟩ := optimize_messages (reached 2)
      (make_rules 2) hv.coherent (valid_iff.1 hv).2.1 hv.fits ho
    have hcount := honce report rfl ⟨3⟩ node gain factor latency hn hk limit
      (List.mem_cons_of_mem _ List.mem_cons_self) rfl anchor b ha hm
    exact ⟨runs, g, s, report, told, hb, ho, hcodes, hsaid, hwarnings, hid ▸ hcount⟩
  · obtain ⟨runs, g, s, c, t, hb, ho, hrun⟩ := exists_stopped
    have hv := (Description.build_loaded (reached 0) hb).valid
    obtain ⟨-, -, -, -, -, -, -, -, -, hfails⟩ := optimize_messages (reached 0) (make_rules 0)
      hv.coherent (valid_iff.1 hv).2.1 hv.fits ho
    have hfailing := (hfails (compilation g) c t [.verify] rfl rfl rfl (by simp) hrun).2
    exact ⟨runs, g, s, c, t, hb, ho, hrun, hfailing ⟨0, "amplify", ⟨1⟩, rfl⟩⟩

end SignalGraph
