import SignalGraph.Proofs.SafeRewriting
import SignalGraph.Proofs.Turns

/-!
# What a report accounts for

`Applied` says which rules were applied on the way from one graph to another, in order. A report
accounts for them (`Report.Accounts`): it counts every rule as often as it was applied. This holds
at every position of a run, together with the bounds on rewrites and sweeps (`Accounted`), because
every turn keeps it (`Accounted.turn`). A sweep follows only one in which a rule was applied, so
there is at most one sweep more than there are rewrites.

A run stops at its limit only when as many rules were applied as are allowed (`limit_spent`).
-/

namespace SignalGraph

open SignalGraph.Graph

/-! ## Counts -/

namespace Report

variable {rule name : String} {fired : List (String × ℕ)}

/-- Counts stand in ascending order of names. -/
def Ascends (fired : List (String × ℕ)) : Prop :=
  fired.Pairwise fun a b => a.1 < b.1

theorem mem_count {p : String × ℕ} (h : p ∈ count rule fired) : p.1 = rule ∨ p ∈ fired := by
  induction fired with
  | nil => simp_all [count]
  | cons q fired ih =>
    obtain ⟨name, n⟩ := q
    rw [count] at h
    split at h
    · rename_i hq
      rcases List.mem_cons.1 h with rfl | h
      · exact .inl hq.symm
      · exact .inr (List.mem_cons_of_mem _ h)
    · split at h
      · rcases List.mem_cons.1 h with rfl | h
        · exact .inl rfl
        · exact .inr h
      · rcases List.mem_cons.1 h with rfl | h
        · exact .inr List.mem_cons_self
        · exact (ih h).imp_right (List.mem_cons_of_mem _)

theorem ascends_count (h : Ascends fired) : Ascends (count rule fired) := by
  induction fired with
  | nil => exact List.pairwise_singleton _ _
  | cons q fired ih =>
    obtain ⟨name, n⟩ := q
    obtain ⟨hfirst, hrest⟩ := List.pairwise_cons.1 h
    rw [count]
    split
    · exact List.pairwise_cons.2 ⟨hfirst, hrest⟩
    · rename_i hne
      split
      · rename_i hlt
        refine List.pairwise_cons.2 ⟨List.forall_mem_cons.2 ⟨hlt, fun p hp => ?_⟩, h⟩
        exact hlt.trans (hfirst p hp)
      · rename_i hle
        refine List.pairwise_cons.2 ⟨fun p hp => ?_, ih hrest⟩
        rcases mem_count hp with hp | hp
        · exact hp ▸ lt_of_le_of_ne (not_lt.1 hle) (Ne.symm hne)
        · exact hfirst p hp

theorem pos_count (h : ∀ p ∈ fired, 0 < p.2) : ∀ p ∈ count rule fired, 0 < p.2 := by
  induction fired with
  | nil => simp [count]
  | cons q fired ih =>
    obtain ⟨name, n⟩ := q
    obtain ⟨hfirst, hrest⟩ := List.forall_mem_cons.1 h
    rw [count]
    split
    · exact List.forall_mem_cons.2 ⟨Nat.succ_pos n, hrest⟩
    · split
      · exact List.forall_mem_cons.2 ⟨Nat.one_pos, h⟩
      · exact List.forall_mem_cons.2 ⟨hfirst, ih hrest⟩

theorem sum_count : ((count rule fired).map Prod.snd).sum = (fired.map Prod.snd).sum + 1 := by
  induction fired with
  | nil => rfl
  | cons q fired ih =>
    rw [count]
    split
    · simp only [List.map_cons, List.sum_cons]
      omega
    · split
      · simp only [List.map_cons, List.sum_cons]
        omega
      · simp only [List.map_cons, List.sum_cons, ih]
        omega

/-- How often a rule was applied. -/
def times (fired : List (String × ℕ)) (name : String) : ℕ :=
  (fired.lookup name).getD 0

theorem times_cons (p : String × ℕ) :
    times (p :: fired) name = if name = p.1 then p.2 else times fired name := by
  rw [times, List.lookup_cons]
  split
  · rename_i h
    rw [if_pos (beq_iff_eq.1 h), Option.getD_some]
  · rename_i h
    rw [if_neg (beq_eq_false_iff_ne.1 h), times]

theorem times_eq_zero (h : ∀ p ∈ fired, p.1 ≠ name) : times fired name = 0 := by
  rw [times, List.lookup_eq_none_iff.2 fun p hp => by simpa using (h p hp).symm]
  rfl

theorem times_of_mem {p : String × ℕ} (h : Ascends fired) (hp : p ∈ fired) :
    times fired p.1 = p.2 := by
  induction fired with
  | nil => cases hp
  | cons q fired ih =>
    obtain ⟨hfirst, hrest⟩ := List.pairwise_cons.1 h
    rw [times_cons]
    rcases List.mem_cons.1 hp with rfl | hp
    · rw [if_pos rfl]
    · rw [if_neg (hfirst p hp).ne', ih hrest hp]

/-- Counting a rule counts it once more, and no other. -/
theorem times_count (h : Ascends fired) :
    times (count rule fired) name = times fired name + if rule = name then 1 else 0 := by
  induction fired with
  | nil =>
    rw [count, times_cons]
    simp [eq_comm, times]
  | cons q fired ih =>
    obtain ⟨first, n⟩ := q
    obtain ⟨hfirst, hrest⟩ := List.pairwise_cons.1 h
    rw [count]
    split
    · rename_i hq
      simp only [times_cons]
      grind
    · rename_i hne
      split
      · rename_i hlt
        -- The rule comes before all that were counted, so it is none of them.
        have hzero : times ((first, n) :: fired) rule = 0 := by
          refine times_eq_zero (List.forall_mem_cons.2 ⟨hlt.ne', fun p hp => ?_⟩)
          exact (hlt.trans (hfirst p hp)).ne'
        rw [times_cons]
        grind
      · simp only [times_cons, ih hrest]
        grind

/-- A report counts these applications of rules. -/
structure Accounts (r : Report) (names : List String) : Prop where
  rewrites : r.rewrites = names.length
  ascends : Ascends r.fired
  positive : ∀ p ∈ r.fired, 0 < p.2
  times : ∀ name, times r.fired name = names.count name
  sum : (r.fired.map Prod.snd).sum = r.rewrites

namespace Accounts

variable {r : Report} {names : List String}

/-- Nothing was applied yet. -/
theorem nil (removed sweeps : ℕ) : Accounts { removed, sweeps } [] :=
  ⟨rfl, .nil, List.forall_mem_nil _, fun _ => rfl, rfl⟩

theorem applied (h : r.Accounts names) (rule : String) (removed : ℕ) :
    (r.applied rule removed).Accounts (names ++ [rule]) where
  rewrites := by simp [Report.applied, h.rewrites]
  ascends := ascends_count h.ascends
  positive := pos_count h.positive
  times name := by
    rw [Report.applied, times_count h.ascends, h.times, List.count_append, List.count_singleton]
    simp
  sum := by rw [Report.applied, sum_count, h.sum]

theorem mem_names {p : String × ℕ} (h : r.Accounts names) (hp : p ∈ r.fired) : p.1 ∈ names := by
  rw [← List.count_pos_iff, ← h.times, times_of_mem h.ascends hp]
  exact h.positive p hp

end Accounts

end Report

/-! ## Applications of rules -/

/-- `g'` comes from `g` by applying rules of these names, in this order, and by attempts that change
nothing. -/
inductive Applied (env : Environment) (rules : RuleSet) (g : Graph) :
    List String → Graph → Prop where
  | refl : Applied env rules g [] g
  | restore {names : List String} {g₁ g₂ : Graph} :
    Applied env rules g names g₁ → Restored g₁ g₂ → Applied env rules g names g₂
  | rewrite {names : List String} {g₁ g₂ : Graph} {rule : Rule} {n : NodeId} :
    Applied env rules g names g₁ → rule ∈ rules.ordered → Rewrite env rule n g₁ g₂ →
    Applied env rules g (names ++ [rule.name]) g₂

namespace Applied

variable {env : Environment} {rules : RuleSet} {g g' : Graph} {names : List String}

theorem reaches (h : Applied env rules g names g') : Reaches env rules g g' := by
  induction h with
  | refl => exact .refl
  | restore _ hs ih => exact ih.restore hs
  | rewrite _ hm hrw ih => exact ih.rewrite hm hrw

theorem exists_rule (h : Applied env rules g names g') {name : String} (hn : name ∈ names) :
    ∃ rule ∈ rules.ordered, rule.name = name := by
  induction h with
  | refl => cases hn
  | restore _ _ ih => exact ih hn
  | rewrite _ hm _ ih =>
    rcases List.mem_append.1 hn with hn | hn
    · exact ih hn
    · exact ⟨_, hm, (List.mem_singleton.1 hn).symm⟩

end Applied

/-- The rules that a visit applied. -/
def Visit.applied : Visit → List String
  | .unchanged | .limited _ => []
  | .rewritten rule _ _ => [rule]

namespace Rewriting

variable {env : Environment} {rules : RuleSet} {g : Graph} {names : List String}

theorem visit_applied {allowed : Bool} {s s' : Rewriting} {n : NodeId} {v : Visit}
    (hr : env.registry.Reached) (hrules : ∀ rule ∈ rules.ordered, rule.Checked env.registry)
    (hv : s.graph.Valid env.registry) (ha : Applied env rules g names s.graph)
    (h : visit env rules allowed s n = .ok (s', v)) :
    Applied env rules g (names ++ v.applied) s'.graph := by
  obtain ⟨node, -, ⟨-, rfl, rfl⟩ | ⟨sig, factor, latency, -, hvis⟩⟩ := visit_spec hr hv hrules h
  · simpa [Visit.applied] using ha
  · cases hvis with
    | unchanged restored => simpa [Visit.applied] using ha.restore restored
    | limited _ restored => simpa [Visit.applied] using ha.restore restored
    | @rewritten _ rule _ _ _ _ restored split _ rewrite =>
      have mem : rule ∈ rules.rootedAt sig.id := by simp [split]
      exact (ha.restore restored).rewrite (List.mem_filter.1 mem).1 rewrite

/-- A visit comes to the limit only where no rewrite is allowed any more. -/
theorem forbidden_of_visit {allowed : Bool} {s s' : Rewriting} {n : NodeId} {name : String}
    (hr : env.registry.Reached) (hrules : ∀ rule ∈ rules.ordered, rule.Checked env.registry)
    (hv : s.graph.Valid env.registry) (h : visit env rules allowed s n = .ok (s', .limited name)) :
    allowed = false := by
  obtain ⟨node, -, ⟨-, -, hv⟩ | ⟨sig, factor, latency, -, hvis⟩⟩ := visit_spec hr hv hrules h
  · cases hv
  · cases hvis with
    | limited forbidden => exact forbidden

/-! ## Accounts of a run -/

/-- What is true wherever a run on `g` stands after applying these rules. -/
structure Accounted (env : Environment) (rules : RuleSet) (g : Graph) (p : Position)
    (names : List String) : Prop where
  applied : Applied env rules g names p.state.graph
  accounts : p.report.Accounts names
  within : p.report.rewrites ≤ env.settings.maxRewrites
  sweeps : p.report.sweeps ≤ p.report.rewrites + 1
  /-- A sweep in which a rule was applied is paid for by that. -/
  changed : p.changed = true → p.report.sweeps ≤ p.report.rewrites

namespace Accounted

variable {p q : Position}

theorem start (env : Environment) (rules : RuleSet) (g : Graph) (removed : ℕ) :
    Accounted env rules g (.start g removed) [] where
  applied := .refl
  accounts := .nil removed 1
  within := Nat.zero_le _
  sweeps := Nat.le_refl _
  changed h := by cases h

section

variable (hr : env.registry.Reached)
  (hrules : ∀ rule ∈ rules.ordered, rule.Checked env.registry) (hv : g.Valid env.registry)

include hr hrules hv

/-- A turn keeps the accounts. -/
theorem turn (h : Accounted env rules g p names) (ht : Turn env rules p q) :
    ∃ names', Accounted env rules g q names' := by
  have hvalid := h.applied.reaches.valid hr hrules hv
  cases ht with
  | sweep _ changed =>
    have hsweeps := h.changed changed
    exact ⟨names, h.applied, ⟨h.accounts.rewrites, h.accounts.ascends, h.accounts.positive,
      h.accounts.times, h.accounts.sum⟩, h.within, by simpa using hsweeps, by simp⟩
  | skip => exact ⟨names, h.applied, h.accounts, h.within, h.sweeps, h.changed⟩
  | pass _ _ visit =>
    have happlied := visit_applied hr hrules hvalid h.applied visit
    rw [Visit.applied, List.append_nil] at happlied
    exact ⟨names, happlied, h.accounts, h.within, h.sweeps, h.changed⟩
  | @rewrite n rest s rule removed requeue _ _ visit =>
    have hlt : p.report.rewrites < env.settings.maxRewrites :=
      of_decide_eq_true (allowed_of_visit visit)
    exact ⟨names ++ [rule], visit_applied hr hrules hvalid h.applied visit,
      h.accounts.applied rule removed, hlt, Nat.le_succ_of_le h.sweeps, fun _ => h.sweeps⟩

end

end Accounted

theorem optimize_of_isEmpty {removed : ℕ} {g₀ : Graph} (hc : g.collect = .ok (g₀, removed))
    (h : rules.rules = []) : optimize env rules g = .ok ({ graph := g₀ }, .ok { removed }) := by
  simp [optimize, hc, h]

theorem rules_ne_nil {s : Rewriting} {e : RewriteError} {removed : ℕ} {g₀ : Graph}
    (hc : g.collect = .ok (g₀, removed)) (h : optimize env rules g = .ok (s, .error e)) :
    rules.rules ≠ [] := by
  intro hempty
  rw [optimize_of_isEmpty hc hempty] at h
  cases h

/-- Optimizing is collecting all garbage, and then a run from the start. -/
theorem optimize_ends {removed : ℕ} {g₀ : Graph} (hc : g.collect = .ok (g₀, removed))
    (h : rules.rules ≠ []) : Ends env rules (.start g₀ removed) (optimize env rules g) := by
  simp only [optimize, hc, ok_bind]
  rw [if_neg (by simpa using h)]
  exact ends_run env rules (.start g₀ removed)

section

variable {g₀ : Graph} {removed : ℕ} (hr : env.registry.Reached)
  (hrules : ∀ rule ∈ rules.ordered, rule.Checked env.registry) (hv : g₀.Valid env.registry)
  (hc : g.collect = .ok (g₀, removed))

include hr hrules hv hc

/-- Optimizing with rules stops somewhere, and up to there the accounts are right. -/
theorem optimize_stop (h : rules.rules ≠ []) :
    ∃ p names, Accounted env rules g₀ p names ∧ Stop env rules p (optimize env rules g) := by
  have hturn (p q : Position) (hp : ∃ names, Accounted env rules g₀ p names)
      (ht : Turn env rules p q) : ∃ names, Accounted env rules g₀ q names := by
    obtain ⟨names, hp⟩ := hp
    exact hp.turn hr hrules hv ht
  obtain ⟨p, ⟨names, hp⟩, hs⟩ :=
    (optimize_ends hc h).exists_stop hturn ⟨[], .start env rules g₀ removed⟩
  exact ⟨p, names, hp, hs⟩

/-- A report accounts for the rules that were applied. -/
theorem report_accounts {s : Rewriting} {report : Report}
    (h : optimize env rules g = .ok (s, .ok report)) :
    ∃ names, Applied env rules g₀ names s.graph ∧ report.Accounts names ∧
      report.rewrites ≤ env.settings.maxRewrites ∧ report.sweeps ≤ report.rewrites + 1 := by
  by_cases hempty : rules.rules = []
  · rw [optimize_of_isEmpty hc hempty] at h
    cases h
    exact ⟨[], .refl, .nil removed 0, Nat.zero_le _, Nat.zero_le _⟩
  · obtain ⟨p, names, hp, hs⟩ := optimize_stop hr hrules hv hc hempty
    rw [h] at hs
    cases hs
    exact ⟨names, hp.applied, hp.accounts, hp.within, hp.sweeps⟩

/-- At the limit, as many rules were applied as are allowed. -/
theorem limit_spent {s : Rewriting} {limit : ℕ} {name : String} {n : NodeId}
    (h : optimize env rules g = .ok (s, .error (.limitExceeded limit name n))) :
    limit = env.settings.maxRewrites ∧
      ∃ names, Applied env rules g₀ names s.graph ∧ names.length = limit := by
  obtain ⟨p, names, hp, hs⟩ := optimize_stop hr hrules hv hc (rules_ne_nil hc h)
  rw [h] at hs
  cases hs with
  | limited _ _ visit =>
    have hvalid := hp.applied.reaches.valid hr hrules hv
    have happlied := visit_applied hr hrules hvalid hp.applied visit
    rw [Visit.applied, List.append_nil] at happlied
    have hspent : ¬ p.report.rewrites < env.settings.maxRewrites :=
      of_decide_eq_false (forbidden_of_visit hr hrules hvalid visit)
    have hwithin := hp.within
    have hlength := hp.accounts.rewrites
    exact ⟨rfl, names, happlied, by omega⟩

end

/-- Optimizing ends, whatever the rules do. If it ends within its limit, its report counts the rules
that were applied. If it ends at its limit, then so many rules were applied. -/
theorem optimize_accounts {l : List Rule} (hr : env.registry.Reached)
    (hmake : RuleSet.make env.registry l = .ok rules) (hg : g.Coherent) (hverify : g.verify = [])
    (hcalls : g.CallsFrom env.registry) :
    (WellFounded fun q p => Turn env rules p q) ∧
    (g.Typed → ∀ fault, optimize env rules g = .error fault →
      fault = .addOverflow ∨ fault = .mulOverflow) ∧
    ∃ g₀ removed, g.collect = .ok (g₀, removed) ∧
      (l = [] → optimize env rules g = .ok ({ graph := g₀ }, .ok { removed })) ∧
      (l ≠ [] → Ends env rules (.start g₀ removed) (optimize env rules g)) ∧
      (∀ s report, optimize env rules g = .ok (s, .ok report) →
        report.rewrites ≤ env.settings.maxRewrites ∧ report.sweeps ≤ report.rewrites + 1 ∧
        (∀ p ∈ report.fired, 0 < p.2 ∧ ∃ rule ∈ l, rule.name = p.1) ∧
        (report.fired.map Prod.snd).sum = report.rewrites ∧
        ∃ names, Applied env rules g₀ names s.graph ∧ report.Accounts names) ∧
      ∀ s limit name n, optimize env rules g = .ok (s, .error (.limitExceeded limit name n)) →
        limit = env.settings.maxRewrites ∧
        ∃ names, Applied env rules g₀ names s.graph ∧ names.length = limit := by
  obtain ⟨rfl, hmem, hrules⟩ := RuleSet.make_eq_ok hmake
  have hv : g.Valid env.registry := valid_iff.2 ⟨hg, hverify, hcalls⟩
  obtain ⟨g₀, removed, hc, hp, -⟩ := collect_spec hg
  have hv₀ : g₀.Valid env.registry := hp.valid hv
  refine ⟨turn_wellFounded env rules, fun ht fault hfault => ?_, g₀, removed, hc,
    optimize_of_isEmpty hc, optimize_ends hc, fun s report h => ?_, fun s limit name n h => ?_⟩
  · exact Fault.isOverflow_iff.1 (optimize_safe hr hrules hv ht fault hfault)
  · obtain ⟨names, happlied, haccounts, hwithin, hsweeps⟩ := report_accounts hr hrules hv₀ hc h
    refine ⟨hwithin, hsweeps, fun p hp => ⟨haccounts.positive p hp, ?_⟩, haccounts.sum, names,
      happlied, haccounts⟩
    obtain ⟨rule, hrule, hname⟩ := happlied.exists_rule (haccounts.mem_names hp)
    exact ⟨rule, (hmem rule).1 hrule, hname⟩
  · exact limit_spent hr hrules hv₀ hc h

end Rewriting

/-! ## A rule that never runs out -/

namespace Negation

/-- Negating once is negating three times. -/
def growth : Rule where
  name := "growth"
  input := .call signature.id 1 1 [.wildcard false, .result]
  outputs := [.call signature.id 1 1 [.call signature.id 1 1 [.call signature.id 1 1
    [.slot 0, .result], .result], .result]]

def growing : RuleSet where
  rules := [growth]
  ordered := [growth]
  depths := .ofRules [growth]

/-- No more than two rewrites. -/
def strict : Environment :=
  { env with settings := { maxRewrites := 2 } }

/-- The limit that optimizing came to, and how many calls are left. -/
def stopped (d : Description) : Option (RewriteError × Nat) :=
  match d.build strict with
  | .ok (_, .ok g) =>
    match Rewriting.optimize strict growing g with
    | .ok (s, .error e) => some (e, s.graph.callIds.length)
    | _ => none
  | _ => none

theorem optimize_growing : ∃ runs g s, thrice.build strict = .ok (runs, .ok g) ∧
    Rewriting.optimize strict growing g = .ok (s, .error (.limitExceeded 2 "growth" ⟨3⟩)) ∧
    s.graph.callIds.length = 7 := by
  have h : stopped thrice = some (.limitExceeded 2 "growth" ⟨3⟩, 7) := by cbv
  rw [stopped] at h
  split at h
  · rename_i runs g hb
    split at h
    · rename_i s e ho
      obtain ⟨rfl, hcalls⟩ := Prod.mk.inj (Option.some.inj h)
      exact ⟨runs, g, s, hb, ho, hcalls⟩
    · cases h
  · cases h

end Negation

namespace Rewriting

theorem optimize_accounts_negation :
    (∃ runs g s report, Negation.thrice.build Negation.env = .ok (runs, .ok g) ∧
      optimize Negation.env Negation.rules g = .ok (s, .ok report) ∧ report.rewrites = 1 ∧
      report.sweeps ≤ 2 ∧ (report.fired.map Prod.snd).sum = 1 ∧
      ∀ p ∈ report.fired, 0 < p.2 ∧ ∃ rule ∈ [Negation.rule], rule.name = p.1) ∧
    ∃ runs g s, Negation.thrice.build Negation.strict = .ok (runs, .ok g) ∧
      optimize Negation.strict Negation.growing g =
        .ok (s, .error (.limitExceeded 2 "growth" ⟨3⟩)) ∧
      ∃ g₀ names, Applied Negation.strict Negation.growing g₀ names s.graph ∧
        names.length = 2 := by
  constructor
  · obtain ⟨runs, g, s, report, hb, ho, hrw, -⟩ := Negation.optimize_thrice
    have hv := (Description.build_loaded Negation.reached hb).valid
    obtain ⟨-, -, g₀, removed, -, -, -, hok, -⟩ := optimize_accounts Negation.reached
      Negation.make_rules hv.coherent (valid_iff.1 hv).2.1 hv.fits
    obtain ⟨-, hsweeps, hfired, hsum, -⟩ := hok s report ho
    exact ⟨runs, g, s, report, hb, ho, hrw, by omega, hsum.trans hrw, hfired⟩
  · obtain ⟨runs, g, s, hb, ho, -⟩ := Negation.optimize_growing
    have hmake : RuleSet.make Negation.strict.registry [Negation.growth] =
        .ok Negation.growing := by
      cbv
    have hr : Negation.strict.registry.Reached := Negation.reached
    have hv := (Description.build_loaded hr hb).valid
    obtain ⟨-, -, g₀, removed, -, -, -, -, hlimit⟩ := optimize_accounts hr hmake
      hv.coherent (valid_iff.1 hv).2.1 hv.fits
    obtain ⟨-, names, happlied, hlength⟩ := hlimit s 2 "growth" ⟨3⟩ ho
    exact ⟨runs, g, s, hb, ho, g₀, names, happlied, hlength⟩

end Rewriting

end SignalGraph
