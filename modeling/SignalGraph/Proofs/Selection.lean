import SignalGraph.Proofs.Commits
import SignalGraph.Proofs.Courses
import SignalGraph.Proofs.Precedence

/-!
# The rule that is applied

Precedence is a linear order on specificities and names (`compare_swap`, `compare_trans`,
`compare_eq_eq`). Of rules with different names one goes before all others, and that is the one
which `select?` finds, in whatever order it gets them (`select?_eq_some`, `select?_perm`).

At a call, rewriting tries the rules for its module in strictly ascending order and applies the
first that it can (`Applicable`). A rule that is tried in vain leaves the graph as it was but for
the numbers of new nodes, so what can be applied does not change meanwhile. Hence it applies the
one that goes before all others which could be applied when it came to the call
(`chosen_of_visit`), and it applies none only if there is none.
-/

namespace SignalGraph

open SignalGraph.Graph Relation

/-! ## The order of precedence -/

namespace Rule

variable {a b c r : Rule} {l l' : List Rule}

theorem compare_swap (a b : Rule) : compare b a = (compare a b).swap := by
  rw [compare_eq_cmp, compare_eq_cmp, cmp_swap]

theorem compare_eq_lt : compare a b = .lt ↔ a.key < b.key := by
  rw [compare_eq_cmp, cmp_eq_lt_iff]

theorem isLE_compare : (compare a b).isLE ↔ a.key ≤ b.key := by
  rw [← Ordering.ne_gt_iff_isLE, compare_eq_cmp, cmp_eq_gt_iff, not_lt]

theorem compare_trans (hab : (compare a b).isLE) (hbc : (compare b c).isLE) :
    (compare a c).isLE := by
  rw [isLE_compare] at hab hbc ⊢
  exact hab.trans hbc

theorem compare_lt_trans (hab : compare a b = .lt) (hbc : compare b c = .lt) :
    compare a c = .lt := by
  rw [compare_eq_lt] at hab hbc ⊢
  exact hab.trans hbc

theorem compare_eq_eq : compare a b = .eq ↔ a.specificity = b.specificity ∧ a.name = b.name := by
  rw [compare_eq_cmp, cmp_eq_eq_iff]
  simp only [key, EmbeddingLike.apply_eq_iff_eq, Prod.mk.injEq]
  constructor
  · rintro ⟨hdepth, hexact, hconstants, hname⟩
    refine ⟨?_, hname⟩
    cases hs : a.specificity
    cases ht : b.specificity
    simp_all
  · rintro ⟨hs, hname⟩
    simp [hs, hname]

/-! ## The foremost rule -/

/-- Of the rules with a property, the one that goes before all others. -/
structure Foremost (P : Rule → Prop) (r : Rule) : Prop where
  holds : P r
  first : ∀ q, P q → q ≠ r → compare r q = .lt

theorem Foremost.unique {P : Rule → Prop} (ha : Foremost P a) (hb : Foremost P b) : a = b := by
  by_contra hne
  have hab := compare_eq_lt.1 (ha.first b hb.holds fun h => hne h.symm)
  have hba := compare_eq_lt.1 (hb.first a ha.holds hne)
  exact lt_asymm hab hba

theorem key_lt (hn : (l.map Rule.name).Nodup) (ha : a ∈ l) (hb : b ∈ l) (h : a.key ≤ b.key)
    (hne : b ≠ a) : a.key < b.key := by
  refine lt_of_le_of_ne h fun heq => hne ?_
  exact List.inj_on_of_nodup_map hn hb ha (name_of_key heq).symm

/-- The better of the rules so far is kept, and in the end no rule is better. -/
theorem foldl_better (r : Rule) (l : List Rule) :
    let best := l.foldl (fun best r => if compare r best = .lt then r else best) r
    best ∈ r :: l ∧ ∀ q ∈ r :: l, best.key ≤ q.key := by
  induction l generalizing r with
  | nil => simp
  | cons q l ih =>
    rw [List.foldl_cons]
    split
    · rename_i hlt
      obtain ⟨hmem, hle⟩ := ih q
      refine ⟨List.mem_cons_of_mem r hmem, List.forall_mem_cons.2 ⟨?_, hle⟩⟩
      exact (hle q List.mem_cons_self).trans (compare_eq_lt.1 hlt).le
    · rename_i hlt
      rw [compare_eq_lt, not_lt] at hlt
      obtain ⟨hmem, hle⟩ := ih r
      obtain ⟨hr, hl⟩ := List.forall_mem_cons.1 hle
      refine ⟨?_, List.forall_mem_cons.2 ⟨hr, List.forall_mem_cons.2 ⟨hr.trans hlt, hl⟩⟩⟩
      rcases List.mem_cons.1 hmem with heq | hmem
      · exact List.mem_cons.2 (.inl heq)
      · exact List.mem_cons_of_mem r (List.mem_cons_of_mem q hmem)

theorem foremost_of_select? (hn : (l.map Rule.name).Nodup) (h : select? l = some r) :
    Foremost (· ∈ l) r := by
  cases l with
  | nil => cases h
  | cons q l =>
    cases h
    obtain ⟨hmem, hle⟩ := foldl_better q l
    exact ⟨hmem, fun p hp hne => compare_eq_lt.2 (key_lt hn hmem hp (hle p hp) hne)⟩

/-- Of rules with different names, the one is selected that goes before all others. -/
theorem select?_eq_some (hn : (l.map Rule.name).Nodup) :
    select? l = some r ↔ Foremost (· ∈ l) r := by
  refine ⟨foremost_of_select? hn, fun hr => ?_⟩
  obtain ⟨q, hq⟩ : ∃ q, select? l = some q := by
    cases l with
    | nil => cases hr.holds
    | cons q l => exact ⟨_, rfl⟩
  rw [hq, (foremost_of_select? hn hq).unique hr]

theorem select?_perm (hn : (l.map Rule.name).Nodup) (hp : l.Perm l') :
    select? l' = select? l := by
  have hn' : (l'.map Rule.name).Nodup := (hp.map Rule.name).nodup_iff.1 hn
  have hmem : (fun r => r ∈ l') = (fun r => r ∈ l) := funext fun r => propext hp.mem_iff.symm
  refine Option.ext fun r => ?_
  rw [select?_eq_some hn', select?_eq_some hn, hmem]

end Rule

/-! ## The rules for a module -/

namespace RuleSet

variable {registry : Registry} {l : List Rule} {rules : RuleSet}

theorem nodup_names (h : make registry l = .ok rules) : (l.map Rule.name).Nodup := by
  obtain ⟨u, hc, -⟩ := bind_eq_ok.1 h
  exact (Rule.checkAll_iff.1 hc).2.2

theorem rootedAt_perm (h : make registry l = .ok rules) (m : ModuleId) :
    (rules.rootedAt m).Perm (l.filter fun r => r.root? = some m) := by
  obtain ⟨u, -, h⟩ := bind_eq_ok.1 h
  cases h
  exact (List.mergeSort_perm l Rule.precedes).filter _

theorem mem_rootedAt (h : make registry l = .ok rules) {m : ModuleId} {r : Rule} :
    r ∈ rules.rootedAt m ↔ r ∈ l ∧ r.root? = some m := by
  rw [(rootedAt_perm h m).mem_iff, List.mem_filter, decide_eq_true_eq]

theorem rootedAt_ascending (h : make registry l = .ok rules) (m : ModuleId) :
    (rules.rootedAt m).Pairwise fun a b => Rule.compare a b = .lt := by
  have hn := nodup_names h
  obtain ⟨u, -, h⟩ := bind_eq_ok.1 h
  cases h
  have hp : (Rule.sort l).Perm l := List.mergeSort_perm l Rule.precedes
  have hsorted : (Rule.sort l).Pairwise fun a b => a ≠ b :=
    hp.nodup_iff.2 (List.Nodup.of_map Rule.name hn)
  refine List.Pairwise.filter _ ?_
  refine ((Rule.pairwise_sort l).and hsorted).imp_of_mem fun {a b} ha hb hab => ?_
  exact Rule.compare_eq_lt.2
    (Rule.key_lt hn (hp.mem_iff.1 ha) (hp.mem_iff.1 hb) hab.1 hab.2.symm)

end RuleSet

/-! ## The rule that is applied at a call -/

namespace Rewriting

variable {env : Environment} {rules : RuleSet} {location : Option Location} {g g' : Graph}
  {n : NodeId} {sig : Signature} {rule : Rule} {l : List Rule}

/-- A rule can be applied at a call: something uses its anchor, its pattern matches there, and one
of its alternatives can be built with the type and the latency of the anchor. -/
def Applicable (env : Environment) (sig : Signature) (n : NodeId) (location : Option Location)
    (g : Graph) (rule : Rule) : Prop :=
  ∃ anchor b, Matches g sig n rule anchor b ∧
    ∃ p ∈ rule.outputs, Accepted env b anchor location g p

theorem Rejected.not_accepted {b : Bindings} {anchor : OutputPort} {p : Pattern}
    (h : Rejected env b anchor location g p) : ¬ Accepted env b anchor location g p := by
  rintro ⟨w, o, port, hbuilt, hport, htype, hlatency⟩
  obtain ⟨w', r, hbuilt', hdiff⟩ := h
  cases hbuilt.symm.trans hbuilt'
  obtain ⟨port', hport', hdiff⟩ := hdiff o rfl
  cases hport.symm.trans hport'
  exact hdiff.elim (· htype) (· hlatency)

theorem Idle.not_applicable {allowed : Bool} (h : Idle env allowed sig n location g rule) :
    ¬ Applicable env sig n location g rule := by
  rintro ⟨anchor, b, ⟨hanchor, hmatch⟩, p, hp, haccepted⟩
  obtain ⟨found, hfound, h⟩ := h
  cases hanchor.symm.trans hfound
  obtain ⟨bound, hbound, h⟩ := h anchor rfl
  cases hmatch.symm.trans hbound
  exact ((h b rfl).2 p hp).not_accepted haccepted

/-- A rule that hands over was applicable, whatever was tried before it. -/
theorem HandedOver.applicable {name : String} (hr : env.registry.Reached)
    (hv : g.Valid env.registry) (hrules : ∀ rule ∈ l, rule.Checked env.registry)
    (h : HandedOver env l sig n location g name g') :
    ∃ rule ∈ l, rule.name = name ∧ Applicable env sig n location g rule := by
  cases h with
  | @intro rule anchor b g₁ w g' runs runs' r count mem anchored matched restored replaced
      redirect =>
    obtain ⟨hlive, -⟩ := anchor?_eq_ok hv.coherent anchored
    obtain ⟨hblive, hbne⟩ := bound_of_matchAt hv (hrules rule mem) hlive matched
    have hback {g₂ : Graph} (hres : Restored g g₂) (x : OutputId) (hx : x ∈ b) :
        ∃ out, g₂.output? x = some out := by
      rw [hres.output?]
      exact hblive x hx
    cases replace_spec hr (restored.valid hv) (hback restored) hbne
      ((restored.output? _).trans hlive) rule.outputs replaced with
    | @accepted g₂ w p port r restored₂ mem₂ built graph live ne type latency =>
      subst graph
      have hres := restored.trans restored₂
      have haccepted : Accepted env b anchor location g₂ p :=
        ⟨w, r.port, port, built, live, type, latency⟩
      exact ⟨rule, mem, rfl, anchor, b, ⟨anchored, matched⟩, p, mem₂,
        haccepted.same hr (hres.valid hv) hv.coherent hres.symm (hback hres)⟩

/-- What comes of a visit if the rules of a list are chosen by precedence: nothing if none of those
for the module can be applied, and otherwise the foremost of them is applied, if that is allowed. -/
inductive Chosen (env : Environment) (l : List Rule) (allowed : Bool) (sig : Signature) (n : NodeId)
    (location : Option Location) (g g' : Graph) : Visit → Prop where
  | unchanged (idle : ∀ q ∈ l, q.root? = some sig.id → ¬ Applicable env sig n location g q) :
    Chosen env l allowed sig n location g g' .unchanged
  | limited (name : String) (forbidden : allowed = false) :
    Chosen env l allowed sig n location g g' (.limited name)
  | rewritten {rule : Rule} {g₁ : Graph} (requeue : List NodeId)
    (foremost : Rule.Foremost (fun q => q ∈ l ∧ q.root? = some sig.id ∧
      Applicable env sig n location g q) rule)
    (restored : Restored g g₁) (rewrite : Rewrite env rule n g₁ g') :
    Chosen env l allowed sig n location g g' (.rewritten rule.name rewrite.removed requeue)

theorem chosen_of_visit {allowed : Bool} {s s' : Rewriting} {v : Visit} {node : Node}
    {factor latency : Nat} (hr : env.registry.Reached)
    (hmake : RuleSet.make env.registry l = .ok rules) (hv : s.graph.Valid env.registry)
    (hn : s.graph.node? n = some node) (hk : node.kind = .call sig factor latency)
    (h : visit env rules allowed s n = .ok (s', v)) :
    Chosen env l allowed sig n node.location s.graph s'.graph v := by
  obtain ⟨-, -, hrules⟩ := RuleSet.make_eq_ok hmake
  have hmem {q : Rule} := RuleSet.mem_rootedAt hmake (m := sig.id) (r := q)
  obtain ⟨node', hn', hcases⟩ := visit_spec hr hv hrules h
  cases hn.symm.trans hn'
  rcases hcases with ⟨hcall, -⟩ | ⟨sig', factor', latency', hk', hvisited⟩
  · rw [hk] at hcall
    cases hcall
  cases hk.symm.trans hk'
  cases hvisited with
  | unchanged _ idle =>
    exact .unchanged fun q hq hroot => (idle q (hmem.2 ⟨hq, hroot⟩)).not_applicable
  | limited forbidden => exact .limited _ forbidden
  | @rewritten g₁ rule before after requeue allow restored split idle rewrite =>
    obtain ⟨node', sig', _, _, g', hn', hk', hover, -⟩ := handedOver_of_visit hr hrules hv h
    cases hn.symm.trans hn'
    cases hk.symm.trans hk'
    obtain ⟨other, hother, hname, happlicable⟩ :=
      hover.applicable hr hv fun q hq => hrules q (List.mem_filter.1 hq).1
    obtain ⟨hrule, hroot⟩ := hmem.1 (split ▸ List.mem_append_cons_self)
    -- What handed over has the name of what was applied, so it is the same rule.
    obtain rfl : other = rule :=
      List.inj_on_of_nodup_map (RuleSet.nodup_names hmake) (hmem.1 hother).1 hrule hname
    refine .rewritten requeue ⟨⟨hrule, hroot, happlicable⟩, ?_⟩ restored rewrite
    rintro q ⟨hq, hqroot, hqapplicable⟩ hne
    have hascending := split ▸ RuleSet.rootedAt_ascending hmake sig.id
    rcases List.mem_append.1 (split ▸ hmem.2 ⟨hq, hqroot⟩) with hbefore | hafter
    · exact absurd hqapplicable (idle q hbefore).not_applicable
    · have hlater := (List.pairwise_append.1 hascending).2.1
      exact (List.pairwise_cons.1 hlater).1 q ((List.mem_cons.1 hafter).resolve_left hne)

/-- Precedence is a linear order on specificities and names. Of rules with different names the one
is selected that goes before all others, in whatever order they come. A rule set gives the rules for
a module in strictly ascending order. Whenever a run visits a call, it applies the foremost of the
rules that can be applied there, and none only if there is none or no more are allowed. -/
theorem precedence_decides :
    (∀ a b, Rule.compare b a = (Rule.compare a b).swap) ∧
    (∀ a b c, (Rule.compare a b).isLE → (Rule.compare b c).isLE → (Rule.compare a c).isLE) ∧
    (∀ a b c, Rule.compare a b = .lt → Rule.compare b c = .lt → Rule.compare a c = .lt) ∧
    (∀ a b, Rule.compare a b = .eq ↔ a.specificity = b.specificity ∧ a.name = b.name) ∧
    (∀ l : List Rule, (l.map Rule.name).Nodup →
      (∀ l', l.Perm l' → Rule.select? l' = Rule.select? l) ∧
      ∀ r, Rule.select? l = some r ↔ Rule.Foremost (· ∈ l) r) ∧
    (∀ registry l rules m, RuleSet.make registry l = .ok rules →
      (rules.rootedAt m).Perm (l.filter fun r => r.root? = some m) ∧
      (rules.rootedAt m).Pairwise fun a b => Rule.compare a b = .lt) ∧
    ∀ (env : Environment) (l : List Rule) (rules : RuleSet) (g : Graph), env.registry.Reached →
      RuleSet.make env.registry l = .ok rules → g.Coherent → g.verify = [] →
      g.CallsFrom env.registry →
      ∃ g₀ removed, g.collect = .ok (g₀, removed) ∧
        (l ≠ [] → Ends env rules (.start g₀ removed) (optimize env rules g)) ∧
        ∀ p, ReflTransGen (Turn env rules) (.start g₀ removed) p →
          ∀ n node sig factor latency s v, p.state.graph.node? n = some node →
            node.kind = .call sig factor latency →
            visit env rules (p.allowed env) p.state n = .ok (s, v) →
            Chosen env l (p.allowed env) sig n node.location p.state.graph s.graph v := by
  refine ⟨Rule.compare_swap, fun _ _ _ => Rule.compare_trans, fun _ _ _ => Rule.compare_lt_trans,
    fun _ _ => Rule.compare_eq_eq,
    fun l hn => ⟨fun l' => Rule.select?_perm hn, fun r => Rule.select?_eq_some hn⟩,
    fun registry l rules m hmake =>
      ⟨RuleSet.rootedAt_perm hmake m, RuleSet.rootedAt_ascending hmake m⟩,
    fun env l rules g hr hmake hg hverify hcalls => ?_⟩
  obtain ⟨rfl, -, hrules⟩ := RuleSet.make_eq_ok hmake
  have hv : g.Valid env.registry := valid_iff.2 ⟨hg, hverify, hcalls⟩
  obtain ⟨g₀, removed, hc, hp, -, hclean₀⟩ := collect_spec hg
  refine ⟨g₀, removed, hc, optimize_ends hc, ?_⟩
  intro p hturns n node sig factor latency s v hn hk hvisit
  obtain ⟨hvp, -⟩ := turns_clean (p := .start g₀ removed) hr hrules (hp.valid hv) hclean₀ hturns
  exact chosen_of_visit hr hmake hvp hn hk hvisit

end Rewriting

/-! ## A rule that is tried in vain

Both rules are for a sum, and `delayed` goes before `second`. But a delay is late and the sum is
not, so the other is applied. -/

namespace LateSum

/-- A sum with a negation is a delay. -/
def delayed : Rule where
  name := "delayed-sum"
  input := .call sum.id 1 2
    [.call negate.id 1 1 [.wildcard false, .result], .wildcard false, .result]
  outputs := [.call delay.id 1 1 [.slot 0, .result]]

/-- A sum is its second summand. -/
def second : Rule where
  name := "second"
  input := .call sum.id 1 2 [.wildcard false, .wildcard false, .result]
  outputs := [.slot 1]

def sumRules : RuleSet where
  rules := [second, delayed]
  ordered := [delayed, second]
  depths := .ofRules [second, delayed]

theorem make_sumRules : RuleSet.make env.registry [second, delayed] = .ok sumRules := by
  cbv

/-- How many nodes are collected at first, what the last call is, and which rule is applied there
then. -/
def sumVisit (d : Description) : Option (Nat × Kind × String) :=
  match d.build env with
  | .ok (_, .ok g) =>
    match g.collect with
    | .ok (g₀, removed) =>
      match g₀.node? ⟨3⟩, Rewriting.visit env sumRules true { graph := g₀ } ⟨3⟩ with
      | some node, .ok (_, .rewritten name _ _) => some (removed, node.kind, name)
      | _, _ => none
    | .error _ => none
  | _ => none

theorem visit_sum : ∃ runs g g₀ node s count requeue, program.build env = .ok (runs, .ok g) ∧
    g.collect = .ok (g₀, 0) ∧ g₀.node? ⟨3⟩ = some node ∧ node.kind = .call sum 1 0 ∧
    Rewriting.visit env sumRules true { graph := g₀ } ⟨3⟩ =
      .ok (s, .rewritten "second" count requeue) := by
  have h : sumVisit program = some (0, .call sum 1 0, "second") := by cbv
  rw [sumVisit] at h
  split at h
  · rename_i runs g hb
    split at h
    · rename_i g₀ removed hc
      split at h
      · rename_i node s name count requeue hn hvisit
        simp only [Option.some.injEq, Prod.mk.injEq] at h
        obtain ⟨rfl, hk, rfl⟩ := h
        exact ⟨runs, g, g₀, node, s, count, requeue, hb, hc, hn, hk, hvisit⟩
      · cases h
    · cases h
  · cases h

end LateSum

theorem Rewriting.precedence_decides_sum :
    Rule.select? [LateSum.second, LateSum.delayed] = some LateSum.delayed ∧
    Rule.select? [LateSum.delayed, LateSum.second] = some LateSum.delayed ∧
    LateSum.sumRules.rootedAt LateSum.sum.id = [LateSum.delayed, LateSum.second] ∧
    ∃ runs g g₀ node s count requeue, LateSum.program.build LateSum.env = .ok (runs, .ok g) ∧
      g.collect = .ok (g₀, 0) ∧ g₀.node? ⟨3⟩ = some node ∧
      visit LateSum.env LateSum.sumRules true { graph := g₀ } ⟨3⟩ =
        .ok (s, .rewritten "second" count requeue) ∧
      Applicable LateSum.env LateSum.sum ⟨3⟩ node.location g₀ LateSum.second ∧
      ¬ Applicable LateSum.env LateSum.sum ⟨3⟩ node.location g₀ LateSum.delayed := by
  obtain ⟨-, -, -, -, hselect, -, hdriver⟩ := precedence_decides
  have hlate : Rule.select? [LateSum.second, LateSum.delayed] = some LateSum.delayed := by cbv
  have hsecond : ¬ Rule.compare LateSum.second LateSum.delayed = .lt := by
    have h : Rule.compare LateSum.second LateSum.delayed = .gt := by cbv
    simp [h]
  obtain ⟨hperm, -⟩ := hselect [LateSum.second, LateSum.delayed] (by decide)
  obtain ⟨runs, g, g₀, node, s, count, requeue, hb, hc, hn, hk, hvisit⟩ := LateSum.visit_sum
  have hv := (Description.build_loaded LateSum.reached hb).valid
  obtain ⟨g₁, removed, hc₁, -, hchosen⟩ := hdriver LateSum.env _ LateSum.sumRules g LateSum.reached
    LateSum.make_sumRules hv.coherent (valid_iff.1 hv).2.1 hv.fits
  cases hc₁.symm.trans hc
  refine ⟨hlate, (hperm _ (.swap _ _ _)).trans hlate, by cbv, runs, g, g₀, node, s, count, requeue,
    hb, hc, hn, hvisit, ?_⟩
  have h := hchosen (.start g₀ 0) .refl ⟨3⟩ node _ _ _ s _ hn hk hvisit
  generalize hrewritten : Visit.rewritten "second" count requeue = v at h
  cases h with
  | unchanged => cases hrewritten
  | limited => cases hrewritten
  | @rewritten rule g₁ requeue foremost restored rewrite =>
    obtain ⟨hmem, -, happlicable⟩ := foremost.holds
    obtain rfl : rule = LateSum.second := by
      have hname : "second" = rule.name := (Visit.rewritten.inj hrewritten).1
      rcases List.mem_pair.1 hmem with rfl | rfl
      · rfl
      · exact absurd hname (by decide)
    refine ⟨happlicable, fun hdelayed => hsecond ?_⟩
    exact foremost.first _ ⟨by simp, rfl, hdelayed⟩ (by decide)

end SignalGraph
