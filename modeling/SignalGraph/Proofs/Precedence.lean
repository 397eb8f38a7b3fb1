import SignalGraph.Proofs.Dependence

/-!
# Rules in any order

Rules are checked one by one, sorted by precedence, and searched for the modules they mention.
None of this depends on the order in which they are written:

* a list of rules is accepted if each rule is, and no two share a name (`checkAll_iff`);
* precedence compares keys in a linear order (`compare_eq_cmp`), and rules with different names
  have different keys, so there is one way to sort them (`sort_perm`);
* noting the levels of modules is a maximum for each module (`noteIn_comm`, `ofRules_perm`).

So a rule set can be told from one that was made of the same rules in another order only by the
order in which it lists them, and rewriting does not look at that (`optimize_perm`).
-/

namespace SignalGraph

open OrderDual (toDual)

/-! ## Acceptance -/

/-- Rules are accepted if each of them is, and all names are new and different. -/
theorem Rule.checkAll_iff {registry : Registry} {names : List String} {l : List Rule} :
    checkAll registry names l = .ok () ↔
      (∀ r ∈ l, r.check registry = .ok ()) ∧ (∀ r ∈ l, r.name ∉ names) ∧
        (l.map Rule.name).Nodup := by
  induction l generalizing names with
  | nil => simp [checkAll]
  | cons r l ih =>
    rw [checkAll]
    by_cases hr : r.name ∈ names
    · simp [hr]
    · have hnew : (∀ q ∈ l, q.name ∉ r.name :: names) ↔
          (∀ q ∈ l, q.name ∉ names) ∧ r.name ∉ l.map Rule.name := by
        simp only [List.mem_cons, not_or, List.mem_map, not_exists, not_and]
        exact ⟨fun h => ⟨fun q hq => (h q hq).2, fun q hq => (h q hq).1⟩,
          fun h q hq => ⟨h.2 q hq, h.1 q hq⟩⟩
      simp only [hr, if_false, bind_eq_ok, ih, hnew, List.forall_mem_cons, List.map_cons,
        List.nodup_cons, not_false_eq_true, true_and]
      tauto

/-! ## Precedence -/

namespace Rule

/-- What precedence goes by: more depth, then more exact parts, then more constant wildcards, then
the name. -/
def key (r : Rule) : ℕᵒᵈ ×ₗ ℕᵒᵈ ×ₗ ℕᵒᵈ ×ₗ String :=
  toLex (toDual r.specificity.depth, toLex (toDual r.specificity.exact,
    toLex (toDual r.specificity.constants, r.name)))

/-- Comparing numbers, the greater first, and then by a key. -/
theorem compare_then_cmp {α : Type} [LinearOrder α] (m n : ℕ) (a b : α) :
    (Ord.compare n m).then (cmp a b) = cmp (toLex (toDual m, a)) (toLex (toDual n, b)) := by
  rcases Nat.lt_trichotomy n m with h | rfl | h
  · have hlt : toLex (toDual m, a) < toLex (toDual n, b) := Prod.Lex.toLex_lt_toLex.2 (.inl h)
    rw [Nat.compare_eq_lt.2 h, (cmp_eq_lt_iff _ _).2 hlt]
    rfl
  · rw [Nat.compare_eq_eq.2 rfl]
    show cmp a b = _
    rcases lt_trichotomy a b with h | rfl | h
    · rw [(cmp_eq_lt_iff _ _).2 h, (cmp_eq_lt_iff _ _).2]
      exact Prod.Lex.toLex_lt_toLex.2 (.inr ⟨rfl, h⟩)
    · rw [cmp_self_eq_eq, cmp_self_eq_eq]
    · rw [(cmp_eq_gt_iff _ _).2 h, (cmp_eq_gt_iff _ _).2]
      exact Prod.Lex.toLex_lt_toLex.2 (.inr ⟨rfl, h⟩)
  · have hlt : toLex (toDual n, b) < toLex (toDual m, a) := Prod.Lex.toLex_lt_toLex.2 (.inl h)
    rw [Nat.compare_eq_gt.2 h, (cmp_eq_gt_iff _ _).2 hlt]
    rfl

theorem compareNames_eq_cmp (a b : String) : compareNames a b = cmp a b := by
  unfold compareNames
  split
  · rename_i h
    rw [(cmp_eq_lt_iff _ _).2 h]
  · rename_i h
    split
    · rename_i h'
      rw [(cmp_eq_eq_iff _ _).2 h']
    · rename_i h'
      rw [(cmp_eq_gt_iff _ _).2 (lt_of_le_of_ne (not_lt.1 h) (Ne.symm h'))]

/-- Rules compare as their keys do. -/
theorem compare_eq_cmp (a b : Rule) : compare a b = cmp a.key b.key := by
  simp only [compare, compareNames_eq_cmp, compare_then_cmp, key]

theorem precedes_iff {a b : Rule} : precedes a b = true ↔ a.key ≤ b.key := by
  rw [precedes, decide_eq_true_eq, compare_eq_cmp, Ne, cmp_eq_gt_iff, not_lt]

theorem name_of_key {a b : Rule} (h : a.key = b.key) : a.name = b.name := by
  simp only [key, EmbeddingLike.apply_eq_iff_eq, Prod.mk.injEq] at h
  exact h.2.2.2

theorem pairwise_sort (l : List Rule) : (sort l).Pairwise fun a b => a.key ≤ b.key := by
  have h : (sort l).Pairwise fun a b => precedes a b = true := by
    refine List.pairwise_mergeSort (fun a b c hab hbc => ?_) (fun a b => ?_) l
    · rw [precedes_iff] at hab hbc ⊢
      exact hab.trans hbc
    · rw [Bool.or_eq_true, precedes_iff, precedes_iff]
      exact le_total _ _
  exact h.imp precedes_iff.1

/-- Rules with different names can be sorted in one way only. -/
theorem sort_perm {l l' : List Rule} (hn : (l.map Rule.name).Nodup) (hp : l.Perm l') :
    sort l = sort l' := by
  have hl : (sort l).Perm l := List.mergeSort_perm l precedes
  have hl' : (sort l').Perm l' := List.mergeSort_perm l' precedes
  refine List.Perm.eq_of_pairwise (fun a b ha hb hab hba => ?_) (pairwise_sort l)
    (pairwise_sort l') ((hl.trans hp).trans hl'.symm)
  have hb : b ∈ l := hp.mem_iff.2 (hl'.mem_iff.1 hb)
  exact List.inj_on_of_nodup_map hn (hl.mem_iff.1 ha) hb (name_of_key (le_antisymm hab hba))

end Rule

/-! ## Depths -/

theorem ModuleId.toNat_inj {a b : ModuleId} : a.toNat = b.toNat ↔ a = b := by
  constructor
  · intro h
    cases a
    cases b
    simpa [toNat, BitVec.toNat_inj] using h
  · rintro rfl
    rfl

namespace Depths

/-- Notes commute, wherever the entries of the two modules are. -/
theorem noteIn_comm (a b : ModuleId) (i j : ℕ) (entries : List (ModuleId × ℕ)) :
    noteIn b j (noteIn a i entries) = noteIn a i (noteIn b j entries) := by
  have hab : a = b ↔ a.toNat = b.toNat := ModuleId.toNat_inj.symm
  induction entries with
  | nil => grind [noteIn]
  | cons e entries ih =>
    obtain ⟨m, depth⟩ := e
    have ha : a = m ↔ a.toNat = m.toNat := ModuleId.toNat_inj.symm
    have hb : b = m ↔ b.toNat = m.toNat := ModuleId.toNat_inj.symm
    grind [noteIn]

theorem ofRules_perm {l l' : List Rule} (hp : l.Perm l') : ofRules l = ofRules l' := by
  have hcalls := hp.flatMap_right fun r => r.input.callLevels 0
  refine List.Perm.foldl_eq' hcalls (fun x _ y _ d => ?_) _
  rw [note, note, note, note, noteIn_comm]

end Depths

/-! ## Rule sets -/

/-- Rules in another order make a rule set that lists them in that order. -/
theorem RuleSet.make_perm {registry : Registry} {l l' : List Rule} {rules : RuleSet}
    (h : make registry l = .ok rules) (hp : l.Perm l') :
    make registry l' = .ok { rules with rules := l' } := by
  obtain ⟨u, hc, h⟩ := bind_eq_ok.1 h
  cases h
  obtain ⟨hall, -, hn⟩ := Rule.checkAll_iff.1 hc
  have hc' : Rule.checkAll registry [] l' = .ok () :=
    Rule.checkAll_iff.2 ⟨fun r hr => hall r (hp.mem_iff.2 hr), by simp,
      (hp.map Rule.name).nodup_iff.1 hn⟩
  simp only [make, hc', ok_bind, pure_eq_ok, Rule.sort_perm hn hp, Depths.ofRules_perm hp]

theorem Environment.Agrees.refl (env : Environment) : env.Agrees env where
  settings := rfl
  modules _ := rfl
  names _ := rfl

namespace Rewriting

/-- The order in which rules are written does not matter. Rules that are accepted are accepted in
every other order, with the same precedence for every module and the same depths, and rewriting any
graph with them gives the same answer and the same graph, and runs and reports the same on its
way. -/
theorem optimize_perm {registry : Registry} {l l' : List Rule} {rules : RuleSet}
    (hmake : RuleSet.make registry l = .ok rules) (hp : l.Perm l') :
    ∃ rules', RuleSet.make registry l' = .ok rules' ∧
      (∀ m, rules'.rootedAt m = rules.rootedAt m) ∧ rules'.depths = rules.depths ∧
      ∀ env g, optimize env rules' g = optimize env rules g := by
  obtain ⟨hrules, -, -⟩ := RuleSet.make_eq_ok hmake
  refine ⟨_, RuleSet.make_perm hmake hp, fun m => rfl, rfl, fun env g => ?_⟩
  have hagree : RuleSet.Agrees { rules with rules := l' } rules :=
    ⟨fun m => rfl, rfl, by rw [hrules, ← hp.isEmpty_eq]⟩
  rw [optimize_congr (.refl env) hagree]

end Rewriting

namespace Negation

/-- Negating four times gives the value back, which is more specific than `rule`. -/
def fourfold : Rule where
  name := "fourfold"
  input := .call signature.id 1 1 [.call signature.id 1 1 [.call signature.id 1 1
    [.call signature.id 1 1 [.wildcard false, .result], .result], .result], .result]
  outputs := [.slot 0]

/-- Both rules in order of precedence, listed as given. -/
def bothRules (l : List Rule) : RuleSet where
  rules := l
  ordered := [fourfold, rule]
  depths := ⟨[(signature.id, 3)]⟩

end Negation

theorem Rewriting.optimize_perm_negation :
    RuleSet.make Negation.env.registry [Negation.rule, Negation.fourfold] =
      .ok (Negation.bothRules [Negation.rule, Negation.fourfold]) ∧
    ∃ rules', RuleSet.make Negation.env.registry [Negation.fourfold, Negation.rule] = .ok rules' ∧
      rules'.rootedAt Negation.signature.id = [Negation.fourfold, Negation.rule] ∧
      rules'.depths.depth Negation.signature.id = 3 ∧
      ∀ env g, optimize env rules' g =
        optimize env (Negation.bothRules [Negation.rule, Negation.fourfold]) g := by
  have hmake : RuleSet.make Negation.env.registry [Negation.rule, Negation.fourfold] =
      .ok (Negation.bothRules [Negation.rule, Negation.fourfold]) := by cbv
  obtain ⟨rules', hmake', hrooted, hdepths, hopt⟩ := optimize_perm hmake (.swap _ _ _)
  refine ⟨hmake, rules', hmake', ?_, ?_, hopt⟩
  · rw [hrooted]
    cbv
  · rw [hdepths]
    cbv

end SignalGraph
