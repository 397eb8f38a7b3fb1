import SignalGraph.Proofs.Precedence
import SignalGraph.Proofs.Registries

/-!
# Levels of calls in patterns

A call in a pattern stands inside other calls and inside arrays (`Pattern.Inside`). Its level is the
number of calls among them. `callLevels` carries levels down to the calls and `depth` counts them on
the way up, and they agree: a pattern is as deep as its deepest call (`Pattern.isGreatest_depth`).

Levels are noted one after the other, in a list ordered by modules. What is noted of a module
is the greatest of its levels so far (`Depths.Notes`), which one note keeps up (`Notes.note`). So
`ofRules` finds the deepest occurrence of each module, in whatever order rules are written
(`Depths.ofRules_greatest`).
-/

namespace SignalGraph

/-! ## Calls inside of calls -/

namespace Pattern

/-- The arguments of a call and the elements of an array. -/
def members : Pattern → List Pattern
  | .call _ _ _ children => children
  | .array elements => elements
  | _ => []

/-- `q` is in a pattern, and stands there inside of these calls and arrays, the outermost first. -/
inductive Inside (q : Pattern) : List Pattern → Pattern → Prop where
  | self : Inside q [] q
  | member {around : List Pattern} {c p : Pattern} : c ∈ p.members → Inside q around c →
    Inside q (p :: around) p

/-- A call of the module is in a pattern, inside of so many other calls. -/
def CallsAt (p : Pattern) (m : ModuleId) (level : Nat) : Prop :=
  ∃ factor place children around, Inside (.call m factor place children) around p ∧
    level = around.countP isCall

variable {m : ModuleId} {k level : Nat}

theorem mem_callLevelsAll_iff {x : ModuleId × Nat} {ps : List Pattern} :
    x ∈ callLevelsAll level ps ↔ ∃ p ∈ ps, x ∈ p.callLevels level := by
  induction ps with
  | nil => simp [callLevelsAll]
  | cons p ps ih => simp [callLevelsAll, ih]

/-- A level is noted for every call. -/
theorem Inside.mem_callLevels {factor place : Nat} {children around : List Pattern} {p : Pattern}
    (h : Inside (.call m factor place children) around p) (level : Nat) :
    (m, level + around.countP isCall) ∈ p.callLevels level := by
  induction h generalizing level with
  | self => simp [callLevels]
  | @member around c p hc _ ih =>
    cases p with
    | call m' factor' place' cs =>
      have hlevel : level + (call m' factor' place' cs :: around).countP isCall =
          level + 1 + around.countP isCall := by
        rw [List.countP_cons_of_pos rfl]
        omega
      rw [hlevel, callLevels]
      exact List.mem_cons_of_mem _ (mem_callLevelsAll_iff.2 ⟨c, hc, ih (level + 1)⟩)
    | array es =>
      rw [List.countP_cons_of_neg Bool.false_ne_true, callLevels]
      exact mem_callLevelsAll_iff.2 ⟨c, hc, ih level⟩
    | _ => cases hc

mutual
/-- A level that is noted is the level of a call. -/
theorem callsAt_of_mem : (p : Pattern) → (level : Nat) → (m, k) ∈ p.callLevels level →
    ∃ j, p.CallsAt m j ∧ k = level + j
  | .call m' factor place cs, level, h => by
    rw [callLevels] at h
    rcases List.mem_cons.1 h with h | h
    · cases h
      exact ⟨0, ⟨factor, place, cs, [], .self, rfl⟩, rfl⟩
    · obtain ⟨c, hc, j, ⟨f, r, ds, around, hin, rfl⟩, rfl⟩ := callsAt_of_mem_all cs (level + 1) h
      refine ⟨around.countP isCall + 1, ⟨f, r, ds, _ :: around, .member hc hin, ?_⟩, by omega⟩
      rw [List.countP_cons_of_pos rfl]
  | .array es, level, h => by
    rw [callLevels] at h
    obtain ⟨c, hc, j, ⟨f, r, ds, around, hin, rfl⟩, rfl⟩ := callsAt_of_mem_all es level h
    refine ⟨around.countP isCall, ⟨f, r, ds, _ :: around, .member hc hin, ?_⟩, rfl⟩
    rw [List.countP_cons_of_neg Bool.false_ne_true]
  | .literal _, _, h | .wildcard _, _, h | .slot _, _, h | .result, _, h | .ellipsis, _, h => by
    simp [callLevels] at h

theorem callsAt_of_mem_all : (ps : List Pattern) → (level : Nat) →
    (m, k) ∈ callLevelsAll level ps → ∃ c ∈ ps, ∃ j, c.CallsAt m j ∧ k = level + j
  | [], _, h => by simp [callLevelsAll] at h
  | p :: ps, level, h => by
    rw [callLevelsAll] at h
    rcases List.mem_append.1 h with h | h
    · exact ⟨p, List.mem_cons_self, callsAt_of_mem p level h⟩
    · obtain ⟨c, hc, hj⟩ := callsAt_of_mem_all ps level h
      exact ⟨c, List.mem_cons_of_mem p hc, hj⟩
end

theorem mem_callLevels_iff {p : Pattern} : (m, k) ∈ p.callLevels 0 ↔ p.CallsAt m k := by
  constructor
  · intro h
    obtain ⟨j, hj, rfl⟩ := callsAt_of_mem p 0 h
    rwa [Nat.zero_add]
  · rintro ⟨factor, place, children, around, hin, rfl⟩
    have hmem := hin.mem_callLevels 0
    rwa [Nat.zero_add] at hmem

/-- A call stands inside of nothing in itself. -/
theorem exists_callsAt_zero {p : Pattern} (h : p.isCall = true) : ∃ m, p.CallsAt m 0 := by
  cases p with
  | call m factor place children => exact ⟨m, factor, place, children, [], .self, rfl⟩
  | _ => cases h

/-! ## Depth -/

mutual
/-- No call is deeper than its pattern. -/
theorem le_depth_of_mem : (p : Pattern) → (level : Nat) → (m, k) ∈ p.callLevels level →
    k + 1 ≤ level + p.depth
  | .call m' factor place cs, level, h => by
    rw [callLevels] at h
    rw [depth]
    rcases List.mem_cons.1 h with h | h
    · cases h
      omega
    · have hle := le_depthAll_of_mem cs (level + 1) h
      omega
  | .array es, level, h => by
    rw [callLevels] at h
    rw [depth]
    exact le_depthAll_of_mem es level h
  | .literal _, _, h | .wildcard _, _, h | .slot _, _, h | .result, _, h | .ellipsis, _, h => by
    simp [callLevels] at h

theorem le_depthAll_of_mem : (ps : List Pattern) → (level : Nat) →
    (m, k) ∈ callLevelsAll level ps → k + 1 ≤ level + depthAll ps
  | [], _, h => by simp [callLevelsAll] at h
  | p :: ps, level, h => by
    rw [callLevelsAll] at h
    rw [depthAll]
    rcases List.mem_append.1 h with h | h
    · have hle := le_depth_of_mem p level h
      omega
    · have hle := le_depthAll_of_mem ps level h
      omega
end

mutual
/-- Some call is as deep as its pattern, unless there is none. -/
theorem exists_deepest_call : (p : Pattern) → (level : Nat) →
    p.depth = 0 ∨ ∃ x ∈ p.callLevels level, x.2 + 1 = level + p.depth
  | .call m factor place cs, level => by
    rw [depth, callLevels]
    refine .inr ?_
    rcases exists_deepest_call_all cs (level + 1) with h | ⟨x, hx, hdepth⟩
    · exact ⟨(m, level), List.mem_cons_self, by rw [h]⟩
    · exact ⟨x, List.mem_cons_of_mem _ hx, by omega⟩
  | .array es, level => by
    rw [depth, callLevels]
    exact exists_deepest_call_all es level
  | .literal _, _ | .wildcard _, _ | .slot _, _ | .result, _ | .ellipsis, _ => by
    simp [depth]

theorem exists_deepest_call_all : (ps : List Pattern) → (level : Nat) →
    depthAll ps = 0 ∨ ∃ x ∈ callLevelsAll level ps, x.2 + 1 = level + depthAll ps
  | [], _ => .inl rfl
  | p :: ps, level => by
    rw [depthAll, callLevelsAll]
    have hp := exists_deepest_call p level
    have hps := exists_deepest_call_all ps level
    rcases Nat.le_total p.depth (depthAll ps) with hle | hle
    · rw [Nat.max_eq_right hle]
      exact hps.imp_right fun ⟨x, hx, h⟩ => ⟨x, List.mem_append_right _ hx, h⟩
    · rw [Nat.max_eq_left hle]
      exact hp.imp_right fun ⟨x, hx, h⟩ => ⟨x, List.mem_append_left _ hx, h⟩
end

/-- A pattern is as deep as its deepest call, which counts itself. -/
theorem isGreatest_depth {p : Pattern} (h : p.isCall = true) :
    IsGreatest { d | ∃ m level, p.CallsAt m level ∧ d = level + 1 } p.depth := by
  constructor
  · have hpos : p.depth ≠ 0 := by
      cases p with
      | call m factor place cs =>
        rw [depth]
        omega
      | _ => cases h
    obtain ⟨x, hx, hdepth⟩ := (exists_deepest_call p 0).resolve_left hpos
    exact ⟨x.1, x.2, mem_callLevels_iff.1 hx, by omega⟩
  · rintro d ⟨m, level, hcalls, rfl⟩
    have hle := le_depth_of_mem p 0 (mem_callLevels_iff.2 hcalls)
    omega

end Pattern

/-! ## Notes -/

/-- The greatest of a list of numbers and another one. -/
theorem isGreatest_foldl_max (a : Nat) (l : List Nat) :
    IsGreatest { k | k = a ∨ k ∈ l } (l.foldl max a) := by
  induction l generalizing a with
  | nil => simp
  | cons b l ih =>
    have h := ih (max a b)
    rw [List.foldl_cons]
    refine ⟨?_, fun k hk => ?_⟩
    · rcases h.1 with he | hmem
      · rw [he]
        rcases max_choice a b with hc | hc
        · exact .inl hc
        · exact .inr (List.mem_cons.2 (.inl hc))
      · exact .inr (List.mem_cons_of_mem b hmem)
    · have hle : max a b ≤ l.foldl max (max a b) := h.2 (.inl rfl)
      rcases hk with rfl | hk
      · exact (le_max_left _ _).trans hle
      · rcases List.mem_cons.1 hk with rfl | hk
        · exact (le_max_right _ _).trans hle
        · exact h.2 (.inr hk)

namespace Depths

variable {d : Depths} {seen : List (ModuleId × Nat)} {m : ModuleId} {level : Nat}
  {entries : List (ModuleId × Nat)}

/-- Modules in ascending order, each once. -/
def Ordered (entries : List (ModuleId × Nat)) : Prop :=
  entries.Pairwise fun a b => a.1.toNat < b.1.toNat

theorem fst_of_mem_noteIn {e : ModuleId × Nat} (h : e ∈ noteIn m level entries) :
    e.1 = m ∨ ∃ e' ∈ entries, e.1 = e'.1 := by
  induction entries with
  | nil =>
    rw [noteIn, List.mem_singleton] at h
    exact .inl (h ▸ rfl)
  | cons e' entries ih => grind [noteIn]

theorem Ordered.noteIn (h : Ordered entries) (m : ModuleId) (level : Nat) :
    Ordered (noteIn m level entries) := by
  induction entries with
  | nil => exact List.pairwise_singleton _ _
  | cons e entries ih =>
    obtain ⟨other, deep⟩ := e
    obtain ⟨habove, hrest⟩ := List.pairwise_cons.1 h
    rw [Depths.noteIn]
    split
    · exact List.pairwise_cons.2 ⟨habove, hrest⟩
    · rename_i hne
      split
      · rename_i hlt
        refine List.pairwise_cons.2 ⟨List.forall_mem_cons.2 ⟨hlt, fun e he => ?_⟩, h⟩
        exact hlt.trans (habove e he)
      · rename_i hlt
        have hother : other.toNat < m.toNat :=
          lt_of_le_of_ne (not_lt.1 hlt) fun he => hne (ModuleId.toNat_inj.1 he.symm)
        refine List.pairwise_cons.2 ⟨fun e he => ?_, ih hrest⟩
        rcases fst_of_mem_noteIn he with hm | ⟨e', he', hfst⟩
        · rwa [hm]
        · rw [hfst]
          exact habove e' he'

theorem lookup_cons_ite (m m' : ModuleId) (k : Nat) (entries : List (ModuleId × Nat)) :
    ((m, k) :: entries).lookup m' = if m' = m then some k else entries.lookup m' := by
  by_cases hm : m' = m
  · simp [hm]
  · rw [List.lookup_cons, beq_eq_false_iff_ne.2 hm, if_neg hm]

/-- A note is a maximum for its module and leaves the others alone. -/
theorem lookup_noteIn (h : Ordered entries) (m m' : ModuleId) (level : Nat) :
    (noteIn m level entries).lookup m' =
      if m' = m then some ((entries.lookup m).elim level (max · level))
      else entries.lookup m' := by
  induction entries with
  | nil => simp [noteIn, lookup_cons_ite]
  | cons e entries ih =>
    obtain ⟨other, deep⟩ := e
    obtain ⟨habove, hrest⟩ := List.pairwise_cons.1 h
    rw [noteIn]
    split
    · rename_i he
      subst he
      by_cases hm : m' = m <;> simp [lookup_cons_ite, hm]
    · rename_i hne
      split
      · rename_i hlt
        -- All entries are of later modules.
        have hnone : entries.lookup m = none := by
          rw [List.lookup_eq_none_iff]
          intro e he
          have hlt' := hlt.trans (habove e he)
          simpa using fun hm : m = e.1 => absurd (hm ▸ hlt') (lt_irrefl _)
        simp [lookup_cons_ite, hne, hnone]
      · rw [lookup_cons_ite, ih hrest, lookup_cons_ite, lookup_cons_ite, if_neg hne]
        by_cases hm : m' = m
        · rw [hm, if_neg hne, if_pos rfl, if_pos rfl]
        · rw [if_neg hm, if_neg hm]

/-- What is noted of each module is the greatest of its levels in `seen`. -/
structure Notes (d : Depths) (seen : List (ModuleId × Nat)) : Prop where
  ordered : Ordered d.entries
  greatest {m : ModuleId} {depth : Nat} :
    d.entries.lookup m = some depth → IsGreatest { level | (m, level) ∈ seen } depth
  noted {m : ModuleId} {level : Nat} : (m, level) ∈ seen → ∃ depth, d.entries.lookup m = some depth

namespace Notes

theorem empty : Notes {} [] where
  ordered := List.Pairwise.nil
  greatest h := by cases h
  noted h := by cases h

theorem note (h : Notes d seen) (x : ModuleId × Nat) : Notes (d.note x) (seen ++ [x]) := by
  obtain ⟨m, level⟩ := x
  have hseen (m' : ModuleId) (k : Nat) :
      (m', k) ∈ seen ++ [(m, level)] ↔ (m', k) ∈ seen ∨ m' = m ∧ k = level := by simp
  refine ⟨h.ordered.noteIn m level, fun {m' depth} hdepth => ?_, fun {m' k} hk => ?_⟩
  · simp only [Depths.note, lookup_noteIn h.ordered] at hdepth
    split at hdepth
    · rename_i hm
      subst hm
      have hset : { k | (m', k) ∈ seen ++ [(m', level)] } =
          insert level { k | (m', k) ∈ seen } := by
        ext k
        simp [or_comm]
      rw [hset, ← Option.some.inj hdepth]
      cases hold : d.entries.lookup m' with
      | none =>
        have hnone : { k | (m', k) ∈ seen } = ∅ := by
          refine Set.eq_empty_of_forall_notMem fun k hk => ?_
          obtain ⟨depth, hdepth⟩ := h.noted hk
          cases hold.symm.trans hdepth
        simp [hnone]
      | some old =>
        rw [Option.elim_some, max_comm]
        exact (h.greatest hold).insert level
    · rename_i hm
      simpa [hm] using h.greatest hdepth
  · simp only [Depths.note, lookup_noteIn h.ordered]
    split
    · exact ⟨_, rfl⟩
    · rename_i hm
      exact h.noted (((hseen m' k).1 hk).resolve_right fun hk => hm hk.1)

theorem foldl (h : Notes d seen) (l : List (ModuleId × Nat)) :
    Notes (l.foldl Depths.note d) (seen ++ l) := by
  induction l generalizing d seen with
  | nil => simpa using h
  | cons x l ih => simpa using ih (h.note x)

theorem contains_iff (h : Notes d seen) : d.contains m = true ↔ ∃ level, (m, level) ∈ seen := by
  rw [contains, Option.isSome_iff_exists]
  constructor
  · rintro ⟨depth, hdepth⟩
    exact ⟨depth, (h.greatest hdepth).1⟩
  · rintro ⟨level, hlevel⟩
    exact h.noted hlevel

theorem isGreatest_depth (h : Notes d seen) (hlevel : (m, level) ∈ seen) :
    IsGreatest { k | (m, k) ∈ seen } (d.depth m) := by
  obtain ⟨depth, hdepth⟩ := h.noted hlevel
  rw [Depths.depth, hdepth]
  exact h.greatest hdepth

theorem depth_eq_zero (h : Notes d seen) (hnone : ¬ ∃ level, (m, level) ∈ seen) :
    d.depth m = 0 := by
  rw [← h.contains_iff, contains, Option.not_isSome_iff_eq_none] at hnone
  rw [Depths.depth, hnone]
  rfl

/-- The deepest level of all is 0 or that of an occurrence. -/
theorem isGreatest_deepest (h : Notes d seen) :
    IsGreatest { k | k = 0 ∨ ∃ m, (m, k) ∈ seen } d.deepest := by
  have hnodup : (d.entries.map Prod.fst).Nodup := by
    rw [List.Nodup, List.pairwise_map]
    exact h.ordered.imp fun hlt he => absurd (he ▸ hlt) (lt_irrefl _)
  have hfold : IsGreatest _ d.deepest := isGreatest_foldl_max 0 (d.entries.map Prod.snd)
  constructor
  · refine hfold.1.imp_right fun hmem => ?_
    obtain ⟨⟨m, depth⟩, he, hdepth⟩ := List.mem_map.1 hmem
    rw [← hdepth]
    exact ⟨m, (h.greatest ((lookup_eq_some_iff_mem hnodup).2 he)).1⟩
  · rintro k (rfl | ⟨m, hk⟩)
    · exact Nat.zero_le _
    · obtain ⟨depth, hdepth⟩ := h.noted hk
      have hmem := List.mem_map_of_mem (f := Prod.snd) ((lookup_eq_some_iff_mem hnodup).1 hdepth)
      exact ((h.greatest hdepth).2 hk).trans (hfold.2 (.inr hmem))

end Notes

variable {rules : List Rule}

theorem notes_ofRules (rules : List Rule) :
    Notes (ofRules rules) (rules.flatMap fun r => r.input.callLevels 0) := by
  simpa [ofRules] using Notes.empty.foldl (rules.flatMap fun r => r.input.callLevels 0)

theorem mem_levels_iff : (m, level) ∈ (rules.flatMap fun r => r.input.callLevels 0) ↔
    ∃ r ∈ rules, r.input.CallsAt m level := by
  simp only [List.mem_flatMap, Pattern.mem_callLevels_iff]

/-- The depth of a module is not less than any of its levels. -/
theorem le_depth_ofRules {rule : Rule} (hrule : rule ∈ rules)
    (h : (m, level) ∈ rule.input.callLevels 0) : level ≤ (ofRules rules).depth m := by
  have hmem : (m, level) ∈ rules.flatMap fun r => r.input.callLevels 0 :=
    List.mem_flatMap_of_mem hrule h
  exact ((notes_ofRules rules).isGreatest_depth hmem).2 hmem

/-- Depths are one less than those of the input patterns, if these are calls. -/
theorem isGreatest_deepest_ofRules (hne : rules ≠ []) (hcall : ∀ r ∈ rules, r.input.isCall = true) :
    IsGreatest { depth | ∃ r ∈ rules, depth = r.input.depth } ((ofRules rules).deepest + 1) := by
  have hdeepest := (notes_ofRules rules).isGreatest_deepest
  simp only [mem_levels_iff] at hdeepest
  have hle : ∀ r ∈ rules, r.input.depth ≤ (ofRules rules).deepest + 1 := by
    intro r hr
    obtain ⟨m, level, hat, hdepth⟩ := (Pattern.isGreatest_depth (hcall r hr)).1
    rw [hdepth]
    exact Nat.succ_le_succ (hdeepest.2 (.inr ⟨m, r, hr, hat⟩))
  refine ⟨?_, fun depth hdepth => ?_⟩
  · -- Without a call below the roots the deepest level is 0, and that is the level of a root.
    obtain ⟨r, hr, m, hat⟩ : ∃ r ∈ rules, ∃ m, r.input.CallsAt m (ofRules rules).deepest := by
      rcases hdeepest.1 with hzero | ⟨m, r, hr, hat⟩
      · obtain ⟨r, hr⟩ := List.exists_mem_of_ne_nil rules hne
        rw [hzero]
        exact ⟨r, hr, Pattern.exists_callsAt_zero (hcall r hr)⟩
      · exact ⟨r, hr, m, hat⟩
    have hge := (Pattern.isGreatest_depth (hcall r hr)).2 ⟨m, _, hat, rfl⟩
    exact ⟨r, hr, le_antisymm hge (hle r hr)⟩
  · obtain ⟨r, hr, rfl⟩ := hdepth
    exact hle r hr

/-- A module is noted if it is called in an input pattern, and its depth is the greatest number of
calls that such a call stands inside, whatever the order of the rules. The deepest of all is one
level less deep than the deepest input pattern. -/
theorem ofRules_greatest (rules : List Rule) :
    (∀ m, (ofRules rules).contains m = true ↔
      ∃ level, ∃ r ∈ rules, r.input.CallsAt m level) ∧
    (∀ m, (∃ level, ∃ r ∈ rules, r.input.CallsAt m level) →
      IsGreatest { level | ∃ r ∈ rules, r.input.CallsAt m level } ((ofRules rules).depth m)) ∧
    (∀ m, (¬ ∃ level, ∃ r ∈ rules, r.input.CallsAt m level) → (ofRules rules).depth m = 0) ∧
    (∀ rules', rules.Perm rules' → ofRules rules' = ofRules rules) ∧
    (rules ≠ [] → (∀ r ∈ rules, r.input.isCall = true) →
      IsGreatest { depth | ∃ r ∈ rules, depth = r.input.depth } ((ofRules rules).deepest + 1)) := by
  have hnotes := notes_ofRules rules
  simp only [← mem_levels_iff]
  refine ⟨fun m => hnotes.contains_iff, ?_, fun m => hnotes.depth_eq_zero, fun rules' hp =>
    (ofRules_perm hp).symm, isGreatest_deepest_ofRules⟩
  rintro m ⟨level, hlevel⟩
  exact hnotes.isGreatest_depth hlevel

end Depths

/-! ## A sum in an array and a sum inside of two calls -/

namespace Nested

def index : ModuleId := .ofNat 1
def add : ModuleId := .ofNat 2
def negate : ModuleId := .ofNat 3
def multiply : ModuleId := .ofNat 4

def sum : Pattern := .call add 1 2 [.wildcard false, .wildcard false, .result]

/-- The sum is inside of an array, which is no level. -/
def first : Rule where
  name := "first"
  input := .call index 1 2 [.array [sum], .wildcard true, .result]
  outputs := [.slot 0]

def twice : Rule where
  name := "twice"
  input := .call negate 1 1 [.call negate 1 1 [sum, .result], .result]
  outputs := [.call multiply 1 2 [.slot 0, .slot 1, .result]]

end Nested

theorem Depths.ofRules_greatest_nested :
    (∃ level, ∃ r ∈ [Nested.first, Nested.twice], r.input.CallsAt Nested.add level) ∧
    IsGreatest { level | ∃ r ∈ [Nested.first, Nested.twice], r.input.CallsAt Nested.add level } 2 ∧
    IsGreatest { level | ∃ r ∈ [Nested.first], r.input.CallsAt Nested.add level } 1 ∧
    (¬ ∃ level, ∃ r ∈ [Nested.first, Nested.twice], r.input.CallsAt Nested.multiply level) ∧
    (ofRules [Nested.first, Nested.twice]).depth Nested.multiply = 0 ∧
    ofRules [Nested.twice, Nested.first] = ofRules [Nested.first, Nested.twice] ∧
    IsGreatest { depth | ∃ r ∈ [Nested.first, Nested.twice], depth = r.input.depth } 3 := by
  have hadd : (ofRules [Nested.first, Nested.twice]).contains Nested.add = true := by decide
  have hfirst : (ofRules [Nested.first]).contains Nested.add = true := by decide
  have hmultiply : ¬ (ofRules [Nested.first, Nested.twice]).contains Nested.multiply = true := by
    decide
  obtain ⟨hcontains, hgreatest, hzero, hperm, hdeepest⟩ :=
    ofRules_greatest [Nested.first, Nested.twice]
  obtain ⟨hcontains', hgreatest', -, -, -⟩ := ofRules_greatest [Nested.first]
  rw [hcontains] at hadd hmultiply
  rw [hcontains'] at hfirst
  exact ⟨hadd, hgreatest _ hadd, hgreatest' _ hfirst, hmultiply, hzero _ hmultiply,
    hperm _ (.swap _ _ _),
    hdeepest (by simp) (by simp [Nested.first, Nested.twice, Pattern.isCall])⟩

end SignalGraph
