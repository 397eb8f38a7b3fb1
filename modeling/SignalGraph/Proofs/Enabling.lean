import SignalGraph.Proofs.Commits
import SignalGraph.Proofs.Courses
import SignalGraph.Proofs.Levels
import SignalGraph.Proofs.Succession

/-!
# Where a rewrite makes rules match

A commit names nodes to visit again: the calls that were added, and what is within reach of the node
of the result. The reach comes from the depths of modules in patterns, which count calls, and the
walk counts hops through nodes of any kind.

Whatever begins to match by a commit depends on its result or is new (`Applies.feeds_of_opens`). It
is named if the result is in sight of the pattern (`Applies.mem_requeue_of_opens`): no part that can
tell it from other ports stands deeper than the reach (`Pattern.InSight`). Depths make sure of that
for patterns of calls and wildcards (`Pattern.Plain.inSight`).

Arrays are hops of the walk and no levels of depths. So a call inside of an array can be out of
sight, and then a commit does not name the node where its rule begins to match.
-/

namespace SignalGraph

open SignalGraph.Graph

namespace Pattern

/-- Calls, wildcards, and literals that stand inside at most so many calls. -/
def Plain (limit : Nat) (p : Pattern) : Prop :=
  ∀ q k, (q, k) ∈ p.partLevels 0 →
    match q with
    | .array _ | .slot _ => False
    | .literal _ => k ≤ limit
    | _ => True

mutual
/-- Without arrays, a call stands inside as many calls as its module is noted for. -/
theorem mem_callLevels {module : ModuleId} {factor place k level : Nat} {children : List Pattern} :
    (p : Pattern) → (∀ q j, (q, j) ∈ p.partLevels level → ∀ es, q ≠ .array es) →
    (.call module factor place children, k) ∈ p.partLevels level →
    (module, k) ∈ p.callLevels level
  | .call m f r cs, harray, h => by
    rw [callLevels]
    rcases List.mem_cons.1 h with h | h
    · cases h
      exact List.mem_cons_self
    · refine List.mem_cons_of_mem _ (mem_callLevelsAll cs (fun q j hq => ?_) h)
      exact harray q j (List.mem_cons_of_mem _ hq)
  | .array es, harray, _ => absurd rfl (harray _ level (mem_partLevels level _) es)
  | .literal _, _, h | .wildcard _, _, h | .slot _, _, h | .result, _, h | .ellipsis, _, h => by
    simp [partLevels] at h

theorem mem_callLevelsAll {module : ModuleId} {factor place k level : Nat}
    {children : List Pattern} :
    (ps : List Pattern) → (∀ q j, (q, j) ∈ partLevelsAll level ps → ∀ es, q ≠ .array es) →
    (.call module factor place children, k) ∈ partLevelsAll level ps →
    (module, k) ∈ callLevelsAll level ps
  | [], _, h => by simp [partLevelsAll] at h
  | p :: ps, harray, h => by
    rw [callLevelsAll]
    rcases List.mem_append.1 h with h | h
    · exact List.mem_append_left _ (mem_callLevels p (fun q j hq =>
        harray q j (List.mem_append_left _ hq)) h)
    · exact List.mem_append_right _ (mem_callLevelsAll ps (fun q j hq =>
        harray q j (List.mem_append_right _ hq)) h)
end

/-- All parts of a pattern that can tell the result of a rewrite from other ports stand inside at
most `reach` calls and arrays, and slots can be compared with it only as the port that it is. -/
structure InSight (g : Graph) (result : OutputPort) (reach : Nat) (p : Pattern) : Prop where
  near {q : Pattern} {k : Nat} {node : Node} : (q, k) ∈ p.partLevels 0 →
    g.node? result.node = some node → q.tells node.kind = true → k ≤ reach
  unknown {index k : Nat} : (.slot index, k) ∈ p.partLevels 0 → g.value? result.id = none

/-- Depths are enough for plain patterns. -/
theorem Plain.inSight {depths : Depths} {rules : List Rule} {rule : Rule} {g : Graph}
    {result : OutputPort} (hdepths : depths = .ofRules rules) (hrule : rule ∈ rules)
    (h : rule.input.Plain (max 1 depths.deepest)) :
    rule.input.InSight g result (g.reach depths result.node) where
  near {q k node} hq hn ht := by
    have hpart := h q k hq
    rw [Graph.reach, hn, Option.map_some]
    cases q with
    | call module factor place children =>
      cases hkind : node.kind with
      | call s f latency =>
        simp only [tells, hkind, Bool.and_eq_true, decide_eq_true_eq] at ht
        obtain ⟨rfl, rfl⟩ := ht
        refine Nat.le_trans ?_ (Nat.le_max_right 1 _)
        rw [hdepths]
        refine Depths.le_depth_ofRules hrule (mem_callLevels rule.input (fun q j hq es he => ?_) hq)
        subst he
        exact h _ j hq
      | _ => simp [tells, hkind] at ht
    | literal value =>
      cases hkind : node.kind with
      | constant v => exact hpart
      | _ => simp [tells, hkind] at ht
    | array | slot => exact hpart.elim
    | _ => simp [tells] at ht
  unknown hq := (h _ _ hq).elim

end Pattern

/-! ## Commits -/

namespace Rewrite

variable {env : Environment} {rule : Rule} {n : NodeId} {g g' v : Graph}

/-- What is in `v` is there when the alternative has been built, and else there are only new
nodes. -/
structure Precedes (r : Rewrite env rule n g g') (v : Graph) : Prop where
  valid : v.Valid env.registry
  node? {m : NodeId} {node : Node} : v.node? m = some node →
    r.workspace.graph.node? m = some node
  bare? {o : OutputId} {port : OutputPort} : v.bare? o = some port →
    r.workspace.graph.bare? o = some port
  source? {i : InputId} {port : InputPort} : v.input? i = some port →
    r.workspace.graph.source? i = v.source? i
  old {m : NodeId} {node : Node} : r.workspace.graph.node? m = some node →
    m.index < g.nodes.size → v.node? m = some node

section

variable (r : Rewrite env rule n g g') (hr : env.registry.Reached) (hv : g.Valid env.registry)
  (hc : rule.Checked env.registry)

include hr hv hc

theorem precedes_workspace : r.Precedes r.workspace.graph :=
  ⟨(r.built_spec hv hc hr).valid, id, id, fun _ => rfl, fun h _ => h⟩

theorem precedes_of_restored (hvalid : v.Valid env.registry) (hres : Restored v g) :
    r.Precedes v := by
  have hgrown := (r.built_spec hv hc hr).grown
  refine ⟨hvalid, fun {m node} hm => ?_, fun {o port} ho => ?_, fun {i port} hi => ?_,
    fun {m node} hm hlt => ?_⟩
  · rw [← hres.node?] at hm
    exact hgrown.node?_eq_some hm
  · obtain ⟨port', hp, rfl⟩ := bare?_eq_some.1 ho
    rw [← hres.output?] at hp
    rw [hgrown.bare? (lt_of_output? hp)]
    exact bare?_eq_some.2 ⟨port', hp, rfl⟩
  · rw [← hres.input?] at hi
    rw [hgrown.source? (lt_of_input? hi), Graph.source?, Graph.source?, hres.input?]
  · rwa [hgrown.node? hlt, hres.node?] at hm

/-- A rewrite hands the place of its anchor to its result. -/
theorem handed (h : r.Precedes v) : Handed v r.anchor.id r.port.id g' := by
  have hbare {o : OutputId} {port : OutputPort} (ho : g'.output? o = some port) :
      r.workspace.graph.bare? o = some port.bare := by
    rw [← r.redirect.bare?]
    exact r.collected.1.bare? (bare?_eq_some.2 ⟨port, ho, rfl⟩)
  refine ⟨fun {o port port'} ho ho' => ?_, fun {m node node'} hm hm' => ?_,
    fun {m node i x} hm hi hx => ?_, fun {port port'} ho ho' => ?_⟩
  · have he := (h.bare? (bare?_eq_some.2 ⟨port, ho, rfl⟩)).symm.trans (hbare ho')
    simp only [OutputPort.bare, Option.some.injEq, OutputPort.mk.injEq] at he
    exact ⟨he.2.1, he.2.2.1⟩
  · have hm' := r.collected.1.node? hm'
    rw [r.redirect.node?] at hm'
    exact Option.some.inj ((h.node? hm).symm.trans hm')
  · obtain ⟨input, hinput, -⟩ := owner?_eq_some.1 ((h.valid.coherent.mem_inputs hm).1 hi)
    obtain ⟨input', hinput', hsource⟩ := source?_eq_some.1 hx
    have hx := source?_eq_some.2 ⟨input', r.collected.1.input? hinput', hsource⟩
    rw [r.redirect.source?, h.source? hinput] at hx
    split at hx
    · rename_i hanchor
      cases hx
      exact ⟨_, hanchor, h.valid.coherent.source_live hanchor, .inr ⟨rfl, rfl⟩⟩
    · exact ⟨x, hx, h.valid.coherent.source_live hx, .inl rfl⟩
  · -- Type and latency of the result are those of the anchor.
    have hanchor := h.bare? (bare?_eq_some.2 ⟨port, ho, rfl⟩)
    rw [(r.built_spec hv hc hr).grown.bare? (lt_of_output? r.anchor_live),
      bare?_eq_some.2 ⟨_, r.anchor_live, rfl⟩] at hanchor
    have hport := (bare?_eq_some.2 ⟨_, r.port_live, rfl⟩).symm.trans (hbare ho')
    simp only [OutputPort.bare, Option.some.injEq, OutputPort.mk.injEq] at hanchor hport
    rw [← hanchor.2.2.1, ← hport.2.2.1, r.type]

end

end Rewrite

namespace Rewriting

variable {env : Environment} {depths : Depths} {allowed : Bool} {sig : Signature} {n m : NodeId}
  {location : Option Location} {s s' : Rewriting} {w g g' v : Graph} {rule applied : Rule}
  {r : Replacement} {requeue : List NodeId}

/-- A rule matches at an output of a call in `g`, and did not in `v`. -/
def Opens (v g : Graph) (rule : Rule) (m : NodeId) : Prop :=
  ∃ node sig factor latency o b, g.node? m = some node ∧ node.kind = .call sig factor latency ∧
    rule.root? = some sig.id ∧ o ∈ node.outputs ∧ rule.input.matchAt g o = .ok (some b) ∧
    ∀ b, rule.input.matchAt v o ≠ .ok (some b)

/-- Whether a rule begins to match at this output of a call. -/
def opensAt (v g : Graph) (rule : Rule) (m : NodeId) (o : OutputId) : Bool :=
  match g.node? m, rule.input.matchAt g o, rule.input.matchAt v o with
  | some ⟨_, .call sig _ _, _, outputs, _⟩, .ok (some _), .ok none =>
    rule.root? = some sig.id && decide (o ∈ outputs)
  | _, _, _ => false

theorem opens_of_opensAt {o : OutputId} (h : opensAt v g rule m o = true) :
    Opens v g rule m := by
  unfold opensAt at h
  split at h
  · rename_i hm hafter hbefore
    obtain ⟨hroot, ho⟩ := Bool.and_eq_true_iff.1 h
    exact ⟨_, _, _, _, o, _, hm, rfl, of_decide_eq_true hroot, of_decide_eq_true ho, hafter,
      fun b hb => by cases hbefore.symm.trans hb⟩
  · cases h

/-- A rule does not begin to match at an old call if its parts overlook the change. -/
theorem Opens.not_overlooks {registry : Registry} {old new : OutputId} {d : NodeId}
    {node target : Node} (hv : v.Valid registry) (hg : g.Valid registry)
    (hand : Handed v old new g) (hc : rule.Checked registry) (hm : v.node? m = some node)
    (h : Opens v g rule m) :
    ¬ Pattern.Overlooks v g old new d m target (rule.input.partLevels 0) := by
  obtain ⟨node', sig, factor, latency, o, b, hm', -, -, ho, hmatch, hbefore⟩ := h
  obtain rfl := hand.node hm hm'
  intro hover
  obtain ⟨bound, hcheck, -⟩ := hc.patterns
  have hlive := maker?_eq_some.1 ((hv.coherent.mem_outputs hm).1 ho)
  obtain ⟨a, ha, -⟩ := Pattern.matchFrom_before hv hg hand ((hg.coherent.mem_outputs hm').1 ho)
    (.refl m) ⟨hlive.imp fun _ h => h.1, .inl rfl⟩ .nil rule.input hover hmatch hcheck
  exact hbefore a ha

/-- A visit that rewrites applies a rule, and gives the nodes that its commit names. -/
theorem Course.exists_applies {l : List Rule} {v : Visit} {name : String} {removed : Nat}
    (hc : Course env depths allowed sig n location s l s' v) (hres : Restored w s.graph)
    (hv : v = .rewritten name removed requeue) :
    ∃ (rule : Rule) (g₁ : Graph) (r : Replacement), rule ∈ l ∧ rule.name = name ∧
      Restored w g₁ ∧ Nonempty (Applies env depths rule n g₁ s'.graph r requeue) := by
  induction hc with
  | done => cases hv
  | pass _ _ ih =>
    obtain ⟨rule, g₁, r, hmem, happ⟩ := ih hres hv
    exact ⟨rule, g₁, r, List.mem_cons_of_mem _ hmem, happ⟩
  | limit => cases hv
  | warn _ _ restored _ _ ih =>
    obtain ⟨rule, g₁, r, hmem, happ⟩ := ih (by simpa using hres.trans restored) hv
    exact ⟨rule, g₁, r, List.mem_cons_of_mem _ hmem, happ⟩
  | @rewrite s rule l g g' r runs requeue allow restored applies =>
    cases hv
    exact ⟨rule, g, r, List.mem_cons_self, rfl, hres.trans restored, ⟨applies⟩⟩

theorem commit_requeue {anchor : OutputId} {removed : Nat}
    (h : commit depths g n anchor r = .ok (g', removed, requeue)) :
    ∃ port, g'.output? r.port = some port ∧
      g'.askEnabled depths port.node r.watermark = .ok requeue := by
  obtain ⟨⟨g₁, count⟩, -, h⟩ := bind_eq_ok.1 h
  obtain ⟨⟨g₂, removed⟩, -, h⟩ := bind_eq_ok.1 h
  obtain ⟨port, hp, h⟩ := bind_eq_ok.1 h
  obtain ⟨found, hfound, h⟩ := bind_eq_ok.1 h
  cases h
  exact ⟨port, output_eq_ok.1 hp, hfound⟩

/-- A call that is not new was there before. -/
theorem Applies.exists_old (a : Applies env depths applied n g g' r requeue)
    (hv : a.Precedes v) (h : Opens v g' rule m) (hold : m.index < r.watermark.index) :
    ∃ node, v.node? m = some node := by
  obtain ⟨node, -, -, -, -, -, hm, -⟩ := h
  have hm := a.collected.1.node? hm
  rw [a.redirect.node?] at hm
  rw [a.watermark] at hold
  exact ⟨node, hv.old hm hold⟩

namespace Applies

variable (a : Applies env depths applied n g g' r requeue) (hr : env.registry.Reached)
  (hg : g.Valid env.registry) (hc : applied.Checked env.registry)

include hr hg hc

/-- The commit leaves the result with its node, and names the nodes around that. -/
theorem result_spec : g'.maker? a.port.id = some a.port.node ∧
    g'.askEnabled depths a.port.node r.watermark = .ok requeue := by
  obtain ⟨port, hp, hrequeue⟩ := commit_requeue a.committed
  rw [← a.port_id] at hp
  have hand := a.handed hr hg hc (a.precedes_workspace hr hg hc)
  rw [(hand.port a.port_live hp).1]
  exact ⟨maker?_eq_some.2 ⟨port, hp, rfl⟩, hrequeue⟩

theorem mem_requeue : m ∈ requeue ↔
    (∃ k ≤ g'.reach depths a.port.node, g'.Hops k a.port.node m) ∨
      r.watermark.index ≤ m.index ∧ ∃ node, g'.node? m = some node ∧ node.kind.isCall = true := by
  have hg' := (a.valid hr hg hc).coherent
  obtain ⟨hmaker, hasked⟩ := a.result_spec hr hg hc
  obtain ⟨node, hnode⟩ := hg'.maker_live hmaker
  obtain ⟨found, hfound, hmem⟩ := hg'.askEnabled_spec depths r.watermark hnode
  obtain rfl : requeue = found := Except.ok.inj (hasked.symm.trans hfound)
  exact hmem m

/-- What begins to match is new or depends on the result. -/
theorem feeds_of_opens (hv : a.Precedes v) (hrule : rule.Checked env.registry)
    (h : Opens v g' rule m) :
    r.watermark.index ≤ m.index ∨ Relation.ReflTransGen g'.Feeds a.port.node m := by
  have hg' := a.valid hr hg hc
  have hand := a.handed hr hg hc hv
  obtain ⟨hmaker, -⟩ := a.result_spec hr hg hc
  obtain ⟨target, htarget⟩ := hg'.coherent.maker_live hmaker
  by_contra hnot
  rw [not_or, Nat.not_le] at hnot
  obtain ⟨node, hm⟩ := a.exists_old hv h hnot.1
  have hfar (k : Nat) : ¬ g'.Hops k a.port.node m := fun hk => hnot.2 hk.reflTransGen
  have hunseen (x : Value) (hseen : g'.Seen m a.port.id) : ¬ g'.Known a.port.id x := by
    obtain ⟨k, d, hd, hk⟩ := hseen
    obtain rfl := Option.some.inj (hmaker.symm.trans hd)
    exact absurd hk (hfar k)
  refine h.not_overlooks hv.valid hg' hand hrule hm (d := a.port.node)
    ⟨hmaker, htarget, fun _ _ => hfar _, fun _ hseen hs hk => ?_⟩
  exact hand.known hv.valid.coherent hg'.coherent hunseen hk hseen hs

/-- What begins to match is named if its pattern has the result in sight. -/
theorem mem_requeue_of_opens (hv : a.Precedes v) (hrule : rule.Checked env.registry)
    (h : Opens v g' rule m)
    (hsight : rule.input.InSight g' a.port (g'.reach depths a.port.node)) : m ∈ requeue := by
  have hg' := a.valid hr hg hc
  have hand := a.handed hr hg hc hv
  obtain ⟨hmaker, -⟩ := a.result_spec hr hg hc
  obtain ⟨target, htarget⟩ := hg'.coherent.maker_live hmaker
  by_contra hnot
  rw [a.mem_requeue hr hg hc, not_or] at hnot
  obtain ⟨hfar, hnew⟩ := hnot
  have hold : m.index < r.watermark.index := by
    obtain ⟨node, sig, factor, latency, -, -, hm, hk, -⟩ := h
    by_contra hge
    exact hnew ⟨Nat.le_of_not_lt hge, node, hm, by rw [hk]; rfl⟩
  obtain ⟨node, hm⟩ := a.exists_old hv h hold
  refine h.not_overlooks hv.valid hg' hand hrule hm (d := a.port.node)
    ⟨hmaker, htarget, fun hp ht hk => ?_, fun hslot hseen hs hk => ?_⟩
  · exact hfar ⟨_, hsight.near hp htarget ht, hk⟩
  · refine hand.known hv.valid.coherent hg'.coherent (fun x _ hknown => ?_) hk hseen hs
    have hvalue := hknown.value?_eq hg'.coherent hg'.acyclic
    rw [hsight.unknown hslot] at hvalue
    cases hvalue

end Applies

end Rewriting

theorem RuleSet.depths_of_make {registry : Registry} {l : List Rule} {rules : RuleSet}
    (h : make registry l = .ok rules) : rules.depths = .ofRules l := by
  obtain ⟨u, -, h⟩ := bind_eq_ok.1 h
  cases h
  rfl

namespace Rewriting

open Relation

/-- Every rewrite in a run ends with a commit that hands the place of an anchor to a result. The
nodes that it names for another visit are those within reach of the node of the result, and the new
calls. Compare the graph after it with the one before the visit, or with the one just before the
commit: wherever a rule begins to match, that is a new call or depends on the result, and it is
named if its pattern has the result in sight. Patterns without arrays and slots, and without
literals in their deepest calls, always have. -/
theorem optimize_requeues {env : Environment} {rules : RuleSet} {l : List Rule} {g : Graph}
    (hr : env.registry.Reached) (hmake : RuleSet.make env.registry l = .ok rules)
    (hg : g.Coherent) (hverify : g.verify = []) (hcalls : g.CallsFrom env.registry) :
    ∃ g₀ removed, g.collect = .ok (g₀, removed) ∧
      (l ≠ [] → Ends env rules (.start g₀ removed) (optimize env rules g)) ∧
      ∀ p, ReflTransGen (Turn env rules) (.start g₀ removed) p → ∀ n s name count requeue,
        visit env rules (p.allowed env) p.state n = .ok (s, .rewritten name count requeue) →
        ∃ applied ∈ l, ∃ (g₁ : Graph) (r : Replacement)
          (a : Applies env rules.depths applied n g₁ s.graph r requeue),
          applied.name = name ∧ Restored p.state.graph g₁ ∧
          (∀ m, m ∈ requeue ↔
            (∃ k ≤ s.graph.reach rules.depths a.port.node, s.graph.Hops k a.port.node m) ∨
              r.watermark.index ≤ m.index ∧
                ∃ node, s.graph.node? m = some node ∧ node.kind.isCall = true) ∧
          ∀ before ∈ [p.state.graph, a.workspace.graph], ∀ rule ∈ l, ∀ m,
            Opens before s.graph rule m →
            (r.watermark.index ≤ m.index ∨ ReflTransGen s.graph.Feeds a.port.node m) ∧
            (rule.input.InSight s.graph a.port (s.graph.reach rules.depths a.port.node) →
              m ∈ requeue) ∧
            (rule.input.Plain (max 1 rules.depths.deepest) → m ∈ requeue) := by
  obtain ⟨rfl, hmem, hrules⟩ := RuleSet.make_eq_ok hmake
  have hv : g.Valid env.registry := valid_iff.2 ⟨hg, hverify, hcalls⟩
  obtain ⟨g₀, removed, hc, hp, -, hclean⟩ := collect_spec hg
  refine ⟨g₀, removed, hc, optimize_ends hc, fun p hturns n s name count requeue hvisit => ?_⟩
  have hvp := (turns_clean (p := .start g₀ removed) hr hrules (hp.valid hv) hclean hturns).1
  obtain ⟨node, hn, ⟨-, -, hv⟩ | ⟨sig, factor, latency, hk, hcourse⟩⟩ :=
    course_of_visit hr hrules hvp hvisit
  · cases hv
  obtain ⟨applied, g₁, r, happlied, hname, hres, ⟨a⟩⟩ :=
    hcourse.exists_applies (.refl hvp.coherent) rfl
  have happlied := (List.mem_filter.1 happlied).1
  have hchecked := hrules applied happlied
  have hv₁ := hres.valid hvp
  refine ⟨applied, (hmem applied).1 happlied, g₁, r, a, hname, hres,
    fun m => a.mem_requeue hr hv₁ hchecked, fun before hbefore rule hrule m h => ?_⟩
  have hprecedes : a.Precedes before := by
    rcases List.mem_pair.1 hbefore with rfl | rfl
    · exact a.precedes_of_restored hr hv₁ hchecked hvp hres
    · exact a.precedes_workspace hr hv₁ hchecked
  have hrule' := hrules rule ((hmem rule).2 hrule)
  have hsight := a.mem_requeue_of_opens hr hv₁ hchecked hprecedes hrule' h
  exact ⟨a.feeds_of_opens hr hv₁ hchecked hprecedes hrule' h, hsight, fun hplain =>
    hsight (hplain.inSight (RuleSet.depths_of_make hmake) hrule)⟩

end Rewriting

/-! ## Inside of an array -/

namespace Wrapped

/-- The first element of an array. -/
def first : Signature where
  id := .ofNat 4
  name := "first"
  parameters := [.float "values" .input .varying 1 true, .float "y" .output]
  returnParameter := some 1

def env : Environment where
  registry :=
    { modules :=
        [(LateSum.negate.id, .hosted LateSum.negate (.fixed 0)),
         (LateSum.sum.id, .hosted LateSum.sum (.fixed 0)), (first.id, .hosted first (.fixed 0))]
      names :=
        [("first", first.id), ("sum", LateSum.sum.id), ("negate", LateSum.negate.id)] }
  settings := {}

def negation : Rule where
  name := "negation"
  input := .call LateSum.sum.id 1 2 [.wildcard false, .wildcard false, .result]
  outputs := [.call LateSum.negate.id 1 1 [.slot 0, .result]]

def only : Rule where
  name := "only-element"
  input := .call first.id 1 1
    [.array [.call LateSum.negate.id 1 1 [.wildcard false, .result]], .result]
  outputs := [.slot 0]

def rules : RuleSet where
  rules := [negation, LateSum.involution, only]
  ordered := [LateSum.involution, only, negation]
  depths := .ofRules [negation, LateSum.involution, only]

/-- A sum, an array of it, the first element of that, and the negation of the sum. -/
def program : Description where
  inputs := [{ name := "x", type := { primitive := .float } }]
  entries :=
    [{ name := "s", kind := .call "sum" 1 ["x", "x"] },
     { name := "a", kind := .array .float ["s"] },
     { name := "f", kind := .call "first" 1 ["a"] },
     { name := "t", kind := .call "negate" 1 ["s"] }]
  outputs :=
    [{ name := "out", type := { primitive := .float }, source := "f" },
     { name := "also", type := { primitive := .float }, source := "t" }]

theorem reached : env.registry.Reached :=
  ((Registry.Reached.empty.insert (m := .hosted LateSum.negate (.fixed 0)) rfl).insert
    (m := .hosted LateSum.sum (.fixed 0)) rfl).insert (m := .hosted first (.fixed 0)) rfl

theorem make_rules :
    RuleSet.make env.registry [negation, LateSum.involution, only] = .ok rules := by
  cbv

/-- The nodes that the rewrite of the sum names, if two rules begin to match by it. -/
def named : Option (List NodeId) :=
  match program.build env with
  | .ok (_, .ok g) =>
    match g.collect with
    | .ok (g₀, 0) =>
      match Rewriting.visit env rules true { graph := g₀ } ⟨1⟩ with
      | .ok (s, .rewritten "negation" 1 requeue) =>
        if Rewriting.opensAt g₀ s.graph LateSum.involution ⟨4⟩ ⟨4⟩ &&
          Rewriting.opensAt g₀ s.graph only ⟨3⟩ ⟨3⟩ then some requeue else none
      | _ => none
    | _ => none
  | _ => none

theorem exists_named : ∃ runs g g₀ s requeue, program.build env = .ok (runs, .ok g) ∧
    g.collect = .ok (g₀, 0) ∧ Rewriting.visit env rules true { graph := g₀ } ⟨1⟩ =
      .ok (s, .rewritten "negation" 1 requeue) ∧
    Rewriting.Opens g₀ s.graph LateSum.involution ⟨4⟩ ∧
    Rewriting.Opens g₀ s.graph only ⟨3⟩ ∧ requeue = [⟨2⟩, ⟨4⟩, ⟨7⟩] := by
  have h : named = some [⟨2⟩, ⟨4⟩, ⟨7⟩] := by cbv
  rw [named] at h
  split at h
  · rename_i runs g hb
    split at h
    · rename_i g₀ hc
      split at h
      · rename_i s requeue hvisit
        split at h
        · rename_i hopens
          obtain ⟨hnear, hfar⟩ := Bool.and_eq_true_iff.1 hopens
          exact ⟨runs, g, g₀, s, requeue, hb, hc, hvisit, Rewriting.opens_of_opensAt hnear,
            Rewriting.opens_of_opensAt hfar, Option.some.inj h⟩
        · cases h
      · cases h
    · cases h
  · cases h

theorem plain_involution (limit : Nat) : LateSum.involution.input.Plain limit := by
  intro q k hq
  simp only [LateSum.involution, Pattern.partLevels, Pattern.partLevelsAll, List.cons_append,
    List.nil_append, List.mem_cons, List.not_mem_nil, or_false, Prod.mk.injEq] at hq
  rcases hq with ⟨rfl, -⟩ | ⟨rfl, -⟩ | ⟨rfl, -⟩ | ⟨rfl, -⟩ | ⟨rfl, -⟩
  all_goals trivial

end Wrapped

open Wrapped in
/-- The sum becomes a negation. The negation after it is visited again. The call that takes the
array apart is two hops away, and is not, though its rule begins to match. -/
theorem Rewriting.optimize_requeues_wrapped :
    ∃ runs g g₀ s requeue, program.build env = .ok (runs, .ok g) ∧ g.collect = .ok (g₀, 0) ∧
      visit env rules true { graph := g₀ } ⟨1⟩ = .ok (s, .rewritten "negation" 1 requeue) ∧
      (Opens g₀ s.graph LateSum.involution ⟨4⟩ ∧ ⟨4⟩ ∈ requeue) ∧
      Opens g₀ s.graph only ⟨3⟩ ∧ ⟨3⟩ ∉ requeue := by
  obtain ⟨runs, g, g₀, s, requeue, hb, hc, hvisit, hnear, hfar, hrequeue⟩ := exists_named
  have hv := (Description.build_loaded reached hb).valid
  obtain ⟨g₁, removed, hc₁, -, hcommits⟩ := optimize_requeues reached make_rules hv.coherent
    (valid_iff.1 hv).2.1 hv.fits
  cases hc₁.symm.trans hc
  obtain ⟨_, -, _, r, a, -, -, -, hbegins⟩ :=
    hcommits (.start g₀ 0) .refl ⟨1⟩ s "negation" 1 requeue hvisit
  obtain ⟨-, -, hplain⟩ := hbegins g₀ List.mem_cons_self LateSum.involution
    (List.mem_cons_of_mem _ List.mem_cons_self) ⟨4⟩ hnear
  exact ⟨runs, g, g₀, s, requeue, hb, hc, hvisit, ⟨hnear, hplain (plain_involution _)⟩, hfar,
    by simp [hrequeue]⟩

end SignalGraph
