import SignalGraph.Proofs.Alike
import SignalGraph.Rewriting.Fixpoint

/-!
# What a step of rewriting does

Visiting a node either leaves the graph the same, or applies a rule there (`visit_spec`). What it
means that a rule was applied is said once, by the fields of `Rewrite`: the rule matched at an
anchor in use, one of its alternatives was built on the graph with the type and the latency of the
anchor, the consumers of the anchor were handed to it, and garbage was collected from the node on.

A rewrite keeps graphs valid (`Rewrite.valid`). It closes no cycle, because the new nodes draw only
on ports that the anchor's node depends on and on other outputs of it, and never on the anchor.
-/

namespace SignalGraph

open SignalGraph.Graph Relation

/-! ## Rules that were checked -/

/-- The patterns of a rule fit the modules they call, and its alternatives use what it binds. -/
structure Rule.Checked (registry : Registry) (r : Rule) : Prop where
  isCall : r.input.isCall = true
  patterns : ∃ bound, r.input.check registry .input 0 = .ok bound ∧
    ∀ p ∈ r.outputs, ∃ bound', p.check registry .output bound = .ok bound'

theorem Rule.checkOutputs_eq_ok {registry : Registry} {bound : Nat} {l : List Pattern}
    (h : checkOutputs registry bound l = .ok ()) :
    ∀ p ∈ l, ∃ bound', p.check registry .output bound = .ok bound' := by
  induction l with
  | nil => simp
  | cons p l ih =>
    simp only [checkOutputs, bind_eq_ok] at h
    obtain ⟨bound', hp, h⟩ := h
    exact List.forall_mem_cons.2 ⟨⟨bound', hp⟩, ih h⟩

theorem Rule.checked_of_check {registry : Registry} {r : Rule} (h : r.check registry = .ok ()) :
    r.Checked registry := by
  unfold Rule.check at h
  split at h
  · cases h
  · rename_i hcall
    split at h
    · cases h
    · cases hp : r.checkPatterns registry with
      | error e =>
        rw [hp] at h
        cases h
      | ok u =>
        obtain ⟨bound, hin, hout⟩ := bind_eq_ok.1 hp
        exact ⟨by simpa using hcall, bound, hin, checkOutputs_eq_ok hout⟩

theorem Rule.checkAll_eq_ok {registry : Registry} {names : List String} {l : List Rule}
    (h : checkAll registry names l = .ok ()) : ∀ r ∈ l, r.Checked registry := by
  induction l generalizing names with
  | nil => simp
  | cons r l ih =>
    simp only [checkAll] at h
    split at h
    · cases h
    · obtain ⟨u, hr, h⟩ := bind_eq_ok.1 h
      exact List.forall_mem_cons.2 ⟨checked_of_check hr, ih h⟩

/-- A rule set holds the rules it was made from, and all of them were checked. -/
theorem RuleSet.make_eq_ok {registry : Registry} {l : List Rule} {rules : RuleSet}
    (h : make registry l = .ok rules) :
    rules.rules = l ∧ (∀ r, r ∈ rules.ordered ↔ r ∈ l) ∧
      ∀ r ∈ rules.ordered, r.Checked registry := by
  obtain ⟨u, hc, h⟩ := bind_eq_ok.1 h
  cases h
  refine ⟨rfl, fun r => List.mem_mergeSort, fun r hr => ?_⟩
  exact Rule.checkAll_eq_ok hc r (List.mem_mergeSort.1 hr)

/-! ## Rewrites -/

/-- A rule was applied at the node `n` and made `g'` of `g`. -/
structure Rewrite (env : Environment) (rule : Rule) (n : NodeId) (g g' : Graph) where
  anchor : OutputPort
  bindings : Bindings
  alternative : Pattern
  location : Option Location
  /-- The graph with the alternative built on it. -/
  workspace : Workspace
  /-- What takes the place of the anchor. -/
  port : OutputPort
  redirected : Graph
  removed : Nat
  anchor_live : g.output? anchor.id = some anchor
  anchor_node : anchor.node = n
  anchor_used : anchor.consumers ≠ []
  matched : rule.input.matchAt g anchor.id = .ok (some bindings)
  mem : alternative ∈ rule.outputs
  built : alternative.instantiate env bindings location { graph := g } =
    .ok (workspace, .ok port.id)
  port_live : workspace.graph.output? port.id = some port
  ne : port.id ≠ anchor.id
  type : port.type = anchor.type
  latency : port.latency = anchor.latency
  redirect : Redirected workspace.graph anchor.id port.id redirected
  collect : redirected.collectFrom [n] = .ok (g', removed)

/-- Above new nodes that draw on what is upstream of `n`, there are only new nodes and nodes
upstream of `n`. -/
theorem Graph.Grown.upstream {b : List OutputId} {g w : Graph} {n m r : NodeId}
    (hg : g.Coherent) (hw : w.Coherent) (h : Grown b g w) (hb : ∀ x ∈ b, g.Upstream x n)
    (hr : g.nodes.size ≤ r.index ∨ ReflTransGen g.Feeds r n) (ht : ReflTransGen w.Feeds m r) :
    g.nodes.size ≤ m.index ∨ ReflTransGen g.Feeds m n := by
  induction ht using ReflTransGen.head_induction_on with
  | refl => exact hr
  | @head m m' hf _ ih =>
    by_cases hlt : m'.index < g.nodes.size
    · have ht' : ReflTransGen g.Feeds m' n := ih.resolve_left (Nat.not_le.2 hlt)
      exact .inr (.head ((h.feeds_old hg hw hlt).1 hf) ht')
    · obtain ⟨i, hi, hs⟩ := hw.feeds_iff.1 hf
      obtain ⟨o, hs, ho⟩ := feeder?_eq_some.1 hs
      have hnew : g.inputs.size ≤ i.index :=
        Nat.le_of_not_lt fun hlt' => hlt (h.owner_lt hg hlt' hi)
      rcases h.drawn hnew hs with hnew | hmem
      · exact .inl (Nat.le_of_not_lt fun hlt' =>
          Nat.not_lt.2 hnew (h.lt_of_maker? hg hw hlt' ho))
      · obtain ⟨m₀, hm₀, ht⟩ := hb o hmem
        rw [h.maker? (Graph.lt_of_maker? hm₀)] at ho
        obtain rfl : m = m₀ := Option.some.inj (ho.symm.trans hm₀)
        exact .inr ht

namespace Rewrite

variable {env : Environment} {rule : Rule} {n : NodeId} {g g' : Graph}

theorem maker_anchor (r : Rewrite env rule n g g') : g.maker? r.anchor.id = some n :=
  maker?_eq_some.2 ⟨r.anchor, r.anchor_live, r.anchor_node⟩

section

variable (r : Rewrite env rule n g g') (hv : g.Valid env.registry)
  (hc : rule.Checked env.registry)

include hv hc

theorem bound_upstream {x : OutputId} (hx : x ∈ r.bindings) :
    g.Upstream x n ∧ x ≠ r.anchor.id ∧ g.Inner x := by
  obtain ⟨bound, hin, -⟩ := hc.patterns
  exact (Pattern.matchAt_spec hv hc.isCall (r.maker_anchor) r.matched hin).2 x hx

theorem bound_live : ∀ x ∈ r.bindings, ∃ out, g.output? x = some out := by
  intro x hx
  obtain ⟨⟨m, hm, -⟩, -⟩ := r.bound_upstream hv hc hx
  obtain ⟨out, hout, -⟩ := maker?_eq_some.1 hm
  exact ⟨out, hout⟩

variable (hr : env.registry.Reached)

include hr

theorem built_spec : Built env.registry r.bindings g r.workspace.graph (.ok [r.port.id]) :=
  Pattern.instantiate_spec (w := { graph := g }) hr hv (r.bound_live hv hc) r.alternative r.built

/-- What takes the place of the anchor does not depend on a consumer of the anchor. -/
theorem free {i : InputId} {c m : NodeId} (hs : r.workspace.graph.source? i = some r.anchor.id)
    (hi : r.workspace.graph.owner? i = some c) (hm : r.workspace.graph.maker? r.port.id = some m) :
    ¬ ReflTransGen r.workspace.graph.Feeds c m := by
  have hb := r.built_spec hv hc hr
  have hg := hv.coherent
  have hw := hb.valid.coherent
  have hanchor := lt_of_output? r.anchor_live
  have hup (x : OutputId) (hx : x ∈ r.bindings) : g.Upstream x n := (r.bound_upstream hv hc hx).1
  -- The node that takes over is new, or it gives a bound port.
  have hport : g.nodes.size ≤ m.index ∨ ReflTransGen g.Feeds m n := by
    rcases (hb.offers rfl).drawn r.port.id (by simp) with hnew | hmem
    · exact .inl (Nat.le_of_not_lt fun hlt =>
        Nat.not_lt.2 hnew (hb.grown.lt_of_maker? hg hw hlt hm))
    · obtain ⟨m₀, hm₀, ht⟩ := hup _ hmem
      rw [hb.grown.maker? (Graph.lt_of_maker? hm₀)] at hm
      obtain rfl : m = m₀ := Option.some.inj (hm.symm.trans hm₀)
      exact .inr ht
  intro ht
  by_cases hlt : c.index < g.nodes.size
  · -- An old consumer would be upstream of the node that feeds it.
    have hcn := (hb.grown.upstream hg hw hup hport ht).resolve_left (Nat.not_le.2 hlt)
    have hil := hb.grown.lt_of_owner? hg hw hlt hi
    rw [hb.grown.owner? hil] at hi
    rw [hb.grown.source? hil] at hs
    exact hv.acyclic.not_feeds_back (.single (hg.feeds_of_source hi hs (r.maker_anchor))) hcn
  · -- A new consumer would have drawn on the anchor.
    have hnew : g.inputs.size ≤ i.index :=
      Nat.le_of_not_lt fun hlt' => hlt (hb.grown.owner_lt hg hlt' hi)
    rcases hb.grown.drawn hnew hs with hnew | hmem
    · exact Nat.not_lt.2 hnew hanchor
    · exact (r.bound_upstream hv hc hmem).2.1 rfl

theorem redirected_acyclic : r.redirected.Acyclic := by
  have hb := r.built_spec hv hc hr
  have hm : r.workspace.graph.maker? r.port.id = some r.port.node :=
    maker?_eq_some.2 ⟨r.port, r.port_live, rfl⟩
  refine r.redirect.acyclic hb.valid.coherent hm hb.valid.acyclic fun i c hs hi => ?_
  exact r.free hv hc hr hs hi hm

theorem redirected_valid : r.redirected.Valid env.registry where
  coherent := r.redirect.coherent
  acyclic := r.redirected_acyclic hv hc hr
  fits _ _ hn := (r.built_spec hv hc hr).valid.fits (r.redirect.node? _ ▸ hn)

end

theorem collected (r : Rewrite env rule n g g') : Pruned r.redirected g' ∧
    ∀ m node, r.redirected.Stays m node → g'.node? m = some node := by
  obtain ⟨g₁, count, hc, hp, hstay, -⟩ := collectFrom_spec r.redirect.coherent [n]
  have he := hc.symm.trans r.collect
  cases he
  exact ⟨hp, hstay⟩

/-- A rewrite keeps graphs valid. -/
theorem valid (r : Rewrite env rule n g g') (hr : env.registry.Reached)
    (hv : g.Valid env.registry) (hc : rule.Checked env.registry) : g'.Valid env.registry :=
  r.collected.1.valid (r.redirected_valid hv hc hr)

end Rewrite

/-! ## Visits -/

namespace Rewriting

variable {env : Environment} {b : Bindings} {anchor : OutputPort} {location : Option Location}
  {g g' : Graph} {n : NodeId}

/-- An alternative cannot be built, or it differs from the anchor in type or latency. -/
def Rejected (env : Environment) (b : Bindings) (anchor : OutputPort) (location : Option Location)
    (g : Graph) (p : Pattern) : Prop :=
  ∃ w r, p.instantiate env b location { graph := g } = .ok (w, r) ∧ ∀ o, r = .ok o →
    ∃ port, w.graph.output? o = some port ∧
      (port.type ≠ anchor.type ∨ port.latency ≠ anchor.latency)

/-- What comes of an alternative does not depend on how many nodes have been numbered before. -/
theorem instantiate_parallel (location : Option Location) (hr : env.registry.Reached)
    (hv : g.Valid env.registry) (hg' : g'.Coherent) (hs : Same g g')
    (hb : ∀ x ∈ b, ∃ out, g.output? x = some out) (p : Pattern) :
    Pattern.Parallel Alike (p.instantiate env b location { graph := g })
      (p.instantiate env b location { graph := g' }) := by
  have halike : Pattern.AllAlike g g' b b := by
    refine List.forall₂_same.2 fun x hx => ?_
    obtain ⟨out, hout⟩ := hb x hx
    exact hs.alike hv hg' hout
  exact Pattern.instantiate_alike hr hv (hs.valid hg' hv) halike p

theorem Rejected.same {p : Pattern} (hr : env.registry.Reached) (hv : g.Valid env.registry)
    (hg' : g'.Coherent) (hs : Same g g') (hb : ∀ x ∈ b, ∃ out, g.output? x = some out)
    (h : Rejected env b anchor location g p) : Rejected env b anchor location g' p := by
  obtain ⟨w, r, hi, hrej⟩ := h
  have hpar := instantiate_parallel location hr hv hg' hs hb p
  rw [hi] at hpar
  generalize hy : p.instantiate env b location { graph := g' } = y at hpar
  cases hpar with
  | refused _ v e e' => exact ⟨v, .error e', hy, fun o ho => nomatch ho⟩
  | @built _ v a c ha =>
    refine ⟨v, .ok c, hy, ?_⟩
    rintro o ⟨⟩
    obtain ⟨p, q, hp, hq, ht, hl⟩ := ha.like
    obtain ⟨port, hport, hdiff⟩ := hrej a rfl
    obtain rfl : port = p := Option.some.inj (hport.symm.trans hp)
    exact ⟨q, hq, ht ▸ hl ▸ hdiff⟩

/-- What comes of trying alternatives on `g`: none of them fits, or one is built on the same graph
after those before it did not fit. -/
inductive Tried (env : Environment) (b : Bindings) (anchor : OutputPort)
    (location : Option Location) (g : Graph) (ps : List Pattern) (g' : Graph) :
    Option Replacement → Prop where
  | rejected (restored : Restored g g')
    (all : ∀ p ∈ ps, Rejected env b anchor location g p) :
    Tried env b anchor location g ps g' none
  | accepted {g₁ : Graph} {w : Workspace} {p : Pattern} {port : OutputPort} (r : Replacement)
    (restored : Restored g g₁) (mem : p ∈ ps)
    (built : p.instantiate env b location { graph := g₁ } = .ok (w, .ok r.port))
    (graph : w.graph = g') (live : g'.output? r.port = some port) (ne : r.port ≠ anchor.id)
    (type : port.type = anchor.type) (latency : port.latency = anchor.latency)
    (watermark : r.watermark = g₁.nextNode)
    (first : ∃ before after, ps = before ++ p :: after ∧
      ∀ q ∈ before, Rejected env b anchor location g q)
    (said : r.diagnostics = Preparation.diagnostics w.runs.reverse) :
    Tried env b anchor location g ps g' (some r)

theorem Tried.cons {p : Pattern} {ps : List Pattern} {g₁ : Graph} {found : Option Replacement}
    (hr : env.registry.Reached) (hv : g.Valid env.registry)
    (hb : ∀ x ∈ b, ∃ out, g.output? x = some out) (hrej : Rejected env b anchor location g p)
    (hres : Restored g g₁) (h : Tried env b anchor location g₁ ps g' found) :
    Tried env b anchor location g (p :: ps) g' found := by
  have hback {l : List Pattern} (h : ∀ q ∈ l, Rejected env b anchor location g₁ q) :
      ∀ q ∈ p :: l, Rejected env b anchor location g q := by
    refine List.forall_mem_cons.2 ⟨hrej, fun q hq => ?_⟩
    refine (h q hq).same hr (hres.valid hv) hv.coherent hres.symm fun x hx => ?_
    rw [hres.output?]
    exact hb x hx
  cases h with
  | rejected restored all => exact .rejected (hres.trans restored) (hback all)
  | accepted r restored mem built graph live ne type latency watermark first said =>
    obtain ⟨before, after, rfl, hfirst⟩ := first
    exact .accepted r (hres.trans restored) (List.mem_cons_of_mem p mem) built graph live ne type
      latency watermark ⟨p :: before, after, rfl, hback hfirst⟩ said

theorem replace_spec (hr : env.registry.Reached) (hv : g.Valid env.registry)
    (hb : ∀ x ∈ b, ∃ out, g.output? x = some out) (hne : ∀ x ∈ b, x ≠ anchor.id)
    (ha : g.output? anchor.id = some anchor) {runs runs' : List Preparation}
    {found : Option Replacement} (ps : List Pattern)
    (h : replace env b anchor location g runs ps = .ok (g', runs', found)) :
    Tried env b anchor location g ps g' found := by
  induction ps generalizing g runs with
  | nil =>
    cases h
    exact .rejected (.refl hv.coherent) (by simp)
  | cons p ps ih =>
    simp only [replace] at h
    obtain ⟨⟨w, built⟩, hi, h⟩ := bind_eq_ok.1 h
    have hbuilt := Pattern.instantiate_spec (w := { graph := g }) hr hv hb p hi
    obtain ⟨g₁, hd, hres⟩ := discard_spec hv.coherent hbuilt.valid.coherent hbuilt.grown
    have hb₁ (x : OutputId) (hx : x ∈ b) : ∃ out, g₁.output? x = some out := by
      rw [hres.output?]
      exact hb x hx
    have hrest := @ih g₁ (hres.valid hv) hb₁ ((hres.output? _).trans ha) (w.runs ++ runs)
    cases built with
    | error e =>
      simp only [hd, ok_bind] at h
      exact .cons hr hv hb ⟨w, .error e, hi, fun o ho => nomatch ho⟩ hres (hrest h)
    | ok o =>
      -- A port that was built for the purpose is not the anchor.
      have hneo : o ≠ anchor.id := by
        rcases (hbuilt.offers rfl).drawn o (by simp) with hnew | hmem
        · rintro rfl
          exact Nat.not_lt.2 hnew (lt_of_output? ha)
        · exact hne o hmem
      obtain ⟨port, hport, h⟩ := bind_eq_ok.1 h
      rw [output_eq_ok] at hport
      split at h
      · rename_i hfit
        cases h
        exact .accepted _ (.refl hv.coherent) List.mem_cons_self hi rfl hport hneo hfit.2.1
          hfit.2.2 rfl ⟨[], ps, rfl, by simp⟩ rfl
      · rename_i hfit
        simp only [hd, ok_bind] at h
        refine .cons hr hv hb ⟨w, .ok o, hi, ?_⟩ hres (hrest h)
        rintro o ⟨⟩
        refine ⟨port, hport, ?_⟩
        by_contra hboth
        rw [not_or, not_not, not_not] at hboth
        exact hfit ⟨hneo, hboth⟩

/-- The anchor of a rule is an output of the node that something uses. -/
theorem anchor?_eq_ok {s : Signature} {rule : Rule} (hg : g.Coherent)
    (h : anchor? g s n rule = .ok (some anchor)) :
    g.output? anchor.id = some anchor ∧ anchor.node = n ∧ anchor.consumers ≠ [] := by
  unfold anchor? at h
  split at h
  · split at h
    · cases h
    · simp only [port, bind_eq_ok, node_eq_ok, output_eq_ok, pure_eq_ok] at h
      obtain ⟨o, ⟨node, hn, ho⟩, port, hport, h⟩ := h
      split at ho
      · rename_i o' ho'
        cases ho
        split at h
        · cases h
        · rename_i hc
          cases h
          have hid := hg.output_id hport
          have hm := (hg.mem_outputs hn).1 (List.mem_of_getElem? ho')
          obtain ⟨p, hp, rfl⟩ := maker?_eq_some.1 hm
          obtain rfl := Option.some.inj (hport.symm.trans hp)
          exact ⟨hid ▸ hport, rfl, by simpa using hc⟩
      · cases ho
  · cases h

theorem anchor?_same (hs : Same g g') (s : Signature) (rule : Rule) :
    anchor? g' s n rule = anchor? g s n rule := by
  simp only [anchor?, port, hs.node, hs.output]

/-- What a rule that was checked binds at its anchor. -/
theorem bound_of_matchAt {rule : Rule} (hv : g.Valid env.registry)
    (hc : rule.Checked env.registry) (ha : g.output? anchor.id = some anchor)
    (hm : rule.input.matchAt g anchor.id = .ok (some b)) :
    (∀ x ∈ b, ∃ out, g.output? x = some out) ∧ ∀ x ∈ b, x ≠ anchor.id := by
  obtain ⟨bound, hin, -⟩ := hc.patterns
  have hmk : g.maker? anchor.id = some anchor.node := maker?_eq_some.2 ⟨anchor, ha, rfl⟩
  obtain ⟨-, hb⟩ := Pattern.matchAt_spec hv hc.isCall hmk hm hin
  refine ⟨fun x hx => ?_, fun x hx => (hb x hx).2.1⟩
  obtain ⟨⟨m, hm, -⟩, -⟩ := hb x hx
  obtain ⟨out, hout, -⟩ := maker?_eq_some.1 hm
  exact ⟨out, hout⟩

/-- A rule has nothing to do at a call: nothing uses its anchor, it does not match, or it may be
applied and none of its alternatives fits. -/
def Idle (env : Environment) (allowed : Bool) (s : Signature) (n : NodeId)
    (location : Option Location) (g : Graph) (rule : Rule) : Prop :=
  ∃ anchor, anchor? g s n rule = .ok anchor ∧ ∀ port, anchor = some port →
    ∃ found, rule.input.matchAt g port.id = .ok found ∧ ∀ b, found = some b →
      allowed = true ∧ ∀ p ∈ rule.outputs, Rejected env b port location g p

theorem Idle.same {allowed : Bool} {s : Signature} {rule : Rule} (hr : env.registry.Reached)
    (hv : g.Valid env.registry) (hc : rule.Checked env.registry) (hg' : g'.Coherent)
    (hs : Same g g') (h : Idle env allowed s n location g rule) :
    Idle env allowed s n location g' rule := by
  obtain ⟨anchor, ha, h⟩ := h
  refine ⟨anchor, (anchor?_same hs s rule).trans ha, ?_⟩
  rintro port rfl
  obtain ⟨found, hm, h⟩ := h port rfl
  refine ⟨found, (Pattern.matchFrom_same hv.coherent hv.acyclic hg' hs _ _ _).trans hm, ?_⟩
  rintro b rfl
  obtain ⟨hallow, hrej⟩ := h b rfl
  obtain ⟨hlive, -⟩ := bound_of_matchAt hv hc (anchor?_eq_ok hv.coherent ha).1 hm
  exact ⟨hallow, fun p hp => (hrej p hp).same hr hv hg' hs hlive⟩

/-- What comes of visiting a call `n` of a graph. The rules before the one that was applied, or that
came to the limit, have nothing to do there. -/
inductive Visited (env : Environment) (rules : List Rule) (allowed : Bool) (s : Signature)
    (n : NodeId) (location : Option Location) (g g' : Graph) : Visit → Prop where
  | unchanged (restored : Restored g g')
    (idle : ∀ rule ∈ rules, Idle env allowed s n location g rule) :
    Visited env rules allowed s n location g g' .unchanged
  | limited {rule : Rule} {before after : List Rule} {anchor : OutputPort} {b : Bindings}
    (forbidden : allowed = false) (restored : Restored g g')
    (split : rules = before ++ rule :: after)
    (idle : ∀ q ∈ before, Idle env allowed s n location g q)
    (anchored : anchor? g s n rule = .ok (some anchor))
    (matched : rule.input.matchAt g anchor.id = .ok (some b)) :
    Visited env rules allowed s n location g g' (.limited rule.name)
  | rewritten {g₁ : Graph} {rule : Rule} {before after : List Rule} (requeue : List NodeId)
    (allow : allowed = true) (restored : Restored g g₁) (split : rules = before ++ rule :: after)
    (idle : ∀ q ∈ before, Idle env allowed s n location g q) (rewrite : Rewrite env rule n g₁ g') :
    Visited env rules allowed s n location g g' (.rewritten rule.name rewrite.removed requeue)

theorem commit_eq_ok {depths : Depths} {r : Replacement} {out out' : OutputPort} {removed : Nat}
    {requeue : List NodeId} {a : OutputId} (hg : g.Coherent) (ha : g.output? a = some out)
    (hp : g.output? r.port = some out') (hne : r.port ≠ a)
    (h : commit depths g n a r = .ok (g', removed, requeue)) :
    ∃ g₁, Redirected g a r.port g₁ ∧ g₁.collectFrom [n] = .ok (g', removed) := by
  obtain ⟨g₁, hred, hrd⟩ := redirect_spec hg hne.symm ha hp
  simp only [commit, hred, ok_bind] at h
  obtain ⟨⟨g₂, k⟩, hc, h⟩ := bind_eq_ok.1 h
  obtain ⟨port, -, h⟩ := bind_eq_ok.1 h
  obtain ⟨requeue, -, h⟩ := bind_eq_ok.1 h
  cases h
  exact ⟨g₁, hrd, hc⟩

theorem Visited.cons {rule : Rule} {rules : List Rule} {allowed : Bool} {s : Signature}
    {g₁ : Graph} {v : Visit} (hr : env.registry.Reached) (hv : g.Valid env.registry)
    (hrules : ∀ rule ∈ rules, rule.Checked env.registry) (hres : Restored g g₁)
    (hidle : Idle env allowed s n location g rule)
    (h : Visited env rules allowed s n location g₁ g' v) :
    Visited env (rule :: rules) allowed s n location g g' v := by
  have hback {l : List Rule} (hl : ∀ q ∈ l, q ∈ rules)
      (h : ∀ q ∈ l, Idle env allowed s n location g₁ q) :
      ∀ q ∈ rule :: l, Idle env allowed s n location g q :=
    List.forall_mem_cons.2 ⟨hidle, fun q hq => (h q hq).same hr (hres.valid hv)
      (hrules q (hl q hq)) hv.coherent hres.symm⟩
  cases h with
  | unchanged restored idle =>
    exact .unchanged (hres.trans restored) (hback (fun _ hq => hq) idle)
  | limited forbidden restored split idle anchored matched =>
    rw [anchor?_same hres.toSame] at anchored
    rw [Pattern.matchAt, Pattern.matchFrom_same hv.coherent hv.acyclic hres.coherent
      hres.toSame] at matched
    exact .limited forbidden (hres.trans restored) (congrArg (rule :: ·) split)
      (hback (fun q hq => by simp [split, hq]) idle) anchored matched
  | rewritten requeue allow restored split idle rewrite =>
    exact .rewritten requeue allow (hres.trans restored) (congrArg (rule :: ·) split)
      (hback (fun q hq => by simp [split, hq]) idle) rewrite

@[simp] theorem graph_warn (s : Rewriting) (rule : String) (anchor : OutputPort)
    (location : Option Location) : (s.warn rule anchor location).graph = s.graph := by
  unfold warn
  split <;> rfl

/-- An anchor that is as it was can be reported. -/
theorem askWarn_eq {rule : String} {runs : List Preparation} {warned : List (String × OutputId)}
    {diagnostics : List Diagnostic} (ha : g.output? anchor.id = some anchor) :
    askWarn ⟨g, runs, warned, diagnostics⟩ rule anchor.id location =
      .ok (warn ⟨g, runs, warned, diagnostics⟩ rule anchor location) := by
  unfold askWarn
  split
  · rename_i hmem
    rw [warn, if_pos hmem]
    rfl
  · rw [output_eq_ok.2 ha]
    rfl

/-- An alternative that was built takes the place of the anchor. -/
theorem exists_rewrite {rule : Rule} {p : Pattern} {w : Workspace} {r : Replacement}
    {port : OutputPort} {g₁ g₂ : Graph} {removed : Nat} (hw : w.graph.Coherent)
    (ha : g.output? anchor.id = some anchor) (hnode : anchor.node = n)
    (hused : anchor.consumers ≠ []) (hm : rule.input.matchAt g anchor.id = .ok (some b))
    (mem : p ∈ rule.outputs)
    (built : p.instantiate env b location { graph := g } = .ok (w, .ok r.port))
    (live : w.graph.output? r.port = some port) (ne : r.port ≠ anchor.id)
    (type : port.type = anchor.type) (latency : port.latency = anchor.latency)
    (hred : Redirected w.graph anchor.id r.port g₁)
    (hcol : g₁.collectFrom [n] = .ok (g₂, removed)) :
    ∃ made : Rewrite env rule n g g₂, made.redirected = g₁ ∧ made.removed = removed ∧
      made.port.id = r.port ∧ made.anchor = anchor ∧ made.workspace = w := by
  have hid : port.id = r.port := hw.output_id live
  exact ⟨{
    anchor := anchor
    bindings := b
    alternative := p
    location := location
    workspace := w
    port := port
    redirected := g₁
    removed := removed
    anchor_live := ha
    anchor_node := hnode
    anchor_used := hused
    matched := hm
    mem := mem
    built := hid ▸ built
    port_live := hid ▸ live
    ne := hid ▸ ne
    type := type
    latency := latency
    redirect := hid ▸ hred
    collect := hcol }, rfl, rfl, hid, rfl, rfl⟩

theorem tryRules_spec {depths : Depths} {allowed : Bool} {sig : Signature} {s s' : Rewriting}
    {v : Visit} (hr : env.registry.Reached) (hv : s.graph.Valid env.registry) (rules : List Rule)
    (hrules : ∀ rule ∈ rules, rule.Checked env.registry)
    (h : tryRules env depths allowed sig n location s rules = .ok (s', v)) :
    Visited env rules allowed sig n location s.graph s'.graph v := by
  induction rules generalizing s with
  | nil =>
    cases h
    exact .unchanged (.refl hv.coherent) (by simp)
  | cons rule rules ih =>
    obtain ⟨hc, hrules⟩ := List.forall_mem_cons.1 hrules
    simp only [tryRules] at h
    obtain ⟨anchor, ha, h⟩ := bind_eq_ok.1 h
    cases anchor with
    | none =>
      refine .cons hr hv hrules (.refl hv.coherent) ⟨none, ha, fun port hp => nomatch hp⟩ ?_
      exact ih hv hrules h
    | some anchor =>
      obtain ⟨hlive, hnode, hused⟩ := anchor?_eq_ok hv.coherent ha
      obtain ⟨found, hm, h⟩ := bind_eq_ok.1 h
      cases found with
      | none =>
        have hidle : Idle env allowed sig n location s.graph rule := by
          refine ⟨some anchor, ha, ?_⟩
          rintro port ⟨⟩
          exact ⟨none, hm, fun b hb => nomatch hb⟩
        exact .cons hr hv hrules (.refl hv.coherent) hidle (ih hv hrules h)
      | some b =>
        obtain ⟨hblive, hbne⟩ := bound_of_matchAt hv hc hlive hm
        cases allowed with
        | false =>
          cases h
          exact .limited rfl (.refl hv.coherent) (List.nil_append _).symm (by simp) ha hm
        | true =>
          simp only [Bool.not_true, Bool.false_eq_true, if_false] at h
          obtain ⟨⟨g₁, runs₁, found⟩, hrep, h⟩ := bind_eq_ok.1 h
          have htried := replace_spec hr hv hblive hbne hlive rule.outputs hrep
          cases htried with
          | rejected restored all =>
            have hidle : Idle env true sig n location s.graph rule := by
              refine ⟨some anchor, ha, ?_⟩
              rintro port ⟨⟩
              refine ⟨some b, hm, ?_⟩
              rintro b ⟨⟩
              exact ⟨rfl, all⟩
            have hv₁ : g₁.Valid env.registry := restored.valid hv
            simp only [askWarn_eq ((restored.output? _).trans hlive), ok_bind] at h
            have hrest := ih
              (s := warn ⟨g₁, runs₁, s.warned, s.diagnostics⟩ rule.name anchor location)
              (by simpa using hv₁) hrules h
            rw [graph_warn] at hrest
            exact .cons hr hv hrules restored hidle hrest
          | @accepted g₂ w p port r restored mem built graph live ne type latency =>
            subst graph
            obtain ⟨⟨g₃, removed, requeue⟩, hcommit, h⟩ := bind_eq_ok.1 h
            cases h
            have hm₂ := (Pattern.matchFrom_same hv.coherent hv.acyclic restored.coherent
              restored.toSame [] anchor.id rule.input).trans hm
            have hlive₂ := (restored.output? _).trans hlive
            have hblive₂ := (bound_of_matchAt (restored.valid hv) hc hlive₂ hm₂).1
            have hbuilt := Pattern.instantiate_spec (w := { graph := g₂ }) hr (restored.valid hv)
              hblive₂ p built
            obtain ⟨out, hout, -⟩ := hbuilt.grown.output?_isSome hlive₂
            obtain ⟨g₁, hred, hcol⟩ := commit_eq_ok hbuilt.valid.coherent hout live ne hcommit
            obtain ⟨made, -, rfl, -⟩ := exists_rewrite hbuilt.valid.coherent hlive₂ hnode hused hm₂
              mem built live ne type latency hred hcol
            exact .rewritten requeue rfl restored (List.nil_append _).symm (by simp) made

/-- Visiting a node that is no call does nothing. -/
theorem visit_spec {rules : RuleSet} {allowed : Bool} {s s' : Rewriting} {v : Visit}
    (hr : env.registry.Reached) (hv : s.graph.Valid env.registry)
    (hrules : ∀ rule ∈ rules.ordered, rule.Checked env.registry)
    (h : visit env rules allowed s n = .ok (s', v)) :
    ∃ node, s.graph.node? n = some node ∧
      ((node.kind.isCall = false ∧ s' = s ∧ v = .unchanged) ∨
        ∃ sig factor latency, node.kind = .call sig factor latency ∧
          Visited env (rules.rootedAt sig.id) allowed sig n node.location s.graph s'.graph v) := by
  simp only [visit, bind_eq_ok, node_eq_ok] at h
  obtain ⟨node, hn, h⟩ := h
  refine ⟨node, hn, ?_⟩
  split at h
  · rename_i sig factor latency hk
    refine .inr ⟨sig, factor, latency, hk, tryRules_spec hr hv _ (fun rule hrule => ?_) h⟩
    exact hrules rule (List.mem_filter.1 hrule).1
  · rename_i hk
    cases h
    refine .inl ⟨?_, rfl, rfl⟩
    cases hkind : node.kind with
    | call sig factor latency => exact absurd hkind (hk sig factor latency)
    | _ => rfl

end Rewriting

end SignalGraph
