import SignalGraph.Proofs.Exchange
import SignalGraph.Proofs.SafeRewriting

/-!
# Calls that are planned again

After optimizing, other ports feed a call than those it was planned for when it was added. They have
the same types and latencies, so the call still suits them (`Reaches.suitedCalls`). Whether planning
it again gives the same plan depends on the arrays among them: it does if their elements are equally
late, and is refused otherwise (`optimize_replans`).

An array with the right latency and uneven elements can only come from an alternative that is an
array itself. With rules that have none, every call can be planned again (`Reaches.evenCalls`). An
example of such a rule, and of a call that it spoils, is at the end (`Spread`).
-/

namespace SignalGraph

open SignalGraph.Graph

/-! ## Where calls come from -/

/-- While `w` was built on `g`, the call `n` was planned with `p` and added. -/
inductive Added (env : Environment) (g w : Graph) (n : NodeId) (s : Signature) (factor : Nat)
    (p : CallPlan) : Prop where
  | intro {h h' : Graph} {before after : List Preparation} {module : ModuleId}
    {arguments : List OutputId} {location : Option Location} {run : Option Preparation}
    {c : Call.Ready} : Additions env g before h →
    Call.ready env h module factor arguments location = .ok ⟨run, .ok c⟩ →
    c.insert h factor arguments location = .ok (h', n) → Additions env h' after w →
    c.signature = s → c.plan = p → Added env g w n s factor p

section Added

variable {env : Environment} {g g' w w' : Graph} {n : NodeId} {node : Node} {s : Signature}
  {factor latency : Nat} {arguments : List OutputId} {p : CallPlan} {runs : List Preparation}

theorem Added.snoc (h : Added env g w n s factor p) (hstep : Addition env w runs w') :
    Added env g w' n s factor p := by
  obtain ⟨hbefore, hready, hins, hafter, hs, hp⟩ := h
  exact ⟨hbefore, hready, hins, hafter.snoc hstep, hs, hp⟩

theorem Graph.Inserted.node?_cases {kind : Kind} {location : Option Location}
    {sources : List OutputId} {results : List (DataType × Nat)}
    (h : Inserted g kind location sources results g') (hn : g'.node? n = some node) :
    g.node? n = some node ∨ n = g.nextNode ∧ node.kind = kind := by
  rw [h.node?] at hn
  split at hn
  · cases hn
    exact .inr ⟨‹_›, rfl⟩
  · exact .inl hn

/-- A call was there before, or it was planned for and added. -/
theorem Addition.call_cases (hg : g.Coherent) (h : Addition env g runs g')
    (hn : g'.node? n = some node) (hk : node.kind = .call s factor latency) :
    g.node? n = some node ∨ ∃ module arguments location run c,
      Call.ready env g module factor arguments location = .ok ⟨run, .ok c⟩ ∧
      c.insert g factor arguments location = .ok (g', n) ∧ c.signature = s ∧
      g'.CallAt n s factor latency arguments ∧ Call.Planned g' s factor arguments c.plan := by
  cases h with
  | plain hcall _ _ h =>
    refine ((inserted_of_insert hg h).2.node?_cases hn).imp_right fun ⟨_, hkind⟩ => ?_
    rw [← hkind, hk] at hcall
    cases hcall
  | array _ h =>
    refine ((inserted_of_insert hg h).2.node?_cases hn).imp_right fun ⟨_, hkind⟩ => ?_
    cases hk.symm.trans hkind
  | @call _ module factor' arguments location run c m hready h =>
    obtain ⟨latency', -, hins⟩ := bind_eq_ok.1 h
    obtain ⟨results, -, hins⟩ := bind_eq_ok.1 hins
    obtain ⟨rfl, hi⟩ := inserted_of_insert hg hins
    refine (hi.node?_cases hn).imp_right fun ⟨hnew, hkind⟩ => ?_
    cases hk.symm.trans hkind
    subst hnew
    obtain ⟨hplan, -⟩ := Call.planned_of_ready hready rfl
    exact ⟨module, arguments, location, run, c, hready, h, rfl, hi.callAt,
      hplan.grown hg (hi.grown hg)⟩
  | surface _ => exact .inl hn

/-- A planned call stays as it is. -/
theorem Addition.planned (hg : g.Coherent) (h : Addition env g runs g')
    (hc : g.CallAt n s factor latency arguments) (hp : Call.Planned g s factor arguments p) :
    g'.CallAt n s factor latency arguments ∧ Call.Planned g' s factor arguments p := by
  rcases h.inserted hg with ⟨kind, location, sources, results, hi, -⟩ | ⟨surface, rfl⟩
  · exact ⟨hc.grown hg (hi.grown hg), hp.grown hg (hi.grown hg)⟩
  · exact ⟨hc, hp.withSurface surface⟩

theorem Additions.call_cases (hg : g.Coherent) (h : Additions env g runs w)
    (hn : w.node? n = some node) (hk : node.kind = .call s factor latency) :
    g.node? n = some node ∨ ∃ arguments p, w.CallAt n s factor latency arguments ∧
      Call.Planned w s factor arguments p ∧ Added env g w n s factor p := by
  induction h with
  | nil => exact .inl hn
  | snoc hs hstep ih =>
    have hg₁ := hs.coherent hg
    rcases hstep.call_cases hg₁ hn hk with hn₁ | ⟨_, _, _, _, c, hready, hins, hsig, hc, hp⟩
    · refine (ih hn₁).imp_right fun ⟨arguments, p, hc, hp, hadded⟩ => ?_
      obtain ⟨hc', hp'⟩ := hstep.planned hg₁ hc hp
      exact ⟨arguments, p, hc', hp', hadded.snoc hstep⟩
    · exact .inr ⟨_, c.plan, hc, hp, hs, hready, hins, .nil, hsig, rfl⟩

end Added

/-! ## Calls that suit what feeds them -/

/-- Every call suits what feeds it, for a plan that is known to be its plan. -/
def SuitedCalls (known : NodeId → Signature → Nat → CallPlan → Prop) (g : Graph) : Prop :=
  ∀ n node s factor latency, g.node? n = some node → node.kind = .call s factor latency →
    ∃ arguments p, g.CallAt n s factor latency arguments ∧ Call.Suits g s factor arguments p ∧
      known n s factor p

section SuitedCalls

variable {known known' : NodeId → Signature → Nat → CallPlan → Prop} {b : List OutputId}
  {g g' : Graph}

theorem SuitedCalls.mono (h : SuitedCalls known g)
    (hi : ∀ n s factor p, known n s factor p → known' n s factor p) : SuitedCalls known' g := by
  intro n node s factor latency hn hk
  obtain ⟨arguments, p, hc, hs, hp⟩ := h n node s factor latency hn hk
  exact ⟨arguments, p, hc, hs, hi n s factor p hp⟩

/-- A call that is still there suits the ports that feed it now. -/
theorem SuitedCalls.of_exchanged (hx : Exchanged b g g') (h : SuitedCalls known g) {n : NodeId}
    {node : Node} {s : Signature} {factor latency : Nat} (hn : g.node? n = some node)
    (hn' : g'.node? n = some node) (hk : node.kind = .call s factor latency) :
    ∃ arguments p, g'.CallAt n s factor latency arguments ∧ Call.Suits g' s factor arguments p ∧
      known n s factor p := by
  obtain ⟨arguments, p, hc, hs, hp⟩ := h n node s factor latency hn hk
  obtain ⟨arguments', hc', hinstead⟩ := hx.callAt hc hn'
  exact ⟨arguments', p, hc', hs.like (hinstead.imp fun _ _ hi => hi.2), hp⟩

theorem SuitedCalls.follows (hf : Follows b g g') (h : SuitedCalls known g) :
    SuitedCalls known g' :=
  fun _ _ _ _ _ hn hk => h.of_exchanged hf.toExchanged (hf.old hn) hn hk

end SuitedCalls

/-! ## Rewrites -/

/-- Whether a pattern stands for an array of its own. -/
def Pattern.isArray : Pattern → Bool
  | .array _ => true
  | _ => false

theorem Graph.Coherent.maker?_of_port {g : Graph} (hg : g.Coherent) {n : NodeId} {k : Nat}
    {o : OutputId} (h : g.port n k = .ok o) : g.maker? o = some n := by
  obtain ⟨node, hn, h⟩ := bind_eq_ok.1 h
  rw [node_eq_ok] at hn
  split at h
  · rename_i o' ho
    cases h
    exact (hg.mem_outputs hn).1 (List.mem_of_getElem? ho)
  · cases h

theorem Graph.Inserted.even {g g' : Graph} {kind : Kind} {location : Option Location}
    {sources : List OutputId} {results : List (DataType × Nat)} {k : Nat} {o : OutputId}
    (h : Inserted g kind location sources results g') (hk : kind.isArray = false)
    (ho : g'.port g.nextNode k = .ok o) : g'.Even o := by
  have hn := h.node? g.nextNode
  rw [if_pos rfl] at hn
  exact even_of_not_isArray (h.coherent.maker?_of_port ho) hn hk

/-- A pattern that is no array gives a port that is bound or even. -/
theorem Pattern.instantiate_even {env : Environment} {b : Bindings} {location : Option Location}
    {w w' : Workspace} {o : OutputId} (hr : env.registry.Reached)
    (hv : w.graph.Valid env.registry) (hb : ∀ o ∈ b, ∃ out, w.graph.output? o = some out)
    {p : Pattern} (hp : p.isArray = false) (h : instantiate env b location w p = .ok (w', .ok o)) :
    o ∈ b ∨ w'.graph.Even o := by
  cases p with
  | call module factor place children =>
    simp only [instantiate] at h
    split at h
    · cases h
    · rename_i s hs
      obtain ⟨⟨w₁, r₁⟩, ha, h⟩ := bind_eq_ok.1 h
      have hbuilt := instantiateArguments_spec hr hv hb _ children ha
      cases r₁ with
      | error e => cases h
      | ok arguments =>
        rcases instantiateCall_eq_ok hr hbuilt.valid.coherent hs h with ⟨e, ⟨⟩, -⟩ |
          ⟨latency, results, k, o, ⟨⟩, -, -, -, hi, ho⟩
        exact .inr (hi.even rfl ho)
  | literal value =>
    obtain ⟨o, ⟨⟩, hi, ho⟩ := instantiate_literal hv.coherent h
    exact .inr (hi.even rfl ho)
  | array elements => cases hp
  | slot k =>
    simp only [instantiate, bind_eq_ok, get_eq_ok, pure_eq_ok] at h
    obtain ⟨o, ho, h⟩ := h
    cases h
    exact .inl (List.mem_of_getElem? ho)
  | wildcard _ => cases h
  | result => cases h
  | ellipsis => cases h

namespace Rewrite

variable {env : Environment} {rule : Rule} {n : NodeId} {g g' : Graph}

section

variable (r : Rewrite env rule n g g')

theorem additions : ∃ runs, Additions env g runs r.workspace.graph :=
  Pattern.instantiate_additions (w := { graph := g }) r.alternative r.built

theorem workspace_arrays (hg : g.Coherent) (harr : g.Arrays) : r.workspace.graph.Arrays := by
  obtain ⟨runs, hadd⟩ := r.additions
  exact hadd.arrays hg harr

variable (hr : env.registry.Reached) (hv : g.Valid env.registry)
  (hc : rule.Checked env.registry)

include r hr hv hc

/-- The port takes the place of the anchor, and garbage goes. -/
theorem follows : Follows [r.port.id] r.workspace.graph g' := by
  have hb := r.built_spec hv hc hr
  obtain ⟨out, hout, hbare⟩ := hb.grown.output?_isSome r.anchor_live
  simp only [OutputPort.bare, OutputPort.mk.injEq] at hbare
  obtain ⟨-, -, ht, hla, -⟩ := hbare
  have hred := r.redirect.follows hb.valid.coherent hout r.port_live (r.type.trans ht.symm)
    (r.latency.trans hla.symm)
  exact hred.trans (r.collected.1.follows r.redirect.coherent)

/-- Rewrites leave the arrays as they are. -/
theorem arrays (harr : g.Arrays) : g'.Arrays :=
  (r.workspace_arrays hv.coherent harr).follows (r.follows hr hv hc)

/-- After a rewrite, calls suit what feeds them with the plans they had, and new calls with those
they were added with. -/
theorem suitedCalls {known : NodeId → Signature → Nat → CallPlan → Prop} (harr : g.Arrays)
    (h : SuitedCalls known g) : SuitedCalls (fun m s factor p => known m s factor p ∨
      Added env g r.workspace.graph m s factor p) g' := by
  have hb := r.built_spec hv hc hr
  obtain ⟨runs, hadd⟩ := r.additions
  refine SuitedCalls.follows (r.follows hr hv hc) fun m node s factor latency hm hk => ?_
  rcases hadd.call_cases hv.coherent hm hk with hold | ⟨arguments, p, hcall, hp, hadded⟩
  · have hx : Exchanged [] g r.workspace.graph := hb.grown.exchanged hv.coherent
    obtain ⟨arguments, p, hcall, hs, hp⟩ := h.of_exchanged hx hold hm hk
    exact ⟨arguments, p, hcall, hs, .inl hp⟩
  · exact ⟨arguments, p, hcall,
      hp.suits hb.valid.coherent (r.workspace_arrays hv.coherent harr), .inr hadded⟩

/-- A rewrite with an alternative that is no array leaves everything even that feeds a call. -/
theorem evenCalls (halt : r.alternative.isArray = false) (harr : g.Arrays) (h : g.EvenCalls) :
    g'.EvenCalls := by
  have hb := r.built_spec hv hc hr
  have hw := hb.valid.coherent
  have hx : Exchanged [] g r.workspace.graph := hb.grown.exchanged hv.coherent
  have hf := r.follows hr hv hc
  obtain ⟨runs, hadd⟩ := r.additions
  have hcalls : r.workspace.graph.EvenCalls := by
    intro m node hm hk a ha
    obtain ⟨s, factor, latency, hkind⟩ := Kind.isCall_iff.1 hk
    rcases hadd.call_cases hv.coherent hm hkind with hold | ⟨arguments, p, hcall, hp, -⟩
    · rw [hb.grown.feeders hv.coherent hold] at ha
      obtain ⟨port, hport⟩ := hv.coherent.feeders_live ha
      exact (h m node hold hk a ha).exchanged hv.coherent hx hport
    · rw [hcall.feeders hm] at ha
      exact hp.even hw (r.workspace_arrays hv.coherent harr) a ha
  -- A bound port is inside of the match, where all is even.
  have hport : r.workspace.graph.Even r.port.id := by
    rcases Pattern.instantiate_even (w := { graph := g }) hr hv (r.bound_live hv hc) halt r.built
      with hmem | heven
    · obtain ⟨port, hlive⟩ := r.bound_live hv hc _ hmem
      exact ((r.bound_upstream hv hc hmem).2.2.even harr h).exchanged hv.coherent hx hlive
    · exact heven
  refine hcalls.follows hw hf fun o ho => ?_
  obtain rfl := List.mem_singleton.1 ho
  exact hport.exchanged hw hf.toExchanged r.port_live

end

end Rewrite

/-! ## Runs -/

/-- The call `n` of `g'` was planned with `p` when it was added: while `g` was built, or for a
rewrite on the way from `g` to `g'`. -/
inductive AddedWith (env : Environment) (rules : RuleSet) (g g' : Graph) (n : NodeId)
    (s : Signature) (factor : Nat) (p : CallPlan) : Prop where
  | built : Added env {} g n s factor p → AddedWith env rules g g' n s factor p
  | rewritten {g₀ g₁ g₂ : Graph} {rule : Rule} {m : NodeId} (r : Rewrite env rule m g₁ g₂) :
    Pruned g g₀ → Reaches env rules g₀ g₁ → rule ∈ rules.ordered →
    Added env g₁ r.workspace.graph n s factor p → Reaches env rules g₂ g' →
    AddedWith env rules g g' n s factor p

section Runs

variable {env : Environment} {rules : RuleSet} {g g₀ g₁ g₂ g' : Graph} {n : NodeId} {s : Signature}
  {factor : Nat} {p : CallPlan}

theorem AddedWith.trans (h : AddedWith env rules g g₁ n s factor p)
    (hreach : Reaches env rules g₁ g₂) : AddedWith env rules g g₂ n s factor p := by
  cases h with
  | built h => exact .built h
  | rewritten r hp hto hm hadded hfrom =>
    exact .rewritten r hp hto hm hadded (hfrom.trans hreach)

namespace Reaches

variable (hr : env.registry.Reached) (hrules : ∀ rule ∈ rules.ordered, rule.Checked env.registry)
  (hv : g₀.Valid env.registry) (harr : g₀.Arrays)

include hr hrules hv harr

theorem arrays (h : Reaches env rules g₀ g') : g'.Arrays := by
  induction h with
  | refl => exact harr
  | restore hreach hs ih =>
    exact ih.follows (b := []) (hs.follows (hreach.valid hr hrules hv).coherent)
  | rewrite hreach hm hrw ih =>
    exact hrw.arrays hr (hreach.valid hr hrules hv) (hrules _ hm) ih

/-- Along a run, calls suit what feeds them with the plans they were added with. -/
theorem suitedCalls (hp : Pruned g g₀) (hcalls : SuitedCalls (AddedWith env rules g g₀) g₀)
    (h : Reaches env rules g₀ g') : SuitedCalls (AddedWith env rules g g') g' := by
  induction h with
  | refl => exact hcalls
  | restore hreach hs ih =>
    have hf := hs.follows (b := []) (hreach.valid hr hrules hv).coherent
    exact (ih.follows hf).mono fun _ _ _ _ hk => hk.trans (.restore .refl hs)
  | rewrite hreach hm hrw ih =>
    refine (hrw.suitedCalls hr (hreach.valid hr hrules hv) (hrules _ hm)
      (hreach.arrays hr hrules hv harr) ih).mono fun m s factor p hk => ?_
    rcases hk with hk | hadded
    · exact hk.trans (.rewrite .refl hm hrw)
    · exact .rewritten hrw hp hreach hm hadded .refl

/-- Without alternatives that are arrays, all that feeds calls stays even along a run. -/
theorem evenCalls (halt : ∀ rule ∈ rules.ordered, ∀ q ∈ rule.outputs, q.isArray = false)
    (heven : g₀.EvenCalls) (h : Reaches env rules g₀ g') : g'.EvenCalls := by
  induction h with
  | refl => exact heven
  | restore hreach hs ih =>
    have hg := (hreach.valid hr hrules hv).coherent
    exact ih.follows (b := []) hg (hs.follows hg) nofun
  | rewrite hreach hm hrw ih =>
    exact hrw.evenCalls hr (hreach.valid hr hrules hv) (hrules _ hm)
      (halt _ hm _ hrw.mem) (hreach.arrays hr hrules hv harr) ih

end Reaches

/-- In a graph that was built, calls suit what feeds them, and all that feeds them is even. -/
theorem Additions.suitedCalls {runs : List Preparation} (h : Additions env {} runs g) :
    SuitedCalls (fun n s factor p => Added env {} g n s factor p) g ∧ g.EvenCalls := by
  have hg : g.Coherent := h.coherent .empty
  have harr : g.Arrays := h.arrays .empty Arrays.empty
  constructor
  · intro n node s factor latency hn hk
    obtain ⟨arguments, p, hc, hp, hadded⟩ := (h.call_cases .empty hn hk).resolve_left nofun
    exact ⟨arguments, p, hc, hp.suits hg harr, hadded⟩
  · intro n node hn hk a ha
    obtain ⟨s, factor, latency, hkind⟩ := Kind.isCall_iff.1 hk
    obtain ⟨arguments, p, hc, hp, -⟩ := (h.call_cases .empty hn hkind).resolve_left nofun
    exact hp.even hg harr a (hc.feeders hn ▸ ha)

end Runs

/-! ## A rule that spoils a call

A delayed signal is spread into an array, and one element of the array is taken. The rule makes the
array of the signal before and after the delay. Its latency is that of the delayed signal, so the
rule is applied, but not all of its elements are as late. -/

namespace Spread

def delay : Signature := .unary 1 "delay"

def spread : Signature where
  id := .ofNat 2
  name := "spread"
  parameters := [.float "x" .input, .float "xs" .output .varying 1 true]
  returnParameter := some 1

def pick : Signature where
  id := .ofNat 3
  name := "pick"
  parameters :=
    [.float "xs" .input .varying 1 true,
     ⟨"k", .input, { primitive := .int, mutability := .constant }⟩, .float "x" .output]
  returnParameter := some 2

def env : Environment where
  registry :=
    { modules :=
        [(delay.id, .hosted delay (.fixed 8)), (spread.id, .hosted spread (.fixed 0)),
         (pick.id, .hosted pick (.fixed 0))]
      names := [("pick", pick.id), ("spread", spread.id), ("delay", delay.id)] }
  settings := {}

def rule : Rule where
  name := "early"
  input := .call spread.id 1 1 [.call delay.id 1 1 [.wildcard false, .result], .result]
  outputs := [.array [.call delay.id 1 1 [.slot 0, .result], .slot 0]]

def rules : RuleSet where
  rules := [rule]
  ordered := [rule]
  depths := .ofRules [rule]

def program : Description where
  inputs := [{ name := "in", type := { primitive := .float } }]
  entries :=
    [{ name := "a", kind := .call "delay" 1 ["in"] },
     { name := "b", kind := .call "spread" 1 ["a"] },
     { name := "k", kind := .constant (.int 0) },
     { name := "c", kind := .call "pick" 1 ["b", "k"] }]
  outputs := [{ name := "out", type := { primitive := .float }, source := "c" }]

theorem reached : env.registry.Reached :=
  ((Registry.Reached.empty.insert (m := .hosted delay (.fixed 8)) rfl).insert
    (m := .hosted spread (.fixed 0)) rfl).insert (m := .hosted pick (.fixed 0)) rfl

theorem make_rules : RuleSet.make env.registry [rule] = .ok rules := by
  cbv

/-- The kind of the last call, what feeds it, and what comes of planning it. -/
def replan (g : Graph) :
    Option (Kind × List OutputId × Except Fault (Except BuildError CallPlan)) :=
  (g.node? ⟨4⟩).map fun node =>
    (node.kind, g.feeders node, (Call.plan g pick 1 (g.feeders node)).run)

/-- How many rewrites optimizing makes, and what comes of the last call before and after. -/
def summary (d : Description) :=
  match d.build env with
  | .ok (_, .ok g) =>
    match Rewriting.optimize env rules g with
    | .ok (t, .ok report) => some (report.rewrites, replan g, replan t.graph)
    | _ => none
  | _ => none

/-- The call can be planned in the graph that was built. After one rewrite, it cannot. -/
theorem optimize_refuses : ∃ runs g t report, program.build env = .ok (runs, .ok g) ∧
    Rewriting.optimize env rules g = .ok (t, .ok report) ∧ report.rewrites = 1 ∧
    replan g = some (.call pick 1 8, [⟨2⟩, ⟨3⟩], .ok (.ok ⟨true, 8⟩)) ∧
    replan t.graph = some (.call pick 1 8, [⟨6⟩, ⟨3⟩],
      .ok (.error (.inconsistentLatency "pick" 1 8 0))) := by
  have h : summary program = some (1, some (.call pick 1 8, [⟨2⟩, ⟨3⟩], .ok (.ok ⟨true, 8⟩)),
      some (.call pick 1 8, [⟨6⟩, ⟨3⟩],
        .ok (.error (.inconsistentLatency "pick" 1 8 0)))) := by cbv
  rw [summary] at h
  split at h
  · rename_i runs g hb
    split at h
    · rename_i t report ho
      simp only [Option.some.injEq, Prod.mk.injEq] at h
      exact ⟨runs, g, t, report, hb, ho, h.1, h.2.1, h.2.2⟩
    · cases h
  · cases h

end Spread

namespace Rewriting

/-- After optimizing, every call suits the ports that feed it, with the plan it was added with.
Planning it again gives this plan, or it is refused because of an array that is not even. If no
alternative of a rule is an array, it is never refused. -/
theorem optimize_replans {env : Environment} {d : Description} {runs : List Preparation}
    {g : Graph} {l : List Rule} {rules : RuleSet} {t : Rewriting} {report : Report}
    (hr : env.registry.Reached) (hb : d.build env = .ok (runs, .ok g))
    (hmake : RuleSet.make env.registry l = .ok rules)
    (h : optimize env rules g = .ok (t, .ok report)) :
    ∀ n node s factor latency, t.graph.node? n = some node →
      node.kind = .call s factor latency → ∃ arguments p,
      t.graph.CallAt n s factor latency arguments ∧
      AddedWith env rules g t.graph n s factor p ∧ Call.Suits t.graph s factor arguments p ∧
      ((Call.plan t.graph s factor arguments).run = .ok (.ok p) ∧
          (∀ a ∈ arguments, t.graph.Even a) ∨
        (∃ e, (Call.plan t.graph s factor arguments).run = .ok (.error e)) ∧
          ∃ a ∈ arguments, ¬ t.graph.Even a) ∧
      ((∀ rule ∈ l, ∀ q ∈ rule.outputs, q.isArray = false) →
        (Call.plan t.graph s factor arguments).run = .ok (.ok p)) := by
  obtain ⟨-, hmem, hrules⟩ := RuleSet.make_eq_ok hmake
  have hv := (Description.build_loaded hr hb).valid
  have hadd := Description.build_additions hb
  have harr : g.Arrays := hadd.arrays .empty Arrays.empty
  obtain ⟨hsuited, heven⟩ := hadd.suitedCalls
  -- First, garbage is collected.
  obtain ⟨g₀, hp, -, hreach⟩ := optimize_reaches hr hrules hv h
  have hf : Follows [] g g₀ := hp.follows hv.coherent
  have hv₀ := hp.valid hv
  have harr₀ : g₀.Arrays := harr.follows hf
  have hsuited₀ : SuitedCalls (AddedWith env rules g g₀) g₀ :=
    (hsuited.follows hf).mono fun _ _ _ _ hk => .built hk
  have heven₀ : g₀.EvenCalls := heven.follows hv.coherent hf nofun
  -- Then rules are applied.
  have hg := (hreach.valid hr hrules hv₀).coherent
  have htyped := optimize_typed hr hrules hv (Description.build_typed hb) h
  intro n node s factor latency hn hk
  obtain ⟨arguments, p, hc, hs, hknown⟩ :=
    hreach.suitedCalls hr hrules hv₀ harr₀ hp hsuited₀ n node s factor latency hn hk
  have hcases := hs.plan_cases hg htyped (hreach.arrays hr hrules hv₀ harr₀)
  refine ⟨arguments, p, hc, hknown, hs, hcases, fun halt => ?_⟩
  have hcalls := hreach.evenCalls hr hrules hv₀ harr₀
    (fun rule hm => halt rule ((hmem rule).1 hm)) heven₀
  refine (hcases.resolve_right ?_).1
  rintro ⟨-, a, ha, hne⟩
  exact hne (hcalls n node hn (by rw [hk]; rfl) a (hc.feeders hn ▸ ha))

theorem optimize_replans_spread :
    ∃ runs g t report node, Spread.program.build Spread.env = .ok (runs, .ok g) ∧
      RuleSet.make Spread.env.registry [Spread.rule] = .ok Spread.rules ∧
      optimize Spread.env Spread.rules g = .ok (t, .ok report) ∧ report.rewrites = 1 ∧
      t.graph.node? ⟨4⟩ = some node ∧ node.kind = .call Spread.pick 1 8 ∧ ∃ arguments p,
      t.graph.CallAt ⟨4⟩ Spread.pick 1 8 arguments ∧
      AddedWith Spread.env Spread.rules g t.graph ⟨4⟩ Spread.pick 1 p ∧
      Call.Suits t.graph Spread.pick 1 arguments p ∧
      (∃ e, (Call.plan t.graph Spread.pick 1 arguments).run = .ok (.error e)) ∧
      ∃ a ∈ arguments, ¬ t.graph.Even a := by
  obtain ⟨runs, g, t, report, hb, ho, hrw, -, hplan⟩ := Spread.optimize_refuses
  obtain ⟨node, hn, hnode⟩ := Option.map_eq_some_iff.1 hplan
  simp only [Prod.mk.injEq] at hnode
  obtain ⟨hk, hf, hrefused⟩ := hnode
  obtain ⟨arguments, p, hc, hadded, hsuits, hcases, -⟩ := optimize_replans Spread.reached hb
    Spread.make_rules ho ⟨4⟩ node Spread.pick 1 8 hn hk
  rw [hc.feeders hn] at hrefused
  refine ⟨runs, g, t, report, node, hb, Spread.make_rules, ho, hrw, hn, hk, arguments, p, hc,
    hadded, hsuits, hcases.resolve_left fun h => ?_⟩
  rw [h.1] at hrefused
  cases hrefused

end Rewriting

end SignalGraph
