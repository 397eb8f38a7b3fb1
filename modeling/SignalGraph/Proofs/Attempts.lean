import SignalGraph.Proofs.Limits

/-!
# Attempts leave no trace

While a rule looks for a replacement, its alternatives are built on the graph itself. One that does
not fit is discarded, whatever it had come to: parts of it may hang on ports of the graph, and calls
with side effects, which garbage collection would keep, may be among them.

After all of them failed the live parts of the graph are what they were. After one was accepted they
are what they were below its first node (`SameBelow`): without the nodes from there on, and without
the links to these, there is just the graph that was there before.
-/

namespace SignalGraph

open SignalGraph.Graph

namespace Graph

/-- `g'` has below a watermark what `g` has: the same nodes with the same ports, fed from the same
sources, and apart from the nodes above it the same consumers. -/
structure SameBelow (watermark : NodeId) (g g' : Graph) : Prop where
  node? (n : NodeId) : (if n.index < watermark.index then g'.node? n else none) = g.node? n
  input? (i : InputId) :
    (g'.input? i).filter (fun port => port.node.index < watermark.index) = g.input? i
  output? (o : OutputId) :
    ((g'.output? o).filter fun port => port.node.index < watermark.index).map (fun port =>
      { port with
        consumers := port.consumers.filter fun i =>
          (g'.owner? i).any fun n => n.index < watermark.index }) = g.output? o
  surface : g'.surface = g.surface

variable {b : List OutputId} {g g' g'' : Graph}

theorem SameBelow.of_same {watermark : NodeId} (h : SameBelow watermark g' g'')
    (hs : Same g g') : SameBelow watermark g g'' where
  node? n := (h.node? n).trans (hs.node? n)
  input? i := (h.input? i).trans (hs.input? i)
  output? o := (h.output? o).trans (hs.output? o)
  surface := h.surface.trans hs.surface

namespace Grown

/-- The old inputs are those of old nodes. -/
theorem filter_input? (hg : g.Coherent) (hg' : g'.Coherent) (h : Grown b g g') (i : InputId) :
    (g'.input? i).filter (fun port => port.node.index < g.nodes.size) = g.input? i := by
  cases hp : g'.input? i with
  | none =>
    have hnone : g.input? i = none := by
      by_contra hsome
      obtain ⟨port, hport⟩ := Option.ne_none_iff_exists'.1 hsome
      rw [← h.input? (lt_of_input? hport), hp] at hsome
      exact hsome rfl
    rw [hnone, Option.filter_none]
  | some port =>
    have ho : g'.owner? i = some port.node := owner?_eq_some.2 ⟨port, hp, rfl⟩
    by_cases hlt : port.node.index < g.nodes.size
    · rw [Option.filter_some_pos (by simpa using hlt), ← hp,
        h.input? (h.lt_of_owner? hg hg' hlt ho)]
    · have hi : ¬ i.index < g.inputs.size := fun hi => hlt (h.owner_lt hg hi ho)
      rw [Option.filter_some_neg (by simpa using hlt)]
      exact (Arena.get?_eq_none (Nat.le_of_not_lt hi)).symm

/-- The old outputs are those of old nodes, with the consumers that are old. -/
theorem filter_output? (hg : g.Coherent) (hg' : g'.Coherent) (h : Grown b g g') (o : OutputId) :
    ((g'.output? o).filter fun port => port.node.index < g.nodes.size).map (fun port =>
      { port with
        consumers := port.consumers.filter fun i =>
          (g'.owner? i).any fun n => n.index < g.nodes.size }) = g.output? o := by
  cases hp' : g'.output? o with
  | none =>
    have hnone : g.output? o = none := by
      by_contra hsome
      obtain ⟨port, hport⟩ := Option.ne_none_iff_exists'.1 hsome
      obtain ⟨port', hport', -⟩ := h.output?_isSome hport
      cases hp'.symm.trans hport'
    rw [hnone, Option.filter_none, Option.map_none]
  | some port' =>
    have hm : g'.maker? o = some port'.node := maker?_eq_some.2 ⟨port', hp', rfl⟩
    by_cases hlt : port'.node.index < g.nodes.size
    · have ho := h.lt_of_maker? hg hg' hlt hm
      obtain ⟨port, hp, hbare⟩ := output?_of_bare? (h.bare? ho).symm hp'
      have hc : (port'.consumers.filter fun i =>
          (g'.owner? i).any fun n => n.index < g.nodes.size) = port.consumers := by
        refine ((hg'.ascends hp').filter _).ext (hg.ascends hp) fun i => ?_
        rw [List.mem_filter, hg'.mem_consumers hp', hg.mem_consumers hp, Graph.source?,
          Graph.source?, ← h.filter_input? hg hg' i, Graph.owner?]
        cases g'.input? i with
        | none => simp
        | some q => by_cases hq : q.node.index < g.nodes.size <;> simp [Option.filter, hq]
      rw [Option.filter_some_pos (by simpa using hlt), Option.map_some, hp, hc]
      cases port
      cases port'
      simp_all [OutputPort.bare]
    · have ho : ¬ o.index < g.outputs.size := fun ho => hlt (h.maker_lt hg ho hm)
      rw [Option.filter_some_neg (by simpa using hlt)]
      exact (Arena.get?_eq_none (Nat.le_of_not_lt ho)).symm

/-- What is built on a graph leaves the graph as it is. -/
theorem sameBelow (hg : g.Coherent) (hg' : g'.Coherent) (h : Grown b g g') :
    SameBelow g.nextNode g g' where
  node? n := by
    split
    · rename_i hn
      exact h.node? hn
    · rename_i hn
      exact (Arena.get?_eq_none (Nat.le_of_not_lt hn)).symm
  input? := h.filter_input? hg hg'
  output? := h.filter_output? hg hg'
  surface := h.surface

end Grown

end Graph

namespace Rewriting

/-- Looking for a replacement leaves no trace but the replacement. If no alternative fits, the graph
is the same as before, and nothing is live that was numbered since. If one fits, the graph is the
same below its first node, and nothing is live of the alternatives that were tried before it. -/
theorem replace_leaves_no_trace {env : Environment} {l : List Rule} {rules : RuleSet} {rule : Rule}
    {g : Graph} {anchor : OutputPort} {b : Bindings} (hr : env.registry.Reached)
    (hmake : RuleSet.make env.registry l = .ok rules) (hrule : rule ∈ l) (hg : g.Coherent)
    (hverify : g.verify = []) (hcalls : g.CallsFrom env.registry)
    (ha : g.output? anchor.id = some anchor)
    (hm : rule.input.matchAt g anchor.id = .ok (some b)) (location : Option Location)
    (runs : List Preparation) :
    (g.Typed → ∀ fault, replace env b anchor location g runs rule.outputs = .error fault →
      fault = .addOverflow ∨ fault = .mulOverflow) ∧
    (∀ g' runs', replace env b anchor location g runs rule.outputs = .ok (g', runs', none) →
      Restored g g' ∧ (∀ n, g.nodes.size ≤ n.index → g'.node? n = none) ∧
      ∀ p ∈ rule.outputs, Rejected env b anchor location g p) ∧
    ∀ g' runs' r, replace env b anchor location g runs rule.outputs = .ok (g', runs', some r) →
      g'.Valid env.registry ∧ g.nodes.size ≤ r.watermark.index ∧ SameBelow r.watermark g g' ∧
      (∀ n, g.nodes.size ≤ n.index → n.index < r.watermark.index → g'.node? n = none) ∧
      (∃ port, g'.output? r.port = some port ∧ r.port ≠ anchor.id ∧ port.type = anchor.type ∧
        port.latency = anchor.latency) ∧
      ∃ before p after g₁ w, rule.outputs = before ++ p :: after ∧
        (∀ q ∈ before, Rejected env b anchor location g q) ∧ Restored g g₁ ∧
        r.watermark = g₁.nextNode ∧
        p.instantiate env b location { graph := g₁ } = .ok (w, .ok r.port) ∧ w.graph = g' := by
  obtain ⟨-, hmem, hrules⟩ := RuleSet.make_eq_ok hmake
  have hv : g.Valid env.registry := valid_iff.2 ⟨hg, hverify, hcalls⟩
  have hc : rule.Checked env.registry := hrules rule ((hmem rule).2 hrule)
  obtain ⟨hblive, hbne⟩ := bound_of_matchAt hv hc ha hm
  have hdead (n : NodeId) (hn : g.nodes.size ≤ n.index) : g.node? n = none :=
    Arena.get?_eq_none hn
  refine ⟨fun ht fault hfault => ?_, fun g' runs' h => ?_, fun g' runs' r h => ?_⟩
  · obtain ⟨bound, hin, hout⟩ := hc.patterns
    have hmk : g.maker? anchor.id = some anchor.node := maker?_eq_some.2 ⟨anchor, ha, rfl⟩
    have hlen := (Pattern.matchAt_spec hv hc.isCall hmk hm hin).1
    exact Fault.isOverflow_iff.1 (safe_replace hr hv ht hlen hblive rule.outputs hout fault hfault)
  · cases replace_spec hr hv hblive hbne ha rule.outputs h with
    | rejected restored all =>
      exact ⟨restored, fun n hn => (restored.node? n).trans (hdead n hn), all⟩
  · cases replace_spec hr hv hblive hbne ha rule.outputs h with
    | @accepted g₁ w p port r restored mem built graph live ne type latency watermark first =>
      subst graph
      obtain ⟨before, after, hsplit, hbefore⟩ := first
      have hblive₁ (x : OutputId) (hx : x ∈ b) : ∃ out, g₁.output? x = some out := by
        rw [restored.output?]
        exact hblive x hx
      have hbuilt := Pattern.instantiate_spec (w := { graph := g₁ }) hr (restored.valid hv) hblive₁
        p built
      have hbelow : SameBelow r.watermark g w.graph := by
        rw [watermark]
        exact (hbuilt.grown.sameBelow restored.coherent hbuilt.valid.coherent).of_same
          restored.toSame
      refine ⟨hbuilt.valid, ?_, hbelow, fun n hn hlt => ?_, ⟨port, live, ne, type, latency⟩,
        before, p, after, g₁, w, hsplit, hbefore, restored, watermark, built, rfl⟩
      · rw [watermark]
        exact restored.nodes_le
      · have hn' := hbelow.node? n
        rwa [if_pos hlt, hdead n hn] at hn'

end Rewriting

/-! ## A logged sum

The terms of a sum can be swapped. To log the swapped sum would be late, but this is known only when
the call that logs it has been added, and that call has side effects. -/

namespace LoggedSum

def log : Signature :=
  { Signature.unary 3 "log" with sideEffects := true }

def env : Environment where
  registry :=
    { modules :=
        [(LateSum.sum.id, .hosted LateSum.sum (.fixed 0)), (log.id, .hosted log (.fixed 8))]
      names := [("log", log.id), ("sum", LateSum.sum.id)] }
  settings := {}

def swapped : Pattern :=
  .call LateSum.sum.id 1 2 [.slot 1, .slot 0, .result]

def logged : Pattern :=
  .call log.id 1 1 [swapped, .result]

/-- Sums by one of these alternatives. -/
def rule (outputs : List Pattern) : Rule where
  name := "sum"
  input := LateSum.late.input
  outputs := outputs

def rules (outputs : List Pattern) : RuleSet where
  rules := [rule outputs]
  ordered := [rule outputs]
  depths := .ofRules [rule outputs]

def program : Description where
  inputs :=
    [{ name := "x", type := { primitive := .float } },
     { name := "y", type := { primitive := .float } }]
  entries := [{ name := "z", kind := .call "sum" 1 ["x", "y"] }]
  outputs := [{ name := "out", type := { primitive := .float }, source := "z" }]

theorem reached : env.registry.Reached :=
  (Registry.Reached.empty.insert (m := .hosted LateSum.sum (.fixed 0)) rfl).insert
    (m := .hosted log (.fixed 8)) rfl

theorem make_logged : RuleSet.make env.registry [rule [logged]] = .ok (rules [logged]) := by
  cbv

theorem make_both :
    RuleSet.make env.registry [rule [logged, swapped]] = .ok (rules [logged, swapped]) := by
  cbv

/-- How many nodes the program has, what is live after looking for a replacement of the sum, and
the first node of the replacement. -/
def attempt (outputs : List Pattern) : Option (Nat × List NodeId × Option NodeId) :=
  match program.build env with
  | .ok (_, .ok g) =>
    match g.output? ⟨2⟩, (rule outputs).input.matchAt g ⟨2⟩ with
    | some anchor, .ok (some b) =>
      match Rewriting.replace env b anchor none g [] outputs with
      | .ok (g', _, found) =>
        some (g.nodes.size, g'.nodeIds, found.map Rewriting.Replacement.watermark)
      | .error _ => none
    | _, _ => none
  | _ => none

theorem exists_attempt {outputs : List Pattern} {size : Nat} {live : List NodeId}
    {first : Option NodeId} (h : attempt outputs = some (size, live, first)) :
    ∃ runs g anchor b g' runs' found, program.build env = .ok (runs, .ok g) ∧
      g.output? anchor.id = some anchor ∧
      (rule outputs).input.matchAt g anchor.id = .ok (some b) ∧
      Rewriting.replace env b anchor none g [] (rule outputs).outputs = .ok (g', runs', found) ∧
      g.nodes.size = size ∧ g'.nodeIds = live ∧
      found.map Rewriting.Replacement.watermark = first := by
  rw [attempt] at h
  split at h
  · rename_i runs g hb
    split at h
    · rename_i anchor b ha hm
      split at h
      · rename_i g' runs' found hrep
        simp only [Option.some.injEq, Prod.mk.injEq] at h
        have hv := (Description.build_loaded reached hb).valid
        have hid := hv.coherent.output_id ha
        exact ⟨runs, g, anchor, b, g', runs', found, hb, hid ▸ ha, hid ▸ hm, hrep, h.1, h.2.1,
          h.2.2⟩
      · cases h
    · cases h
  · cases h

end LoggedSum

/-- The call that logs is gone, whether or not there is another alternative. -/
theorem Rewriting.replace_leaves_no_trace_loggedSum :
    (∃ runs g anchor b g' runs', LoggedSum.program.build LoggedSum.env = .ok (runs, .ok g) ∧
      replace LoggedSum.env b anchor none g [] [LoggedSum.logged] = .ok (g', runs', none) ∧
      Restored g g' ∧ Rejected LoggedSum.env b anchor none g LoggedSum.logged) ∧
    ∃ runs g anchor b g' runs' r, LoggedSum.program.build LoggedSum.env = .ok (runs, .ok g) ∧
      replace LoggedSum.env b anchor none g [] [LoggedSum.logged, LoggedSum.swapped] =
        .ok (g', runs', some r) ∧
      g.nodes.size = 4 ∧ r.watermark = ⟨6⟩ ∧ g'.nodeIds = [⟨0⟩, ⟨1⟩, ⟨2⟩, ⟨3⟩, ⟨6⟩] ∧
      SameBelow ⟨6⟩ g g' ∧ g'.node? ⟨4⟩ = none ∧ g'.node? ⟨5⟩ = none := by
  constructor
  · have h : LoggedSum.attempt [LoggedSum.logged] =
        some (4, [⟨0⟩, ⟨1⟩, ⟨2⟩, ⟨3⟩], none) := by cbv
    obtain ⟨runs, g, anchor, b, g', runs', found, hb, ha, hm, hrep, -, -, hfound⟩ :=
      LoggedSum.exists_attempt h
    obtain rfl := Option.map_eq_none_iff.1 hfound
    have hv := (Description.build_loaded LoggedSum.reached hb).valid
    obtain ⟨-, hnone, -⟩ := replace_leaves_no_trace LoggedSum.reached LoggedSum.make_logged
      List.mem_cons_self hv.coherent (valid_iff.1 hv).2.1 hv.fits ha hm none []
    obtain ⟨hres, -, hall⟩ := hnone g' runs' hrep
    exact ⟨runs, g, anchor, b, g', runs', hb, hrep, hres, hall _ List.mem_cons_self⟩
  · have h : LoggedSum.attempt [LoggedSum.logged, LoggedSum.swapped] =
        some (4, [⟨0⟩, ⟨1⟩, ⟨2⟩, ⟨3⟩, ⟨6⟩], some ⟨6⟩) := by cbv
    obtain ⟨runs, g, anchor, b, g', runs', found, hb, ha, hm, hrep, hsize, hlive, hfound⟩ :=
      LoggedSum.exists_attempt h
    obtain ⟨r, rfl, hmark⟩ := Option.map_eq_some_iff.1 hfound
    have hv := (Description.build_loaded LoggedSum.reached hb).valid
    obtain ⟨-, -, hsome⟩ := replace_leaves_no_trace LoggedSum.reached LoggedSum.make_both
      List.mem_cons_self hv.coherent (valid_iff.1 hv).2.1 hv.fits ha hm none []
    obtain ⟨-, -, hbelow, hdead, -⟩ := hsome g' runs' r hrep
    rw [hmark] at hbelow hdead
    rw [hsize] at hdead
    exact ⟨runs, g, anchor, b, g', runs', r, hb, hrep, hsize, hmark, hlive, hbelow,
      hdead ⟨4⟩ (by decide) (by decide), hdead ⟨5⟩ (by decide) (by decide)⟩

end SignalGraph
