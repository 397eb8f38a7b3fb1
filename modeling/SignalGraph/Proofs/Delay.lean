import SignalGraph.Proofs.Arguments

/-!
# Delays along paths

Each call delays signals by the latency of its hook, in samples at its rate. A *chain* goes through
calls from a channel that enters, or from a call that takes nothing variable, up to a port
(`Chain`). However it goes there, the delays of its calls sum up to the latency of the port over the
rate of the port (`Description.chain_delay`).

Hooks run once for each call, in the order of the calls (`Additions.prepared`). What a plan says of
the arguments and `Call.Result` of the outputs is all that is needed of a call.
-/

namespace SignalGraph

open SignalGraph.Graph

namespace Graph

variable {g g' : Graph} {n : NodeId}

/-! ## Calls in their order -/

theorem Coherent.mem_callIds (hg : g.Coherent) :
    n ∈ g.callIds ↔ ∃ node, g.node? n = some node ∧ node.kind.isCall = true := by
  simp only [callIds, List.mem_map, List.mem_filter, mem_liveNodes]
  constructor
  · rintro ⟨node, ⟨⟨m, hm⟩, hk⟩, rfl⟩
    exact ⟨node, hg.node_id hm ▸ hm, hk⟩
  · rintro ⟨node, hn, hk⟩
    exact ⟨node, ⟨⟨n, hn⟩, hk⟩, hg.node_id hn⟩

theorem Coherent.ascends_callIds (hg : g.Coherent) : Ascends g.callIds :=
  hg.ascends_nodeIds.sublist (List.filter_sublist.map Node.id)

/-- A new call comes last. -/
theorem Inserted.callIds {kind : Kind} {location : Option Location} {sources : List OutputId}
    {results : List (DataType × Nat)} (hg : g.Coherent)
    (h : Inserted g kind location sources results g') :
    g'.callIds = g.callIds ++ if kind.isCall then [g.nextNode] else [] := by
  have hnew : Ascends (g.callIds ++ if kind.isCall then [g.nextNode] else []) := by
    refine List.pairwise_append.2 ⟨hg.ascends_callIds, by split <;> simp, fun m hm k hk => ?_⟩
    obtain ⟨node, hn, -⟩ := hg.mem_callIds.1 hm
    split at hk
    · obtain rfl := List.mem_singleton.1 hk
      exact lt_of_node? hn
    · cases hk
  refine h.coherent.ascends_callIds.ext hnew fun m => ?_
  rw [h.coherent.mem_callIds, List.mem_append, hg.mem_callIds, h.node?]
  by_cases hm : m = g.nextNode
  · subst hm
    cases hk : kind.isCall <;> simp [hk, node?_nextNode]
  · cases hk : kind.isCall <;> simp [hm]

/-! ## Hooks -/

/-- A call was prepared in this run: it was planned with what feeds it, and what comes out of it is
late by the latency of the arguments and of the hook together. -/
def PreparedIn (g : Graph) (n : NodeId) (run : Preparation) : Prop :=
  ∃ latency arguments p, g.CallAt n run.signature run.context.factor latency arguments ∧
    Call.Planned g run.signature run.context.factor arguments p ∧
    latency = p.inputLatency + run.prepared.latency ∧
    ∀ o port, g.output? o = some port → port.node = n → port.type.isConstant = false →
      Call.Aligned run.context.factor latency port

theorem PreparedIn.inserted {kind : Kind} {location : Option Location} {sources : List OutputId}
    {results : List (DataType × Nat)} {run : Preparation} (hg : g.Coherent)
    (hi : Inserted g kind location sources results g') (h : g.PreparedIn n run) :
    g'.PreparedIn n run := by
  obtain ⟨latency, arguments, p, hc, hp, hl, hout⟩ := h
  have hgrown := hi.grown hg
  refine ⟨latency, arguments, p, hc.grown hg hgrown, hp.grown hg hgrown, hl,
    fun o port ho hn hv => ?_⟩
  rcases hi.output?_cases hg ho with ⟨hm, -⟩ | ⟨-, q, hq, hqn, ht, hla⟩
  · obtain ⟨node, hlive, -⟩ := hc
    rw [← hn, hm, node?_nextNode] at hlive
    cases hlive
  · exact (hout o q hq (hqn.trans hn) (ht ▸ hv)).like (ht ▸ rfl) hla.symm

theorem PreparedIn.withSurface {run : Preparation} (h : g.PreparedIn n run) (s : Surface) :
    { g with surface := s : Graph }.PreparedIn n run := by
  obtain ⟨latency, arguments, p, hc, hp, hl, hout⟩ := h
  exact ⟨latency, arguments, p, hc, hp.withSurface s, hl, hout⟩

/-- Only calls and arrays are late. -/
def Calm (g : Graph) : Prop :=
  ∀ {o : OutputId} {port : OutputPort} {node : Node}, g.output? o = some port →
    g.node? port.node = some node → node.kind.isCall = false → node.kind.isArray = false →
    port.latency = 0

theorem Calm.empty : Calm {} := by
  intro o port node ho
  cases ho

theorem Calm.inserted {kind : Kind} {location : Option Location} {sources : List OutputId}
    {results : List (DataType × Nat)} (hg : g.Coherent) (h : g.Calm)
    (hi : Inserted g kind location sources results g')
    (hnew : kind.isCall = false → kind.isArray = false → ∀ r ∈ results, r.2 = 0) : g'.Calm := by
  intro o port node ho hn hcall harray
  rcases hi.output?_cases hg ho with ⟨hm, hmem⟩ | ⟨hm, p, hp, hpn, -, hla⟩
  · rw [hm, hi.node?, if_pos rfl] at hn
    cases hn
    exact hnew hcall harray _ hmem
  · rw [hi.node?, if_neg hm, ← hpn] at hn
    exact hla ▸ h hp hn hcall harray

end Graph

namespace Addition

variable {env : Environment} {g g' : Graph} {runs : List Preparation}

theorem calm (hg : g.Coherent) (h : Addition env g runs g') (hc : g.Calm) : g'.Calm := by
  cases h with
  | plain _ _ hs h => exact hc.inserted hg (inserted_of_insert hg h).2 fun _ _ r hr => (hs r hr).2
  | array _ h => exact hc.inserted hg (inserted_of_insert hg h).2 nofun
  | call _ h =>
    simp only [Call.Ready.insert, bind_eq_ok] at h
    obtain ⟨latency, -, results, -, h⟩ := h
    exact hc.inserted hg (inserted_of_insert hg h).2 nofun
  | surface s => exact hc

/-- The hooks of the calls ran in the order of the calls. -/
theorem prepared (hg : g.Coherent) (h : Addition env g runs g') {before : List Preparation}
    (hb : List.Forall₂ g.PreparedIn g.callIds before) :
    List.Forall₂ g'.PreparedIn g'.callIds (before ++ runs) := by
  cases h with
  | plain hk _ _ h =>
    have hi := (inserted_of_insert hg h).2
    rw [hi.callIds hg, if_neg (by simp [hk]), List.append_nil, List.append_nil]
    exact hb.imp fun _ _ hp => hp.inserted hg hi
  | array _ h =>
    have hi := (inserted_of_insert hg h).2
    rw [hi.callIds hg, if_neg (by simp [Kind.isCall]), List.append_nil, List.append_nil]
    exact hb.imp fun _ _ hp => hp.inserted hg hi
  | @call _ module factor arguments location run c n hready h =>
    obtain ⟨hplan, run, rfl, hsig, rfl, hlat⟩ := Call.planned_of_ready hready rfl
    simp only [Call.Ready.insert, bind_eq_ok, Word.add_eq_ok] at h
    obtain ⟨latency, ⟨-, rfl⟩, results, hres, h⟩ := h
    have hi := (inserted_of_insert hg h).2
    rw [hi.callIds hg, if_pos (by rfl)]
    refine List.rel_append (hb.imp fun _ _ hp => hp.inserted hg hi) (.cons ?_ .nil)
    refine ⟨_, arguments, c.plan, hsig ▸ hi.callAt, hsig ▸ hplan.grown hg (hi.grown hg),
      by rw [hlat], fun o port ho hn hv => ?_⟩
    rcases hi.output?_cases hg ho with ⟨-, hmem⟩ | ⟨hm, -⟩
    · obtain ⟨q, -, hq⟩ := Call.result_of_results hres _ hmem
      exact hq.aligned hv
    · exact absurd hn hm
  | surface s =>
    rw [List.append_nil]
    exact hb.imp fun _ _ hp => hp.withSurface s

end Addition

namespace Additions

variable {env : Environment} {g g' : Graph} {runs : List Preparation}

theorem calm (hg : g.Coherent) (h : Additions env g runs g') (hc : g.Calm) : g'.Calm := by
  induction h with
  | nil => exact hc
  | snoc hs hstep ih => exact hstep.calm (hs.coherent hg) ih

theorem prepared (hg : g.Coherent) (h : Additions env g runs g') {before : List Preparation}
    (hb : List.Forall₂ g.PreparedIn g.callIds before) :
    List.Forall₂ g'.PreparedIn g'.callIds (before ++ runs) := by
  induction h with
  | nil => rwa [List.append_nil]
  | snoc hs hstep ih =>
    rw [← List.append_assoc]
    exact hstep.prepared (hs.coherent hg) ih

end Additions

/-! ## Chains -/

namespace Graph

variable {g : Graph} {n : NodeId} {runs : List Preparation}

/-- A variable port of a node. -/
def Varies (g : Graph) (n : NodeId) (o : OutputId) : Prop :=
  ∃ port, g.output? o = some port ∧ port.node = n ∧ port.type.isConstant = false

/-- A port feeds a node, or it is an element of an array that does. -/
def Draws (g : Graph) (n : NodeId) (o : OutputId) : Prop :=
  ∃ node a, g.node? n = some node ∧ a ∈ g.feeders node ∧ (o = a ∨ ∃ port array,
    g.output? a = some port ∧ g.node? port.node = some array ∧ array.kind.isArray = true ∧
      o ∈ g.feeders array)

/-- A path of variable ports through calls up to a port, from a channel that enters or from a call
that takes nothing variable. The calls are listed from the last to the first. -/
inductive Chain (g : Graph) : List NodeId → OutputId → Prop where
  | input {n : NodeId} {node : Node} {name : String} {type : DataType} {o : OutputId} :
    g.node? n = some node → node.kind = .input name type → g.Varies n o → Chain g [] o
  | start {n : NodeId} {node : Node} {o : OutputId} : g.node? n = some node →
    node.kind.isCall = true → (∀ a ∈ g.feeders node, ∀ m, ¬ g.Varies m a) → g.Varies n o →
    Chain g [n] o
  | step {n : NodeId} {node : Node} {o q : OutputId} {calls : List NodeId} : Chain g calls q →
    g.node? n = some node → node.kind.isCall = true → g.Draws n q → g.Varies n o →
    Chain g (n :: calls) o

/-- The run of the hook for a call: there is one for each call, in their order. -/
def run? (g : Graph) (runs : List Preparation) (n : NodeId) : Option Preparation :=
  (g.callIds.zip runs).lookup n

/-- By how much a call delays signals, in samples at the base rate. -/
def delay (g : Graph) (runs : List Preparation) (n : NodeId) : ℚ :=
  match (g.node? n).map Node.kind, g.run? runs n with
  | some (.call _ factor _), some run => run.prepared.latency / factor
  | _, _ => 0

theorem lookup_zip {R : NodeId → Preparation → Prop} {ids : List NodeId}
    (h : List.Forall₂ R ids runs) (hn : n ∈ ids) :
    ∃ run, (ids.zip runs).lookup n = some run ∧ R n run := by
  induction h with
  | nil => cases hn
  | @cons m run ids runs hr _ ih =>
    by_cases he : n = m
    · exact ⟨run, by simp [he], he ▸ hr⟩
    · obtain ⟨run', hl, hr'⟩ := ih ((List.mem_cons.1 hn).resolve_left he)
      have hne : (n == m) = false := by simpa using he
      exact ⟨run', by simp [List.lookup_cons, hne, hl], hr'⟩

/-- The hook of a call ran, and that is what delays signals there. -/
theorem delay_of_prepared {node : Node} (hg : g.Coherent)
    (hp : List.Forall₂ g.PreparedIn g.callIds runs) (hn : g.node? n = some node)
    (hk : node.kind.isCall = true) : ∃ run, g.run? runs n = some run ∧ g.PreparedIn n run ∧
      g.delay runs n = run.prepared.latency / run.context.factor := by
  obtain ⟨run, hrun, hprep⟩ := lookup_zip hp (hg.mem_callIds.2 ⟨node, hn, hk⟩)
  refine ⟨run, hrun, hprep, ?_⟩
  obtain ⟨latency, arguments, p, ⟨node', hn', hk', -⟩, -⟩ := hprep
  have hrun' : g.run? runs n = some run := hrun
  simp only [delay, hn', Option.map_some, hk', hrun']

end Graph

namespace Call

/-- Latencies over rates are the same for a port and for the call that it is aligned with. -/
theorem Aligned.div_eq {factor latency u : Nat} {port : OutputPort} (hf : 0 < factor)
    (h : Aligned factor latency port) (hu : port.type.factor = some u) :
    (port.latency : ℚ) / u = latency / factor := by
  obtain ⟨k, hk, hrate, hlat⟩ := h
  rw [hu, Option.getD_some] at hrate
  subst hrate
  rw [hlat]
  have hf' : (factor : ℚ) ≠ 0 := Nat.cast_ne_zero.2 (Nat.ne_of_gt hf)
  have hk' : (k : ℚ) ≠ 0 := Nat.cast_ne_zero.2 (Nat.ne_of_gt hk)
  push_cast
  field_simp

end Call

namespace Graph

variable {g : Graph} {n : NodeId} {runs : List Preparation}

/-- What a call draws on has the latency of the plan. -/
theorem Draws.aligned {s : Signature} {factor latency u : Nat} {arguments : List OutputId}
    {p : CallPlan} {o : OutputId} {port : OutputPort} (hg : g.Coherent) (harr : g.Arrays)
    (hc : g.CallAt n s factor latency arguments) (hp : Call.Planned g s factor arguments p)
    (h : g.Draws n o) (ho : g.output? o = some port) (hu : port.type.factor = some u) :
    Call.Aligned factor p.inputLatency port := by
  have hv := DataType.isConstant_eq_false.2 ⟨u, hu⟩
  obtain ⟨node, a, hn, ha, h⟩ := h
  rw [hc.feeders hn] at ha
  rcases h with rfl | ⟨out, array, hout, harray, hk, hmem⟩
  · exact hp.aligned_argument hg harr ha ho hv
  · exact (hp.aligned_element hg harr ha hout harray hk hmem ho hv).1

/-- Where nothing variable comes in, there is no latency of arguments. -/
theorem inputLatency_eq_zero {s : Signature} {factor latency : Nat} {arguments : List OutputId}
    {p : CallPlan} {node : Node} (hg : g.Coherent) (hn : g.node? n = some node)
    (hc : g.CallAt n s factor latency arguments) (hp : Call.Planned g s factor arguments p)
    (hnone : ∀ a ∈ g.feeders node, ∀ m, ¬ g.Varies m a) : p.inputLatency = 0 := by
  refine hp.quiet fun a ha => List.eq_nil_iff_forall_not_mem.2 fun o ho => ?_
  obtain ⟨l, hl⟩ := hp.live a ha
  obtain ⟨port, hport⟩ := Call.live_of_latePorts hl
  obtain ⟨maker, hmaker, -⟩ := hg.node_of_output? hport
  obtain ⟨hv, -⟩ := (Call.mem_late hg hport hmaker).1 ho
  exact hnone a (hc.feeders hn ▸ ha) port.node ⟨port, hport, rfl, hv⟩

/-- A chain ends at a port with a rate. -/
theorem Chain.varies {calls : List NodeId} {o : OutputId} (h : g.Chain calls o) :
    ∃ port u, g.output? o = some port ∧ port.type.factor = some u := by
  have hv : ∃ m, g.Varies m o := by
    cases h with
    | input _ _ hv => exact ⟨_, hv⟩
    | start _ _ _ hv => exact ⟨_, hv⟩
    | step _ _ _ _ hv => exact ⟨_, hv⟩
  obtain ⟨m, port, ho, -, hv⟩ := hv
  obtain ⟨u, hu⟩ := DataType.isConstant_eq_false.1 hv
  exact ⟨port, u, ho, hu⟩

/-- The delays of the calls on a chain sum up to the latency of its last port. -/
theorem Chain.sum_delay {calls : List NodeId} {o : OutputId} (hg : g.Coherent) (harr : g.Arrays)
    (hcalm : g.Calm) (hp : List.Forall₂ g.PreparedIn g.callIds runs) (h : g.Chain calls o) :
    ∀ port u, g.output? o = some port → port.type.factor = some u →
      (calls.map (g.delay runs)).sum = (port.latency : ℚ) / u := by
  -- What comes out of a call is late by its arguments and its hook.
  have hcall {n : NodeId} {node : Node} {o : OutputId} {port : OutputPort} {u : Nat}
      (hn : g.node? n = some node) (hk : node.kind.isCall = true) (hv : g.Varies n o)
      (ho : g.output? o = some port) (hu : port.type.factor = some u) :
      ∃ s factor latency arguments p, 0 < factor ∧ g.CallAt n s factor latency arguments ∧
        Call.Planned g s factor arguments p ∧
        (port.latency : ℚ) / u = g.delay runs n + p.inputLatency / factor := by
    obtain ⟨run, -, ⟨latency, arguments, p, hc, hplan, rfl, hout⟩, hdelay⟩ :=
      delay_of_prepared hg hp hn hk
    obtain ⟨port', ho', hnode, hvar⟩ := hv
    obtain rfl : port = port' := Option.some.inj (ho.symm.trans ho')
    refine ⟨_, _, _, arguments, p, hplan.positive, hc, hplan, ?_⟩
    rw [(hout o port ho hnode hvar).div_eq hplan.positive hu, hdelay]
    push_cast
    ring
  induction h with
  | @input n node name type o hn hk hv =>
    intro port u ho hu
    obtain ⟨port', ho', rfl, -⟩ := hv
    obtain rfl : port = port' := Option.some.inj (ho.symm.trans ho')
    have hzero : port.latency = 0 := hcalm ho hn (by rw [hk]; rfl) (by rw [hk]; rfl)
    simp [hzero]
  | start hn hk hnone hv =>
    intro port u ho hu
    obtain ⟨s, factor, latency, arguments, p, hf, hc, hplan, hsum⟩ := hcall hn hk hv ho hu
    rw [hsum, inputLatency_eq_zero hg hn hc hplan hnone]
    simp
  | @step n node o q calls hchain hn hk hd hv ih =>
    intro port u ho hu
    obtain ⟨s, factor, latency, arguments, p, hf, hc, hplan, hsum⟩ := hcall hn hk hv ho hu
    obtain ⟨qport, w, hq, hw⟩ := hchain.varies
    rw [List.map_cons, List.sum_cons, ih qport w hq hw, hsum,
      (hd.aligned hg harr hc hplan hq hw).div_eq hf hw]

theorem Chain.isCall {calls : List NodeId} {o : OutputId} (h : g.Chain calls o) :
    ∀ n ∈ calls, ∃ node, g.node? n = some node ∧ node.kind.isCall = true := by
  induction h with
  | input => nofun
  | start hn hk => simpa using ⟨_, hn, hk⟩
  | step _ hn hk _ _ ih => exact List.forall_mem_cons.2 ⟨⟨_, hn, hk⟩, ih⟩

end Graph

/-! ## A program with two rates

A signal is brought to twice the base rate, goes through two calls at that rate, and is mixed from
an array of both. -/

namespace Rates

/-- A module with one input and one output. -/
def signature (id : Nat) (name : String) (isArray : Bool) (rate : Nat) : Signature where
  id := .ofNat id
  name := name
  parameters := [.float "x" .input .varying 1 isArray, .float "y" .output .varying rate]
  returnParameter := some 1

def up : Signature := signature 1 "up" false 2
def filter : Signature := signature 2 "filter" false 1
def mix : Signature := signature 3 "mix" true 1

def env : Environment where
  registry :=
    { modules :=
        [(up.id, .hosted up (.fixed 3)), (filter.id, .hosted filter (.fixed 5)),
         (mix.id, .hosted mix (.fixed 1))]
      names := [("filter", filter.id), ("mix", mix.id), ("up", up.id)] }
  settings := {}

def program : Description where
  inputs := [{ name := "in", type := { primitive := .float } }]
  entries :=
    [{ name := "a", kind := .call "up" 1 ["in"] },
     { name := "b", kind := .call "filter" 2 ["a"] },
     { name := "c", kind := .call "filter" 2 ["a"] },
     { name := "bc", kind := .array .float ["b", "c"] },
     { name := "d", kind := .call "mix" 2 ["bc"] }]

/-- The kinds of the nodes and what feeds them, and the nodes, types and latencies of the ports. -/
def shape (g : Graph) : List (Option (Kind × List OutputId)) ×
    List (Option (NodeId × DataType × Nat)) :=
  ((List.range 6).map fun k => (g.node? ⟨k⟩).map fun node => (node.kind, g.feeders node),
    (List.range 6).map fun k => (g.output? ⟨k⟩).map fun port =>
      (port.node, port.type, port.latency))

def float (rate : Nat) : DataType := ⟨some .float, some rate, false⟩

def programShape : List (Option (Kind × List OutputId)) ×
    List (Option (NodeId × DataType × Nat)) :=
  ([some (.input "in" (float 1), []), some (.call up 1 3, [⟨0⟩]),
    some (.call filter 2 11, [⟨1⟩]), some (.call filter 2 11, [⟨1⟩]),
    some (.array .float, [⟨2⟩, ⟨3⟩]), some (.call mix 2 12, [⟨4⟩])],
   [some (⟨0⟩, float 1, 0), some (⟨1⟩, float 2, 6), some (⟨2⟩, float 2, 11),
    some (⟨3⟩, float 2, 11), some (⟨4⟩, { float 2 with isArray := true }, 11),
    some (⟨5⟩, float 2, 12)])

theorem build_program :
    ∃ runs g, program.build env = .ok (runs, .ok g) ∧ shape g = programShape := by
  have h : (match program.build env with
      | .ok (_, .ok g) => some (shape g)
      | _ => none) = some programShape := by cbv
  split at h
  · rename_i runs g hb
    exact ⟨runs, g, hb, Option.some.inj h⟩
  · cases h

theorem node_of_shape {g : Graph} {k : Nat} {kind : Kind} {feeders : List OutputId}
    (hg : shape g = programShape) (h : programShape.1[k]? = some (some (kind, feeders))) :
    ∃ node, g.node? ⟨k⟩ = some node ∧ node.kind = kind ∧ g.feeders node = feeders := by
  rw [← hg] at h
  simp only [shape, List.getElem?_map, Option.map_eq_some_iff, Prod.mk.injEq] at h
  obtain ⟨j, hj, node, hn, hk, hf⟩ := h
  obtain ⟨hlt, rfl⟩ := List.getElem?_eq_some_iff.1 hj
  exact ⟨node, by rwa [List.getElem_range] at hn, hk, hf⟩

theorem varies_of_shape {g : Graph} {k latency : Nat} {n : NodeId} {type : DataType}
    (hg : shape g = programShape) (h : programShape.2[k]? = some (some (n, type, latency)))
    (hv : type.isConstant = false) : g.Varies n ⟨k⟩ ∧
      ∃ port, g.output? ⟨k⟩ = some port ∧ port.type = type ∧ port.latency = latency := by
  rw [← hg] at h
  simp only [shape, List.getElem?_map, Option.map_eq_some_iff, Prod.mk.injEq] at h
  obtain ⟨j, hj, port, hp, hn, ht, hl⟩ := h
  obtain ⟨hlt, rfl⟩ := List.getElem?_eq_some_iff.1 hj
  rw [List.getElem_range] at hp
  exact ⟨⟨port, hp, hn, ht ▸ hv⟩, port, hp, ht, hl⟩

/-- From the channel through `a`, `b` and the array to `d`. -/
theorem chain_program {g : Graph} (hg : shape g = programShape) :
    g.Chain [⟨5⟩, ⟨2⟩, ⟨1⟩] ⟨5⟩ := by
  obtain ⟨input, hin, hkin, -⟩ := node_of_shape (k := 0) hg rfl
  obtain ⟨a, ha, hka, hfa⟩ := node_of_shape (k := 1) hg rfl
  obtain ⟨b, hb, hkb, hfb⟩ := node_of_shape (k := 2) hg rfl
  obtain ⟨bc, hbc, hkbc, hfbc⟩ := node_of_shape (k := 4) hg rfl
  obtain ⟨d, hd, hkd, hfd⟩ := node_of_shape (k := 5) hg rfl
  obtain ⟨hv₀, -⟩ := varies_of_shape (k := 0) hg rfl rfl
  obtain ⟨hv₁, -⟩ := varies_of_shape (k := 1) hg rfl rfl
  obtain ⟨hv₂, -⟩ := varies_of_shape (k := 2) hg rfl rfl
  obtain ⟨⟨port, hport, hnode, -⟩, -⟩ := varies_of_shape (k := 4) hg rfl rfl
  obtain ⟨hv₅, -⟩ := varies_of_shape (k := 5) hg rfl rfl
  have h₁ : g.Chain [⟨1⟩] ⟨1⟩ :=
    .step (.input hin hkin hv₀) ha (by rw [hka]; rfl) ⟨a, ⟨0⟩, ha, by simp [hfa], .inl rfl⟩ hv₁
  have h₂ : g.Chain [⟨2⟩, ⟨1⟩] ⟨2⟩ :=
    .step h₁ hb (by rw [hkb]; rfl) ⟨b, ⟨1⟩, hb, by simp [hfb], .inl rfl⟩ hv₂
  have hdraws : g.Draws ⟨5⟩ ⟨2⟩ := by
    refine ⟨d, ⟨4⟩, hd, by simp [hfd], .inr ⟨port, bc, hport, hnode ▸ hbc, ?_, by simp [hfbc]⟩⟩
    rw [hkbc]
    rfl
  exact .step h₂ hd (by rw [hkd]; rfl) hdraws hv₅

end Rates

/-! ## Graphs from descriptions -/

namespace Description

/-- In a graph that was built, the delays of the calls on a chain sum up to the latency of its last
port over the rate of the port, where the delay of a call is what its own hook said, over its rate.
So all chains to a port have the same delay. -/
theorem chain_delay {env : Environment} {d : Description} {runs : List Preparation} {g : Graph}
    {calls : List NodeId} {o : OutputId} {port : OutputPort} {u : Nat}
    (h : d.build env = .ok (runs, .ok g)) (hc : g.Chain calls o) (ho : g.output? o = some port)
    (hu : port.type.factor = some u) :
    (∀ n ∈ calls, ∃ node run latency, g.node? n = some node ∧ g.run? runs n = some run ∧
      node.kind = .call run.signature run.context.factor latency) ∧
    (calls.map (g.delay runs)).sum = (port.latency : ℚ) / u ∧
    ∀ calls', g.Chain calls' o →
      (calls'.map (g.delay runs)).sum = (calls.map (g.delay runs)).sum := by
  have hadd := build_additions h
  have hg : g.Coherent := hadd.coherent .empty
  have hp : List.Forall₂ g.PreparedIn g.callIds runs := hadd.prepared .empty .nil
  have hsum {calls : List NodeId} (hc : g.Chain calls o) :
      (calls.map (g.delay runs)).sum = (port.latency : ℚ) / u :=
    hc.sum_delay hg (hadd.arrays .empty Arrays.empty) (hadd.calm .empty Calm.empty) hp port u ho hu
  refine ⟨fun n hn => ?_, hsum hc, fun calls' hc' => (hsum hc').trans (hsum hc).symm⟩
  obtain ⟨node, hlive, hk⟩ := hc.isCall n hn
  obtain ⟨run, hrun, ⟨latency, arguments, p, ⟨node', hn', hk', -⟩, -⟩, -⟩ :=
    delay_of_prepared hg hp hlive hk
  exact ⟨node', run, latency, hn', hrun, hk'⟩

theorem chain_delay_program :
    ∃ runs g port, Rates.program.build Rates.env = .ok (runs, .ok g) ∧
      g.Chain [⟨5⟩, ⟨2⟩, ⟨1⟩] ⟨5⟩ ∧ g.output? ⟨5⟩ = some port ∧
      port.type.factor = some 2 ∧ port.latency = 12 ∧
      (([⟨5⟩, ⟨2⟩, ⟨1⟩] : List NodeId).map (g.delay runs)).sum = (port.latency : ℚ) / 2 := by
  obtain ⟨runs, g, hb, hg⟩ := Rates.build_program
  obtain ⟨-, port, hport, htype, hlat⟩ := Rates.varies_of_shape (k := 5) hg rfl rfl
  have hu : port.type.factor = some 2 := htype ▸ rfl
  have hc := Rates.chain_program hg
  exact ⟨runs, g, port, hb, hc, hport, hu, hlat, (chain_delay hb hc hport hu).2.1⟩

end Description

end SignalGraph
