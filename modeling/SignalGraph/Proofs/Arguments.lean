import SignalGraph.Proofs.Additions
import SignalGraph.Proofs.Plans

/-!
# Calls with what feeds them

`CallAt` says which ports feed a call. `Arrays` says that the arrays of a graph are as they were
made: variable elements have the rate of the array, and the latest of them its latency. It holds of
every graph that was built (`Additions.arrays`). With it, a planned call sees every variable
argument with the latency of the plan, whether the argument brings in its own latency or those of
its elements (`Planned.aligned_argument`).
-/

namespace SignalGraph

open SignalGraph.Graph

namespace Graph

variable {b : List OutputId} {g g' : Graph} {n : NodeId} {s : Signature} {factor latency : Nat}
  {arguments : List OutputId}

/-- A call, and the ports that feed it. -/
def CallAt (g : Graph) (n : NodeId) (s : Signature) (factor latency : Nat)
    (arguments : List OutputId) : Prop :=
  ∃ node, g.node? n = some node ∧ node.kind = .call s factor latency ∧
    node.inputs.map g.source? = arguments.map some

theorem CallAt.grown (hg : g.Coherent) (h : Grown b g g')
    (hc : g.CallAt n s factor latency arguments) : g'.CallAt n s factor latency arguments := by
  obtain ⟨node, hn, hk, hs⟩ := hc
  refine ⟨node, h.node?_eq_some hn, hk, hs ▸ List.map_congr_left fun i hi => ?_⟩
  obtain ⟨port, hp, -⟩ := owner?_eq_some.1 ((hg.mem_inputs hn).1 hi)
  exact h.source? (lt_of_input? hp)

section Inserted

variable {kind : Kind} {location : Option Location} {sources : List OutputId}
  {results : List (DataType × Nat)}

theorem Inserted.grown (hg : g.Coherent) (h : Inserted g kind location sources results g') :
    Grown sources g g' :=
  (Grown.refl hg sources).insert hg h fun _ ho => .inr ho

theorem Inserted.callAt (h : Inserted g (.call s factor latency) location sources results g') :
    g'.CallAt g.nextNode s factor latency sources := by
  have hn := h.node? g.nextNode
  rw [if_pos rfl] at hn
  exact ⟨_, hn, rfl, h.map_source?⟩

/-- What comes out of the new node is one of its results, and other ports are as they were. -/
theorem Inserted.output?_cases (hg : g.Coherent) (h : Inserted g kind location sources results g')
    {o : OutputId} {port : OutputPort} (ho : g'.output? o = some port) :
    port.node = g.nextNode ∧ (port.type, port.latency) ∈ results ∨
      port.node ≠ g.nextNode ∧ ∃ p, g.output? o = some p ∧ p.node = port.node ∧
        p.type = port.type ∧ p.latency = port.latency := by
  have hb : g'.bare? o = some port.bare := bare?_eq_some.2 ⟨port, ho, rfl⟩
  rw [h.bare?] at hb
  split at hb
  · obtain ⟨p, hp, hbare⟩ := bare?_eq_some.1 hb
    simp only [OutputPort.bare, OutputPort.mk.injEq] at hbare
    obtain ⟨-, hnode, htype, hlat, -⟩ := hbare
    refine .inr ⟨fun hn => ?_, p, hp, hnode, htype, hlat⟩
    obtain ⟨node, hlive, -⟩ := hg.node_of_output? hp
    rw [hnode, hn, node?_nextNode] at hlive
    cases hlive
  · obtain ⟨r, hr, hbare⟩ := Option.map_eq_some_iff.1 hb
    simp only [OutputPort.bare, OutputPort.mk.injEq] at hbare
    obtain ⟨-, hnode, htype, hlat, -⟩ := hbare
    refine .inl ⟨hnode.symm, ?_⟩
    rw [← htype, ← hlat]
    exact List.mem_of_getElem? hr

end Inserted

/-! ## Arrays -/

/-- A port in both graphs, with the same type and latency. -/
theorem like_of_bare? {o : OutputId} {port : OutputPort} (ho : g.output? o = some port)
    (hb : g'.bare? o = some port.bare) : Like g g' o o := by
  obtain ⟨port', ho', hbare⟩ := bare?_eq_some.1 hb
  simp only [OutputPort.bare, OutputPort.mk.injEq] at hbare
  exact ⟨port, port', ho, ho', hbare.2.2.1.symm, hbare.2.2.2.1.symm⟩

theorem Grown.like (h : Grown b g g') {o : OutputId} {port : OutputPort}
    (ho : g.output? o = some port) : Like g g' o o :=
  like_of_bare? ho ((h.bare? (lt_of_output? ho)).trans (bare?_eq_some.2 ⟨port, ho, rfl⟩))

/-- Everything in the second of two lists belongs to something in the first. -/
theorem exists_of_mem_right {α β : Type} {R : α → β → Prop} {as : List α} {cs : List β} {c : β}
    (h : List.Forall₂ R as cs) (hc : c ∈ cs) : ∃ a ∈ as, R a c := by
  induction h with
  | nil => cases hc
  | @cons a c' as cs ha _ ih =>
    rcases List.mem_cons.1 hc with rfl | hc
    · exact ⟨a, List.mem_cons_self, ha⟩
    · obtain ⟨x, hx, hxc⟩ := ih hc
      exact ⟨x, List.mem_cons_of_mem a hx, hxc⟩

/-- The type and the latency of an array depend on the types and latencies of its elements. -/
theorem ArrayOf.like {element : Primitive} {as cs : List OutputId} {r : DataType × Nat}
    (hl : List.Forall₂ (Like g g') as cs) (h : ArrayOf g element as r) :
    ArrayOf g' element cs r := by
  refine ⟨h.sound, h.primitive, h.isArray, fun {c} hc => ?_, fun {c q u} hc hq hu => ?_,
    h.constant, fun {u} hu => ?_⟩
  · obtain ⟨a, ha, p, q, hp, hq, ht, -⟩ := exists_of_mem_right hl hc
    obtain ⟨p', hp', helement⟩ := h.live ha
    obtain rfl : p = p' := Option.some.inj (hp.symm.trans hp')
    exact ⟨q, hq, ht ▸ helement⟩
  · obtain ⟨a, ha, p, q', hp, hq', ht, hla⟩ := exists_of_mem_right hl hc
    obtain rfl : q' = q := Option.some.inj (hq'.symm.trans hq)
    have hv := h.varying ha hp (ht ▸ hu)
    exact ⟨hv.1, hla ▸ hv.2⟩
  · obtain ⟨a, ha, p, hp, hpu, hlat⟩ := h.attained hu
    obtain ⟨c, hc, p', q, hp', hq, ht, hla⟩ := exists_of_mem_right hl.flip ha
    obtain rfl : p = p' := Option.some.inj (hp.symm.trans hp')
    exact ⟨c, hc, q, hq, ht ▸ hpu, hla ▸ hlat⟩

/-- What feeds a node. -/
def feeders (g : Graph) (node : Node) : List OutputId :=
  node.inputs.filterMap g.source?

/-- The outputs of arrays are as they were made from the elements. -/
def Arrays (g : Graph) : Prop :=
  ∀ ⦃node : Node⦄ ⦃element : Primitive⦄ ⦃a : OutputId⦄ ⦃port : OutputPort⦄,
    g.output? a = some port → g.node? port.node = some node → node.kind = .array element →
    ArrayOf g element (g.feeders node) (port.type, port.latency)

theorem Grown.feeders (hg : g.Coherent) (h : Grown b g g') {node : Node}
    (hn : g.node? n = some node) : g'.feeders node = g.feeders node := by
  refine List.filterMap_congr fun i hi => ?_
  obtain ⟨port, hp, -⟩ := owner?_eq_some.1 ((hg.mem_inputs hn).1 hi)
  exact h.source? (lt_of_input? hp)

theorem Coherent.feeders_live (hg : g.Coherent) {node : Node} {o : OutputId}
    (ho : o ∈ g.feeders node) : ∃ port, g.output? o = some port := by
  obtain ⟨i, -, hs⟩ := List.mem_filterMap.1 ho
  exact hg.source_live hs

theorem Inserted.feeders {kind : Kind} {location : Option Location} {sources : List OutputId}
    {results : List (DataType × Nat)} {node : Node}
    (h : Inserted g kind location sources results g') (hn : g'.node? g.nextNode = some node) :
    g'.feeders node = sources := by
  rw [h.node?, if_pos rfl] at hn
  cases hn
  have hs := congrArg (List.filterMap id) h.map_source?
  simpa [List.filterMap_map, Graph.feeders] using hs

theorem CallAt.feeders {node : Node} (hn : g.node? n = some node)
    (h : g.CallAt n s factor latency arguments) : g.feeders node = arguments := by
  obtain ⟨node', hn', -, hs⟩ := h
  obtain rfl : node = node' := Option.some.inj (hn.symm.trans hn')
  have hm := congrArg (List.filterMap id) hs
  simpa [List.filterMap_map, Graph.feeders] using hm

theorem Arrays.empty : Arrays {} := by
  intro node element a port ha
  cases ha

theorem Arrays.withSurface (hg : g.Coherent) (h : g.Arrays) (s : Surface) :
    { g with surface := s : Graph }.Arrays := by
  intro node element a port hp hn hk
  refine (h hp hn hk).like (List.forall₂_same.2 fun o ho => ?_)
  obtain ⟨out, hout⟩ := hg.feeders_live ho
  exact ⟨out, out, hout, hout, rfl, rfl⟩

/-- A new node leaves the arrays as they are. -/
theorem Arrays.inserted {kind : Kind} {location : Option Location} {sources : List OutputId}
    {results : List (DataType × Nat)} (hg : g.Coherent) (h : g.Arrays)
    (hi : Inserted g kind location sources results g')
    (hnew : ∀ element, kind = .array element → ∀ r ∈ results, ArrayOf g element sources r) :
    g'.Arrays := by
  have hgrown := hi.grown hg
  intro node element a port ha hn hk
  rcases hi.output?_cases hg ha with ⟨hm, hmem⟩ | ⟨hm, p, hp, hpn, ht, hla⟩
  · rw [hm] at hn
    rw [hi.feeders hn]
    rw [hi.node?, if_pos rfl] at hn
    cases hn
    refine (hnew element hk _ hmem).like (List.forall₂_same.2 fun o ho => ?_)
    obtain ⟨out, hout⟩ := hi.sources_live o ho
    exact hgrown.like hout
  · rw [hi.node?, if_neg hm] at hn
    rw [← ht, ← hla, hgrown.feeders hg hn]
    refine (h hp (hpn ▸ hn) hk).like (List.forall₂_same.2 fun o ho => ?_)
    obtain ⟨out, hout⟩ := hg.feeders_live ho
    exact hgrown.like hout

end Graph

theorem Addition.arrays {env : Environment} {g g' : Graph} {runs : List Preparation}
    (hg : g.Coherent) (h : Addition env g runs g') (ha : g.Arrays) : g'.Arrays := by
  cases h with
  | plain _ hk _ h =>
    refine ha.inserted hg (inserted_of_insert hg h).2 ?_
    rintro element rfl
    cases hk
  | array hres h =>
    refine ha.inserted hg (inserted_of_insert hg h).2 ?_
    rintro element ⟨⟩
    simpa using arrayOf_of_arrayResult hres
  | call _ h =>
    simp only [Call.Ready.insert, bind_eq_ok] at h
    obtain ⟨latency, -, results, -, h⟩ := h
    exact ha.inserted hg (inserted_of_insert hg h).2 nofun
  | surface s => exact ha.withSurface hg s

theorem Additions.arrays {env : Environment} {g g' : Graph} {runs : List Preparation}
    (hg : g.Coherent) (h : Additions env g runs g') (ha : g.Arrays) : g'.Arrays := by
  induction h with
  | nil => exact ha
  | snoc hs hstep ih => exact hstep.arrays (hs.coherent hg) ih

/-! ## Late ports -/

theorem DataType.isConstant_eq_false {t : DataType} :
    t.isConstant = false ↔ ∃ u, t.factor = some u := by
  simp [isConstant, ← Option.isSome_iff_exists]

namespace Call

variable {b : List OutputId} {g g' : Graph} {s : Signature} {factor : Nat}
  {arguments : List OutputId} {p : CallPlan} {a o : OutputId} {port : OutputPort} {node : Node}

theorem live_of_latePorts {l : List OutputId} (h : latePorts g a = .ok l) :
    ∃ port, g.output? a = some port := by
  obtain ⟨port, hp, -⟩ := bind_eq_ok.1 h
  exact ⟨port, output_eq_ok.1 hp⟩

/-- An argument brings in its own latency, or those of its variable elements. -/
theorem mem_late (hg : g.Coherent) (hp : g.output? a = some port)
    (hn : g.node? port.node = some node) :
    o ∈ late g a ↔ port.type.isConstant = false ∧ (node.kind.isArray = false ∧ o = a ∨
      node.kind.isArray = true ∧ o ∈ g.feeders node ∧
        ∃ out, g.output? o = some out ∧ out.type.isConstant = false) := by
  have hlate : late g a = if port.type.isConstant then [] else if node.kind.isArray then
      (g.feeders node).filter fun o => (g.output? o).any fun element => !element.type.isConstant
      else [a] :=
    late_eq (hg.latePorts_eq hp hn)
  rw [hlate]
  cases hc : port.type.isConstant
  · cases hk : node.kind.isArray
    · simp
    · cases ho : g.output? o <;> simp [ho]
  · simp

/-- A planned call sees every variable element of an array with the latency of the plan, and at the
rate of the array. -/
theorem Planned.aligned_element {out : OutputPort} (hg : g.Coherent) (harr : g.Arrays)
    (h : Planned g s factor arguments p) (ha : a ∈ arguments) (hp : g.output? a = some port)
    (hn : g.node? port.node = some node) (hk : node.kind.isArray = true)
    (ho : o ∈ g.feeders node) (hout : g.output? o = some out)
    (hv : out.type.isConstant = false) :
    Aligned factor p.inputLatency out ∧ port.type.factor = out.type.factor := by
  obtain ⟨element, hkind⟩ := Kind.isArray_iff.1 hk
  obtain ⟨u, hu⟩ := DataType.isConstant_eq_false.1 hv
  -- An array with a variable element varies.
  obtain ⟨hfac : port.type.factor = some u, -⟩ := (harr hp hn hkind).varying ho hout hu
  have hvary := DataType.isConstant_eq_false.2 ⟨u, hfac⟩
  obtain ⟨out', hout', hal⟩ := h.aligned a ha o ((mem_late hg hp hn).2
    ⟨hvary, .inr ⟨hk, ho, out, hout, hv⟩⟩)
  obtain rfl : out = out' := Option.some.inj (hout.symm.trans hout')
  exact ⟨hal, hfac.trans hu.symm⟩

theorem Aligned.like {port' : OutputPort} {latency : Nat}
    (hfac : port'.type.factor = port.type.factor) (hla : port'.latency = port.latency)
    (h : Aligned factor latency port) : Aligned factor latency port' := by
  rwa [Aligned, hfac, hla]

/-- A planned call sees every variable argument with the latency of the plan. -/
theorem Planned.aligned_argument (hg : g.Coherent) (harr : g.Arrays)
    (h : Planned g s factor arguments p) (ha : a ∈ arguments) (hp : g.output? a = some port)
    (hv : port.type.isConstant = false) : Aligned factor p.inputLatency port := by
  obtain ⟨node, hn, -⟩ := hg.node_of_output? hp
  cases hk : node.kind.isArray with
  | false =>
    obtain ⟨port', hp', hal⟩ := h.aligned a ha a ((mem_late hg hp hn).2 ⟨hv, .inl ⟨hk, rfl⟩⟩)
    obtain rfl : port = port' := Option.some.inj (hp.symm.trans hp')
    exact hal
  | true =>
    obtain ⟨element, hkind⟩ := Kind.isArray_iff.1 hk
    obtain ⟨u, hu⟩ := DataType.isConstant_eq_false.1 hv
    -- The latest element has the rate and the latency of the array.
    obtain ⟨o, ho, out, hout, hfac, hlat⟩ := (harr hp hn hkind).attained hu
    obtain ⟨hal, hrate⟩ := h.aligned_element hg harr ha hp hn hk ho hout
      (DataType.isConstant_eq_false.2 ⟨u, hfac⟩)
    exact hal.like hrate hlat.symm

/-! ## Arguments that are like others -/

section Like

variable {as cs : List OutputId} (hl : List.Forall₂ (Like g g') as cs)

include hl

theorem accepts_like (parameters : List Parameter)
    (h : ∀ q ∈ parameters.zip as, ∃ port, g.output? q.2 = some port ∧
      Accepts q.1.type factor port.type) :
    ∀ q ∈ parameters.zip cs, ∃ port, g'.output? q.2 = some port ∧
      Accepts q.1.type factor port.type := by
  induction hl generalizing parameters with
  | nil => simp
  | cons hx _ ih =>
    cases parameters with
    | nil => simp
    | cons parameter parameters =>
      obtain ⟨⟨port, hp, hacc⟩, h⟩ := List.forall_mem_cons.1 h
      obtain ⟨q, q', hq, hq', ht, -⟩ := hx
      obtain rfl : port = q := Option.some.inj (hp.symm.trans hq)
      exact List.forall_mem_cons.2 ⟨⟨q', hq', ht ▸ hacc⟩, ih parameters h⟩

theorem dependentOn_like (parameters : List Parameter) :
    dependentOn g' (parameters.zip cs) = dependentOn g (parameters.zip as) := by
  induction hl generalizing parameters with
  | nil => simp [dependentOn]
  | cons hx _ ih =>
    cases parameters with
    | nil => rfl
    | cons parameter parameters =>
      obtain ⟨q, q', hq, hq', ht, -⟩ := hx
      have hrest := ih parameters
      simp only [dependentOn] at hrest
      simp only [dependentOn, List.zip_cons_cons, List.all_cons, hq, hq', Option.any_some, ht,
        hrest]

end Like

/-- A plan depends on the types, the latencies and the late ports of the arguments. -/
theorem Planned.congr (hlike : ∀ o port, g.output? o = some port → Like g g' o o)
    (hports : ∀ o port, g.output? o = some port → latePorts g' o = latePorts g o)
    (h : Planned g s factor arguments p) : Planned g' s factor arguments p := by
  have hargs (a : OutputId) (ha : a ∈ arguments) :
      Like g g' a a ∧ latePorts g' a = latePorts g a := by
    obtain ⟨l, hl⟩ := h.live a ha
    obtain ⟨port, hp⟩ := live_of_latePorts hl
    exact ⟨hlike a port hp, hports a port hp⟩
  have hlikes : List.Forall₂ (Like g g') arguments arguments :=
    List.forall₂_same.2 fun a ha => (hargs a ha).1
  have hlate (a : OutputId) (ha : a ∈ arguments) : late g' a = late g a := by
    rw [late, late, (hargs a ha).2]
  refine ⟨h.positive, h.arity, accepts_like hlikes _ h.accepts,
    h.dependent.trans (dependentOn_like hlikes _).symm,
    fun a ha => (hargs a ha).2 ▸ h.live a ha,
    fun a ha o ho => ?_, fun hnone => h.quiet fun a ha => hlate a ha ▸ hnone a ha⟩
  obtain ⟨port, hp, hal⟩ := h.aligned a ha o (hlate a ha ▸ ho)
  obtain ⟨q, q', hq, hq', ht, hla⟩ := hlike o port hp
  obtain rfl : port = q := Option.some.inj (hp.symm.trans hq)
  exact ⟨q', hq', hal.like (ht ▸ rfl) hla.symm⟩

/-- Nodes that are added later do not change a plan. -/
theorem Planned.grown (hg : g.Coherent) (hgrown : Grown b g g')
    (h : Planned g s factor arguments p) : Planned g' s factor arguments p :=
  h.congr (fun _ _ hp => hgrown.like hp) fun _ _ hp => hgrown.latePorts hg hp

theorem Planned.withSurface (h : Planned g s factor arguments p) (surface : Surface) :
    Planned { g with surface } s factor arguments p :=
  Planned.congr (g := g) (fun _ port hp => ⟨port, port, hp, hp, rfl, rfl⟩) (fun _ _ _ => rfl) h

end Call

end SignalGraph
