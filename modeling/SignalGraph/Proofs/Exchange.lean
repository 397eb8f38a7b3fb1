import SignalGraph.Proofs.Arguments
import SignalGraph.Proofs.Safety

/-!
# Ports in the place of others

A graph changes, and a port takes the place of another one with the same type and the same latency
(`Exchanged`). So it is when a graph grows, when consumers are redirected and when garbage is
collected; in the last two cases nothing is new (`Follows`).

Calls that were planned before still fit their arguments (`Suits`), as far as the types and
latencies of the arguments tell. A plan looks further, into arrays. So such a call can be planned
again exactly if the arrays among its arguments are *even*: all their variable elements are equally
late (`Suits.planned_iff`).
-/

namespace SignalGraph

namespace Graph

variable {b d : List OutputId} {g g' : Graph} {n : NodeId} {node : Node} {a : OutputId}

/-! ## Exchanged ports -/

/-- Where `a` fed, `c` does now: the same port or one of `b`, with the same type and latency. -/
def Instead (b : List OutputId) (g g' : Graph) (a c : OutputId) : Prop :=
  (c = a ∨ c ∈ b) ∧ Like g g' a c

/-- What is in both graphs is the same in both, except that ports of `b` may feed nodes in the place
of others with the same types and latencies. -/
structure Exchanged (b : List OutputId) (g g' : Graph) : Prop where
  node? {n : NodeId} {node node' : Node} : g.node? n = some node → g'.node? n = some node' →
    node' = node
  bare? {o : OutputId} {port port' : OutputPort} : g.bare? o = some port →
    g'.bare? o = some port' → port' = port
  fed {n : NodeId} {node : Node} {i : InputId} : g.node? n = some node → g'.node? n = some node →
    i ∈ node.inputs → Option.Rel (Instead b g g') (g.source? i) (g'.source? i)

/-- An input that is fed from the same port. -/
theorem fed_of_source?_eq {i : InputId} (hs : g'.source? i = g.source? i)
    (hl : ∀ o, g.source? i = some o → Like g g' o o) :
    Option.Rel (Instead b g g') (g.source? i) (g'.source? i) := by
  rw [hs]
  cases ho : g.source? i with
  | none => exact .none
  | some o => exact .some ⟨.inl rfl, hl o ho⟩

theorem Grown.exchanged (hg : g.Coherent) (h : Grown d g g') : Exchanged b g g' where
  node? hn hn' := Option.some.inj (hn'.symm.trans (h.node?_eq_some hn))
  bare? {o port port'} ho ho' := by
    obtain ⟨p, hp, -⟩ := bare?_eq_some.1 ho
    rw [h.bare? (lt_of_output? hp), ho] at ho'
    exact (Option.some.inj ho').symm
  fed {n node i} hn _ hi := by
    obtain ⟨port, hp, -⟩ := owner?_eq_some.1 ((hg.mem_inputs hn).1 hi)
    refine fed_of_source?_eq (h.source? (lt_of_input? hp)) fun o ho => ?_
    obtain ⟨out, hout⟩ := hg.source_live ho
    exact h.like hout

/-- Ports of `b` may have taken the place of others, and nothing in `g'` is new. -/
structure Follows (b : List OutputId) (g g' : Graph) : Prop extends Exchanged b g g' where
  coherent : g'.Coherent
  old {n : NodeId} {node : Node} : g'.node? n = some node → g.node? n = some node
  port {o : OutputId} {port : OutputPort} : g'.bare? o = some port → g.bare? o = some port

theorem follows_of_old (hg' : g'.Coherent)
    (old : ∀ {n node}, g'.node? n = some node → g.node? n = some node)
    (port : ∀ {o port}, g'.bare? o = some port → g.bare? o = some port)
    (fed : ∀ {n node i}, g'.node? n = some node → i ∈ node.inputs →
      Option.Rel (Instead b g g') (g.source? i) (g'.source? i)) : Follows b g g' where
  node? hn hn' := Option.some.inj ((old hn').symm.trans hn)
  bare? ho ho' := Option.some.inj ((port ho').symm.trans ho)
  fed _ hn' hi := fed hn' hi
  coherent := hg'
  old := old
  port := port

theorem Redirected.follows {before after : OutputId} {out out' : OutputPort} (hg : g.Coherent)
    (h : Redirected g before after g') (ho : g.output? before = some out)
    (ha : g.output? after = some out') (ht : out'.type = out.type)
    (hla : out'.latency = out.latency) : Follows [after] g g' := by
  have hlike {x : OutputId} {port : OutputPort} (hx : g.output? x = some port) : Like g g' x x :=
    like_of_bare? hx ((h.bare? x).trans (bare?_eq_some.2 ⟨port, hx, rfl⟩))
  refine follows_of_old h.coherent (fun hn => h.node? _ ▸ hn) (fun hp => h.bare? _ ▸ hp)
    fun {n node i} _ _ => ?_
  by_cases hs : g.source? i = some before
  · -- The port before fed the input, and now the one after it does.
    obtain ⟨p, p', hp, hp', htype, hlat⟩ := hlike ha
    obtain rfl : out' = p := Option.some.inj (ha.symm.trans hp)
    rw [h.source?, if_pos hs, hs]
    exact .some ⟨.inr List.mem_cons_self, out, p', ho, hp', ht.symm.trans htype,
      hla.symm.trans hlat⟩
  · refine fed_of_source?_eq (by rw [h.source?, if_neg hs]) fun o hso => ?_
    obtain ⟨port, hport⟩ := hg.source_live hso
    exact hlike hport

theorem Pruned.follows (hg : g.Coherent) (h : Pruned g g') : Follows b g g' := by
  refine follows_of_old h.coherent h.node? h.bare? fun {n node i} hn' hi => ?_
  have hin := h.input?_of_owner? hg hn' ((hg.mem_inputs (h.node? hn')).1 hi)
  have hs : g'.source? i = g.source? i := source?_congr hin
  refine fed_of_source?_eq hs fun o ho => ?_
  -- What feeds a node that is still there is still there.
  obtain ⟨out', hout'⟩ := h.coherent.source_live (hs.trans ho)
  have hb' : g'.bare? o = some out'.bare := bare?_eq_some.2 ⟨out', hout', rfl⟩
  obtain ⟨out, hout, hbare⟩ := bare?_eq_some.1 (h.bare? hb')
  exact like_of_bare? hout (hbare ▸ hb')

theorem Restored.follows (hg : g.Coherent) (h : Restored g g') : Follows b g g' := by
  refine follows_of_old h.coherent (fun hn => h.node? _ ▸ hn) (fun {o port} hp => ?_)
    fun {n node i} _ _ => ?_
  · rwa [Graph.bare?, h.output?, ← Graph.bare?] at hp
  · refine fed_of_source?_eq (source?_congr (h.input? i)) fun o ho => ?_
    obtain ⟨out, hout⟩ := hg.source_live ho
    exact ⟨out, out, hout, (h.output? o).trans hout, rfl, rfl⟩

theorem Instead.trans {g'' : Graph} {a c e : OutputId} (h : Instead b g g' a c)
    (h' : Instead b g' g'' c e) : Instead b g g'' a e := by
  obtain ⟨hc, p, q, hp, hq, ht, hla⟩ := h
  obtain ⟨he, q', r, hq', hr, ht', hla'⟩ := h'
  obtain rfl : q = q' := Option.some.inj (hq.symm.trans hq')
  refine ⟨?_, p, r, hp, hr, ht.trans ht', hla.trans hla'⟩
  rcases he with rfl | he
  · exact hc
  · exact .inr he

theorem Follows.trans {g'' : Graph} (h : Follows b g g') (h' : Follows b g' g'') :
    Follows b g g'' := by
  refine follows_of_old h'.coherent (fun hn => h.old (h'.old hn)) (fun hp => h.port (h'.port hp))
    fun {n node i} hn hi => ?_
  have hfirst := h.fed (h.old (h'.old hn)) (h'.old hn) hi
  have hsecond := h'.fed (h'.old hn) hn hi
  generalize g.source? i = x at hfirst ⊢
  generalize g'.source? i = y at hfirst hsecond
  generalize g''.source? i = z at hsecond ⊢
  cases hfirst with
  | none =>
    cases hsecond with
    | none => exact .none
  | some hac =>
    cases hsecond with
    | some hce => exact .some (hac.trans hce)

/-- What stands against a list of values are values. -/
theorem exists_of_rel_some {α β : Type} {R : α → β → Prop} {as : List α} {l : List (Option β)}
    (h : List.Forall₂ (Option.Rel R) (as.map some) l) :
    ∃ cs, l = cs.map some ∧ List.Forall₂ R as cs := by
  induction as generalizing l with
  | nil =>
    cases h
    exact ⟨[], rfl, .nil⟩
  | cons a as ih =>
    cases h with
    | cons hr hrest =>
      obtain ⟨cs, rfl, hcs⟩ := ih hrest
      cases hr with
      | @some _ c hac => exact ⟨c :: cs, rfl, .cons hac hcs⟩

namespace Exchanged

theorem output? (h : Exchanged b g g') {port port' : OutputPort} (ho : g.output? a = some port)
    (ho' : g'.output? a = some port') :
    port'.node = port.node ∧ port'.type = port.type ∧ port'.latency = port.latency := by
  have hbare := h.bare? (bare?_eq_some.2 ⟨port, ho, rfl⟩) (bare?_eq_some.2 ⟨port', ho', rfl⟩)
  simp only [OutputPort.bare, OutputPort.mk.injEq] at hbare
  exact ⟨hbare.2.1, hbare.2.2.1, hbare.2.2.2.1⟩

theorem feeders (h : Exchanged b g g') (hn : g.node? n = some node)
    (hn' : g'.node? n = some node) :
    List.Forall₂ (Instead b g g') (g.feeders node) (g'.feeders node) :=
  List.rel_filterMap (R := fun i j => Option.Rel (Instead b g g') (g.source? i) (g'.source? j))
    (fun _ _ hr => hr) (List.forall₂_same.2 fun _ hi => h.fed hn hn' hi)

/-- A call that is still there is fed from ports in the place of those that fed it. -/
theorem callAt {s : Signature} {factor latency : Nat} {arguments : List OutputId}
    (h : Exchanged b g g') (hc : g.CallAt n s factor latency arguments)
    (hn' : g'.node? n = some node) : ∃ arguments', g'.CallAt n s factor latency arguments' ∧
      List.Forall₂ (Instead b g g') arguments arguments' := by
  obtain ⟨node₀, hn, hk, hs⟩ := hc
  obtain rfl := h.node? hn hn'
  have hfed : List.Forall₂ (Option.Rel (Instead b g g')) (node.inputs.map g.source?)
      (node.inputs.map g'.source?) :=
    List.forall₂_map_left_iff.2 (List.forall₂_map_right_iff.2
      (List.forall₂_same.2 fun _ hi => h.fed hn hn' hi))
  rw [hs] at hfed
  obtain ⟨arguments', hs', hinstead⟩ := exists_of_rel_some hfed
  exact ⟨arguments', ⟨node, hn', hk, hs'⟩, hinstead⟩

end Exchanged

/-! ## Arrays -/

/-- Arrays that are still there are as they were made from what feeds them now. -/
theorem Arrays.follows (h : Follows b g g') (harr : g.Arrays) : g'.Arrays := by
  intro node element a port' ha' hn' hk
  have hn := h.old hn'
  obtain ⟨port, ha, -⟩ := bare?_eq_some.1 (h.port (bare?_eq_some.2 ⟨port', ha', rfl⟩))
  obtain ⟨hnode, ht, hla⟩ := h.output? ha ha'
  rw [ht, hla]
  exact (harr ha (hnode ▸ hn) hk).like ((h.feeders hn hn').imp fun _ _ hi => hi.2)

/-- If `a` comes out of an array, the variable elements of the array are all as late as it is. -/
def Even (g : Graph) (a : OutputId) : Prop :=
  ∀ port node, g.output? a = some port → g.node? port.node = some node →
    node.kind.isArray = true → ∀ o ∈ g.feeders node, ∀ out, g.output? o = some out →
    out.type.isConstant = false → out.latency = port.latency

theorem even_of_not_isArray (ha : g.maker? a = some n) (hn : g.node? n = some node)
    (hk : node.kind.isArray = false) : g.Even a := by
  intro port node' hp hn' hk'
  obtain rfl : port.node = n := Option.some.inj ((maker?_eq_some.2 ⟨port, hp, rfl⟩).symm.trans ha)
  obtain rfl : node = node' := Option.some.inj (hn.symm.trans hn')
  rw [hk] at hk'
  cases hk'

theorem Even.exchanged {port : OutputPort} (hg : g.Coherent) (h : Exchanged b g g')
    (ha : g.output? a = some port) (he : g.Even a) : g'.Even a := by
  intro port' node ha' hn' hk o ho out hout hv
  obtain ⟨hnode, -, hla⟩ := h.output? ha ha'
  obtain ⟨node₀, hn, -⟩ := hg.node_of_output? ha
  rw [hnode] at hn'
  obtain rfl := h.node? hn hn'
  obtain ⟨x, hx, -, p, q, hp, hq, ht, hlat⟩ := exists_of_mem_right (h.feeders hn hn') ho
  obtain rfl : out = q := Option.some.inj (hout.symm.trans hq)
  rw [hla, ← hlat]
  exact he port node ha hn hk x hx p hp (ht ▸ hv)

/-- Everything that feeds a call is even. -/
def EvenCalls (g : Graph) : Prop :=
  ∀ n node, g.node? n = some node → node.kind.isCall = true → ∀ a ∈ g.feeders node, g.Even a

/-- What a pattern binds inside of a match is even: elements of arrays are no arrays. -/
theorem Inner.even (harr : g.Arrays) (hcalls : g.EvenCalls) (h : g.Inner a) : g.Even a := by
  cases h with
  | argument hn hk hi hs => exact hcalls _ _ hn hk a (List.mem_filterMap.2 ⟨_, hi, hs⟩)
  | element hp hn hk hi hs =>
    intro port node ha hnode hkind
    obtain ⟨_, hel⟩ := Kind.isArray_iff.1 hkind
    have htrue := (harr ha hnode hel).isArray
    obtain ⟨port', ha', -, hfalse⟩ := (harr hp hn hk).live (List.mem_filterMap.2 ⟨_, hi, hs⟩)
    obtain rfl : port = port' := Option.some.inj (ha.symm.trans ha')
    rw [hfalse] at htrue
    cases htrue
  | @result n node hm hn hk =>
    obtain ⟨s, factor, latency, hkind⟩ := Kind.isCall_iff.1 hk
    exact even_of_not_isArray hm hn (by rw [hkind]; rfl)

theorem EvenCalls.follows (hg : g.Coherent) (h : Follows b g g') (hb : ∀ o ∈ b, g'.Even o)
    (he : g.EvenCalls) : g'.EvenCalls := by
  intro n node hn' hk c hc
  have hn := h.old hn'
  obtain ⟨a, ha, hc, -⟩ := exists_of_mem_right (h.feeders hn hn') hc
  rcases hc with rfl | hc
  · obtain ⟨port, hport⟩ := hg.feeders_live ha
    exact (he n node hn hk c ha).exchanged hg h.toExchanged hport
  · exact hb c hc

end Graph

/-! ## Calls and their arguments -/

namespace Call

open SignalGraph.Graph

variable {g g' : Graph} {s : Signature} {factor : Nat} {arguments as cs : List OutputId}
  {p : CallPlan}

/-- The arguments fit the parameters, and `p` would be the plan for them if they brought in their
own latencies only. -/
structure Suits (g : Graph) (s : Signature) (factor : Nat) (arguments : List OutputId)
    (p : CallPlan) : Prop where
  positive : 0 < factor
  arity : arguments.length = s.inputs.length
  accepts : ∀ q ∈ (s.inputs.map Prod.fst).zip arguments, ∃ port, g.output? q.2 = some port ∧
    Accepts q.1.type factor port.type
  dependent : p.dependentConstant = dependentOn g ((s.inputs.map Prod.fst).zip arguments)
  live : ∀ a ∈ arguments, ∃ port, g.output? a = some port
  aligned : ∀ a ∈ arguments, ∀ port, g.output? a = some port → port.type.isConstant = false →
    Aligned factor p.inputLatency port
  quiet : (∀ a ∈ arguments, ∀ port, g.output? a = some port → port.type.isConstant = true) →
    p.inputLatency = 0

/-- Ports with the same types and latencies suit a call as well. -/
theorem Suits.like (hl : List.Forall₂ (Like g g') as cs) (h : Suits g s factor as p) :
    Suits g' s factor cs p := by
  refine ⟨h.positive, hl.length_eq ▸ h.arity, accepts_like hl _ h.accepts,
    h.dependent.trans (dependentOn_like hl _).symm, fun c hc => ?_, fun c hc port hp hv => ?_,
    fun hconst => h.quiet fun a ha port hp => ?_⟩
  · obtain ⟨a, -, -, q, -, hq, -⟩ := exists_of_mem_right hl hc
    exact ⟨q, hq⟩
  · obtain ⟨a, ha, q, q', hq, hq', ht, hla⟩ := exists_of_mem_right hl hc
    obtain rfl : port = q' := Option.some.inj (hp.symm.trans hq')
    exact (h.aligned a ha q hq (ht ▸ hv)).like (ht ▸ rfl) hla.symm
  · obtain ⟨c, hc, q, q', hq, hq', ht, -⟩ := exists_of_mem_right hl.flip ha
    obtain rfl : port = q := Option.some.inj (hp.symm.trans hq)
    exact ht ▸ hconst c hc q' hq'

theorem Planned.suits (hg : g.Coherent) (harr : g.Arrays) (h : Planned g s factor arguments p) :
    Suits g s factor arguments p := by
  refine ⟨h.positive, h.arity, h.accepts, h.dependent, fun a ha => ?_,
    fun a ha port hp hv => h.aligned_argument hg harr ha hp hv, fun hconst => ?_⟩
  · obtain ⟨l, hl⟩ := h.live a ha
    exact live_of_latePorts hl
  · refine h.quiet fun a ha => List.eq_nil_iff_forall_not_mem.2 fun o ho => ?_
    obtain ⟨l, hl⟩ := h.live a ha
    obtain ⟨port, hp⟩ := live_of_latePorts hl
    obtain ⟨node, hn, -⟩ := hg.node_of_output? hp
    have hv := ((mem_late hg hp hn).1 ho).1
    rw [hconst a ha port hp] at hv
    cases hv

/-- Arrays for which a call was planned are even. -/
theorem Planned.even (hg : g.Coherent) (harr : g.Arrays) (h : Planned g s factor arguments p) :
    ∀ a ∈ arguments, g.Even a := by
  intro a ha port node hp hn hk o ho out hout hv
  obtain ⟨⟨k, -, hrate, hlat⟩, hfac⟩ := h.aligned_element hg harr ha hp hn hk ho hout hv
  obtain ⟨u, hu⟩ := DataType.isConstant_eq_false.1 hv
  obtain ⟨k', -, hrate', hlat'⟩ := h.aligned_argument hg harr ha hp
    (DataType.isConstant_eq_false.2 ⟨u, hfac.trans hu⟩)
  obtain rfl : k = k' :=
    Nat.eq_of_mul_eq_mul_right h.positive (hrate.symm.trans (hfac ▸ hrate'))
  rw [hlat, hlat']

/-- A call that suits its arguments can be planned exactly if no array among them is uneven. -/
theorem Suits.planned_iff (hg : g.Coherent) (harr : g.Arrays) (h : Suits g s factor arguments p) :
    Planned g s factor arguments p ↔ ∀ a ∈ arguments, g.Even a := by
  refine ⟨fun hp => hp.even hg harr, fun heven => ⟨h.positive, h.arity, h.accepts, h.dependent,
    fun a ha => ?_, fun a ha o ho => ?_, fun hnone => ?_⟩⟩
  · obtain ⟨port, hp⟩ := h.live a ha
    obtain ⟨l, hl, -⟩ := hg.latePorts_live hp
    exact ⟨l, hl⟩
  · obtain ⟨port, hp⟩ := h.live a ha
    obtain ⟨node, hn, -⟩ := hg.node_of_output? hp
    obtain ⟨hv, ⟨-, rfl⟩ | ⟨hk, ho, out, hout, hvo⟩⟩ := (mem_late hg hp hn).1 ho
    · exact ⟨port, hp, h.aligned o ha port hp hv⟩
    · -- The element has the rate of the array, and it is as late.
      obtain ⟨element, hkind⟩ := Kind.isArray_iff.1 hk
      obtain ⟨u, hu⟩ := DataType.isConstant_eq_false.1 hvo
      have hfac := ((harr hp hn hkind).varying ho hout hu).1
      have hlat := heven a ha port node hp hn hk o ho out hout hvo
      exact ⟨out, hout, (h.aligned a ha port hp hv).like (hu.trans hfac.symm) hlat⟩
  · refine h.quiet fun a ha port hp => ?_
    by_contra hv
    rw [Bool.not_eq_true] at hv
    obtain ⟨node, hn, -⟩ := hg.node_of_output? hp
    have hempty (o : OutputId) : ¬ o ∈ late g a := by simp [hnone a ha]
    cases hk : node.kind.isArray with
    | false => exact hempty a ((mem_late hg hp hn).2 ⟨hv, .inl ⟨hk, rfl⟩⟩)
    | true =>
      -- A variable array has a variable element.
      obtain ⟨element, hkind⟩ := Kind.isArray_iff.1 hk
      obtain ⟨u, hu⟩ := DataType.isConstant_eq_false.1 hv
      obtain ⟨o, ho, out, hout, hfac, -⟩ := (harr hp hn hkind).attained hu
      exact hempty o ((mem_late hg hp hn).2
        ⟨hv, .inr ⟨hk, ho, out, hout, DataType.isConstant_eq_false.2 ⟨u, hfac⟩⟩⟩)

theorem Suits.plan_answers (hg : g.Coherent) (ht : g.Typed) (h : Suits g s factor arguments p) :
    ∃ r, (plan g s factor arguments).run = .ok r := by
  simp only [plan, Nat.ne_of_gt h.positive, h.arity, if_false, ne_eq, not_true_eq_false]
  refine Outcome.bind_answers ⟨_, (checkArguments_eq_ok 0).2 ⟨h.accepts, rfl⟩⟩ fun _ _ => ?_
  refine Outcome.bind_answers (alignArguments_answers ht h.positive hg none fun q hq => ?_)
    fun _ _ => ⟨_, rfl⟩
  exact h.live q.1 (List.fst_mem_of_mem_zipIdx hq)

/-- Planning a call that suits its arguments gives the same plan again, or it is refused because of
an array that is not even. -/
theorem Suits.plan_cases (hg : g.Coherent) (ht : g.Typed) (harr : g.Arrays)
    (h : Suits g s factor arguments p) :
    (plan g s factor arguments).run = .ok (.ok p) ∧ (∀ a ∈ arguments, g.Even a) ∨
      (∃ e, (plan g s factor arguments).run = .ok (.error e)) ∧ ∃ a ∈ arguments, ¬ g.Even a := by
  by_cases heven : ∀ a ∈ arguments, g.Even a
  · exact .inl ⟨plan_iff.2 ((h.planned_iff hg harr).2 heven), heven⟩
  · refine .inr ⟨?_, by simpa using heven⟩
    obtain ⟨e | p', hr⟩ := h.plan_answers hg ht
    · exact ⟨e, hr⟩
    · exact absurd ((plan_iff.1 hr).even hg harr) heven

end Call

end SignalGraph
