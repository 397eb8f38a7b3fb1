import SignalGraph.Proofs.Instantiation

/-!
# What construction asks of ports

Building a call or an array looks at the types, the latencies and the known values of its ports, and
at the latencies of the elements of arrays, but not at their numbers. Ports of two graphs are
`Alike` if they agree in that. Construction from ports that are alike comes out the same
(`Call.ready_alike`, `arrayResult_alike`), and makes ports that are alike (`Inserted.alike`), so
instantiation does not depend on how many nodes have been numbered before (`instantiate_alike`).
-/

namespace SignalGraph

/-- Whether a node of this kind is as late as each of its elements. -/
def Kind.isArray : Kind → Bool
  | .array _ => true
  | _ => false

theorem Kind.isArray_iff {kind : Kind} :
    kind.isArray = true ↔ ∃ element, kind = .array element := by
  cases kind <;> simp [isArray]

theorem Kind.isCall_iff {kind : Kind} :
    kind.isCall = true ↔ ∃ s factor latency, kind = .call s factor latency := by
  cases kind <;> simp [isCall]

namespace Graph

/-- Ports with the same type and latency. -/
def Like (g h : Graph) (a c : OutputId) : Prop :=
  ∃ p q, g.output? a = some p ∧ h.output? c = some q ∧ p.type = q.type ∧ p.latency = q.latency

/-- Ports that construction cannot tell apart. -/
structure Alike (g h : Graph) (a c : OutputId) : Prop where
  like : Like g h a c
  late : ∃ as cs, Call.latePorts g a = .ok as ∧ Call.latePorts h c = .ok cs ∧
    List.Forall₂ (Like g h) as cs
  value : g.value? a = h.value? c

variable {g h : Graph} {as cs : List OutputId}

theorem map_value?_of_alike (hl : List.Forall₂ (Alike g h) as cs) :
    as.map g.value? = cs.map h.value? := by
  induction hl with
  | nil => rw [List.map_nil, List.map_nil]
  | cons hx _ ih => rw [List.map_cons, List.map_cons, hx.value, ih]

theorem live_of_alike (hl : List.Forall₂ (Alike g h) as cs) :
    (∀ a ∈ as, ∃ out, g.output? a = some out) ∧ ∀ c ∈ cs, ∃ out, h.output? c = some out := by
  induction hl with
  | nil => simp
  | cons hx _ ih =>
    obtain ⟨p, q, hp, hq, -⟩ := hx.like
    exact ⟨List.forall_mem_cons.2 ⟨⟨p, hp⟩, ih.1⟩, List.forall_mem_cons.2 ⟨⟨q, hq⟩, ih.2⟩⟩

/-! ## Arrays -/

theorem elementsFrom_alike {element : Primitive} (hl : List.Forall₂ (Alike g h) as cs)
    (e : Elements) (k : Nat) :
    g.elementsFrom element e (as.zipIdx k) = h.elementsFrom element e (cs.zipIdx k) := by
  induction hl generalizing e k with
  | nil => rfl
  | @cons a c as cs ha _ ih =>
    obtain ⟨p, q, hp, hq, ht, hla⟩ := ha.like
    simp only [List.zipIdx_cons, elementsFrom, output_eq_ok.2 hp, output_eq_ok.2 hq,
      Outcome.lift_ok_bind, Elements.add, ht, hla, ih]

theorem arrayResult_alike {element : Primitive} (hl : List.Forall₂ (Alike g h) as cs) :
    g.arrayResult element as = h.arrayResult element cs := by
  simp only [arrayResult, elementsFrom_alike hl]

theorem elementType_alike (hl : List.Forall₂ (Alike g h) as cs) :
    Pattern.elementType g as = Pattern.elementType h cs := by
  cases hl with
  | nil => rfl
  | cons ha _ =>
    obtain ⟨p, q, hp, hq, ht, -⟩ := ha.like
    simp only [Pattern.elementType, output_eq_ok.2 hp, output_eq_ok.2 hq, ok_bind, ht]

end Graph

/-! ## Calls -/

namespace Call

open SignalGraph.Graph

variable {g h : Graph} {as cs : List OutputId}

theorem checkArguments_alike {module : String} {factor : Nat}
    (hl : List.Forall₂ (Alike g h) as cs) (parameters : List Parameter) (k : Nat) :
    checkArguments g module factor ((parameters.zip as).zipIdx k)
      = checkArguments h module factor ((parameters.zip cs).zipIdx k) := by
  induction hl generalizing parameters k with
  | nil => simp only [List.zip_nil_right, List.zipIdx_nil, checkArguments]
  | cons ha _ ih =>
    cases parameters with
    | nil => simp only [List.zip_nil_left, List.zipIdx_nil, checkArguments]
    | cons parameter parameters =>
      obtain ⟨p, q, hp, hq, ht, -⟩ := ha.like
      simp only [List.zip_cons_cons, List.zipIdx_cons, checkArguments, output_eq_ok.2 hp,
        output_eq_ok.2 hq, Outcome.lift_ok_bind, ht, ih]

theorem alignPorts_alike {module : String} {factor index : Nat}
    (hl : List.Forall₂ (Like g h) as cs) (common : Option Nat) :
    alignPorts g module factor index common as = alignPorts h module factor index common cs := by
  induction hl generalizing common with
  | nil => simp only [alignPorts]
  | cons ha _ ih =>
    obtain ⟨p, q, hp, hq, ht, hla⟩ := ha
    simp only [alignPorts, alignPort, output_eq_ok.2 hp, output_eq_ok.2 hq, Outcome.lift_ok_bind,
      ht, hla, ih]

theorem alignArguments_alike {module : String} {factor : Nat}
    (hl : List.Forall₂ (Alike g h) as cs) (common : Option Nat) (k : Nat) :
    alignArguments g module factor common (as.zipIdx k)
      = alignArguments h module factor common (cs.zipIdx k) := by
  induction hl generalizing common k with
  | nil => simp only [List.zipIdx_nil, alignArguments]
  | cons ha _ ih =>
    obtain ⟨late, late', hp, hq, hlate⟩ := ha.late
    simp only [List.zipIdx_cons, alignArguments, hp, hq, Outcome.lift_ok_bind,
      alignPorts_alike hlate, ih]

theorem plan_alike (hl : List.Forall₂ (Alike g h) as cs) (s : Signature) (factor : Nat) :
    plan g s factor as = plan h s factor cs := by
  simp only [plan, hl.length_eq, checkArguments_alike hl, alignArguments_alike hl]

theorem prepare_alike (hl : List.Forall₂ (Alike g h) as cs) (settings : Settings) (m : Module)
    (p : CallPlan) (factor : Nat) (location : Option Location) :
    prepare settings g m p factor as location = prepare settings h m p factor cs location := by
  have hall : (as.all fun a => (g.output? a).any fun port => port.type.isConstant)
      = cs.all fun c => (h.output? c).any fun port => port.type.isConstant := by
    induction hl with
    | nil => rfl
    | cons ha _ ih =>
      obtain ⟨p, q, hp, hq, ht, -⟩ := ha.like
      simp [hp, hq, ht, ih]
  have hmap (parameters : List Parameter) :
      ((parameters.zip as).map fun shown =>
        { parameter := shown.1.name, value := g.value? shown.2 : PrepareArgument })
      = (parameters.zip cs).map fun shown =>
        { parameter := shown.1.name, value := h.value? shown.2 : PrepareArgument } := by
    clear hall
    induction hl generalizing parameters with
    | nil => simp
    | cons ha _ ih => cases parameters <;> simp [ha.value, ih]
  simp only [prepare, hall, hmap]

/-- A call from ports that are alike is planned and prepared in the same way. -/
theorem ready_alike (hg : g.Coherent) (hh : h.Coherent) (hl : List.Forall₂ (Alike g h) as cs)
    (env : Environment) (module : ModuleId) (factor : Nat) (location : Option Location) :
    ready env g module factor as location = ready env h module factor cs location := by
  obtain ⟨has, hcs⟩ := live_of_alike hl
  simp only [ready, plan_alike hl, hg.askPrepare_eq has, hh.askPrepare_eq hcs, prepare_alike hl]

end Call

/-! ## Ports that stay alike -/

namespace Graph

variable {b d : List OutputId} {g g' h h' : Graph} {a c : OutputId}

theorem Like.grown (hl : Like g h a c) (hg : Grown b g g') (hh : Grown d h h') :
    Like g' h' a c := by
  obtain ⟨p, q, hp, hq, ht, hla⟩ := hl
  obtain ⟨p', hp', hbp⟩ := hg.output?_isSome hp
  obtain ⟨q', hq', hbq⟩ := hh.output?_isSome hq
  simp only [OutputPort.bare, OutputPort.mk.injEq] at hbp hbq
  refine ⟨p', q', hp', hq', ?_, ?_⟩
  · rw [hbp.2.2.1, hbq.2.2.1, ht]
  · rw [hbp.2.2.2.1, hbq.2.2.2.1, hla]

theorem Grown.variableSource (hc : g.Coherent) (hg : Grown b g g') {n : NodeId} {node : Node}
    (hn : g.node? n = some node) {i : InputId} (hi : i ∈ node.inputs) :
    Call.variableSource g' i = Call.variableSource g i := by
  obtain ⟨port, hport⟩ := hc.input_live hn hi
  have hport' : g'.input? i = some port := (hg.input? (lt_of_input? hport)).trans hport
  rw [Call.variableSource, Call.variableSource, source_eq_ok hport, source_eq_ok hport',
    hg.source? (lt_of_input? hport)]
  cases hs : g.source? i with
  | none => rfl
  | some o =>
    obtain ⟨q, hq⟩ := hc.source_live hs
    obtain ⟨q', hq', hbq⟩ := hg.output?_isSome hq
    simp only [OutputPort.bare, OutputPort.mk.injEq] at hbq
    simp [output_eq_ok.2 hq, output_eq_ok.2 hq', hbq.2.2.1]

theorem Grown.latePorts (hc : g.Coherent) (hg : Grown b g g') {p : OutputPort}
    (hp : g.output? a = some p) : Call.latePorts g' a = Call.latePorts g a := by
  obtain ⟨p', hp', hbp⟩ := hg.output?_isSome hp
  simp only [OutputPort.bare, OutputPort.mk.injEq] at hbp
  obtain ⟨node, hn, -⟩ := hc.node_of_output? hp
  simp only [Call.latePorts, output_eq_ok.2 hp, output_eq_ok.2 hp', hbp.2.1, hbp.2.2.1,
    node_eq_ok.2 hn, node_eq_ok.2 (hg.node?_eq_some hn), ok_bind,
    filterMapM_congr fun i hi => hg.variableSource hc hn hi]

/-- What an argument brings in, in a coherent graph. -/
theorem Coherent.latePorts_eq (hc : g.Coherent) {p : OutputPort} {node : Node}
    (hp : g.output? a = some p) (hn : g.node? p.node = some node) : Call.latePorts g a = .ok
      (if p.type.isConstant then []
      else if node.kind.isArray then
        (node.inputs.filterMap g.source?).filter fun o =>
          (g.output? o).any fun element => !element.type.isConstant
      else [a]) := by
  simp only [Call.latePorts, output_eq_ok.2 hp, node_eq_ok.2 hn, ok_bind,
    hc.variableSources_eq hn]
  split
  · rfl
  · cases node.kind <;> rfl

theorem Coherent.latePorts_live (hc : g.Coherent) {p : OutputPort} (hp : g.output? a = some p) :
    ∃ as, Call.latePorts g a = .ok as ∧ ∀ x ∈ as, ∃ q, g.output? x = some q := by
  obtain ⟨node, hn, -⟩ := hc.node_of_output? hp
  refine ⟨_, hc.latePorts_eq hp hn, fun x hx => ?_⟩
  split at hx
  · cases hx
  · split at hx
    · obtain ⟨i, -, hs⟩ := List.mem_filterMap.1 (List.mem_filter.1 hx).1
      exact hc.source_live hs
    · obtain rfl := List.mem_singleton.1 hx
      exact ⟨p, hp⟩

theorem Grown.value? (hc : g.Coherent) (ha : g.Acyclic) (hc' : g'.Coherent) (ha' : g'.Acyclic)
    (hg : Grown b g g') {p : OutputPort} (hp : g.output? a = some p) :
    g'.value? a = g.value? a := by
  rw [value?_eq_fold, value?_eq_fold]
  exact (hg.agree hc).fold hc ha hc' ha' (lt_of_output? hp)

section Valid

variable {registry : Registry}

theorem Alike.grown (hgv : g.Valid registry) (hgv' : g'.Valid registry) (hhv : h.Valid registry)
    (hhv' : h'.Valid registry) (hg : Grown b g g') (hh : Grown d h h') (ha : Alike g h a c) :
    Alike g' h' a c := by
  obtain ⟨p, q, hp, hq, -⟩ := ha.like
  obtain ⟨as, cs, has, hcs, hl⟩ := ha.late
  refine ⟨ha.like.grown hg hh, ⟨as, cs, ?_, ?_, hl.imp fun _ _ hx => hx.grown hg hh⟩, ?_⟩
  · rw [hg.latePorts hgv.coherent hp, has]
  · rw [hh.latePorts hhv.coherent hq, hcs]
  · rw [hg.value? hgv.coherent hgv.acyclic hgv'.coherent hgv'.acyclic hp,
      hh.value? hhv.coherent hhv.acyclic hhv'.coherent hhv'.acyclic hq, ha.value]

/-- A live port is alike in graphs that are the same. -/
theorem Same.alike (hs : Same g h) (hgv : g.Valid registry) (hh : h.Coherent) {p : OutputPort}
    (hp : g.output? a = some p) : Alike g h a a := by
  have hlike (x : OutputId) (hx : ∃ q, g.output? x = some q) : Like g h x x := by
    obtain ⟨q, hq⟩ := hx
    exact ⟨q, q, hq, (hs.output? x).trans hq, rfl, rfl⟩
  have hlate : Call.latePorts h a = Call.latePorts g a := by
    have hsource : Call.variableSource h = Call.variableSource g :=
      funext fun i => by simp only [Call.variableSource, hs.source, hs.output]
    simp only [Call.latePorts, hs.output, hs.node, hsource]
  obtain ⟨as, has, hlive⟩ := hgv.coherent.latePorts_live hp
  refine ⟨hlike a ⟨p, hp⟩, ⟨as, as, has, hlate.trans has, ?_⟩, ?_⟩
  · exact List.forall₂_same.2 fun x hx => hlike x (hlive x hx)
  · exact (hs.value? hgv.coherent hgv.acyclic hh a).symm

end Valid

/-! ## New ports -/

section Inserted

variable {kind : Kind} {location location' : Option Location} {sources sources' : List OutputId}
  {results : List (DataType × Nat)} {k : Nat} {r : DataType × Nat}

theorem Inserted.latePorts (hi : Inserted g kind location sources results g')
    (hk : results[k]? = some r) : Call.latePorts g' ⟨g.outputs.size + k⟩ = .ok
      (if r.1.isConstant then []
      else if kind.isArray then
        sources.filter fun o => (g'.output? o).any fun element => !element.type.isConstant
      else [⟨g.outputs.size + k⟩]) := by
  obtain ⟨p, hp, hnode, htype, -⟩ := hi.output?_port hk
  have hn := hi.node? g.nextNode
  rw [if_pos rfl] at hn
  have hsrc : (Id.range g.inputs.size sources.length).filterMap g'.source? = sources := by
    have hm := congrArg (List.filterMap id) hi.map_source?
    simpa [List.filterMap_map] using hm
  rw [hi.coherent.latePorts_eq hp (hnode ▸ hn), htype, hsrc]

theorem knownStep_congr {p q : OutputPort} {m n : Node} {l : List (Option Value)}
    (ht : p.type = q.type) (hk : m.kind = n.kind) : knownStep p m l = knownStep q n l := by
  simp only [knownStep, ht, hk]

/-- Nodes of one kind from ports that are alike have ports that are alike. -/
theorem Inserted.alike {registry : Registry} (hgv : g.Valid registry) (hgv' : g'.Valid registry)
    (hhv : h.Valid registry) (hhv' : h'.Valid registry)
    (hi : Inserted g kind location sources results g')
    (hj : Inserted h kind location' sources' results h')
    (hl : List.Forall₂ (Alike g h) sources sources') (hk : results[k]? = some r) :
    Alike g' h' ⟨g.outputs.size + k⟩ ⟨h.outputs.size + k⟩ := by
  have hg : Grown sources g g' :=
    (Grown.refl hgv.coherent sources).insert hgv.coherent hi fun o ho => .inr ho
  have hh : Grown sources' h h' :=
    (Grown.refl hhv.coherent sources').insert hhv.coherent hj fun o ho => .inr ho
  have hl' : List.Forall₂ (Alike g' h') sources sources' :=
    hl.imp fun _ _ hx => hx.grown hgv hgv' hhv hhv' hg hh
  obtain ⟨p, hp, -, hpt, hpl⟩ := hi.output?_port hk
  obtain ⟨q, hq, -, hqt, hql⟩ := hj.output?_port hk
  have hlike : Like g' h' ⟨g.outputs.size + k⟩ ⟨h.outputs.size + k⟩ :=
    ⟨p, q, hp, hq, hpt.trans hqt.symm, hpl.trans hql.symm⟩
  refine ⟨hlike, ⟨_, _, hi.latePorts hk, hj.latePorts hk, ?_⟩, ?_⟩
  · split
    · exact .nil
    · split
      · refine (List.rel_filter ?_) (hl'.imp fun _ _ hx => hx.like)
        rintro x y ⟨u, v, hu, hv, ht, -⟩
        simp [hu, hv, ht]
      · exact .cons hlike .nil
  · rw [value?_eq_fold, value?_eq_fold, hi.fold hgv'.acyclic hk, hj.fold hhv'.acyclic hk]
    simp only [← funext g'.value?_eq_fold, ← funext h'.value?_eq_fold, map_value?_of_alike hl']
    exact knownStep_congr rfl rfl

end Inserted

end Graph

/-! ## Instantiation -/

namespace Pattern

open SignalGraph.Graph

/-- Two attempts to build something end in the same way, with results related by `R`. -/
inductive Parallel {α : Type} (R : Graph → Graph → α → α → Prop) :
    Except Fault (Workspace × Except BuildError α) →
    Except Fault (Workspace × Except BuildError α) → Prop where
  | faulted (e e' : Fault) : Parallel R (.error e) (.error e')
  | refused (w w' : Workspace) (e e' : BuildError) :
    Parallel R (.ok (w, .error e)) (.ok (w', .error e'))
  | built {w w' : Workspace} {a c : α} (h : R w.graph w'.graph a c) :
    Parallel R (.ok (w, .ok a)) (.ok (w', .ok c))

/-- Two attempts that begin with the same computation. -/
theorem Parallel.bind {α β : Type} {R : Graph → Graph → α → α → Prop} (x : Except Fault β)
    {f f' : β → Except Fault (Workspace × Except BuildError α)}
    (h : ∀ b, x = .ok b → Parallel R (f b) (f' b)) : Parallel R (x >>= f) (x >>= f') := by
  cases x with
  | error e => exact .faulted e e
  | ok b => exact h b rfl

variable {env : Environment} {location : Option Location} {w v : Workspace}

/-- Adds the same kind of node to two graphs. -/
theorem parallel_insert {kind : Kind} {sources sources' : List OutputId}
    {results : List (DataType × Nat)} {runs runs' : List Preparation} (k : Nat)
    (hw : w.graph.Valid env.registry) (hv : v.graph.Valid env.registry)
    (hl : List.Forall₂ (Alike w.graph v.graph) sources sources')
    (hf : Fits env.registry kind sources.length results.length) :
    Parallel Alike
      (w.graph.insert kind location sources results >>= fun (g, n) => Workspace.added runs g n k)
      (v.graph.insert kind location sources' results >>= fun (g, n) =>
        Workspace.added runs' g n k) := by
  obtain ⟨hlive, hlive'⟩ := live_of_alike hl
  obtain ⟨g, hg, hi⟩ := insert_spec hw.coherent kind location results hlive
  obtain ⟨h, hh, hj⟩ := insert_spec hv.coherent kind location results hlive'
  simp only [hg, hh, ok_bind, Workspace.added]
  by_cases hk : k < results.length
  · simp only [hi.port_eq_ok.2 ⟨hk, rfl⟩, hj.port_eq_ok.2 ⟨hk, rfl⟩, ok_bind, pure_eq_ok]
    refine .built (hi.alike hw (hi.valid hw hf) hv (hj.valid hv ?_) hj hl
      (List.getElem?_eq_getElem hk))
    rw [← hl.length_eq]
    exact hf
  · have hnone : ∀ o, g.port w.graph.nextNode k ≠ .ok o := fun o ho => hk (hi.port_eq_ok.1 ho).1
    have hnone' : ∀ o, h.port v.graph.nextNode k ≠ .ok o := fun o ho => hk (hj.port_eq_ok.1 ho).1
    cases hp : g.port w.graph.nextNode k with
    | ok o => exact absurd hp (hnone o)
    | error e =>
      cases hq : h.port v.graph.nextNode k with
      | ok o => exact absurd hq (hnone' o)
      | error e' => exact .faulted e e'

theorem parallel_call {as cs : List OutputId} (hr : env.registry.Reached)
    (hw : w.graph.Valid env.registry) (hv : v.graph.Valid env.registry)
    (hl : List.Forall₂ (Alike w.graph v.graph) as cs) (s : Signature) (module : ModuleId)
    (factor place : Nat) :
    Parallel Alike (instantiateCall env w location s module factor place as)
      (instantiateCall env v location s module factor place cs) := by
  simp only [instantiateCall, ← Call.ready_alike hw.coherent hv.coherent hl, Call.Ready.insert,
    bind_assoc]
  refine .bind _ fun made hmade => ?_
  cases hc : made.result with
  | error e => exact .refused _ _ e e
  | ok c =>
    refine .bind _ fun latency _ => .bind _ fun outputs hres => ?_
    cases s.outputSlot place with
    | none =>
      obtain ⟨hlive, hlive'⟩ := live_of_alike hl
      have hins := insert_spec hw.coherent (.call c.signature factor latency) location outputs hlive
      have hins' := insert_spec hv.coherent (.call c.signature factor latency) location outputs
        hlive'
      obtain ⟨g, hg, -⟩ := hins
      obtain ⟨h, hh, -⟩ := hins'
      simp only [Workspace.note, hg, hh, ok_bind]
      exact .faulted _ _
    | some k => exact parallel_insert k hw hv hl (Call.Ready.fits hr hmade hc hres)

theorem parallel_array {as cs : List OutputId} (hw : w.graph.Valid env.registry)
    (hv : v.graph.Valid env.registry) (hl : List.Forall₂ (Alike w.graph v.graph) as cs) :
    Parallel Alike (instantiateArray w location as) (instantiateArray v location cs) := by
  simp only [instantiateArray, ← elementType_alike hl, ← arrayResult_alike hl]
  refine .bind _ fun element _ => ?_
  cases element with
  | error e => exact .refused w v e e
  | ok element =>
    refine .bind _ fun result _ => ?_
    cases result with
    | error e => exact .refused w v e e
    | ok result =>
      have hf : Fits env.registry (.array element) as.length [result].length :=
        fits_of_not_isCall rfl
      exact parallel_insert 0 hw hv hl hf

/-- Ports that are alike, one after another. -/
abbrev AllAlike (g h : Graph) : List OutputId → List OutputId → Prop :=
  List.Forall₂ (Alike g h)

/-- A first port is built and then others. -/
theorem parallel_cons {x y : Except Fault (Workspace × Except BuildError OutputId)}
    {f f' : Workspace → Except Fault (Workspace × Except BuildError (List OutputId))}
    (hx : Parallel Alike x y)
    (hrest : ∀ w₁ v₁ a c, x = .ok (w₁, .ok a) → y = .ok (v₁, .ok c) →
      Alike w₁.graph v₁.graph a c →
      Parallel (fun g h as cs => Alike g h a c ∧ AllAlike g h as cs) (f w₁) (f' v₁)) :
    Parallel AllAlike
      (do match ← x with
          | (w, .error e) => return (w, .error e)
          | (w, .ok o) =>
            let (w, rest) ← f w
            return (w, rest.map (o :: ·)))
      (do match ← y with
          | (w, .error e) => return (w, .error e)
          | (w, .ok o) =>
            let (w, rest) ← f' w
            return (w, rest.map (o :: ·))) := by
  cases hx with
  | faulted e e' => exact .faulted e e'
  | refused w v e e' => exact .refused w v e e'
  | @built w₁ v₁ a c ha =>
    have hf := hrest w₁ v₁ a c rfl rfl ha
    simp only [ok_bind]
    generalize f w₁ = x, f' v₁ = y at hf
    cases hf with
    | faulted e e' => exact .faulted e e'
    | refused w v e e' => exact .refused w v e e'
    | built h => exact .built (.cons h.1 h.2)

/-- Ports are built and then something from them. -/
theorem parallel_from {x y : Except Fault (Workspace × Except BuildError (List OutputId))}
    {f f' : Workspace → List OutputId → Except Fault (Workspace × Except BuildError OutputId)}
    (hx : Parallel AllAlike x y)
    (hf : ∀ w₁ v₁ as cs, x = .ok (w₁, .ok as) → y = .ok (v₁, .ok cs) →
      AllAlike w₁.graph v₁.graph as cs → Parallel Alike (f w₁ as) (f' v₁ cs)) :
    Parallel Alike
      (do match ← x with
          | (w, .error e) => return (w, .error e)
          | (w, .ok as) => f w as)
      (do match ← y with
          | (w, .error e) => return (w, .error e)
          | (w, .ok as) => f' w as) := by
  cases hx with
  | faulted e e' => exact .faulted e e'
  | refused w v e e' => exact .refused w v e e'
  | built h => exact hf _ _ _ _ rfl rfl h

/-- The relation between the results of an attempt may use what the attempts themselves say. -/
theorem Parallel.imp {α : Type} {R S : Graph → Graph → α → α → Prop}
    {x y : Except Fault (Workspace × Except BuildError α)} (h : Parallel R x y)
    (hi : ∀ w v a c, x = .ok (w, .ok a) → y = .ok (v, .ok c) → R w.graph v.graph a c →
      S w.graph v.graph a c) : Parallel S x y := by
  cases h with
  | faulted e e' => exact .faulted e e'
  | refused w v e e' => exact .refused w v e e'
  | built h => exact .built (hi _ _ _ _ rfl rfl h)

mutual
/-- Instantiation in two graphs, with bindings that are alike. -/
theorem instantiate_alike (hr : env.registry.Reached) {w v : Workspace} {b d : Bindings}
    (hw : w.graph.Valid env.registry) (hv : v.graph.Valid env.registry)
    (hb : AllAlike w.graph v.graph b d) : (p : Pattern) →
    Parallel Alike (instantiate env b location w p) (instantiate env d location v p)
  | .call module factor place children => by
    obtain ⟨hlive, hlive'⟩ := live_of_alike hb
    simp only [instantiate]
    cases hs : env.registry.lookup module with
    | none => exact .faulted _ _
    | some s =>
      refine parallel_from (instantiateArguments_alike hr hw hv hb s.parameters children)
        fun w₁ v₁ as cs hx hy hl => ?_
      have hw₁ := (instantiateArguments_spec hr hw hlive _ _ hx).valid
      have hv₁ := (instantiateArguments_spec hr hv hlive' _ _ hy).valid
      exact parallel_call hr hw₁ hv₁ hl s module factor place
  | .literal value => by
    have hf : Fits env.registry (.constant value) 0 [(value.dataType, 0)].length :=
      fits_of_not_isCall rfl
    rw [instantiate_literal_eq, instantiate_literal_eq]
    exact parallel_insert 0 hw hv .nil hf
  | .array elements => by
    obtain ⟨hlive, hlive'⟩ := live_of_alike hb
    simp only [instantiate]
    refine parallel_from (instantiateElements_alike hr hw hv hb elements)
      fun w₁ v₁ as cs hx hy hl => ?_
    have hw₁ := (instantiateElements_spec hr hw hlive _ hx).valid
    have hv₁ := (instantiateElements_spec hr hv hlive' _ hy).valid
    exact parallel_array hw₁ hv₁ hl
  | .slot k => by
    simp only [instantiate]
    cases hk : b[k]? with
    | none =>
      have hk' : d[k]? = none := by
        rw [List.getElem?_eq_none_iff] at hk ⊢
        rw [← hb.length_eq]
        exact hk
      simp only [Bindings.get, hk, hk']
      exact .faulted _ _
    | some x =>
      obtain ⟨hlt, rfl⟩ := List.getElem?_eq_some_iff.1 hk
      have hlt' : k < d.length := hb.length_eq ▸ hlt
      simp only [get_eq_ok.2 hk, get_eq_ok.2 (List.getElem?_eq_getElem hlt'), ok_bind]
      exact .built (hb.get hlt hlt')
  | .wildcard _ => .faulted _ _
  | .result => .faulted _ _
  | .ellipsis => .faulted _ _

theorem instantiateArguments_alike (hr : env.registry.Reached) {w v : Workspace} {b d : Bindings}
    (hw : w.graph.Valid env.registry) (hv : v.graph.Valid env.registry)
    (hb : AllAlike w.graph v.graph b d) (parameters : List Parameter) : (cs : List Pattern) →
    Parallel AllAlike (instantiateArguments env b location w parameters cs)
      (instantiateArguments env d location v parameters cs)
  | [] => by
    simp only [instantiateArguments]
    exact .built .nil
  | c :: cs => by
    obtain ⟨hlive, hlive'⟩ := live_of_alike hb
    cases parameters with
    | nil =>
      simp only [instantiateArguments]
      exact .built .nil
    | cons q parameters =>
      simp only [instantiateArguments]
      split
      · refine parallel_cons (instantiate_alike hr hw hv hb c) fun w₁ v₁ a _ hx hy ha => ?_
        have hbw := instantiate_spec hr hw hlive c hx
        have hbv := instantiate_spec hr hv hlive' c hy
        have hb₁ : AllAlike w₁.graph v₁.graph b d :=
          hb.imp fun _ _ h => h.grown hw hbw.valid hv hbv.valid hbw.grown hbv.grown
        refine (instantiateArguments_alike hr hbw.valid hbv.valid hb₁ parameters cs).imp
          fun w₂ v₂ _ _ hx₂ hy₂ hl => ⟨?_, hl⟩
        have hbw₂ := instantiateArguments_spec hr hbw.valid (hbw.live hlive) _ _ hx₂
        have hbv₂ := instantiateArguments_spec hr hbv.valid (hbv.live hlive') _ _ hy₂
        exact ha.grown hbw.valid hbw₂.valid hbv.valid hbv₂.valid hbw₂.grown hbv₂.grown
      · exact instantiateArguments_alike hr hw hv hb parameters cs

theorem instantiateElements_alike (hr : env.registry.Reached) {w v : Workspace} {b d : Bindings}
    (hw : w.graph.Valid env.registry) (hv : v.graph.Valid env.registry)
    (hb : AllAlike w.graph v.graph b d) : (es : List Pattern) →
    Parallel AllAlike (instantiateElements env b location w es)
      (instantiateElements env d location v es)
  | [] => by
    simp only [instantiateElements]
    exact .built .nil
  | e :: es => by
    obtain ⟨hlive, hlive'⟩ := live_of_alike hb
    simp only [instantiateElements]
    refine parallel_cons (instantiate_alike hr hw hv hb e) fun w₁ v₁ a _ hx hy ha => ?_
    have hbw := instantiate_spec hr hw hlive e hx
    have hbv := instantiate_spec hr hv hlive' e hy
    have hb₁ : AllAlike w₁.graph v₁.graph b d :=
      hb.imp fun _ _ h => h.grown hw hbw.valid hv hbv.valid hbw.grown hbv.grown
    refine (instantiateElements_alike hr hbw.valid hbv.valid hb₁ es).imp
      fun w₂ v₂ _ _ hx₂ hy₂ hl => ⟨?_, hl⟩
    have hbw₂ := instantiateElements_spec hr hbw.valid (hbw.live hlive) _ hx₂
    have hbv₂ := instantiateElements_spec hr hbv.valid (hbv.live hlive') _ hy₂
    exact ha.grown hbw.valid hbw₂.valid hbv.valid hbv₂.valid hbw₂.grown hbv₂.grown
end

end Pattern

end SignalGraph
