import SignalGraph.Proofs.Alike
import SignalGraph.Proofs.Loading
import SignalGraph.Proofs.Types

/-!
# How nodes come into a graph

Descriptions and patterns are built by adding one node after the other, and what can be said of a
new node is the same in both cases (`Addition`): it is an array of ports that fit together, a call
that was planned and prepared, or it has no latency. So what every addition keeps up holds of every
graph that was built (`Additions`): of graphs from descriptions (`Description.build_additions`) and
of what is built for a pattern (`Pattern.instantiate_additions`).

The hooks that ran are listed along the way, one for each call.
-/

namespace SignalGraph

open SignalGraph.Graph

/-- A node is added to `g`, or the surface is changed, and these hooks run. -/
inductive Addition (env : Environment) (g : Graph) : List Preparation → Graph → Prop where
  /-- A channel, a constant or a struct. -/
  | plain {g' : Graph} {kind : Kind} {location : Option Location} {sources : List OutputId}
    {results : List (DataType × Nat)} {n : NodeId} : kind.isCall = false → kind.isArray = false →
    (∀ r ∈ results, r.1.Sound ∧ r.2 = 0) →
    g.insert kind location sources results = .ok (g', n) → Addition env g [] g'
  | array {g' : Graph} {element : Primitive} {elements : List OutputId}
    {location : Option Location} {result : DataType × Nat} {n : NodeId} :
    (g.arrayResult element elements).run = .ok (.ok result) →
    g.insert (.array element) location elements [result] = .ok (g', n) → Addition env g [] g'
  | call {g' : Graph} {module : ModuleId} {factor : Nat} {arguments : List OutputId}
    {location : Option Location} {run : Option Preparation} {c : Call.Ready} {n : NodeId} :
    Call.ready env g module factor arguments location = .ok ⟨run, .ok c⟩ →
    c.insert g factor arguments location = .ok (g', n) → Addition env g run.toList g'
  | surface (s : Surface) : Addition env g [] { g with surface := s }

/-- Nodes are added one after the other. -/
inductive Additions (env : Environment) (g : Graph) : List Preparation → Graph → Prop where
  | nil : Additions env g [] g
  | snoc {g₁ g₂ : Graph} {runs runs' : List Preparation} : Additions env g runs g₁ →
    Addition env g₁ runs' g₂ → Additions env g (runs ++ runs') g₂

namespace Addition

variable {env : Environment} {g g' : Graph} {runs : List Preparation}

theorem one (h : Addition env g runs g') : Additions env g runs g' :=
  Additions.nil.snoc h

theorem input (g : Graph) (name : String) {type : DataType} (location : Option Location)
    (h : type.Sound) : Addition env g [] (g.addInput name type location).1 :=
  .plain rfl rfl (by simpa using h) (addInput_eq_insert g name type location)

theorem constant (g : Graph) (value : Literal) (location : Option Location) :
    Addition env g [] (g.addConstant value location).1 :=
  .plain rfl rfl (by simpa [Literal.dataType] using DataType.sound_constant value.primitive)
    (addConstant_eq_insert g value location)

/-- A new node, if it is not the surface that changes. -/
theorem inserted (hg : g.Coherent) (h : Addition env g runs g') :
    (∃ kind location sources results, Inserted g kind location sources results g' ∧
        ∀ r ∈ results, r.1.Sound) ∨
      ∃ s, g' = { g with surface := s } := by
  cases h with
  | plain _ _ hs h => exact .inl ⟨_, _, _, _, (inserted_of_insert hg h).2, fun r hr => (hs r hr).1⟩
  | array ha h =>
    refine .inl ⟨_, _, _, _, (inserted_of_insert hg h).2, ?_⟩
    simpa using (arrayOf_of_arrayResult ha).sound
  | call _ h =>
    simp only [Call.Ready.insert, bind_eq_ok] at h
    obtain ⟨latency, -, results, hres, h⟩ := h
    refine .inl ⟨_, _, _, _, (inserted_of_insert hg h).2, fun r hr => ?_⟩
    obtain ⟨q, -, hresult⟩ := Call.result_of_results hres r hr
    exact hresult.sound
  | surface s => exact .inr ⟨s, rfl⟩

theorem coherent (hg : g.Coherent) (h : Addition env g runs g') : g'.Coherent := by
  rcases h.inserted hg with ⟨kind, location, sources, results, hi, -⟩ | ⟨s, rfl⟩
  · exact hi.coherent
  · exact hg.withSurface s

theorem typed (hg : g.Coherent) (h : Addition env g runs g') (ht : g.Typed) : g'.Typed := by
  rcases h.inserted hg with ⟨kind, location, sources, results, hi, hs⟩ | ⟨s, rfl⟩
  · exact ht.inserted hi hs
  · exact ht

/-- Nodes stay. -/
theorem node? (hg : g.Coherent) (h : Addition env g runs g') {n : NodeId} {node : Node}
    (hn : g.node? n = some node) : g'.node? n = some node := by
  rcases h.inserted hg with ⟨kind, location, sources, results, hi, -⟩ | ⟨s, rfl⟩
  · have hne : n ≠ g.nextNode := by
      rintro rfl
      exact absurd (lt_of_node? hn) (Nat.lt_irrefl _)
    rw [hi.node?, if_neg hne, hn]
  · exact hn

end Addition

namespace Additions

variable {env : Environment} {g g₁ g₂ : Graph} {runs runs' : List Preparation}

theorem trans (h : Additions env g runs g₁) (h' : Additions env g₁ runs' g₂) :
    Additions env g (runs ++ runs') g₂ := by
  induction h' with
  | nil => simpa using h
  | snoc _ ha ih => simpa using ih.snoc ha

theorem coherent (hg : g.Coherent) (h : Additions env g runs g₁) : g₁.Coherent := by
  induction h with
  | nil => exact hg
  | snoc _ ha ih => exact ha.coherent ih

theorem typed (hg : g.Coherent) (h : Additions env g runs g₁) (ht : g.Typed) : g₁.Typed := by
  induction h with
  | nil => exact ht
  | snoc hs ha ih => exact ha.typed (hs.coherent hg) ih

theorem node? (hg : g.Coherent) (h : Additions env g runs g₁) {n : NodeId} {node : Node}
    (hn : g.node? n = some node) : g₁.node? n = some node := by
  induction h with
  | nil => exact hn
  | snoc hs ha ih => exact ha.node? (hs.coherent hg) ih

/-- The surface does not matter for what is built next. -/
theorem snoc_surface (h : Additions env g runs g₁) (s : Surface) :
    Additions env g runs { g₁ with surface := s } := by
  simpa using h.snoc (.surface s)

theorem addition_call {module : ModuleId} {factor : Nat} {arguments : List OutputId}
    {location : Option Location} {made : Call.Made NodeId} {n : NodeId}
    (h : Call.build env g module factor arguments location = .ok (g₁, made))
    (hm : made.result = .ok n) : Addition env g made.run.toList g₁ := by
  obtain ⟨c, hready, hins⟩ := Call.ready_of_build h hm
  exact .call hready hins

end Additions

/-! ## Descriptions -/

namespace Loader

variable {env : Environment} {l l' : Loader} {n : NodeId}

theorem sound_of_channelType {name : String} {t : ChannelType} {type : DataType}
    (h : channelType name t = .ok type) : type.Sound := by
  unfold channelType at h
  cases hm : DataType.make (some t.primitive) (some t.factor) t.isArray with
  | error e =>
    rw [hm] at h
    cases h
  | ok type' =>
    rw [hm] at h
    cases h
    exact DataType.sound_of_make hm

theorem modifySurface_additions {g : Graph} {runs : List Preparation}
    (h : Additions env g runs l.graph) (f : Surface → Surface) :
    Additions env g runs (l.modifySurface f).graph :=
  h.snoc_surface _

theorem addInput_additions {c : Channel} (h : (l.addInput c).run = .ok (.ok l')) :
    Additions env l.graph [] l'.graph := by
  simp only [addInput, Outcome.bind_eq_ok, ofExcept_eq_ok] at h
  obtain ⟨type, ht, l₁, hb, h⟩ := h
  cases h
  rw [modifySurface, bind_eq_ok hb]
  exact (Addition.input l.graph c.name c.location (sound_of_channelType ht)).one.snoc_surface _

theorem addSink_additions {s : Sink} (h : (l.addSink s).run = .ok (.ok (l', n))) :
    Additions env l.graph [] l'.graph := by
  simp only [addSink, Outcome.bind_eq_ok, built_eq_ok] at h
  obtain ⟨type, -, source, -, ⟨g, m⟩, hadd, h⟩ := h
  cases h
  obtain ⟨port, -, -, hi⟩ := addOutput_eq_ok.1 hadd
  exact (Addition.plain rfl rfl (by simp) hi).one

theorem addBoundary_additions {name source : String} {type : ChannelType}
    {location : Option Location}
    (h : (l.addBoundary name type source location).run = .ok (.ok (l', n))) :
    Additions env l.graph [] l'.graph := by
  simp only [addBoundary, Outcome.bind_eq_ok, ofExcept_eq_ok] at h
  obtain ⟨⟨l₁, sink⟩, hsink, dataType, ht, h⟩ := h
  cases h
  have hs : Additions env l.graph [] (l₁.modifySurface fun s =>
      { s with boundaryOutputs := s.boundaryOutputs ++ [sink] }).graph :=
    (addSink_additions hsink).snoc_surface _
  exact (hs.snoc (.input _ name location (sound_of_channelType ht))).snoc_surface _

theorem addNode_additions {e : Entry} {run : Option Preparation}
    (h : l.addNode env e = .ok (run, .ok (l', n))) :
    Additions env l.graph run.toList l'.graph := by
  unfold addNode at h
  split at h
  · cases h
    exact (Addition.constant l.graph _ e.location).one
  · obtain ⟨r, hr, h⟩ := SignalGraph.bind_eq_ok.1 h
    cases h
    simp only [addArray, Outcome.bind_eq_ok, built_eq_ok] at hr
    obtain ⟨ports, -, ⟨g, m⟩, hadd, hr⟩ := hr
    cases hr
    obtain ⟨result, hres, hi⟩ := addArray_eq_ok.1 hadd
    exact (Addition.array hres hi).one
  · obtain ⟨r, hr, h⟩ := SignalGraph.bind_eq_ok.1 h
    cases h
    simp only [addStruct, Outcome.bind_eq_ok, built_eq_ok] at hr
    obtain ⟨ports, -, ⟨g, m⟩, hadd, hr⟩ := hr
    cases hr
    have hi := (addStruct_eq_ok.1 hadd).2
    exact (Addition.plain rfl rfl (by simpa using DataType.sound_struct) hi).one
  · simp only [addCall] at h
    obtain ⟨planned, -, h⟩ := SignalGraph.bind_eq_ok.1 h
    split at h
    · cases h
    · obtain ⟨⟨g, made⟩, hmade, h⟩ := SignalGraph.bind_eq_ok.1 h
      split at h
      · cases h
      · rename_i m hm
        cases h
        exact (Additions.addition_call hmade hm).one
  · obtain ⟨r, hr, h⟩ := SignalGraph.bind_eq_ok.1 h
    cases h
    exact addBoundary_additions hr

theorem addEntry_additions {e : Entry} {run : Option Preparation}
    (h : l.addEntry env e = .ok (run, .ok l')) : Additions env l.graph run.toList l'.graph := by
  simp only [addEntry] at h
  obtain ⟨⟨run₁, r⟩, hn, h⟩ := SignalGraph.bind_eq_ok.1 h
  cases r with
  | error err => cases h
  | ok p =>
    obtain ⟨l₁, m⟩ := p
    simp only [pure_eq_ok, Except.ok.injEq, Prod.mk.injEq] at h
    obtain ⟨rfl, hb⟩ := h
    rw [bind_eq_ok hb]
    exact addNode_additions hn

theorem addInputs_additions (cs : List Channel) (h : (l.addInputs cs).run = .ok (.ok l')) :
    Additions env l.graph [] l'.graph := by
  induction cs generalizing l with
  | nil =>
    cases h
    exact .nil
  | cons c cs ih =>
    simp only [addInputs, Outcome.bind_eq_ok] at h
    obtain ⟨l₁, hc, h⟩ := h
    exact (addInput_additions hc).trans (ih h)

theorem addEntries_additions (es : List Entry) {runs : List Preparation}
    (h : l.addEntries env es = .ok (runs, .ok l')) : Additions env l.graph runs l'.graph := by
  induction es generalizing l runs with
  | nil =>
    cases h
    exact .nil
  | cons e es ih =>
    obtain ⟨run, l₁, runs₁, he, hes, rfl⟩ := addEntries_cons.1 h
    exact (addEntry_additions he).trans (ih hes)

theorem addSinks_additions (ss : List Sink) (h : (l.addSinks ss).run = .ok (.ok l')) :
    Additions env l.graph [] l'.graph := by
  induction ss generalizing l with
  | nil =>
    cases h
    exact .nil
  | cons s ss ih =>
    simp only [addSinks, Outcome.bind_eq_ok] at h
    obtain ⟨⟨l₁, m⟩, hs, h⟩ := h
    exact (modifySurface_additions (addSink_additions hs) _).trans (ih h)

/-- The sink for one half of the program, if there is one, and what comes after it. -/
theorem addActive_additions {name : String} {active : Option String}
    {f : NodeId → Surface → Surface} {k : Loader → Outcome DescriptionError Graph} {g : Graph}
    (hk : ∀ l', (k l').run = .ok (.ok g) → Additions env l'.graph [] g)
    (h : (match active with
      | none => do
        let l ← pure l
        k l
      | some source => do
        let (l, n) ← l.addSink (activeSink name source)
        let l ← pure (l.modifySurface (f n))
        k l : Outcome DescriptionError Graph).run = .ok (.ok g)) :
    Additions env l.graph [] g := by
  cases active with
  | none => exact hk l h
  | some source =>
    obtain ⟨⟨l₁, n⟩, hs, h⟩ := Outcome.bind_eq_ok.1 h
    exact (modifySurface_additions (addSink_additions hs) (f n)).trans (hk _ h)

theorem addOutputs_additions {d : Description} {g : Graph}
    (h : (l.addOutputs d).run = .ok (.ok g)) : Additions env l.graph [] g := by
  obtain ⟨l₁, hs, h⟩ := Outcome.bind_eq_ok.1 h
  refine (addSinks_additions d.outputs hs).trans ?_
  refine addActive_additions (f := fun n s => { s with voiceActive := some n }) (fun l₂ h => ?_) h
  refine addActive_additions (f := fun n s => { s with effectActive := some n })
    (fun l₃ h => ?_) h
  cases h
  exact .nil

end Loader

/-- A description is built by additions, and the hooks run in their order. -/
theorem Description.build_additions {env : Environment} {d : Description}
    {runs : List Preparation} {g : Graph} (h : d.build env = .ok (runs, .ok g)) :
    Additions env {} runs g := by
  simp only [build] at h
  obtain ⟨r, hin, h⟩ := bind_eq_ok.1 h
  cases r with
  | error e => cases h
  | ok l =>
    obtain ⟨⟨runs₁, r⟩, hes, h⟩ := bind_eq_ok.1 h
    cases r with
    | error e => cases h
    | ok l₁ =>
      obtain ⟨out, hout, h⟩ := bind_eq_ok.1 h
      cases h
      have hl := (Loader.addInputs_additions d.inputs hin).trans
        (Loader.addEntries_additions d.entries hes)
      simpa using hl.trans (Loader.addOutputs_additions hout)

/-! ## Patterns -/

namespace Pattern

variable {env : Environment} {b : Bindings} {location : Option Location}

theorem instantiateCall_additions {w w' : Workspace} {s : Signature} {module : ModuleId}
    {factor place : Nat} {arguments : List OutputId} {r : Except BuildError OutputId}
    (h : instantiateCall env w location s module factor place arguments = .ok (w', r)) :
    ∃ runs, Additions env w.graph runs w'.graph := by
  simp only [instantiateCall, bind_eq_ok] at h
  obtain ⟨⟨run, result⟩, hmade, h⟩ := h
  cases result with
  | error e =>
    cases h
    exact ⟨[], .nil⟩
  | ok c =>
    obtain ⟨⟨g, n⟩, hins, h⟩ := bind_eq_ok.1 h
    dsimp only at h
    split at h
    · cases h
    · obtain ⟨rfl, -⟩ := added_eq_ok h
      exact ⟨_, (Addition.call hmade hins).one⟩

theorem instantiateArray_additions {w w' : Workspace} {ports : List OutputId}
    {r : Except BuildError OutputId} (h : instantiateArray w location ports = .ok (w', r)) :
    ∃ runs, Additions env w.graph runs w'.graph := by
  simp only [instantiateArray, bind_eq_ok] at h
  obtain ⟨element?, -, h⟩ := h
  split at h
  · cases h
    exact ⟨[], .nil⟩
  · obtain ⟨result?, hres, h⟩ := bind_eq_ok.1 h
    split at h
    · cases h
      exact ⟨[], .nil⟩
    · obtain ⟨⟨g, n⟩, hins, h⟩ := bind_eq_ok.1 h
      obtain ⟨rfl, -⟩ := added_eq_ok h
      exact ⟨[], (Addition.array hres hins).one⟩

mutual
/-- Instantiation makes additions, whether or not it comes to its end. -/
theorem instantiate_additions {w w' : Workspace} {r : Except BuildError OutputId} :
    (p : Pattern) → instantiate env b location w p = .ok (w', r) →
    ∃ runs, Additions env w.graph runs w'.graph
  | .call module factor place children, h => by
    simp only [instantiate] at h
    split at h
    · cases h
    · rename_i s hs
      obtain ⟨⟨w₁, r₁⟩, ha, h⟩ := bind_eq_ok.1 h
      obtain ⟨runs, hadd⟩ := instantiateArguments_additions _ children ha
      cases r₁ with
      | error e =>
        cases h
        exact ⟨runs, hadd⟩
      | ok arguments =>
        obtain ⟨runs', hadd'⟩ := instantiateCall_additions h
        exact ⟨_, hadd.trans hadd'⟩
  | .literal value, h => by
    simp only [instantiate] at h
    obtain ⟨hg, -⟩ := added_eq_ok h
    rw [hg]
    exact ⟨[], (Addition.constant w.graph value location).one⟩
  | .array elements, h => by
    simp only [instantiate] at h
    obtain ⟨⟨w₁, r₁⟩, he, h⟩ := bind_eq_ok.1 h
    obtain ⟨runs, hadd⟩ := instantiateElements_additions elements he
    cases r₁ with
    | error e =>
      cases h
      exact ⟨runs, hadd⟩
    | ok ports =>
      obtain ⟨runs', hadd'⟩ := instantiateArray_additions h
      exact ⟨_, hadd.trans hadd'⟩
  | .slot k, h => by
    simp only [instantiate, bind_eq_ok, pure_eq_ok] at h
    obtain ⟨o, -, h⟩ := h
    cases h
    exact ⟨[], .nil⟩
  | .wildcard _, h => nomatch h
  | .result, h => nomatch h
  | .ellipsis, h => nomatch h

theorem instantiateArguments_additions {w w' : Workspace} {r : Except BuildError (List OutputId)}
    (parameters : List Parameter) :
    (cs : List Pattern) → instantiateArguments env b location w parameters cs = .ok (w', r) →
    ∃ runs, Additions env w.graph runs w'.graph
  | [], h => by
    rw [instantiateArguments] at h
    cases h
    exact ⟨[], .nil⟩
  | c :: cs, h => by
    cases parameters with
    | nil =>
      rw [instantiateArguments] at h
      cases h
      exact ⟨[], .nil⟩
    | cons q parameters =>
      rw [instantiateArguments] at h
      split at h
      · obtain ⟨⟨w₁, r₁⟩, hc, h⟩ := bind_eq_ok.1 h
        obtain ⟨runs, hadd⟩ := instantiate_additions c hc
        cases r₁ with
        | error e =>
          cases h
          exact ⟨runs, hadd⟩
        | ok o =>
          obtain ⟨⟨w₂, r₂⟩, hcs, h⟩ := bind_eq_ok.1 h
          cases h
          obtain ⟨runs', hadd'⟩ := instantiateArguments_additions parameters cs hcs
          exact ⟨_, hadd.trans hadd'⟩
      · exact instantiateArguments_additions parameters cs h

theorem instantiateElements_additions {w w' : Workspace}
    {r : Except BuildError (List OutputId)} :
    (es : List Pattern) → instantiateElements env b location w es = .ok (w', r) →
    ∃ runs, Additions env w.graph runs w'.graph
  | [], h => by
    rw [instantiateElements] at h
    cases h
    exact ⟨[], .nil⟩
  | e :: es, h => by
    rw [instantiateElements] at h
    obtain ⟨⟨w₁, r₁⟩, he, h⟩ := bind_eq_ok.1 h
    obtain ⟨runs, hadd⟩ := instantiate_additions e he
    cases r₁ with
    | error e =>
      cases h
      exact ⟨runs, hadd⟩
    | ok o =>
      obtain ⟨⟨w₂, r₂⟩, hes, h⟩ := bind_eq_ok.1 h
      cases h
      obtain ⟨runs', hadd'⟩ := instantiateElements_additions es hes
      exact ⟨_, hadd.trans hadd'⟩
end

end Pattern

end SignalGraph
