import SignalGraph.Description.Build
import SignalGraph.Proofs.Calls

/-!
# Graphs that come from descriptions

A graph that was built from a description is valid for the registry, and the nodes that its surface
names are there (`build_loaded`). Every entry adds one node or two after everything that feeds it,
and the surface only names nodes that were added.
-/

namespace SignalGraph

open SignalGraph.Graph

namespace Graph

variable {registry : Registry} {g g' : Graph}

theorem Valid.empty : Valid registry {} where
  coherent := .empty
  acyclic := ⟨fun n => .intro n fun m hf => by cases (Coherent.empty.feeds_live hf).1.choose_spec⟩
  fits _ _ h := by cases h

theorem mem_pinned {s : Surface} {n : NodeId} :
    n ∈ s.pinned ↔ n ∈ s.inputs ∨ n ∈ s.outputs ∨ n ∈ s.boundaryOutputs ∨ n ∈ s.boundaryInputs ∨
      s.voiceActive = some n ∨ s.effectActive = some n := by
  simp [Surface.pinned]

/-- The nodes that the surface names are there. -/
def Surfaced (g : Graph) : Prop :=
  ∀ n ∈ g.surface.pinned, ∃ node, g.node? n = some node

/-- A graph that can come from a description. -/
structure Loaded (registry : Registry) (g : Graph) : Prop where
  valid : g.Valid registry
  surfaced : g.Surfaced

namespace Loaded

theorem empty : Loaded registry {} :=
  ⟨.empty, fun n hn => by simp [Surface.pinned] at hn⟩

/-- A node is added. -/
theorem inserted {kind : Kind} {location : Option Location} {sources : List OutputId}
    {results : List (DataType × Nat)} (hl : g.Loaded registry)
    (hf : Fits registry kind sources.length results.length)
    (h : Inserted g kind location sources results g') : g'.Loaded registry where
  valid := h.valid hl.valid hf
  surfaced m hm := by
    rw [h.surface] at hm
    obtain ⟨node, hn⟩ := hl.surfaced m hm
    rw [h.node?]
    split
    · exact ⟨_, rfl⟩
    · exact ⟨node, hn⟩

theorem insert {kind : Kind} {location : Option Location} {sources : List OutputId}
    {results : List (DataType × Nat)} (hl : g.Loaded registry)
    (hf : Fits registry kind sources.length results.length) {n : NodeId}
    (h : g.insert kind location sources results = .ok (g', n)) :
    g'.Loaded registry ∧ ∃ node, g'.node? n = some node := by
  obtain ⟨rfl, hi⟩ := inserted_of_insert hl.valid.coherent h
  exact ⟨hl.inserted hf hi, _, (hi.node? _).trans (if_pos rfl)⟩

theorem addInput (hl : g.Loaded registry) (name : String) (type : DataType)
    (location : Option Location) :
    (g.addInput name type location).1.Loaded registry ∧
      ∃ node, (g.addInput name type location).1.node? (g.addInput name type location).2
        = some node :=
  hl.insert (fits_of_not_isCall rfl) (addInput_eq_insert g name type location)

theorem addConstant (hl : g.Loaded registry) (value : Literal) (location : Option Location) :
    (g.addConstant value location).1.Loaded registry :=
  (hl.insert (fits_of_not_isCall rfl) (addConstant_eq_insert g value location)).1

/-- The surface names one node more. -/
theorem withSurface (hl : g.Loaded registry) {s : Surface} {n : NodeId}
    (hn : ∃ node, g.node? n = some node) (hs : ∀ m ∈ s.pinned, m ∈ g.surface.pinned ∨ m = n) :
    { g with surface := s : Graph }.Loaded registry where
  valid := ⟨hl.valid.coherent.withSurface s, hl.valid.acyclic, hl.valid.fits⟩
  surfaced m hm := by
    rcases hs m hm with hm | rfl
    · exact hl.surfaced m hm
    · exact hn

end Loaded

end Graph

namespace Loader

variable {env : Environment} {l l' : Loader} {n : NodeId}

theorem ofExcept_eq_ok {α : Type} {e : Except DescriptionError α} {a : α} :
    (ofExcept e).run = .ok (.ok a) ↔ e = .ok a := by
  simp [ofExcept, ExceptT.run, ExceptT.mk]

theorem built_eq_ok {node : String} {location : Option Location}
    {x : Except Fault (Graph × Except BuildError NodeId)} {p : Graph × NodeId} :
    (built node location x).run = .ok (.ok p) ↔ x = .ok (p.1, .ok p.2) := by
  simp only [built, Outcome.bind_eq_ok, Outcome.lift_eq_ok]
  constructor
  · rintro ⟨⟨g, e | m⟩, hx, h⟩
    · cases h
    · cases h
      exact hx
  · intro hx
    exact ⟨_, hx, rfl⟩

theorem bind_eq_ok {name : String} (h : l.bind name n = .ok l') : l'.graph = l.graph := by
  unfold Loader.bind at h
  split at h
  · cases h
  · cases h
    rfl

theorem modifySurface_loaded {f : Surface → Surface} (hl : l.graph.Loaded env.registry)
    (hn : ∃ node, l.graph.node? n = some node)
    (hf : ∀ m ∈ (f l.graph.surface).pinned, m ∈ l.graph.surface.pinned ∨ m = n) :
    (l.modifySurface f).graph.Loaded env.registry :=
  hl.withSurface hn hf

theorem addInput_loaded {c : Channel} (hl : l.graph.Loaded env.registry)
    (h : (l.addInput c).run = .ok (.ok l')) : l'.graph.Loaded env.registry := by
  simp only [addInput, Outcome.bind_eq_ok, ofExcept_eq_ok] at h
  obtain ⟨type, -, l₁, hb, h⟩ := h
  cases h
  obtain ⟨hl₁, hn⟩ := hl.addInput c.name type c.location
  rw [modifySurface, bind_eq_ok hb]
  refine hl₁.withSurface hn fun m hm => ?_
  simp only [mem_pinned, List.mem_append, List.mem_singleton] at hm ⊢
  tauto

theorem addSink_loaded {s : Sink} (hl : l.graph.Loaded env.registry)
    (h : (l.addSink s).run = .ok (.ok (l', n))) :
    l'.graph.Loaded env.registry ∧ ∃ node, l'.graph.node? n = some node := by
  simp only [addSink, Outcome.bind_eq_ok, built_eq_ok] at h
  obtain ⟨type, -, source, -, ⟨g, m⟩, hadd, h⟩ := h
  cases h
  obtain ⟨port, -, -, hi⟩ := addOutput_eq_ok.1 hadd
  exact hl.insert (fits_of_not_isCall rfl) hi

theorem addBoundary_loaded {name source : String} {type : ChannelType}
    {location : Option Location} (hl : l.graph.Loaded env.registry)
    (h : (l.addBoundary name type source location).run = .ok (.ok (l', n))) :
    l'.graph.Loaded env.registry := by
  simp only [addBoundary, Outcome.bind_eq_ok, ofExcept_eq_ok] at h
  obtain ⟨⟨l₁, sink⟩, hsink, dataType, -, h⟩ := h
  cases h
  obtain ⟨hl₁, hn⟩ := addSink_loaded hl hsink
  have hl₂ : (l₁.modifySurface fun s =>
      { s with boundaryOutputs := s.boundaryOutputs ++ [sink] }).graph.Loaded env.registry := by
    refine hl₁.withSurface hn fun m hm => ?_
    simp only [mem_pinned, List.mem_append, List.mem_singleton] at hm ⊢
    tauto
  obtain ⟨hl₃, hn₃⟩ := hl₂.addInput name dataType location
  refine hl₃.withSurface hn₃ fun m hm => ?_
  simp only [mem_pinned, List.mem_append, List.mem_singleton] at hm ⊢
  tauto

theorem addArray_loaded {node : String} {location : Option Location} {element : Primitive}
    {elements : List String} (hl : l.graph.Loaded env.registry)
    (h : (l.addArray node location element elements).run = .ok (.ok (l', n))) :
    l'.graph.Loaded env.registry := by
  simp only [addArray, Outcome.bind_eq_ok, built_eq_ok] at h
  obtain ⟨ports, -, ⟨g, m⟩, hadd, h⟩ := h
  cases h
  obtain ⟨result, -, hi⟩ := addArray_eq_ok.1 hadd
  exact (hl.insert (fits_of_not_isCall rfl) hi).1

theorem addStruct_loaded {node : String} {location : Option Location}
    {fields : List (String × String)} (hl : l.graph.Loaded env.registry)
    (h : (l.addStruct node location fields).run = .ok (.ok (l', n))) :
    l'.graph.Loaded env.registry := by
  simp only [addStruct, Outcome.bind_eq_ok, built_eq_ok] at h
  obtain ⟨ports, -, ⟨g, m⟩, hadd, h⟩ := h
  cases h
  exact (hl.insert (fits_of_not_isCall rfl) (addStruct_eq_ok.1 hadd).2).1

theorem addCall_loaded (hr : env.registry.Reached) {e : Entry} {module : String} {factor : Nat}
    {arguments : List String} {run : Option Preparation} (hl : l.graph.Loaded env.registry)
    (h : l.addCall env e module factor arguments = .ok (run, .ok (l', n))) :
    l'.graph.Loaded env.registry := by
  simp only [addCall] at h
  obtain ⟨planned, -, h⟩ := SignalGraph.bind_eq_ok.1 h
  split at h
  · cases h
  · rename_i id ports
    obtain ⟨⟨g, made⟩, hmade, h⟩ := SignalGraph.bind_eq_ok.1 h
    split at h
    · cases h
    · rename_i m hm
      cases h
      obtain ⟨s, latency, results, -, hf, hi⟩ :=
        Call.inserted_of_build hr hl.valid.coherent hmade hm
      exact hl.inserted hf hi

theorem quietly_eq_ok {α : Type} {o : Outcome DescriptionError α} {run : Option Preparation} {a : α}
    (h : quietly o = .ok (run, .ok a)) : o.run = .ok (.ok a) := by
  obtain ⟨r, hr, h⟩ := SignalGraph.bind_eq_ok.1 h
  cases h
  exact hr

theorem addNode_loaded (hr : env.registry.Reached) {e : Entry} {run : Option Preparation}
    (hl : l.graph.Loaded env.registry) (h : l.addNode env e = .ok (run, .ok (l', n))) :
    l'.graph.Loaded env.registry := by
  unfold addNode at h
  split at h
  · have h := quietly_eq_ok h
    cases h
    exact hl.addConstant _ _
  · exact addArray_loaded hl (quietly_eq_ok h)
  · exact addStruct_loaded hl (quietly_eq_ok h)
  · exact addCall_loaded hr hl h
  · exact addBoundary_loaded hl (quietly_eq_ok h)

theorem addEntry_loaded (hr : env.registry.Reached) {e : Entry} {run : Option Preparation}
    (hl : l.graph.Loaded env.registry) (h : l.addEntry env e = .ok (run, .ok l')) :
    l'.graph.Loaded env.registry := by
  simp only [addEntry] at h
  obtain ⟨⟨run₁, r⟩, hn, h⟩ := SignalGraph.bind_eq_ok.1 h
  cases r with
  | error err => cases h
  | ok p =>
    obtain ⟨l₁, m⟩ := p
    simp only [pure_eq_ok, Except.ok.injEq, Prod.mk.injEq] at h
    rw [bind_eq_ok h.2]
    exact addNode_loaded hr hl hn

theorem addInputs_loaded (cs : List Channel) (hl : l.graph.Loaded env.registry)
    (h : (l.addInputs cs).run = .ok (.ok l')) : l'.graph.Loaded env.registry := by
  induction cs generalizing l with
  | nil =>
    cases h
    exact hl
  | cons c cs ih =>
    simp only [addInputs, Outcome.bind_eq_ok] at h
    obtain ⟨l₁, hc, h⟩ := h
    exact ih (addInput_loaded hl hc) h

/-- Entries are added one after another. -/
theorem addEntries_cons {e : Entry} {es : List Entry} {runs : List Preparation} :
    l.addEntries env (e :: es) = .ok (runs, .ok l') ↔ ∃ run l₁ runs₁,
      l.addEntry env e = .ok (run, .ok l₁) ∧ l₁.addEntries env es = .ok (runs₁, .ok l') ∧
        runs = run.toList ++ runs₁ := by
  constructor
  · intro h
    simp only [addEntries] at h
    obtain ⟨⟨run, r⟩, he, h⟩ := SignalGraph.bind_eq_ok.1 h
    cases r with
    | error err => cases h
    | ok l₁ =>
      obtain ⟨⟨runs₁, r₁⟩, hes, h⟩ := SignalGraph.bind_eq_ok.1 h
      cases h
      exact ⟨run, l₁, runs₁, he, hes, rfl⟩
  · rintro ⟨run, l₁, runs₁, he, hes, rfl⟩
    simp only [addEntries, he, hes, ok_bind, pure_eq_ok]

theorem addEntries_loaded (hr : env.registry.Reached) (es : List Entry) {runs : List Preparation}
    (hl : l.graph.Loaded env.registry) (h : l.addEntries env es = .ok (runs, .ok l')) :
    l'.graph.Loaded env.registry := by
  induction es generalizing l runs with
  | nil =>
    cases h
    exact hl
  | cons e es ih =>
    obtain ⟨run, l₁, runs₁, he, hes, rfl⟩ := addEntries_cons.1 h
    exact ih (addEntry_loaded hr hl he) hes

theorem addSinks_loaded (ss : List Sink) (hl : l.graph.Loaded env.registry)
    (h : (l.addSinks ss).run = .ok (.ok l')) : l'.graph.Loaded env.registry := by
  induction ss generalizing l with
  | nil =>
    cases h
    exact hl
  | cons s ss ih =>
    simp only [addSinks, Outcome.bind_eq_ok] at h
    obtain ⟨⟨l₁, m⟩, hs, h⟩ := h
    obtain ⟨hl₁, hn⟩ := addSink_loaded hl hs
    refine ih (modifySurface_loaded hl₁ hn fun k hk => ?_) h
    simp only [mem_pinned, List.mem_append, List.mem_singleton] at hk ⊢
    tauto

/-- The sink for one half of the program, if there is one, and what comes after it. -/
theorem addActive_loaded {name : String} {active : Option String} {f : NodeId → Surface → Surface}
    {k : Loader → Outcome DescriptionError Graph} {g : Graph}
    (hf : ∀ n s m, m ∈ (f n s).pinned → m ∈ s.pinned ∨ m = n)
    (hl : l.graph.Loaded env.registry)
    (hk : ∀ l', l'.graph.Loaded env.registry → (k l').run = .ok (.ok g) → g.Loaded env.registry)
    (h : (match active with
      | none => do
        let l ← pure l
        k l
      | some source => do
        let (l, n) ← l.addSink (activeSink name source)
        let l ← pure (l.modifySurface (f n))
        k l : Outcome DescriptionError Graph).run = .ok (.ok g)) :
    g.Loaded env.registry := by
  cases active with
  | none => exact hk l hl h
  | some source =>
    obtain ⟨⟨l₁, n⟩, hs, h⟩ := Outcome.bind_eq_ok.1 h
    obtain ⟨hl₁, hn⟩ := addSink_loaded hl hs
    exact hk _ (modifySurface_loaded hl₁ hn fun m hm => hf n _ m hm) h

theorem addOutputs_loaded {d : Description} {g : Graph} (hl : l.graph.Loaded env.registry)
    (h : (l.addOutputs d).run = .ok (.ok g)) : g.Loaded env.registry := by
  obtain ⟨l₁, hs, h⟩ := Outcome.bind_eq_ok.1 h
  refine addActive_loaded (f := fun n s => { s with voiceActive := some n }) ?_
    (addSinks_loaded d.outputs hl hs) (fun l₂ hl₂ h => ?_) h
  · intro n s m hm
    simp only [mem_pinned, Option.some.injEq] at hm ⊢
    tauto
  · refine addActive_loaded (f := fun n s => { s with effectActive := some n }) ?_ hl₂
      (fun l₃ hl₃ h => ?_) h
    · intro n s m hm
      simp only [mem_pinned, Option.some.injEq] at hm ⊢
      tauto
    · cases h
      exact hl₃

end Loader

/-- A graph that was built from a description is valid, and its surface is there. -/
theorem Description.build_loaded {env : Environment} {d : Description} {runs : List Preparation}
    {g : Graph} (hr : env.registry.Reached) (h : d.build env = .ok (runs, .ok g)) :
    g.Loaded env.registry := by
  simp only [build] at h
  obtain ⟨r, hin, h⟩ := bind_eq_ok.1 h
  cases r with
  | error e => cases h
  | ok l =>
    obtain ⟨⟨runs₁, r⟩, hes, h⟩ := bind_eq_ok.1 h
    cases r with
    | error e => cases h
    | ok l₁ =>
      obtain ⟨out, hout, h⟩ := bind_eq_ok.1 h
      cases h
      have hl : l.graph.Loaded env.registry := Loader.addInputs_loaded d.inputs .empty hin
      exact Loader.addOutputs_loaded (Loader.addEntries_loaded hr d.entries hl hes) hout

end SignalGraph
