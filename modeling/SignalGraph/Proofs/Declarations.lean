import SignalGraph.Proofs.References
import SignalGraph.Proofs.Registries

/-!
# The nodes that a description declares

A description is a list of declarations of nodes (`Description.declarations`): a boundary declares
two, every other channel and every other entry one. What the loader does for one of them is
`Loader.Declares`. It resolves the references, adds one node that is wired to what they mean, binds
the name if there is one, and lets the surface name the node. Every function of the loader carries
out the declarations it is responsible for, in order, and does nothing else
(`Description.build_declares`).
-/

namespace SignalGraph

/-- The type of what a channel carries. -/
def ChannelType.dataType (t : ChannelType) : DataType :=
  ⟨some t.primitive, some t.factor, t.isArray⟩

/-! ## Declarations -/

/-- The kind of a declared node. The latency of a call is not declared. -/
inductive DeclaredKind where
  | fixed (kind : Kind)
  | call (module : String) (factor : Nat)

/-- What a node was declared as. -/
def DeclaredKind.Admits (registry : Registry) : DeclaredKind → Kind → Prop
  | .fixed kind, found => found = kind
  | .call module factor, found =>
    ∃ s latency, registry.lookupName module = some s ∧ found = .call s factor latency

/-- What a node is for the surface. -/
inductive Role where
  | inner
  | input
  | output
  | boundaryOutput
  | boundaryInput
  | voiceActive
  | effectActive
deriving DecidableEq, Repr

/-- The surface also names the node `n`. -/
def Role.mark (n : NodeId) (s : Surface) : Role → Surface
  | .inner => s
  | .input => { s with inputs := s.inputs ++ [n] }
  | .output => { s with outputs := s.outputs ++ [n] }
  | .boundaryOutput => { s with boundaryOutputs := s.boundaryOutputs ++ [n] }
  | .boundaryInput => { s with boundaryInputs := s.boundaryInputs ++ [n] }
  | .voiceActive => { s with voiceActive := some n }
  | .effectActive => { s with effectActive := some n }

/-- A node that is asked for. -/
structure Declaration where
  role : Role
  kind : DeclaredKind
  /-- Under this name later declarations can refer to the node. -/
  name : Option String
  /-- What its inputs are fed from. -/
  references : List String
  location : Option Location

def Channel.declaration (role : Role) (c : Channel) : Declaration where
  role
  kind := .fixed (.input c.name c.type.dataType)
  name := some c.name
  references := []
  location := c.location

def Sink.declaration (role : Role) (s : Sink) : Declaration where
  role
  kind := .fixed (.output s.name s.type.dataType)
  name := none
  references := [s.source]
  location := s.location

theorem Channel.role_declaration (role : Role) (c : Channel) : (c.declaration role).role = role :=
  rfl

theorem Sink.role_declaration (role : Role) (s : Sink) : (s.declaration role).role = role :=
  rfl

namespace Entry

/-- The node of an entry that is not a boundary. -/
def declaration (e : Entry) (kind : DeclaredKind) (references : List String) : Declaration where
  role := .inner
  kind
  name := some e.name
  references
  location := e.location

/-- What leaves the voice half at a boundary. -/
def boundary? (e : Entry) : Option Sink :=
  match e.kind with
  | .boundary type source => some { name := e.name, type, source, location := e.location }
  | _ => none

def isCall (e : Entry) : Bool :=
  match e.kind with
  | .call .. => true
  | _ => false

end Entry

/-- The channel by which the effect half goes on with what left the voice half. -/
def Sink.resumed (s : Sink) : Channel where
  name := s.name
  type := s.type
  location := s.location

def Sink.boundary (s : Sink) : List Declaration :=
  [s.declaration .boundaryOutput, s.resumed.declaration .boundaryInput]

def Entry.declarations (e : Entry) : List Declaration :=
  match e.kind with
  | .constant value => [e.declaration (.fixed (.constant value)) []]
  | .array element elements => [e.declaration (.fixed (.array element)) elements]
  | .struct fields =>
    [e.declaration (.fixed (.struct (fields.map Prod.fst))) (fields.map Prod.snd)]
  | .call module factor arguments => [e.declaration (.call module factor) arguments]
  | .boundary type source =>
    Sink.boundary { name := e.name, type, source, location := e.location }

namespace Description

/-- The sink that says whether a half of the program is active, if there is one. -/
def activeDeclaration (role : Role) (name : String) (source : Option String) : List Declaration :=
  source.toList.map fun source => (Loader.activeSink name source).declaration role

/-- The nodes of a description, in order. -/
def declarations (d : Description) : List Declaration :=
  d.inputs.map (Channel.declaration .input) ++ (d.entries.flatMap Entry.declarations ++
    (d.outputs.map (Sink.declaration .output) ++
      (activeDeclaration .voiceActive "voice_active" d.voiceActive ++
        activeDeclaration .effectActive "effect_active" d.effectActive)))

end Description

/-! ## Hooks -/

/-- The hook of the module that an entry calls has seen this call. -/
def Entry.Prepares (env : Environment) (e : Entry) (run : Preparation) : Prop :=
  ∃ module factor arguments m, e.kind = .call module factor arguments ∧
    env.registry.lookupName module = some m.signature ∧
    env.registry.module? m.signature.id = some m ∧
    run.signature = m.signature ∧
    run.context =
      { sampleRate := env.settings.sampleRate
        inputChannels := env.settings.inputChannels
        outputChannels := env.settings.outputChannels
        factor
        compileTime := run.context.compileTime
        location := e.location } ∧
    run.arguments.map PrepareArgument.parameter = m.signature.inputs.map (fun p => p.1.name) ∧
    run.prepared = m.hook run.context run.arguments

/-- A call that was built: its hook ran once, with an argument for each in parameter, and then its
node was added. -/
theorem Call.build_eq_ok {env : Environment} {g g' : Graph} {module : ModuleId} {factor : Nat}
    {arguments : List OutputId} {location : Option Location} {made : Call.Made NodeId}
    {n : NodeId} (h : Call.build env g module factor arguments location = .ok (g', made))
    (hm : made.result = .ok n) :
    ∃ m p latency results constant shown, env.registry.module? module = some m ∧
      made.run = some (runHook env.settings m p factor location constant shown) ∧
      shown.map PrepareArgument.parameter = (m.signature.inputs.map fun p => p.1.name) ∧
      g.insert (.call m.signature factor latency) location arguments results = .ok (g', n) := by
  obtain ⟨c, hready, hins⟩ := ready_of_build h hm
  simp only [Ready.insert, bind_eq_ok] at hins
  obtain ⟨latency, -, results, -, hins⟩ := hins
  obtain ⟨m, run, hmodule, hrun, hprepared⟩ := prepared_of_ready hready rfl
  obtain ⟨constant, shown, rfl, hshown⟩ := askPrepare_eq_ok hprepared.asked
  have hzip : ((m.signature.inputs.map Prod.fst).zip arguments).map Prod.fst
      = m.signature.inputs.map Prod.fst :=
    List.map_fst_zip (by rw [List.length_map, length_of_plan hprepared.planned])
  refine ⟨m, c.plan, latency, results, constant, shown, hmodule, hrun, ?_,
    hprepared.signature ▸ hins⟩
  calc
    _ = (((m.signature.inputs.map Prod.fst).zip arguments).map Prod.fst).map Parameter.name := by
      rw [hshown, List.map_map]
      rfl
    _ = m.signature.inputs.map fun p => p.1.name := by
      rw [hzip, List.map_map]
      rfl

/-! ## Steps of the loader -/

namespace Loader

/-- A declaration is carried out. -/
def Declares (registry : Registry) (x : Declaration) (l l' : Loader) : Prop :=
  ∃ node kind ports results g n, x.kind.Admits registry kind ∧
    (l.resolveAll node x.references).run = .ok (.ok ports) ∧
    l.graph.insert kind x.location ports results = .ok (g, n) ∧
    (∀ name ∈ x.name, name ∉ l.names.map Prod.fst) ∧
    l' = { graph := { g with surface := x.role.mark n g.surface }
           names := (x.name.map fun name => (name, n)).toList ++ l.names }

/-- Declarations are carried out one after the other. -/
inductive DeclaresAll (registry : Registry) : List Declaration → Loader → Loader → Prop
  | nil {l : Loader} : DeclaresAll registry [] l l
  | cons {x : Declaration} {xs : List Declaration} {l l₁ l₂ : Loader} :
    Declares registry x l l₁ → DeclaresAll registry xs l₁ l₂ → DeclaresAll registry (x :: xs) l l₂

variable {env : Environment} {registry : Registry} {x : Declaration} {xs ys : List Declaration}
  {l l₁ l' : Loader} {n : NodeId}

theorem DeclaresAll.append (h : DeclaresAll registry xs l l₁) (h' : DeclaresAll registry ys l₁ l') :
    DeclaresAll registry (xs ++ ys) l l' := by
  induction h with
  | nil => exact h'
  | cons hx _ ih => exact .cons hx (ih h')

theorem Declares.all (h : Declares registry x l l') : DeclaresAll registry [x] l l' :=
  .cons h .nil

theorem bind_eq_ok_iff {name : String} :
    l.bind name n = .ok l' ↔
      name ∉ l.names.map Prod.fst ∧ l' = { l with names := (name, n) :: l.names } := by
  unfold Loader.bind
  split
  · rename_i h
    simp [isSome_lookup.1 h]
  · rename_i h
    rw [isSome_lookup] at h
    simp [h, eq_comm]

theorem run_of_quietly {α : Type} {o : Outcome DescriptionError α} {run : Option Preparation}
    {r : Except DescriptionError α} (h : quietly o = .ok (run, r)) : run = none := by
  obtain ⟨r, -, h⟩ := SignalGraph.bind_eq_ok.1 h
  cases h
  rfl

theorem channelType_eq_ok {name : String} {t : ChannelType} {type : DataType}
    (h : channelType name t = .ok type) : type = t.dataType := by
  unfold channelType DataType.make at h
  grind [ChannelType.dataType, Except.mapError]

/-- A node is added under a name that is not taken. -/
theorem declares_named (node : String) {name : String} {kind : Kind} {ports : List OutputId}
    {results : List (DataType × Nat)} {g : Graph} (hx : x.name = some name)
    (hname : name ∉ l.names.map Prod.fst) (hk : x.kind.Admits registry kind)
    (hports : (l.resolveAll node x.references).run = .ok (.ok ports))
    (hi : l.graph.insert kind x.location ports results = .ok (g, n)) :
    Declares registry x l { graph := { g with surface := x.role.mark n g.surface }
                            names := (name, n) :: l.names } := by
  refine ⟨node, kind, ports, results, g, n, hk, hports, hi, fun other ho => ?_, by rw [hx]; rfl⟩
  rw [hx, Option.mem_some_iff] at ho
  exact ho ▸ hname

theorem addInput_declares {c : Channel} (h : (l.addInput c).run = .ok (.ok l')) :
    Declares registry (c.declaration .input) l l' := by
  simp only [addInput, Outcome.bind_eq_ok, ofExcept_eq_ok] at h
  obtain ⟨type, htype, l₁, hb, h⟩ := h
  cases h
  obtain rfl := channelType_eq_ok htype
  obtain ⟨hname, rfl⟩ := bind_eq_ok_iff.1 hb
  have hi := Graph.addInput_eq_insert l.graph c.name c.type.dataType c.location
  exact declares_named c.name rfl hname rfl rfl hi

/-- A sink is added, and then it is put on the surface. -/
theorem addSink_declares {s : Sink} (role : Role) (h : (l.addSink s).run = .ok (.ok (l', n))) :
    Declares registry (s.declaration role) l (l'.modifySurface fun s => role.mark n s) := by
  simp only [addSink, Outcome.bind_eq_ok, ofExcept_eq_ok, built_eq_ok] at h
  obtain ⟨type, htype, source, hsource, ⟨g, m⟩, hadd, h⟩ := h
  cases h
  obtain rfl := channelType_eq_ok htype
  obtain ⟨port, -, -, hi⟩ := Graph.addOutput_eq_ok.1 hadd
  exact ⟨s.name, _, [source], [], g, _, rfl, resolveAll_eq_ok.2 (.cons hsource .nil), hi,
    by simp [Sink.declaration], rfl⟩

/-- The node of an entry that is not a boundary is added, and then it gets its name. -/
theorem declares_of_insert {e : Entry} (node : String) {declared : DeclaredKind}
    {references : List String} {kind : Kind} {ports : List OutputId}
    {results : List (DataType × Nat)} {g : Graph} (hk : declared.Admits registry kind)
    (hports : (l.resolveAll node references).run = .ok (.ok ports))
    (hi : l.graph.insert kind e.location ports results = .ok (g, n))
    (hb : bind { l with graph := g } e.name n = .ok l') :
    DeclaresAll registry [e.declaration declared references] l l' := by
  obtain ⟨hname, rfl⟩ := bind_eq_ok_iff.1 hb
  exact Declares.all (declares_named node rfl hname hk hports hi)

theorem addBoundary_declares {s : Sink}
    (h : (l.addBoundary s.name s.type s.source s.location).run = .ok (.ok (l₁, n)))
    (hb : l₁.bind s.name n = .ok l') : DeclaresAll registry s.boundary l l' := by
  simp only [addBoundary, Outcome.bind_eq_ok, ofExcept_eq_ok] at h
  obtain ⟨⟨l₂, sink⟩, hsink, type, htype, h⟩ := h
  cases h
  obtain rfl := channelType_eq_ok htype
  obtain ⟨hname, rfl⟩ := bind_eq_ok_iff.1 hb
  refine .cons (addSink_declares .boundaryOutput hsink) (Declares.all ?_)
  exact declares_named s.name rfl hname rfl rfl
    (Graph.addInput_eq_insert _ s.name s.type.dataType s.location)

theorem planCall_eq_ok {node module : String} {factor : Nat} {arguments : List String}
    {id : ModuleId} {ports : List OutputId}
    (h : (l.planCall env node module factor arguments).run = .ok (.ok (id, ports))) :
    ∃ s, env.registry.lookupName module = some s ∧ id = s.id ∧
      (l.resolveAll node arguments).run = .ok (.ok ports) := by
  simp only [planCall] at h
  split at h
  · cases h
  · rename_i s hs
    split at h
    · cases h
    · split at h
      · cases h
      · obtain ⟨ports', hports, h⟩ := Outcome.bind_eq_ok.1 h
        cases h
        exact ⟨s, hs, rfl, hports⟩

/-- A call has one run of a hook. -/
theorem addCall_declares (hr : env.registry.Reached) {e : Entry} {module : String} {factor : Nat}
    {arguments : List String} {run : Option Preparation}
    (hkind : e.kind = .call module factor arguments)
    (h : l.addCall env e module factor arguments = .ok (run, .ok (l₁, n)))
    (hb : l₁.bind e.name n = .ok l') :
    DeclaresAll env.registry [e.declaration (.call module factor) arguments] l l' ∧
      List.Forall₂ (Entry.Prepares env) [e] run.toList := by
  simp only [addCall] at h
  obtain ⟨planned, hplan, h⟩ := SignalGraph.bind_eq_ok.1 h
  split at h
  · cases h
  · rename_i id ports
    obtain ⟨⟨g, made⟩, hmade, h⟩ := SignalGraph.bind_eq_ok.1 h
    split at h
    · cases h
    · rename_i k hm
      cases h
      obtain ⟨s, hs, rfl, hports⟩ := planCall_eq_ok hplan
      obtain ⟨m, p, latency, results, constant, shown, hmodule, hrun, hshown, hi⟩ :=
        Call.build_eq_ok hmade hm
      -- The module with this name is the one that its id leads to.
      have hsignature : s = m.signature := by
        have hmem := (hr.indexed.lookupName_eq_some.1 hs).1
        have hlookup := hr.indexed.lookup_eq_some.2 ⟨hmem, rfl⟩
        rw [Registry.lookup, hmodule, Option.map_some, Option.some.injEq] at hlookup
        exact hlookup.symm
      subst hsignature
      refine ⟨declares_of_insert e.name ⟨_, latency, hs, rfl⟩ hports hi hb, ?_⟩
      rw [hrun]
      exact .cons ⟨module, factor, arguments, m, hkind, hs, hmodule, rfl, rfl, hshown, rfl⟩ .nil

/-- An entry that is no call runs no hook. -/
theorem addNode_declares (hr : env.registry.Reached) {e : Entry} {run : Option Preparation}
    (h : l.addNode env e = .ok (run, .ok (l₁, n))) (hb : l₁.bind e.name n = .ok l') :
    DeclaresAll env.registry e.declarations l l' ∧
      List.Forall₂ (Entry.Prepares env) ([e].filter Entry.isCall) run.toList := by
  obtain ⟨name, kind, location⟩ := e
  cases kind with
  | constant value =>
    obtain rfl := run_of_quietly h
    have hq := quietly_eq_ok h
    cases hq
    have hadd := Graph.addConstant_eq_insert l.graph value location
    exact ⟨declares_of_insert name rfl rfl hadd hb, .nil⟩
  | array element elements =>
    obtain rfl := run_of_quietly h
    have hq := quietly_eq_ok h
    simp only [addArray, Outcome.bind_eq_ok, built_eq_ok] at hq
    obtain ⟨ports, hports, ⟨g, m⟩, hadd, hq⟩ := hq
    cases hq
    obtain ⟨result, -, hi⟩ := Graph.addArray_eq_ok.1 hadd
    exact ⟨declares_of_insert name rfl hports hi hb, .nil⟩
  | struct fields =>
    obtain rfl := run_of_quietly h
    have hq := quietly_eq_ok h
    simp only [addStruct, Outcome.bind_eq_ok, built_eq_ok] at hq
    obtain ⟨ports, hports, ⟨g, m⟩, hadd, hq⟩ := hq
    cases hq
    obtain ⟨-, hi⟩ := Graph.addStruct_eq_ok.1 hadd
    obtain ⟨hnames, hports⟩ := resolveFields_eq_ok hports
    rw [hnames] at hi
    exact ⟨declares_of_insert name rfl hports hi hb, .nil⟩
  | call module factor arguments => exact addCall_declares hr rfl h hb
  | boundary type source =>
    obtain rfl := run_of_quietly h
    have hq := quietly_eq_ok h
    exact ⟨addBoundary_declares (s := ⟨name, type, source, location⟩) hq hb, .nil⟩

theorem addEntry_declares (hr : env.registry.Reached) {e : Entry} {run : Option Preparation}
    (h : l.addEntry env e = .ok (run, .ok l')) :
    DeclaresAll env.registry e.declarations l l' ∧
      List.Forall₂ (Entry.Prepares env) ([e].filter Entry.isCall) run.toList := by
  simp only [addEntry] at h
  obtain ⟨⟨run₁, r⟩, hn, h⟩ := SignalGraph.bind_eq_ok.1 h
  cases r with
  | error err => cases h
  | ok p =>
    obtain ⟨l₁, m⟩ := p
    simp only [pure_eq_ok, Except.ok.injEq, Prod.mk.injEq] at h
    obtain ⟨rfl, hb⟩ := h
    exact addNode_declares hr hn hb

theorem addInputs_declares (cs : List Channel) (h : (l.addInputs cs).run = .ok (.ok l')) :
    DeclaresAll registry (cs.map (Channel.declaration .input)) l l' := by
  induction cs generalizing l with
  | nil =>
    cases h
    exact .nil
  | cons c cs ih =>
    simp only [addInputs, Outcome.bind_eq_ok] at h
    obtain ⟨l₁, hc, h⟩ := h
    exact .cons (addInput_declares hc) (ih h)

theorem addEntries_declares (hr : env.registry.Reached) (es : List Entry) {runs : List Preparation}
    (h : l.addEntries env es = .ok (runs, .ok l')) :
    DeclaresAll env.registry (es.flatMap Entry.declarations) l l' ∧
      List.Forall₂ (Entry.Prepares env) (es.filter Entry.isCall) runs := by
  induction es generalizing l runs with
  | nil =>
    cases h
    exact ⟨.nil, .nil⟩
  | cons e es ih =>
    obtain ⟨run, l₁, runs₁, he, hes, rfl⟩ := addEntries_cons.1 h
    obtain ⟨hfirst, hrun⟩ := addEntry_declares hr he
    obtain ⟨hrest, hruns⟩ := ih hes
    rw [List.flatMap_cons, ← List.singleton_append, List.filter_append]
    exact ⟨hfirst.append hrest, List.rel_append hrun hruns⟩

theorem addSinks_declares (ss : List Sink) (h : (l.addSinks ss).run = .ok (.ok l')) :
    DeclaresAll registry (ss.map (Sink.declaration .output)) l l' := by
  induction ss generalizing l with
  | nil =>
    cases h
    exact .nil
  | cons s ss ih =>
    simp only [addSinks, Outcome.bind_eq_ok] at h
    obtain ⟨⟨l₁, m⟩, hs, h⟩ := h
    exact .cons (addSink_declares .output hs) (ih h)

/-- The sink for one half of the program, if there is one, and what comes after it. -/
theorem addActive_declares {name : String} {active : Option String} (role : Role)
    {k : Loader → Outcome DescriptionError Graph} {g : Graph}
    (h : (match active with
      | none => do
        let l ← pure l
        k l
      | some source => do
        let (l, n) ← l.addSink (activeSink name source)
        let l ← pure (l.modifySurface fun s => role.mark n s)
        k l : Outcome DescriptionError Graph).run = .ok (.ok g)) :
    ∃ l', DeclaresAll registry (Description.activeDeclaration role name active) l l' ∧
      (k l').run = .ok (.ok g) := by
  cases active with
  | none => exact ⟨l, .nil, h⟩
  | some source =>
    obtain ⟨⟨l₁, n⟩, hs, h⟩ := Outcome.bind_eq_ok.1 h
    exact ⟨_, Declares.all (addSink_declares role hs), h⟩

theorem addOutputs_declares {d : Description} {g : Graph}
    (h : (l.addOutputs d).run = .ok (.ok g)) :
    ∃ l', l'.graph = g ∧ DeclaresAll registry (d.outputs.map (Sink.declaration .output) ++
      (Description.activeDeclaration .voiceActive "voice_active" d.voiceActive ++
        Description.activeDeclaration .effectActive "effect_active" d.effectActive)) l l' := by
  obtain ⟨l₁, hs, h⟩ := Outcome.bind_eq_ok.1 h
  obtain ⟨l₂, hvoice, h⟩ := addActive_declares .voiceActive h
  obtain ⟨l₃, heffect, h⟩ := addActive_declares .effectActive h
  cases h
  exact ⟨l₃, rfl, (addSinks_declares d.outputs hs).append (hvoice.append heffect)⟩

end Loader

/-- A graph is built by carrying out all declarations, and each call has one run of a hook. -/
theorem Description.build_declares {env : Environment} {d : Description} {runs : List Preparation}
    {g : Graph} (hr : env.registry.Reached) (h : d.build env = .ok (runs, .ok g)) :
    (∃ l, l.graph = g ∧ Loader.DeclaresAll env.registry d.declarations {} l) ∧
      List.Forall₂ (Entry.Prepares env) (d.entries.filter Entry.isCall) runs := by
  simp only [build] at h
  obtain ⟨r, hin, h⟩ := bind_eq_ok.1 h
  cases r with
  | error e => cases h
  | ok l =>
    obtain ⟨⟨runs₁, r⟩, hes, h⟩ := bind_eq_ok.1 h
    cases r with
    | error e => cases h
    | ok l₁ =>
      obtain ⟨out, hout, h⟩ := bind_eq_ok.1 h
      cases h
      obtain ⟨hentries, hruns⟩ := Loader.addEntries_declares hr d.entries hes
      obtain ⟨l₂, hg, houtputs⟩ := Loader.addOutputs_declares hout
      exact ⟨⟨l₂, hg,
        (Loader.addInputs_declares d.inputs hin).append (hentries.append houtputs)⟩, hruns⟩

end SignalGraph
