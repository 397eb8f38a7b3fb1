import SignalGraph.Call
import SignalGraph.Proofs.Collection
import SignalGraph.Proofs.Growth
import SignalGraph.Proofs.Outcome
import SignalGraph.Proofs.Verification

/-!
# Calls of registered modules

The slot of a parameter is the number of parameters of its direction before it
(`inputSlot_eq`, `outputSlot_eq`), so different out parameters have different slots.

A graph is `Valid` for a registry if it is coherent, has no cycle, and has calls of registered
modules only, with a port for each parameter. Changes of graphs that close no cycle keep it valid,
and so does a new call of a registered module (`Ready.inserted_of_insert`).
-/

namespace SignalGraph

/-! ## Slots -/

namespace Signature

/-- Among entries numbered from `n` on, the place of an entry under those with a property. -/
theorem findIdx?_filter_zipIdx {α : Type} (q : α → Bool) (l : List α) (n place : Nat) :
    ((l.zipIdx n).filter fun p => q p.1).findIdx? (fun p => p.2 == place)
      = if n ≤ place ∧ (l[place - n]?).any q then some ((l.take (place - n)).countP q)
        else none := by
  induction l generalizing n with
  | nil => simp
  | cons a l ih =>
    rw [List.zipIdx_cons, List.filter_cons]
    by_cases hp : place = n
    · subst hp
      by_cases ha : q a
      · simp [ha, List.findIdx?_cons]
      · simp [ha, ih]
    · by_cases hle : n ≤ place
      · obtain ⟨k, rfl⟩ : ∃ k, place = n + k + 1 := ⟨place - n - 1, by omega⟩
        have hn : n + k + 1 - n = k + 1 := by omega
        have hn' : n + k + 1 - (n + 1) = k := by omega
        have hle' : n + 1 ≤ n + k + 1 := by omega
        have hne : ¬ n = n + k + 1 := by omega
        by_cases ha : q a
        · simp only [ha, if_true, List.findIdx?_cons, ih, hn, hn', hle, hle', true_and, beq_iff_eq,
            hne, if_false, List.getElem?_cons_succ, List.take_succ_cons, List.countP_cons]
          split <;> simp
        · simp [ha, ih, hn, hn', hle]
      · have hle' : ¬ n + 1 ≤ place := by omega
        have hne : ¬ n = place := fun h => hp h.symm
        by_cases ha : q a <;> simp [ha, ih, hle, hle', hne, List.findIdx?_cons]

variable {s : Signature} {place k : Nat}

theorem inputSlot_eq (s : Signature) (place : Nat) :
    s.inputSlot place = if (s.parameters[place]?).any Parameter.isInput then
      some ((s.parameters.take place).countP Parameter.isInput) else none := by
  have h := findIdx?_filter_zipIdx Parameter.isInput s.parameters 0 place
  simpa [inputSlot, inputs] using h

theorem outputSlot_eq (s : Signature) (place : Nat) :
    s.outputSlot place = if (s.parameters[place]?).any (fun p => !p.isInput) then
      some ((s.parameters.take place).countP fun p => !p.isInput) else none := by
  have h := findIdx?_filter_zipIdx (fun p : Parameter => !p.isInput) s.parameters 0 place
  simpa [outputSlot, outputs] using h

/-- Different out parameters have different slots. -/
theorem outputSlot_inj {place' : Nat} (h : s.outputSlot place = some k)
    (h' : s.outputSlot place' = some k) : place = place' := by
  obtain ⟨hk, hp, -⟩ := List.findIdx?_eq_some_iff_getElem.1 h
  obtain ⟨hk', hp', -⟩ := List.findIdx?_eq_some_iff_getElem.1 h'
  exact (beq_iff_eq.1 hp).symm.trans (beq_iff_eq.1 hp')

theorem exists_inputSlot (h : (s.parameters[place]?).any Parameter.isInput = true) :
    ∃ k, s.inputSlot place = some k :=
  ⟨_, (inputSlot_eq s place).trans (if_pos h)⟩

theorem inputSlot_eq_none (h : ¬ (s.parameters[place]?).any Parameter.isInput = true) :
    s.inputSlot place = none :=
  (inputSlot_eq s place).trans (if_neg h)

theorem exists_outputSlot {p : Parameter} (h : s.parameters[place]? = some p)
    (hp : p.isInput = false) : ∃ k, s.outputSlot place = some k :=
  ⟨_, (outputSlot_eq s place).trans (if_pos (by simp [h, hp]))⟩

theorem isInput_of_outputSlot {p : Parameter} (h : s.outputSlot place = some k)
    (hp : s.parameters[place]? = some p) : p.isInput = false := by
  rw [outputSlot_eq, hp] at h
  split at h
  · rename_i hin
    simpa using hin
  · cases h

theorem length_inputs (s : Signature) :
    s.inputs.length = s.parameters.countP Parameter.isInput := by
  rw [inputs, ← List.countP_eq_length_filter]
  have h := List.countP_map (p := Parameter.isInput) (f := Prod.fst) (l := s.parameters.zipIdx)
  rw [List.zipIdx_map_fst] at h
  exact h.symm

end Signature

/-! ## Registries -/

namespace Registry

/-- Registries that come about by registration. -/
inductive Reached : Registry → Prop where
  | empty : Reached {}
  | insert {r r' : Registry} {m : Module} : Reached r → r.insert m = .ok r' → Reached r'

theorem mem_place {id : ModuleId} {m : Module} {l : List (ModuleId × Module)}
    {p : ModuleId × Module} : p ∈ place id m l ↔ p = (id, m) ∨ p ∈ l := by
  induction l with
  | nil => simp [place]
  | cons q l ih =>
    rw [place]
    split
    · simp
    · simp only [List.mem_cons, ih]
      exact or_left_comm

/-- Modules are found under the ids they have, and their signatures passed the check. -/
theorem Reached.of_module? {r : Registry} (hr : r.Reached) {id : ModuleId} {m : Module}
    (h : r.module? id = some m) : m.signature.id = id ∧ m.signature.validate = .ok () := by
  have hall : ∀ p ∈ r.modules, p.2.signature.id = p.1 ∧ p.2.signature.validate = .ok () := by
    clear h
    induction hr with
    | empty => simp
    | @insert r r' m hr hi ih =>
      simp only [Registry.insert] at hi
      split at hi
      · cases hi
      · rename_i hvalid
        split at hi
        · cases hi
        · cases hi
          intro p hp
          rcases mem_place.1 hp with rfl | hp
          · exact ⟨rfl, hvalid⟩
          · exact ih p hp
  obtain ⟨l₁, l₂, hl, -⟩ := List.lookup_eq_some_iff.1 h
  exact hall (id, m) (by simp [hl])

theorem Reached.insertAll {r : Registry} (hr : r.Reached) (l : List Module) :
    (r.insertAll l).1.Reached := by
  induction l generalizing r with
  | nil => exact hr
  | cons m l ih =>
    rw [Registry.insertAll]
    split
    · rename_i r' hi
      exact ih (hr.insert hi)
    · exact hr

theorem Reached.load {r : Registry} (hr : r.Reached) (text origin : String) :
    (r.load text origin).1.Reached := by
  unfold Registry.load
  split
  · exact hr
  · rename_i modules _
    have := hr.insertAll modules
    split <;> simp_all

theorem Reached.id_of_lookup {r : Registry} (hr : r.Reached) {id : ModuleId} {s : Signature}
    (h : r.lookup id = some s) : s.id = id := by
  obtain ⟨m, hm, rfl⟩ := Option.map_eq_some_iff.1 h
  exact (hr.of_module? hm).1

end Registry

/-! ## Valid graphs -/

namespace Graph

/-- A node of this kind, with these numbers of ports, can stand in a graph for a registry. -/
def Fits (registry : Registry) (kind : Kind) (inputs outputs : Nat) : Prop :=
  ∀ s factor latency, kind = .call s factor latency → registry.lookup s.id = some s ∧
    inputs = s.inputs.length ∧ outputs = s.outputs.length

theorem fits_of_not_isCall {registry : Registry} {kind : Kind} {inputs outputs : Nat}
    (h : kind.isCall = false) : Fits registry kind inputs outputs := by
  rintro s factor latency rfl
  cases h

/-- Calls are calls of registered modules, with a port for each parameter. -/
def CallsFrom (registry : Registry) (g : Graph) : Prop :=
  ∀ ⦃n : NodeId⦄ ⦃node : Node⦄, g.node? n = some node →
    Fits registry node.kind node.inputs.length node.outputs.length

/-- Coherent, without cycles, and with calls of registered modules only. -/
structure Valid (registry : Registry) (g : Graph) : Prop where
  coherent : g.Coherent
  acyclic : g.Acyclic
  fits : g.CallsFrom registry

variable {registry : Registry} {g g' : Graph}

theorem valid_iff : g.Valid registry ↔ g.Coherent ∧ g.verify = [] ∧ g.CallsFrom registry :=
  ⟨fun h => ⟨h.coherent, h.coherent.verify_eq_nil.2 h.acyclic, h.fits⟩,
    fun ⟨hg, hv, hf⟩ => ⟨hg, hg.verify_eq_nil.1 hv, hf⟩⟩

theorem Same.valid (h : Same g g') (hg' : g'.Coherent) (hv : g.Valid registry) :
    g'.Valid registry :=
  ⟨hg', h.acyclic hv.acyclic, fun _ _ hn => hv.fits (h.node? _ ▸ hn)⟩

theorem Restored.valid (h : Restored g g') (hv : g.Valid registry) : g'.Valid registry :=
  h.toSame.valid h.coherent hv

theorem Pruned.valid (h : Pruned g g') (hv : g.Valid registry) : g'.Valid registry :=
  ⟨h.coherent, h.acyclic hv.coherent hv.acyclic, fun _ _ hn => hv.fits (h.node? hn)⟩

theorem Inserted.valid {kind : Kind} {location : Option Location} {sources : List OutputId}
    {results : List (DataType × Nat)} (h : Inserted g kind location sources results g')
    (hv : g.Valid registry) (hf : Fits registry kind sources.length results.length) :
    g'.Valid registry where
  coherent := h.coherent
  acyclic := h.acyclic hv.coherent hv.acyclic
  fits n node hn := by
    rw [h.node?] at hn
    split at hn
    · cases hn
      simpa using hf
    · exact hv.fits hn

end Graph

/-! ## What calls ask of a graph -/

namespace Graph

variable {g : Graph}

/-- A hook can be shown live arguments. -/
theorem Coherent.askPrepare_eq (hg : g.Coherent) {settings : Settings} {m : Module} {p : CallPlan}
    {factor : Nat} {arguments : List OutputId} {location : Option Location}
    (hl : ∀ a ∈ arguments, ∃ port, g.output? a = some port) :
    Call.askPrepare settings g m p factor arguments location =
      .ok (Call.prepare settings g m p factor arguments location) := by
  have hconstant : (arguments.allM fun a => do
      return (← g.output a).type.isConstant : Except Fault Bool) =
      .ok (arguments.all fun a => (g.output? a).any fun port => port.type.isConstant) := by
    refine allM_ok fun a ha => ?_
    obtain ⟨port, hp⟩ := hl a ha
    simp [output_eq_ok.2 hp, hp]
  have hshown : (((m.signature.inputs.map Prod.fst).zip arguments).mapM fun q => do
      return { parameter := q.1.name, value := ← g.askValue q.2 : PrepareArgument } :
        Except Fault (List PrepareArgument)) =
      .ok (((m.signature.inputs.map Prod.fst).zip arguments).map fun q =>
        { parameter := q.1.name, value := g.value? q.2 }) := by
    refine mapM_ok fun q hq => ?_
    obtain ⟨port, hp⟩ := hl q.2 (List.of_mem_zip hq).2
    simp [hg.askValue_eq hp]
  simp only [Call.askPrepare, hconstant, hshown, ok_bind]
  rfl

/-- The variable elements of an array are there. -/
theorem Coherent.variableSources_eq (hg : g.Coherent) {n : NodeId} {node : Node}
    (hn : g.node? n = some node) : node.inputs.filterMapM (Call.variableSource g) =
      .ok ((node.inputs.filterMap g.source?).filter fun o =>
        (g.output? o).any fun element => !element.type.isConstant) := by
  rw [List.filter_filterMap]
  refine filterMapM_ok fun i hi => ?_
  obtain ⟨input, hin⟩ := hg.input_live hn hi
  rw [Call.variableSource, source_eq_ok hin, ok_bind]
  cases hs : g.source? i with
  | none => rfl
  | some o =>
    obtain ⟨port, hp⟩ := hg.source_live hs
    cases hc : port.type.isConstant <;> simp [output_eq_ok.2 hp, hp, hc, Option.filter]

end Graph

/-! ## New calls -/

namespace Call

variable {env : Environment} {g g' : Graph} {module : ModuleId} {factor : Nat}
  {arguments : List OutputId} {location : Option Location}

theorem length_of_plan {s : Signature} {p : CallPlan}
    (h : (plan g s factor arguments).run = .ok (.ok p)) : arguments.length = s.inputs.length := by
  by_contra hne
  by_cases hf : factor = 0
  · simp only [plan, hf, if_true] at h
    obtain ⟨-, h, -⟩ := Outcome.bind_eq_ok.1 h
    cases h
  · simp only [plan, hf, hne, ne_eq, not_false_eq_true, if_true, if_false] at h
    obtain ⟨-, h, -⟩ := Outcome.bind_eq_ok.1 h
    cases h

theorem length_of_results {p : CallPlan} {latency : Nat} {l : List (Parameter × Nat)}
    {r : List (DataType × Nat)} (h : results p factor latency l = .ok r) : r.length = l.length := by
  induction l generalizing r with
  | nil =>
    cases h
    rfl
  | cons a l ih =>
    simp only [results, bind_eq_ok, pure_eq_ok] at h
    obtain ⟨first, -, rest, hr, h⟩ := h
    cases h
    simp [ih hr]

/-- What a hook is shown: an argument for each parameter that one was given for. -/
theorem askPrepare_eq_ok {settings : Settings} {m : Module} {p : CallPlan} {run : Preparation}
    (h : askPrepare settings g m p factor arguments location = .ok run) :
    ∃ constant shown, run = runHook settings m p factor location constant shown ∧
      shown.map PrepareArgument.parameter =
        ((m.signature.inputs.map Prod.fst).zip arguments).map fun q => q.1.name := by
  obtain ⟨constant, -, h⟩ := bind_eq_ok.1 h
  obtain ⟨shown, hshown, h⟩ := bind_eq_ok.1 h
  cases h
  refine ⟨constant, shown, rfl, map_of_mapM ?_ hshown⟩
  rintro q b hb
  obtain ⟨value, -, hb⟩ := bind_eq_ok.1 hb
  cases hb
  rfl

/-- A call of `m` was planned, and its hook ran and reported no error. -/
structure Prepared (env : Environment) (g : Graph) (m : Module) (factor : Nat)
    (arguments : List OutputId) (location : Option Location) (c : Ready) (run : Preparation) :
    Prop where
  signature : c.signature = m.signature
  planned : (plan g m.signature factor arguments).run = .ok (.ok c.plan)
  asked : askPrepare env.settings g m c.plan factor arguments location = .ok run
  quiet : Diagnostic.errorCount run.prepared.diagnostics = 0
  latency : c.hookLatency = run.prepared.latency

theorem prepared_of_ready {made : Made Ready} {c : Ready}
    (h : ready env g module factor arguments location = .ok made) (hc : made.result = .ok c) :
    ∃ m run, env.registry.module? module = some m ∧ made.run = some run ∧
      Prepared env g m factor arguments location c run := by
  unfold ready at h
  split at h
  · cases h
  · rename_i m hm
    obtain ⟨planned, hplan, h⟩ := bind_eq_ok.1 h
    cases planned with
    | error e =>
      cases h
      cases hc
    | ok p =>
      obtain ⟨run, hrun, h⟩ := bind_eq_ok.1 h
      simp only [pure_eq_ok] at h
      split at h
      · cases h
        cases hc
      · rename_i hquiet
        cases h
        cases hc
        exact ⟨m, run, hm, rfl, rfl, hplan, hrun, Nat.eq_zero_of_not_pos hquiet, rfl⟩

/-- What a call that is ready was planned from. -/
theorem ready_eq_ok {made : Made Ready} {c : Ready}
    (h : ready env g module factor arguments location = .ok made) (hc : made.result = .ok c) :
    env.registry.lookup module = some c.signature ∧
      arguments.length = c.signature.inputs.length := by
  obtain ⟨m, run, hm, -, hprepared⟩ := prepared_of_ready h hc
  rw [hprepared.signature]
  exact ⟨by simp [Registry.lookup, hm], length_of_plan hprepared.planned⟩

/-- A call that is ready, with its outputs, fits into a graph. -/
theorem Ready.fits {c : Ready} (hr : env.registry.Reached) {made : Made Ready} {latency : Nat}
    {outputs : List (DataType × Nat)}
    (h : ready env g module factor arguments location = .ok made) (hc : made.result = .ok c)
    (hres : results c.plan factor latency c.signature.outputs = .ok outputs) :
    Graph.Fits env.registry (.call c.signature factor latency) arguments.length outputs.length := by
  obtain ⟨hl, hlen⟩ := ready_eq_ok h hc
  rintro s f l hk
  cases hk
  exact ⟨hr.id_of_lookup hl ▸ hl, hlen, length_of_results hres⟩

/-- The node of a call that was inserted. -/
theorem Ready.inserted_of_insert {c : Ready} {n : NodeId} (hr : env.registry.Reached)
    (hg : g.Coherent) {made : Made Ready}
    (h : ready env g module factor arguments location = .ok made) (hc : made.result = .ok c)
    (hi : c.insert g factor arguments location = .ok (g', n)) :
    ∃ latency results, n = g.nextNode ∧ c.signature.id = module ∧
      Graph.Fits env.registry (.call c.signature factor latency) arguments.length
        results.length ∧
      Graph.Inserted g (.call c.signature factor latency) location arguments results g' := by
  obtain ⟨hl, -⟩ := ready_eq_ok h hc
  simp only [Ready.insert, bind_eq_ok] at hi
  obtain ⟨latency, -, outputs, hres, hi⟩ := hi
  obtain ⟨hn, hins⟩ := Graph.inserted_of_insert hg hi
  exact ⟨latency, outputs, hn, hr.id_of_lookup hl, Ready.fits hr h hc hres, hins⟩

section Build

variable {n : NodeId} {made : Made NodeId}

/-- A call that was built was ready, and then it was inserted. -/
theorem ready_of_build (h : build env g module factor arguments location = .ok (g', made))
    (hm : made.result = .ok n) :
    ∃ c, ready env g module factor arguments location = .ok ⟨made.run, .ok c⟩ ∧
      c.insert g factor arguments location = .ok (g', n) := by
  simp only [build] at h
  obtain ⟨⟨run, result⟩, hready, h⟩ := bind_eq_ok.1 h
  cases result with
  | error e =>
    cases h
    cases hm
  | ok c =>
    obtain ⟨⟨g₁, n₁⟩, hins, h⟩ := bind_eq_ok.1 h
    cases h
    cases hm
    exact ⟨c, hready, hins⟩

/-- A call that is refused leaves the graph as it was. -/
theorem build_refused {e : BuildError}
    (h : build env g module factor arguments location = .ok (g', made))
    (he : made.result = .error e) : g' = g := by
  simp only [build] at h
  obtain ⟨⟨run, result⟩, -, h⟩ := bind_eq_ok.1 h
  cases result with
  | error e =>
    cases h
    rfl
  | ok c =>
    obtain ⟨⟨g₁, n₁⟩, -, h⟩ := bind_eq_ok.1 h
    cases h
    cases he

/-- The node of a call that was built. -/
theorem inserted_of_build (hr : env.registry.Reached) (hg : g.Coherent)
    (h : build env g module factor arguments location = .ok (g', made))
    (hm : made.result = .ok n) :
    ∃ s latency results, n = g.nextNode ∧
      Graph.Fits env.registry (.call s factor latency) arguments.length results.length ∧
      Graph.Inserted g (.call s factor latency) location arguments results g' := by
  obtain ⟨c, hready, hins⟩ := ready_of_build h hm
  obtain ⟨latency, results, hn, -, hf, hi⟩ := Ready.inserted_of_insert hr hg hready rfl hins
  exact ⟨c.signature, latency, results, hn, hf, hi⟩

end Build

end Call

end SignalGraph
