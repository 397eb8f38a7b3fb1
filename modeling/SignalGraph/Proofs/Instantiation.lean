import SignalGraph.Proofs.Matching
import SignalGraph.Rewriting.Instantiate

/-!
# What instantiation builds

Instantiating a pattern adds nodes to a valid graph that draw on the bound ports and on each other,
and the graph stays valid, whether or not the pattern can be built to its end
(`instantiate_spec`). The port that comes of it is bound or new, and every new node is used on the
way to it (`Offers`).
-/

namespace SignalGraph

namespace Graph

variable {b : List OutputId} {g g₁ g' : Graph} {o : OutputId}

/-- Ports that were made for use on top of a graph: live, bound or new, and with no new node that
neither feeds anything nor gives one of them. -/
structure Offers (b : List OutputId) (g g' : Graph) (ports : List OutputId) : Prop where
  live : ∀ o ∈ ports, ∃ out, g'.output? o = some out
  drawn : ∀ o ∈ ports, g.outputs.size ≤ o.index ∨ o ∈ b
  used {n : NodeId} {node : Node} : g.nodes.size ≤ n.index → g'.node? n = some node →
    (∃ o ∈ ports, g'.maker? o = some n) ∨ ¬ g'.Unused n

namespace Offers

theorem nil (g : Graph) : Offers b g g [] where
  live := by simp
  drawn := by simp
  used hn hl := absurd (lt_of_node? hl) (Nat.not_lt.2 hn)

theorem bound (ho : o ∈ b) (hl : ∃ out, g.output? o = some out) : Offers b g g [o] where
  live := by simpa using hl
  drawn := by simp [ho]
  used hn hl := absurd (lt_of_node? hl) (Nat.not_lt.2 hn)

/-- A node in use stays in use when more is built. -/
theorem unused_of_grown (h : Grown b g g') (hg : g.Coherent) {n : NodeId} (hu : g'.Unused n) :
    g.Unused n := by
  intro i x hs hm
  obtain ⟨out, hout⟩ := hg.source_live hs
  refine hu i x ((h.source? (lt_of_source? hs)).trans hs) ?_
  exact (h.maker? (lt_of_output? hout)).trans hm

/-- More ports are made after a first one. -/
theorem cons {ports : List OutputId} (hg₁ : g₁.Coherent) (h : Grown b g g₁)
    (h₁ : Grown b g₁ g') (ho : Offers b g g₁ [o]) (hps : Offers b g₁ g' ports) :
    Offers b g g' (o :: ports) where
  live := by
    refine List.forall_mem_cons.2 ⟨?_, hps.live⟩
    obtain ⟨out, hout⟩ := ho.live o (by simp)
    obtain ⟨out', hout', -⟩ := h₁.output?_isSome hout
    exact ⟨out', hout'⟩
  drawn := by
    refine List.forall_mem_cons.2 ⟨ho.drawn o (by simp), fun x hx => ?_⟩
    exact (hps.drawn x hx).imp_left (Nat.le_trans h.outputs_le)
  used {n node} hn hl := by
    by_cases hlt : n.index < g₁.nodes.size
    · rw [h₁.node? hlt] at hl
      rcases ho.used hn hl with ⟨x, hx, hm⟩ | hu
      · obtain rfl : x = o := by simpa using hx
        exact .inl ⟨x, by simp, (h₁.maker? (lt_of_maker? hm)).trans hm⟩
      · exact .inr fun hu' => hu (unused_of_grown h₁ hg₁ hu')
    · rcases hps.used (Nat.le_of_not_lt hlt) hl with ⟨x, hx, hm⟩ | hu
      · exact .inl ⟨x, List.mem_cons_of_mem _ hx, hm⟩
      · exact .inr hu

end Offers

section Inserted

variable {kind : Kind} {location : Option Location} {sources : List OutputId}
  {results : List (DataType × Nat)}

/-- A node is made from ports that were made for it. -/
theorem Offers.insert (hg : g₁.Coherent) (hgr : Grown b g g₁) (hs : Offers b g g₁ sources)
    (h : Inserted g₁ kind location sources results g') {k : Nat}
    (ho : g'.port g₁.nextNode k = .ok o) : Offers b g g' [o] := by
  obtain ⟨hk, rfl⟩ := h.port_eq_ok.1 ho
  have hbare := h.bare?_port (k := k)
  rw [List.getElem?_eq_getElem hk, Option.map_some] at hbare
  obtain ⟨out, hout, hb⟩ := bare?_eq_some.1 hbare
  have hmk : g'.maker? ⟨g₁.outputs.size + k⟩ = some g₁.nextNode := by
    rw [maker?_eq_bare?, hbare, Option.map_some]
  have hle := hgr.outputs_le
  constructor
  case live => simpa using ⟨out, hout⟩
  case drawn =>
    simp only [List.mem_singleton, forall_eq]
    exact .inl (Nat.le_add_right_of_le hle)
  case used =>
    intro n node hn hl
    by_cases hnew : n = g₁.nextNode
    · exact .inl ⟨_, List.mem_singleton_self _, hnew ▸ hmk⟩
    · right
      rw [h.node?, if_neg hnew] at hl
      rcases hs.used hn hl with ⟨x, hx, hm⟩ | hu
      · -- The new node takes the port of `n`.
        obtain ⟨j, hj⟩ := List.getElem?_of_mem hx
        have hin := h.input? ⟨g₁.inputs.size + j⟩
        rw [if_neg (by simp)] at hin
        simp only [Nat.add_sub_cancel_left, hj, Option.map_some] at hin
        obtain ⟨out, hout⟩ := h.sources_live x hx
        exact fun hu => hu _ x (source?_eq_some.2 ⟨_, hin, rfl⟩) ((h.maker?_old hout).trans hm)
      · intro hu'
        refine hu fun i x hsi hm => hu' i x ((h.source?_old (lt_of_source? hsi)).trans hsi) ?_
        obtain ⟨out, hout⟩ := hg.source_live hsi
        exact (h.maker?_old hout).trans hm

end Inserted

/-- What was built on a graph in an attempt to make ports. -/
structure Built (registry : Registry) (b : List OutputId) (g g' : Graph)
    (r : Except BuildError (List OutputId)) : Prop where
  valid : g'.Valid registry
  grown : Grown b g g'
  offers {ports : List OutputId} : r = .ok ports → Offers b g g' ports

namespace Built

variable {registry : Registry} {r : Except BuildError (List OutputId)}

theorem nil (hv : g.Valid registry) : Built registry b g g (.ok []) where
  valid := hv
  grown := .refl hv.coherent b
  offers := by
    rintro ports ⟨⟩
    exact .nil g

theorem bound (hv : g.Valid registry) (ho : o ∈ b) (hl : ∃ out, g.output? o = some out) :
    Built registry b g g (.ok [o]) where
  valid := hv
  grown := .refl hv.coherent b
  offers := by
    rintro ports ⟨⟩
    exact .bound ho hl

theorem refused (h : Built registry b g g' r) (e : BuildError) :
    Built registry b g g' (.error e) :=
  ⟨h.valid, h.grown, (nomatch ·)⟩

theorem cons (h : Built registry b g g₁ (.ok [o])) (h' : Built registry b g₁ g' r) :
    Built registry b g g' (r.map (o :: ·)) where
  valid := h'.valid
  grown := h.grown.trans h.valid.coherent h'.valid.coherent h'.grown
  offers := by
    intro ports hp
    obtain ⟨rest, rfl, rfl⟩ := map_eq_ok.1 hp
    exact (h.offers rfl).cons h.valid.coherent h.grown h'.grown (h'.offers rfl)

theorem insert {kind : Kind} {location : Option Location} {sources : List OutputId}
    {results : List (DataType × Nat)} (h : Built registry b g g₁ (.ok sources))
    (hi : Inserted g₁ kind location sources results g')
    (hf : Fits registry kind sources.length results.length) {k : Nat}
    (ho : g'.port g₁.nextNode k = .ok o) : Built registry b g g' (.ok [o]) where
  valid := hi.valid h.valid hf
  grown := h.grown.insert h.valid.coherent hi (h.offers rfl).drawn
  offers := by
    rintro ports ⟨⟩
    exact (h.offers rfl).insert h.valid.coherent h.grown hi ho

/-- Bound ports are still there. -/
theorem live (h : Built registry b g g' r) (hb : ∀ o ∈ b, ∃ out, g.output? o = some out) :
    ∀ o ∈ b, ∃ out, g'.output? o = some out := by
  intro o ho
  obtain ⟨out, hout⟩ := hb o ho
  obtain ⟨out', hout', -⟩ := h.grown.output?_isSome hout
  exact ⟨out', hout'⟩

end Built

end Graph

namespace Pattern

open SignalGraph.Graph

variable {env : Environment} {b : Bindings} {location : Option Location} {w w' : Workspace}

/-! ## What the parts of instantiation do -/

theorem added_eq_ok {runs : List Preparation} {g : Graph} {n : NodeId} {slot : Nat}
    {r : Except BuildError OutputId} (h : Workspace.added runs g n slot = .ok (w', r)) :
    w'.graph = g ∧ ∃ o, r = .ok o ∧ g.port n slot = .ok o := by
  simp only [Workspace.added, bind_eq_ok, pure_eq_ok] at h
  obtain ⟨o, ho, h⟩ := h
  cases h
  exact ⟨rfl, o, rfl, ho⟩

/-- A call is refused, or it is the new node. -/
theorem instantiateCall_eq_ok {s : Signature} {module : ModuleId} {factor place : Nat}
    {arguments : List OutputId} {r : Except BuildError OutputId} (hr : env.registry.Reached)
    (hg : w.graph.Coherent) (hs : env.registry.lookup module = some s)
    (h : instantiateCall env w location s module factor place arguments = .ok (w', r)) :
    (∃ e, r = .error e ∧ w'.graph = w.graph) ∨ ∃ latency results k o, r = .ok o ∧
      s.id = module ∧ s.outputSlot place = some k ∧
      Fits env.registry (.call s factor latency) arguments.length results.length ∧
      Inserted w.graph (.call s factor latency) location arguments results w'.graph ∧
      w'.graph.port w.graph.nextNode k = .ok o := by
  simp only [instantiateCall, bind_eq_ok] at h
  obtain ⟨made, hmade, h⟩ := h
  split at h
  · rename_i e he
    cases h
    exact .inl ⟨e, rfl, rfl⟩
  · rename_i c hc
    obtain ⟨⟨g, n⟩, hins, h⟩ := bind_eq_ok.1 h
    obtain ⟨hl, -⟩ := Call.ready_eq_ok hmade hc
    obtain rfl : s = c.signature := Option.some.inj (hs.symm.trans hl)
    obtain ⟨latency, results, rfl, hid, hf, hi⟩ := Call.Ready.inserted_of_insert hr hg hmade hc hins
    dsimp only at h
    split at h
    · cases h
    · rename_i k hk
      obtain ⟨rfl, o, rfl, ho⟩ := added_eq_ok h
      exact .inr ⟨latency, results, k, o, rfl, hid, hk, hf, hi, ho⟩

/-- An array is refused, or it is the new node. -/
theorem instantiateArray_eq_ok {ports : List OutputId} {r : Except BuildError OutputId}
    (hg : w.graph.Coherent) (h : instantiateArray w location ports = .ok (w', r)) :
    (∃ e, r = .error e ∧ w'.graph = w.graph) ∨ ∃ element result o, r = .ok o ∧
      Inserted w.graph (.array element) location ports [result] w'.graph ∧
      w'.graph.port w.graph.nextNode 0 = .ok o := by
  simp only [instantiateArray, bind_eq_ok] at h
  obtain ⟨element?, -, h⟩ := h
  split at h
  · cases h
    exact .inl ⟨_, rfl, rfl⟩
  · rename_i element
    obtain ⟨result?, -, h⟩ := bind_eq_ok.1 h
    split at h
    · cases h
      exact .inl ⟨_, rfl, rfl⟩
    · rename_i result
      obtain ⟨⟨g, n⟩, hins, h⟩ := bind_eq_ok.1 h
      obtain ⟨rfl, hi⟩ := inserted_of_insert hg hins
      obtain ⟨rfl, o, rfl, ho⟩ := added_eq_ok h
      exact .inr ⟨element, result, o, rfl, hi, ho⟩

theorem instantiate_literal_eq (env : Environment) (b : Bindings) (location : Option Location)
    (w : Workspace) (value : Literal) : instantiate env b location w (.literal value)
      = w.graph.insert (.constant value) location [] [(value.dataType, 0)] >>= fun (g, n) =>
        Workspace.added w.runs g n 0 := by
  simp only [instantiate, addConstant_eq_insert, ok_bind]

theorem instantiate_literal {value : Literal} {r : Except BuildError OutputId}
    (hg : w.graph.Coherent) (h : instantiate env b location w (.literal value) = .ok (w', r)) :
    ∃ o, r = .ok o ∧
      Inserted w.graph (.constant value) location [] [(value.dataType, 0)] w'.graph ∧
      w'.graph.port w.graph.nextNode 0 = .ok o := by
  rw [instantiate_literal_eq, bind_eq_ok] at h
  obtain ⟨⟨g, n⟩, hins, h⟩ := h
  obtain ⟨rfl, hi⟩ := inserted_of_insert hg hins
  obtain ⟨rfl, o, rfl, ho⟩ := added_eq_ok h
  exact ⟨o, rfl, hi, ho⟩

/-- What is built for an argument is built before the rest. -/
theorem instantiateArguments_cons {w w' : Workspace} {q : Parameter} {parameters : List Parameter}
    {c : Pattern} {cs : List Pattern} {ports : List OutputId} (hq : q.isInput = true)
    (h : instantiateArguments env b location w (q :: parameters) (c :: cs) = .ok (w', .ok ports)) :
    ∃ w₁ o rest, instantiate env b location w c = .ok (w₁, .ok o) ∧
      instantiateArguments env b location w₁ parameters cs = .ok (w', .ok rest) ∧
      ports = o :: rest := by
  rw [instantiateArguments, if_pos hq] at h
  obtain ⟨⟨w₁, r₁⟩, hc, h⟩ := bind_eq_ok.1 h
  cases r₁ with
  | error e => cases h
  | ok o =>
    obtain ⟨⟨w₂, r₂⟩, hcs, h⟩ := bind_eq_ok.1 h
    cases r₂ with
    | error e => cases h
    | ok rest =>
      cases h
      exact ⟨w₁, o, rest, hc, hcs, rfl⟩

theorem instantiateElements_cons {w w' : Workspace} {e : Pattern} {es : List Pattern}
    {ports : List OutputId}
    (h : instantiateElements env b location w (e :: es) = .ok (w', .ok ports)) :
    ∃ w₁ o rest, instantiate env b location w e = .ok (w₁, .ok o) ∧
      instantiateElements env b location w₁ es = .ok (w', .ok rest) ∧ ports = o :: rest := by
  rw [instantiateElements] at h
  obtain ⟨⟨w₁, r₁⟩, he, h⟩ := bind_eq_ok.1 h
  cases r₁ with
  | error e => cases h
  | ok o =>
    obtain ⟨⟨w₂, r₂⟩, hes, h⟩ := bind_eq_ok.1 h
    cases r₂ with
    | error e => cases h
    | ok rest =>
      cases h
      exact ⟨w₁, o, rest, he, hes, rfl⟩

/-! ## Instantiation -/

mutual
/-- Instantiation builds on a valid graph, and the graph stays valid. -/
theorem instantiate_spec (hr : env.registry.Reached) {w w' : Workspace}
    {r : Except BuildError OutputId} (hv : w.graph.Valid env.registry)
    (hb : ∀ o ∈ b, ∃ out, w.graph.output? o = some out) :
    (p : Pattern) → instantiate env b location w p = .ok (w', r) →
    Built env.registry b w.graph w'.graph (r.map ([·]))
  | .call module factor place children, h => by
    simp only [instantiate] at h
    split at h
    · cases h
    · rename_i s hs
      obtain ⟨⟨w₁, r₁⟩, ha, h⟩ := bind_eq_ok.1 h
      have hbuilt := instantiateArguments_spec hr hv hb _ children ha
      cases r₁ with
      | error e =>
        cases h
        exact hbuilt
      | ok arguments =>
        rcases instantiateCall_eq_ok hr hbuilt.valid.coherent hs h with ⟨e, rfl, hw⟩ |
          ⟨latency, results, k, o, rfl, -, -, hf, hi, ho⟩
        · rw [hw]
          exact hbuilt.refused e
        · exact hbuilt.insert hi hf ho
  | .literal value, h => by
    obtain ⟨o, rfl, hi, ho⟩ := instantiate_literal hv.coherent h
    exact (Built.nil hv).insert hi (fits_of_not_isCall rfl) ho
  | .array elements, h => by
    simp only [instantiate] at h
    obtain ⟨⟨w₁, r₁⟩, he, h⟩ := bind_eq_ok.1 h
    have hbuilt := instantiateElements_spec hr hv hb elements he
    cases r₁ with
    | error e =>
      cases h
      exact hbuilt
    | ok ports =>
      rcases instantiateArray_eq_ok hbuilt.valid.coherent h with ⟨e, rfl, hw⟩ |
        ⟨element, result, o, rfl, hi, ho⟩
      · rw [hw]
        exact hbuilt.refused e
      · exact hbuilt.insert hi (fits_of_not_isCall rfl) ho
  | .slot k, h => by
    simp only [instantiate, bind_eq_ok, get_eq_ok, pure_eq_ok] at h
    obtain ⟨o, ho, h⟩ := h
    cases h
    have hmem : o ∈ b := List.mem_of_getElem? ho
    exact .bound hv hmem (hb o hmem)
  | .wildcard _, h => nomatch h
  | .result, h => nomatch h
  | .ellipsis, h => nomatch h

theorem instantiateArguments_spec (hr : env.registry.Reached) {w w' : Workspace}
    {r : Except BuildError (List OutputId)} (hv : w.graph.Valid env.registry)
    (hb : ∀ o ∈ b, ∃ out, w.graph.output? o = some out) (parameters : List Parameter) :
    (cs : List Pattern) → instantiateArguments env b location w parameters cs = .ok (w', r) →
    Built env.registry b w.graph w'.graph r
  | [], h => by
    rw [instantiateArguments] at h
    cases h
    exact .nil hv
  | c :: cs, h => by
    cases parameters with
    | nil =>
      rw [instantiateArguments] at h
      cases h
      exact .nil hv
    | cons q parameters =>
      rw [instantiateArguments] at h
      split at h
      · obtain ⟨⟨w₁, r₁⟩, hc, h⟩ := bind_eq_ok.1 h
        have hfirst := instantiate_spec hr hv hb c hc
        cases r₁ with
        | error e =>
          cases h
          exact hfirst
        | ok o =>
          obtain ⟨⟨w₂, r₂⟩, hcs, h⟩ := bind_eq_ok.1 h
          cases h
          exact hfirst.cons
            (instantiateArguments_spec hr hfirst.valid (hfirst.live hb) parameters cs hcs)
      · exact instantiateArguments_spec hr hv hb parameters cs h

theorem instantiateElements_spec (hr : env.registry.Reached) {w w' : Workspace}
    {r : Except BuildError (List OutputId)} (hv : w.graph.Valid env.registry)
    (hb : ∀ o ∈ b, ∃ out, w.graph.output? o = some out) :
    (es : List Pattern) → instantiateElements env b location w es = .ok (w', r) →
    Built env.registry b w.graph w'.graph r
  | [], h => by
    rw [instantiateElements] at h
    cases h
    exact .nil hv
  | e :: es, h => by
    rw [instantiateElements] at h
    obtain ⟨⟨w₁, r₁⟩, he, h⟩ := bind_eq_ok.1 h
    have hfirst := instantiate_spec hr hv hb e he
    cases r₁ with
    | error e =>
      cases h
      exact hfirst
    | ok o =>
      obtain ⟨⟨w₂, r₂⟩, hes, h⟩ := bind_eq_ok.1 h
      cases h
      exact hfirst.cons (instantiateElements_spec hr hfirst.valid (hfirst.live hb) es hes)
end

end Pattern

end SignalGraph
