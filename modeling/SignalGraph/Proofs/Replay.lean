import SignalGraph.Proofs.Arguments
import SignalGraph.Proofs.Declarations

/-!
# Graphs replay their descriptions

In a graph that was built from a description, the node with number `k` is what the declaration with
number `k` asks for (`Graph.Realizes`): its inputs are fed from the ports that the references mean
among the declarations before it. So every link goes up, and the surface names the nodes by the
places of their declarations (`surfaceOf`). One declaration that is carried out keeps this
(`Loader.Replayed.declare`), and therefore the whole description does.
-/

namespace SignalGraph

open SignalGraph.Graph

/-! ## Places -/

/-- The places of the declarations with a role. -/
def places (role : Role) (xs : List Declaration) : List NodeId :=
  (xs.zipIdx.filter fun p => p.1.role = role).map fun p => ⟨p.2⟩

/-- The surface of a graph with these nodes. -/
def surfaceOf (xs : List Declaration) : Surface where
  inputs := places .input xs
  outputs := places .output xs
  voiceActive := (places .voiceActive xs).getLast?
  effectActive := (places .effectActive xs).getLast?
  boundaryOutputs := places .boundaryOutput xs
  boundaryInputs := places .boundaryInput xs

theorem places_concat (role : Role) (xs : List Declaration) (x : Declaration) :
    places role (xs ++ [x]) = places role xs ++ if x.role = role then [⟨xs.length⟩] else [] := by
  by_cases h : x.role = role <;> simp [places, List.zipIdx_append, h]

theorem surfaceOf_concat (xs : List Declaration) (x : Declaration) :
    surfaceOf (xs ++ [x]) = x.role.mark ⟨xs.length⟩ (surfaceOf xs) := by
  simp only [surfaceOf, places_concat]
  cases x.role <;> simp [Role.mark]

/-- The places of a role are those of its declarations, in order. -/
theorem forall₂_places (role : Role) (xs : List Declaration) :
    List.Forall₂ (fun x n => ∃ earlier later, xs = earlier ++ x :: later ∧ n = ⟨earlier.length⟩)
      (xs.filter fun x => x.role = role) (places role xs) := by
  induction xs using List.reverseRecOn with
  | nil => exact .nil
  | append_singleton xs x ih =>
    rw [List.filter_append, places_concat]
    refine List.rel_append (ih.imp fun y n => ?_) ?_
    · rintro ⟨earlier, later, rfl, rfl⟩
      exact ⟨earlier, later ++ [x], by simp, rfl⟩
    · by_cases h : x.role = role
      · simp only [h, List.filter_cons, decide_true, if_true, List.filter_nil]
        exact .cons ⟨xs, [], rfl, rfl⟩ .nil
      · simp [h]

namespace Description

/-- The channels from the voice half to the effect half. -/
def boundaries (d : Description) : List Sink :=
  d.entries.filterMap Entry.boundary?

variable {role : Role}

/-- Entries other than boundaries have no part in the surface. -/
theorem filter_entries (h : role ≠ .inner) (es : List Entry) :
    ((es.flatMap Entry.declarations).filter fun x => x.role = role) =
      (es.filterMap Entry.boundary?).flatMap fun s => s.boundary.filter fun x => x.role = role := by
  induction es with
  | nil => rfl
  | cons e es ih =>
    rw [List.flatMap_cons, List.filter_append, ih, List.filterMap_cons]
    obtain ⟨name, kind, location⟩ := e
    cases kind <;> simp [Entry.declarations, Entry.boundary?, Entry.declaration, h.symm]

theorem filter_declared {α : Type} {f : α → Declaration} {r : Role} (h : ∀ a, (f a).role = r)
    (l : List α) :
    ((l.map f).filter fun x => x.role = role) = if r = role then l.map f else [] := by
  rw [List.filter_map]
  by_cases hr : r = role <;> simp [Function.comp_def, h, hr]

/-- What is declared for the surface. -/
theorem filter_declarations (d : Description) (h : role ≠ .inner) :
    (d.declarations.filter fun x => x.role = role) =
      (if .input = role then d.inputs.map (Channel.declaration .input) else []) ++
      ((d.boundaries.flatMap fun s => s.boundary.filter fun x => x.role = role) ++
      ((if .output = role then d.outputs.map (Sink.declaration .output) else []) ++
      ((if .voiceActive = role then
          activeDeclaration .voiceActive "voice_active" d.voiceActive else []) ++
        if .effectActive = role then
          activeDeclaration .effectActive "effect_active" d.effectActive else []))) := by
  simp only [declarations, activeDeclaration, List.filter_append, filter_entries h, boundaries,
    filter_declared (Channel.role_declaration .input),
    filter_declared (Sink.role_declaration .output),
    filter_declared fun source =>
      Sink.role_declaration .voiceActive (Loader.activeSink "voice_active" source),
    filter_declared fun source =>
      Sink.role_declaration .effectActive (Loader.activeSink "effect_active" source)]

theorem filter_inputs (d : Description) :
    (d.declarations.filter fun x => x.role = .input)
      = d.inputs.map (Channel.declaration .input) := by
  have hboundary (s : Sink) : (s.boundary.filter fun x => x.role = .input) = [] := rfl
  simp [filter_declarations, hboundary]

theorem filter_outputs (d : Description) :
    (d.declarations.filter fun x => x.role = .output)
      = d.outputs.map (Sink.declaration .output) := by
  have hboundary (s : Sink) : (s.boundary.filter fun x => x.role = .output) = [] := rfl
  simp [filter_declarations, hboundary]

theorem filter_boundaryOutputs (d : Description) :
    (d.declarations.filter fun x => x.role = .boundaryOutput)
      = d.boundaries.map (Sink.declaration .boundaryOutput) := by
  have hboundary (s : Sink) : (s.boundary.filter fun x => x.role = .boundaryOutput)
      = [s.declaration .boundaryOutput] := rfl
  simpa [filter_declarations, hboundary] using List.map_eq_flatMap.symm

theorem filter_boundaryInputs (d : Description) :
    (d.declarations.filter fun x => x.role = .boundaryInput)
      = d.boundaries.map fun s => s.resumed.declaration .boundaryInput := by
  have hboundary (s : Sink) : (s.boundary.filter fun x => x.role = .boundaryInput)
      = [s.resumed.declaration .boundaryInput] := rfl
  simpa [filter_declarations, hboundary] using List.map_eq_flatMap.symm

end Description

/-! ## Nodes -/

namespace Graph

/-- The port that a reference means, where these declarations are earlier. -/
def Resolves (g : Graph) (earlier : List Declaration) (reference : String) (o : OutputId) : Prop :=
  ∃ base slot k x node, Reference.Means (earlier.filterMap Declaration.name) reference base slot ∧
    earlier[k]? = some x ∧ x.name = some base ∧ g.node? ⟨k⟩ = some node ∧
    node.outputs[slot]? = some o

/-- The node that a declaration asks for, where these declarations are earlier. -/
def Realizes (registry : Registry) (g : Graph) (earlier : List Declaration) (x : Declaration) :
    Prop :=
  ∃ node ports, g.node? ⟨earlier.length⟩ = some node ∧ x.kind.Admits registry node.kind ∧
    node.location = x.location ∧ node.inputs.map g.source? = ports.map some ∧
    List.Forall₂ (g.Resolves earlier) x.references ports

variable {registry : Registry} {g g' : Graph} {b : List OutputId} {earlier : List Declaration}
  {x : Declaration}

theorem Resolves.grown (h : Grown b g g') {reference : String} {o : OutputId}
    (hr : g.Resolves earlier reference o) : g'.Resolves earlier reference o := by
  obtain ⟨base, slot, k, x, node, hmeans, hx, hname, hnode, ho⟩ := hr
  exact ⟨base, slot, k, x, node, hmeans, hx, hname, h.node?_eq_some hnode, ho⟩

theorem Realizes.grown (hg : g.Coherent) (h : Grown b g g') (hc : g.Realizes registry earlier x) :
    g'.Realizes registry earlier x := by
  obtain ⟨node, ports, hn, hk, hl, hs, hports⟩ := hc
  refine ⟨node, ports, h.node?_eq_some hn, hk, hl, hs ▸ List.map_congr_left fun i hi => ?_,
    hports.imp fun _ _ => Resolves.grown h⟩
  obtain ⟨port, hp, -⟩ := owner?_eq_some.1 ((hg.mem_inputs hn).1 hi)
  exact h.source? (lt_of_input? hp)

/-- A port that a reference means comes out of an earlier node. -/
theorem Resolves.maker? (hg : g.Coherent) {reference : String} {o : OutputId}
    (h : g.Resolves earlier reference o) : ∃ m, g.maker? o = some m ∧ m.index < earlier.length := by
  obtain ⟨base, slot, k, x, node, -, hx, -, hnode, ho⟩ := h
  exact ⟨⟨k⟩, (hg.mem_outputs hnode).1 (List.mem_of_getElem? ho),
    (List.getElem?_eq_some_iff.1 hx).1⟩

end Graph

/-! ## Runs of the loader -/

namespace Loader

/-- These declarations have been carried out. -/
structure Replayed (registry : Registry) (xs : List Declaration) (l : Loader) : Prop where
  coherent : l.graph.Coherent
  nodes_size : l.graph.nodes.size = xs.length
  nodes {earlier later : List Declaration} {x : Declaration} :
    xs = earlier ++ x :: later → l.graph.Realizes registry earlier x
  /-- The latest name comes first. -/
  names : l.names.map Prod.fst = (xs.filterMap Declaration.name).reverse
  named {name : String} {n : NodeId} :
    (name, n) ∈ l.names → ∃ x, xs[n.index]? = some x ∧ x.name = some name
  nodup : (xs.filterMap Declaration.name).Nodup
  surface : l.graph.surface = surfaceOf xs

variable {registry : Registry} {xs ys : List Declaration} {x : Declaration} {l l' : Loader}

theorem Replayed.empty : Replayed registry [] {} where
  coherent := .empty
  nodes_size := rfl
  nodes h := by simp at h
  names := rfl
  named h := by cases h
  nodup := .nil
  surface := rfl

/-- What the loader finds for a reference is among the declarations so far. -/
theorem Replayed.resolves (h : Replayed registry xs l) {node reference : String} {o : OutputId}
    (hr : (l.resolve node reference).run = .ok (.ok o)) : l.graph.Resolves xs reference o := by
  obtain ⟨base, slot, id, maker, hmeans, hlookup, hmaker, ho⟩ := resolve_eq_ok.1 hr
  obtain ⟨before, after, hnames, -⟩ := List.lookup_eq_some_iff.1 hlookup
  obtain ⟨x, hx, hname⟩ := h.named (by simp [hnames] : (base, id) ∈ l.names)
  refine ⟨base, slot, id.index, x, maker, ?_, hx, hname, hmaker, ho⟩
  rw [h.names] at hmeans
  simpa [Reference.Means, Reference.Indexes] using hmeans

/-- A declaration is carried out after these. -/
theorem Replayed.declare (h : Replayed registry xs l) (hx : Declares registry x l l') :
    Replayed registry (xs ++ [x]) l' := by
  obtain ⟨node, kind, ports, results, g, n, hk, hports, hinsert, hfresh, rfl⟩ := hx
  obtain ⟨rfl, hi⟩ := inserted_of_insert h.coherent hinsert
  have hnew : l.graph.nextNode = ⟨xs.length⟩ := by
    rw [← h.nodes_size]
    rfl
  have hgrown := hi.grown h.coherent
  have hrealizes : g.Realizes registry xs x := by
    refine ⟨_, ports, (hi.node? _).trans (if_pos hnew.symm), hk, rfl, hi.map_source?, ?_⟩
    exact (resolveAll_eq_ok.1 hports).imp fun _ _ hr => (h.resolves hr).grown hgrown
  refine ⟨hi.coherent.withSurface _, ?_, fun {earlier later y} hsplit => ?_, ?_,
    fun {name m} hmem => ?_, ?_, ?_⟩
  · simpa [h.nodes_size] using hi.nodes_size
  · -- The last declaration is the new one, and the others were there.
    rcases List.eq_nil_or_concat later with rfl | ⟨between, z, rfl⟩
    · obtain ⟨rfl, hy⟩ := List.append_inj' hsplit rfl
      cases hy
      exact hrealizes
    · have hsplit' : xs ++ [x] = (earlier ++ y :: between) ++ [z] := by simpa using hsplit
      have hold : g.Realizes registry earlier y :=
        (h.nodes (List.append_inj' hsplit' rfl).1).grown h.coherent hgrown
      exact hold
  · cases hname : x.name <;> simp [hname, h.names]
  · rcases List.mem_append.1 hmem with hmem | hmem
    · obtain ⟨name', hname, heq⟩ := Option.map_eq_some_iff.1 (Option.mem_toList.1 hmem)
      cases heq
      exact ⟨x, by simp [hnew], hname⟩
    · obtain ⟨y, hy, hname⟩ := h.named hmem
      exact ⟨y, by rw [List.getElem?_append_left (List.getElem?_eq_some_iff.1 hy).1, hy], hname⟩
  · rw [h.names] at hfresh
    cases hname : x.name with
    | none => simpa [hname] using h.nodup
    | some name =>
      have hnotMem := hfresh name hname
      rw [List.mem_reverse] at hnotMem
      rw [List.filterMap_append, List.filterMap_cons, hname, List.filterMap_nil,
        List.nodup_append_comm]
      exact List.nodup_cons.2 ⟨hnotMem, h.nodup⟩
  · simp [hi.surface, h.surface, surfaceOf_concat, hnew]

theorem Replayed.declareAll (h : Replayed registry xs l) (hys : DeclaresAll registry ys l l') :
    Replayed registry (xs ++ ys) l' := by
  induction hys generalizing xs with
  | nil => simpa using h
  | cons hx _ ih => simpa using ih (h.declare hx)

end Loader

/-! ## Graphs of descriptions -/

namespace Graph

/-- A node that a declaration asks for, wherever its inputs come from. -/
def Holds (registry : Registry) (g : Graph) (x : Declaration) (n : NodeId) : Prop :=
  ∃ node, g.node? n = some node ∧ x.kind.Admits registry node.kind ∧ node.location = x.location

/-- A node by which a channel enters. -/
def Enters (g : Graph) (c : Channel) (n : NodeId) : Prop :=
  ∃ node, g.node? n = some node ∧ node.kind = .input c.name c.type.dataType ∧
    node.location = c.location

/-- A node by which a channel leaves. -/
def Leaves (g : Graph) (s : Sink) (n : NodeId) : Prop :=
  ∃ node, g.node? n = some node ∧ node.kind = .output s.name s.type.dataType ∧
    node.location = s.location

/-- A channel leaves by one node and enters again by the other, under the same name and with the
same type. -/
def Continues (g : Graph) (m n : NodeId) : Prop :=
  ∃ out into name type, g.node? m = some out ∧ g.node? n = some into ∧
    out.kind = .output name type ∧ into.kind = .input name type

theorem continues_of_leaves {g : Graph} {ss : List Sink} {ms ns : List NodeId}
    (hm : List.Forall₂ g.Leaves ss ms) (hn : List.Forall₂ (fun s => g.Enters s.resumed) ss ns) :
    List.Forall₂ g.Continues ms ns := by
  induction hm generalizing ns with
  | nil =>
    cases hn
    exact .nil
  | cons hleaves _ ih =>
    cases hn with
    | cons henters hn =>
      obtain ⟨out, hout, hkout, -⟩ := hleaves
      obtain ⟨into, hinto, hkinto, -⟩ := henters
      exact .cons ⟨out, into, _, _, hout, hinto, hkout, hkinto⟩ (ih hn)

end Graph

namespace Loader

variable {registry : Registry} {xs : List Declaration} {l : Loader}

/-- The places of a role are nodes that its declarations ask for. -/
theorem Replayed.placed (h : Replayed registry xs l) (role : Role) :
    List.Forall₂ (l.graph.Holds registry) (xs.filter fun x => x.role = role) (places role xs) := by
  refine (forall₂_places role xs).imp fun x n => ?_
  rintro ⟨earlier, later, hxs, rfl⟩
  obtain ⟨node, -, hn, hk, hl, -⟩ := h.nodes hxs
  exact ⟨node, hn, hk, hl⟩

/-- Links go up. -/
theorem Replayed.ascending (h : Replayed registry xs l) {i : InputId} {o : OutputId} {m n : NodeId}
    (hs : l.graph.source? i = some o) (hm : l.graph.maker? o = some m)
    (hn : l.graph.owner? i = some n) : m.index < n.index := by
  obtain ⟨owner, howner⟩ := h.coherent.owner_live hn
  have hlt : n.index < xs.length := h.nodes_size ▸ lt_of_node? howner
  have hlen : (xs.take n.index).length = n.index := List.length_take_of_le hlt.le
  have hsplit : xs = xs.take n.index ++ xs[n.index] :: xs.drop (n.index + 1) := by
    rw [← List.drop_eq_getElem_cons hlt, List.take_append_drop]
  obtain ⟨node, ports, hnode, -, -, hports, hresolves⟩ := h.nodes hsplit
  rw [hlen] at hnode
  have hmem : some o ∈ ports.map some :=
    hports ▸ List.mem_map.2 ⟨i, (h.coherent.mem_inputs hnode).2 hn, hs⟩
  obtain ⟨reference, -, hr⟩ := exists_of_mem_right hresolves (by simpa using hmem)
  obtain ⟨maker, hmaker, hearlier⟩ := hr.maker? h.coherent
  obtain rfl : maker = m := Option.some.inj (hmaker.symm.trans hm)
  rwa [hlen] at hearlier

end Loader

/-- A graph is what a description declares, and hooks ran for its calls. -/
structure Description.Replays (env : Environment) (d : Description) (runs : List Preparation)
    (g : Graph) : Prop where
  verified : g.verify = []
  /-- Links go from lower to higher numbers. -/
  ascending {i : InputId} {o : OutputId} {m n : NodeId} :
    g.source? i = some o → g.maker? o = some m → g.owner? i = some n → m.index < n.index
  nodes_size : g.nodes.size = d.declarations.length
  /-- Every input is fed from what its reference means among earlier declarations. -/
  nodes {earlier later : List Declaration} {x : Declaration} :
    d.declarations = earlier ++ x :: later → g.Realizes env.registry earlier x
  names : (d.declarations.filterMap Declaration.name).Nodup
  surface : g.surface = surfaceOf d.declarations
  inputs : List.Forall₂ g.Enters d.inputs g.surface.inputs
  outputs : List.Forall₂ g.Leaves d.outputs g.surface.outputs
  boundaryOutputs : List.Forall₂ g.Leaves d.boundaries g.surface.boundaryOutputs
  boundaryInputs : List.Forall₂ (fun s => g.Enters s.resumed) d.boundaries g.surface.boundaryInputs
  boundaries : List.Forall₂ g.Continues g.surface.boundaryOutputs g.surface.boundaryInputs
  /-- Each call has one run of a hook, in order. -/
  prepared : List.Forall₂ (Entry.Prepares env) (d.entries.filter Entry.isCall) runs

/-! ## A program with two halves

A signal is panned to two sides, which are mixed again in the other order, and the mix goes on in
the effect half. -/

namespace Halves

def pan : Signature where
  id := .ofNat 1
  name := "pan"
  parameters := [.float "x" .input, .float "l" .output, .float "r" .output]

def mix : Signature where
  id := .ofNat 2
  name := "mix"
  parameters := [.float "x" .input .varying 1 true, .float "y" .output]
  returnParameter := some 1

def env : Environment where
  registry :=
    { modules := [(pan.id, .hosted pan (.fixed 0)), (mix.id, .hosted mix (.fixed 4))]
      names := [("mix", mix.id), ("pan", pan.id)] }
  settings := {}

def channel : ChannelType where
  primitive := .float

def program : Description where
  inputs := [{ name := "in", type := channel }]
  entries :=
    [{ name := "on", kind := .constant (.bool true) },
     { name := "sides", kind := .call "pan" 1 ["in"] },
     { name := "swapped", kind := .array .float ["sides.1", "sides"] },
     { name := "mixed", kind := .call "mix" 1 ["swapped"] },
     { name := "wet", kind := .boundary channel "mixed" },
     { name := "state", kind := .struct [("on", "on")] }]
  outputs :=
    [{ name := "out", type := channel, source := "wet" },
     { name := "dry", type := channel, source := "sides.1" }]
  voiceActive := some "on"

def surface : Surface where
  inputs := [⟨0⟩]
  outputs := [⟨8⟩, ⟨9⟩]
  voiceActive := some ⟨10⟩
  effectActive := none
  boundaryOutputs := [⟨5⟩]
  boundaryInputs := [⟨6⟩]

theorem reached : env.registry.Reached :=
  (Registry.Reached.empty.insert (m := .hosted pan (.fixed 0)) rfl).insert
    (m := .hosted mix (.fixed 4)) rfl

theorem build_program :
    ∃ runs g, program.build env = .ok (runs, .ok g) ∧ runs.length = 2 ∧ g.surface = surface := by
  have h : (match program.build env with
      | .ok (runs, .ok g) => some (runs.length, g.surface)
      | _ => none) = some (2, surface) := by decide +kernel
  split at h
  · rename_i runs g hb
    obtain ⟨hruns, hs⟩ := Prod.mk.inj (Option.some.inj h)
    exact ⟨runs, g, hb, hruns, hs⟩
  · cases h

end Halves

/-- A graph that was built is what its description declares. -/
theorem Description.build_replays {env : Environment} {d : Description} {runs : List Preparation}
    {g : Graph} (hr : env.registry.Reached) (h : d.build env = .ok (runs, .ok g)) :
    d.Replays env runs g := by
  obtain ⟨⟨l, rfl, hall⟩, hruns⟩ := build_declares hr h
  have hreplayed : l.Replayed env.registry d.declarations := Loader.Replayed.empty.declareAll hall
  have hvalid := (build_loaded hr h).valid
  have hinputs := hreplayed.placed .input
  have houtputs := hreplayed.placed .output
  have houts := hreplayed.placed .boundaryOutput
  have hins := hreplayed.placed .boundaryInput
  rw [filter_inputs, List.forall₂_map_left_iff] at hinputs
  rw [filter_outputs, List.forall₂_map_left_iff] at houtputs
  rw [filter_boundaryOutputs, List.forall₂_map_left_iff] at houts
  rw [filter_boundaryInputs, List.forall₂_map_left_iff] at hins
  have hsurface := hreplayed.surface
  exact {
    verified := hvalid.coherent.verify_eq_nil.2 hvalid.acyclic
    ascending := hreplayed.ascending
    nodes_size := hreplayed.nodes_size
    nodes := hreplayed.nodes
    names := hreplayed.nodup
    surface := hsurface
    inputs := hsurface ▸ hinputs
    outputs := hsurface ▸ houtputs
    boundaryOutputs := hsurface ▸ houts
    boundaryInputs := hsurface ▸ hins
    boundaries := hsurface ▸ continues_of_leaves houts hins
    prepared := hruns }

theorem Description.build_replays_halves :
    ∃ runs g, Halves.program.build Halves.env = .ok (runs, .ok g) ∧ runs.length = 2 ∧
      g.surface = Halves.surface ∧ Halves.program.Replays Halves.env runs g := by
  obtain ⟨runs, g, hb, hruns, hs⟩ := Halves.build_program
  exact ⟨runs, g, hb, hruns, hs, build_replays Halves.reached hb⟩

end SignalGraph
