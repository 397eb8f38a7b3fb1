import SignalGraph.Graph.Known
import SignalGraph.Proofs.Collection
import SignalGraph.Proofs.Growth

/-!
# Values computed along the flow

`fold` computes a value for each port from its node and from what its node receives. The
definition counts steps, but in a graph without cycles there are always enough of them, and the
value of a port is given by the values it depends on (`fold_eq`).

Two graphs that agree on all that a port depends on give it the same value (`Agree.fold`). So a
value survives when a graph is built on and when other nodes are taken away. Known values are
values of this kind (`value?_eq_fold`).
-/

namespace SignalGraph

namespace Graph

universe u

variable {α : Type u} {g g' : Graph}

/-- The value of a port, computed through at most `depth` nodes. A node takes part with its port
and with the values that its inputs receive. -/
def foldWithin (f : OutputPort → Node → List (Option α) → Option α) (g : Graph) :
    (depth : Nat) → OutputId → Option α
  | 0, _ => none
  | depth + 1, o =>
    (g.bare? o).bind fun port => (g.node? port.node).bind fun node =>
      f port node (node.inputs.map fun i => (g.source? i).bind (foldWithin f g depth))

/-- The value of a port. No chain of links without a cycle has more nodes than the graph. -/
def fold (f : OutputPort → Node → List (Option α) → Option α) (g : Graph) (o : OutputId) :
    Option α :=
  foldWithin f g (g.nodes.size + 1) o

variable {f : OutputPort → Node → List (Option α) → Option α}

/-- More steps than nodes below a port make no difference. -/
theorem foldWithin_eq (hg : g.Coherent) (ha : g.Acyclic) {d e : Nat} {o : OutputId}
    (h : ∀ n, g.maker? o = some n → g.rank n < d ∧ g.rank n < e) :
    foldWithin f g d o = foldWithin f g e o := by
  induction d generalizing e o with
  | zero =>
    have ho : g.bare? o = none := by
      rw [Option.eq_none_iff_forall_ne_some]
      intro port hp
      have hm : g.maker? o = some port.node := by rw [maker?_eq_bare?, hp, Option.map_some]
      exact absurd (h _ hm).1 (Nat.not_lt_zero _)
    cases e <;> simp [foldWithin, ho]
  | succ d ih =>
    cases hp : g.bare? o with
    | none => cases e <;> simp [foldWithin, hp]
    | some port =>
      have hm : g.maker? o = some port.node := by rw [maker?_eq_bare?, hp, Option.map_some]
      obtain ⟨hd, he⟩ := h _ hm
      obtain ⟨node, hn⟩ := hg.maker_live hm
      obtain ⟨e, rfl⟩ := Nat.exists_eq_add_one_of_ne_zero (Nat.ne_zero_of_lt he)
      simp only [foldWithin, hp, hn, Option.bind_some]
      congr 1
      refine List.map_congr_left fun i hi => ?_
      cases hs : g.source? i with
      | none => rfl
      | some s =>
        rw [Option.bind_some, Option.bind_some]
        refine ih fun m hm' => ?_
        have hlt := rank_lt hg ha (hg.feeds_of_source ((hg.mem_inputs hn).1 hi) hs hm')
        omega

theorem fold_eq_foldWithin (hg : g.Coherent) (ha : g.Acyclic) {d : Nat} (o : OutputId)
    (hd : g.nodes.size < d) : g.fold f o = foldWithin f g d o := by
  refine foldWithin_eq hg ha fun n _ => ?_
  have := g.rank_le n
  omega

/-- The value of a port is given by what its node receives. -/
theorem fold_eq (hg : g.Coherent) (ha : g.Acyclic) {o : OutputId} {port : OutputPort}
    {node : Node} (hp : g.bare? o = some port) (hn : g.node? port.node = some node) :
    g.fold f o = f port node (node.inputs.map fun i => (g.source? i).bind (g.fold f)) := by
  rw [fold_eq_foldWithin hg ha o (d := g.nodes.size + 1 + 1) (by omega), foldWithin]
  simp only [hp, hn, Option.bind_some]
  rfl

theorem fold_of_dead {o : OutputId} (ho : g.output? o = none) : g.fold f o = none := by
  simp [fold, foldWithin, bare?, ho]

/-! ## Graphs that agree -/

/-- Two graphs agree on the ports in `P` and on everything these depend on. -/
def Agree (g g' : Graph) (P : OutputId → Prop) : Prop :=
  ∀ o, P o → g'.bare? o = g.bare? o ∧ ∀ n node, g.maker? o = some n → g.node? n = some node →
    g'.node? n = some node ∧ ∀ i ∈ node.inputs, g'.source? i = g.source? i ∧
      ∀ s, g.source? i = some s → P s

theorem Agree.foldWithin {P : OutputId → Prop} (hg : g.Coherent) (h : Agree g g' P) (d : Nat)
    {o : OutputId} (ho : P o) : foldWithin f g' d o = Graph.foldWithin f g d o := by
  induction d generalizing o with
  | zero => rfl
  | succ d ih =>
    obtain ⟨hb, hn⟩ := h o ho
    simp only [Graph.foldWithin, hb]
    cases hp : g.bare? o with
    | none => rfl
    | some port =>
      have hm : g.maker? o = some port.node := by rw [maker?_eq_bare?, hp, Option.map_some]
      obtain ⟨node, hl⟩ := hg.maker_live hm
      obtain ⟨hl', hs⟩ := hn _ node hm hl
      simp only [hl, hl', Option.bind_some]
      congr 1
      refine List.map_congr_left fun i hi => ?_
      obtain ⟨he, hP⟩ := hs i hi
      rw [he]
      cases hsi : g.source? i with
      | none => rfl
      | some s =>
        rw [Option.bind_some, Option.bind_some]
        exact ih (hP s hsi)

theorem Agree.fold {P : OutputId → Prop} (hg : g.Coherent) (ha : g.Acyclic) (hg' : g'.Coherent)
    (ha' : g'.Acyclic) (h : Agree g g' P) {o : OutputId} (ho : P o) :
    g'.fold f o = g.fold f o := by
  have hlt : g.nodes.size < g.nodes.size + g'.nodes.size + 1 := by omega
  have hlt' : g'.nodes.size < g.nodes.size + g'.nodes.size + 1 := by omega
  rw [fold_eq_foldWithin hg ha o hlt, fold_eq_foldWithin hg' ha' o hlt']
  exact h.foldWithin hg _ ho

theorem Same.agree (h : Same g g') : Agree g g' fun _ => True := by
  refine fun o _ => ⟨h.bare? o, fun n node _ hn => ⟨(h.node? n).trans hn, fun i _ => ?_⟩⟩
  exact ⟨h.source? i, fun _ _ => trivial⟩

theorem Grown.agree {b : List OutputId} (hg : g.Coherent) (h : Grown b g g') :
    Agree g g' fun o => o.index < g.outputs.size := by
  refine fun o ho => ⟨h.bare? ho, fun n node _ hn => ⟨h.node?_eq_some hn, fun i hi => ?_⟩⟩
  obtain ⟨port, hp, -⟩ := owner?_eq_some.1 ((hg.mem_inputs hn).1 hi)
  refine ⟨h.source? (lt_of_input? hp), fun s hs => ?_⟩
  obtain ⟨out, hout⟩ := hg.source_live hs
  exact lt_of_output? hout

theorem Pruned.agree (hg : g.Coherent) (h : Pruned g g') :
    Agree g g' fun o => ∃ out, g'.output? o = some out := by
  rintro o ⟨out, ho⟩
  have hb : g'.bare? o = some out.bare := bare?_eq_some.2 ⟨out, ho, rfl⟩
  refine ⟨hb.trans (h.bare? hb).symm, fun n node hm hn => ?_⟩
  have hm' : g'.maker? o = some out.node := maker?_eq_some.2 ⟨out, ho, rfl⟩
  obtain rfl : n = out.node := Option.some.inj (hm.symm.trans (h.maker? hm'))
  obtain ⟨node', hn'⟩ := h.coherent.maker_live hm'
  obtain rfl : node = node' := Option.some.inj (hn.symm.trans (h.node? hn'))
  refine ⟨hn', fun i hi => ?_⟩
  have hs := source?_congr (h.input?_of_owner? hg hn' ((hg.mem_inputs hn).1 hi))
  exact ⟨hs, fun s hsi => h.coherent.source_live (hs.trans hsi)⟩

/-- Ports with the same value can be exchanged. -/
theorem Redirected.fold {old new : OutputId} (hg : g.Coherent) (ha : g.Acyclic)
    (ha' : g'.Acyclic) (h : Redirected g old new g') (he : g.fold f new = g.fold f old)
    (o : OutputId) : g'.fold f o = g.fold f o := by
  have hlive (n : NodeId) (o : OutputId) (hm : g.maker? o = some n) : g'.fold f o = g.fold f o := by
    induction n using ha'.induction generalizing o with
    | _ n ih =>
      obtain ⟨node, hn⟩ := hg.maker_live hm
      rw [maker?_eq_bare?, Option.map_eq_some_iff] at hm
      obtain ⟨port, hp, rfl⟩ := hm
      have hn' := (h.node? port.node).trans hn
      rw [fold_eq hg ha hp hn, fold_eq h.coherent ha' ((h.bare? o).trans hp) hn']
      congr 1
      refine List.map_congr_left fun i hi => ?_
      -- What feeds an input now comes before `n`.
      have hnow {s : OutputId} (hs : g'.source? i = some s) : g'.fold f s = g.fold f s := by
        obtain ⟨m, -, hm, -⟩ := h.coherent.source_maker hs
        have hf := h.coherent.feeds_of_source ((h.coherent.mem_inputs hn').1 hi) hs hm
        exact ih m hf s ((h.maker? s).symm.trans hm)
      have hsource := h.source? i
      split at hsource
      · rename_i hold
        rw [hold, hsource, Option.bind_some, Option.bind_some, hnow hsource, he]
      · rw [← hsource]
        exact Option.bind_congr fun s hs => hnow hs
  cases hp : g.bare? o with
  | none =>
    have hp' : g'.bare? o = none := (h.bare? o).trans hp
    simp [Graph.fold, Graph.foldWithin, hp, hp']
  | some port => exact hlive port.node o (by rw [maker?_eq_bare?, hp, Option.map_some])

/-- The value of a port of a new node. -/
theorem Inserted.fold {kind : Kind} {location : Option Location} {sources : List OutputId}
    {results : List (DataType × Nat)} {k : Nat} {r : DataType × Nat} (ha : g'.Acyclic)
    (h : Inserted g kind location sources results g') (hk : results[k]? = some r) :
    g'.fold f ⟨g.outputs.size + k⟩ = f
      { id := ⟨g.outputs.size + k⟩, node := g.nextNode, type := r.1, latency := r.2 }
      { id := g.nextNode, kind, location,
        inputs := Id.range g.inputs.size sources.length,
        outputs := Id.range g.outputs.size results.length }
      (sources.map (g'.fold f)) := by
  have hb := h.bare?_port (k := k)
  rw [hk, Option.map_some] at hb
  have hn := h.node? g.nextNode
  rw [if_pos rfl] at hn
  have hreceived : (Id.range g.inputs.size sources.length).map
      (fun i => (g'.source? i).bind (g'.fold f)) = sources.map (g'.fold f) := by
    have hm := congrArg (List.map fun s => s.bind (g'.fold f)) h.map_source?
    simpa [List.map_map, Function.comp_def] using hm
  rw [fold_eq h.coherent ha hb hn, hreceived]

/-! ## Known values -/

/-- What is known of a port whose node receives these known values. -/
def knownStep (port : OutputPort) (node : Node) (received : List (Option Value)) :
    Option Value := do
  guard port.type.isConstant
  match node.kind with
  | .constant value => some (.scalar value)
  | .array _ => (received.mapM id).map .array
  | .struct fields => (received.mapM id).map fun values => .struct (fields.zip values)
  | _ => none

theorem mapM_id_eq_some {l : List (Option α)} {vs : List α} :
    l.mapM id = some vs ↔ l = vs.map some := by
  induction l generalizing vs with
  | nil => cases vs <;> simp
  | cons a l ih =>
    simp only [List.mapM_cons, Option.bind_eq_bind, Option.bind_eq_some_iff, ih, id_eq]
    cases vs with
    | nil => simp
    | cons v vs => simp [eq_comm]

theorem knownStep_eq_some {port : OutputPort} {node : Node} {received : List (Option Value)}
    {v : Value} :
    knownStep port node received = some v ↔ port.type.isConstant = true ∧
      ((∃ value, node.kind = .constant value ∧ v = .scalar value) ∨
        (∃ element values, node.kind = .array element ∧ received = values.map some ∧
          v = .array values) ∨
        ∃ fields values, node.kind = .struct fields ∧ received = values.map some ∧
          v = .struct (fields.zip values)) := by
  simp only [knownStep, guard]
  cases port.type.isConstant with
  | false => simp
  | true => cases node.kind <;> simp [mapM_id_eq_some, eq_comm]

theorem valueWithin_eq_foldWithin (g : Graph) (d : Nat) (o : OutputId) :
    g.valueWithin d o = foldWithin knownStep g d o := by
  induction d generalizing o with
  | zero => rfl
  | succ d ih =>
    have hi : (fun i => do g.valueWithin d (← g.source? i))
        = fun i => (g.source? i).bind (foldWithin knownStep g d) := by
      funext i
      cases g.source? i <;> simp [ih]
    simp only [valueWithin, foldWithin, hi, bare?]
    cases g.output? o with
    | none => rfl
    | some port =>
      cases hn : g.node? port.node with
      | none => cases hc : port.type.isConstant <;> simp [OutputPort.bare, hn, hc, guard]
      | some node =>
        simp only [OutputPort.bare, hn, knownStep, List.mapM_map, Option.bind_eq_bind,
          Option.bind_some, Option.map_some, Function.comp_def, id]
        cases node.kind <;> simp [Option.map_eq_bind]

theorem value?_eq_fold (g : Graph) (o : OutputId) : g.value? o = g.fold knownStep o :=
  g.valueWithin_eq_foldWithin _ o

end Graph

end SignalGraph
