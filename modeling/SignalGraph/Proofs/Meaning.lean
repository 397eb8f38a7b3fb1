import SignalGraph.Proofs.Interface

/-!
# What programs mean

An `Interpretation` says what literals, arrays, structs and calls compute, and what enters. The
value of a port is then given by the values its node receives (`denote_eq`), and a value that is
known is the value of its port (`denote_of_value?`).

A pattern `Denotes` a value, given what its wildcards stand for. A rule is `Sound` if everything its
input pattern denotes, its output patterns denote too. A match gives wildcards the values of the
ports they are bound to (`matchFrom_denotes`), and a port that is built has the value its pattern
denotes (`instantiate_denotes`). So sound rules do not change what any input receives
(`optimize_meaning`).
-/

namespace SignalGraph

open SignalGraph.Graph

universe u

variable {V : Type u}

/-! ## Values of ports -/

/-- What the parts of a program compute. -/
structure Interpretation (V : Type u) where
  literal : Literal → V
  array : List V → V
  struct : List (String × V) → V
  /-- The value of a channel that enters. -/
  channel : NodeId → V
  /-- What an input receives that nothing feeds. -/
  unfed : InputId → V
  /-- What a call of a module at a rate gives for its arguments: a value in each slot. -/
  call : ModuleId → (factor : Nat) → List V → (slot : Nat) → V

namespace Interpretation

/-- The value of a port of a node that receives `arguments`. -/
def result (I : Interpretation V) (port : OutputPort) (node : Node) (arguments : List V) : V :=
  match node.kind with
  | .input .. | .output .. => I.channel node.id
  | .constant value => I.literal value
  | .array _ => I.array arguments
  | .struct fields => I.struct (fields.zip arguments)
  | .call s factor _ => I.call s.id factor arguments (node.outputs.idxOf port.id)

/-- The value of a port of a node, where some inputs may receive nothing. -/
def step (I : Interpretation V) (port : OutputPort) (node : Node) (received : List (Option V)) :
    Option V :=
  some (I.result port node (node.inputs.zipWith (fun i v => v.getD (I.unfed i)) received))

mutual
/-- What a known value means. -/
def ofValue (I : Interpretation V) : Value → V
  | .scalar value => I.literal value
  | .array items => I.array (I.ofItems items)
  | .struct fields => I.struct (I.ofFields fields)

def ofItems (I : Interpretation V) : List Value → List V
  | [] => []
  | v :: vs => I.ofValue v :: I.ofItems vs

def ofFields (I : Interpretation V) : List (String × Value) → List (String × V)
  | [] => []
  | (name, v) :: fs => (name, I.ofValue v) :: I.ofFields fs
end

theorem ofFields_zip (I : Interpretation V) (names : List String) (vs : List Value) :
    I.ofFields (names.zip vs) = names.zip (I.ofItems vs) := by
  induction names generalizing vs with
  | nil => rfl
  | cons name names ih =>
    cases vs with
    | nil => rfl
    | cons v vs => rw [List.zip_cons_cons, ofFields, ofItems, List.zip_cons_cons, ih]

end Interpretation

namespace Graph

variable {I : Interpretation V} {registry : Registry} {g g' : Graph} {o : OutputId}

/-- The value of a port. -/
def denote (I : Interpretation V) (g : Graph) (o : OutputId) : Option V :=
  g.fold I.step o

/-- The value that an input receives. -/
def received (I : Interpretation V) (g : Graph) (i : InputId) : V :=
  ((g.source? i).bind (g.denote I)).getD (I.unfed i)

/-- The value of a port is given by what its node receives. -/
theorem denote_eq (hv : g.Valid registry) {port : OutputPort} {node : Node}
    (hp : g.bare? o = some port) (hn : g.node? port.node = some node) :
    g.denote I o = some (I.result port node (node.inputs.map (g.received I))) := by
  rw [denote, fold_eq hv.coherent hv.acyclic hp hn, Interpretation.step, List.zipWith_map_right,
    List.zipWith_self]
  rfl

/-- Ports that are there have values. -/
theorem exists_denote (hv : g.Valid registry) {port : OutputPort} (ho : g.output? o = some port) :
    ∃ v, g.denote I o = some v := by
  obtain ⟨node, hn, -⟩ := hv.coherent.node_of_output? ho
  exact ⟨_, denote_eq hv (bare?_eq_some.2 ⟨port, ho, rfl⟩) hn⟩

theorem live_of_denote {v : V} (h : g.denote I o = some v) : ∃ port, g.output? o = some port := by
  cases hp : g.output? o with
  | none =>
    rw [denote, fold_of_dead hp] at h
    cases h
  | some port => exact ⟨port, rfl⟩

theorem Coherent.idxOf_outputs (hg : g.Coherent) {n : NodeId} {node : Node} {k : Nat}
    (hn : g.node? n = some node) (ho : node.outputs[k]? = some o) : node.outputs.idxOf o = k := by
  obtain ⟨hlt, rfl⟩ := List.getElem?_eq_some_iff.1 ho
  exact (hg.outputs_nodup hn).idxOf_getElem k hlt

theorem received_of_source? {i : InputId} {v : V} (hs : g.source? i = some o)
    (ho : g.denote I o = some v) : g.received I i = v := by
  rw [received, hs, Option.bind_some, ho, Option.getD_some]

/-- The value of a port of a call. -/
theorem denote_call (hv : g.Valid registry) {n : NodeId} {node : Node} {s : Signature}
    {factor latency k : Nat} (hn : g.node? n = some node)
    (hk : node.kind = .call s factor latency) (ho : node.outputs[k]? = some o) :
    g.denote I o = some (I.call s.id factor (node.inputs.map (g.received I)) k) := by
  obtain ⟨port, hp, rfl⟩ :=
    maker?_eq_some.1 ((hv.coherent.mem_outputs hn).1 (List.mem_of_getElem? ho))
  rw [denote_eq hv (bare?_eq_some.2 ⟨port, hp, rfl⟩) hn, Interpretation.result, hk,
    OutputPort.bare, hv.coherent.output_id hp, hv.coherent.idxOf_outputs hn ho]

theorem denote_of_literal? (hv : g.Valid registry) {value : Literal}
    (h : g.literal? o = some value) : g.denote I o = some (I.literal value) := by
  obtain ⟨port, node, hp, hn, hk⟩ := Pattern.literal?_eq_some.1 h
  rw [denote_eq hv (bare?_eq_some.2 ⟨port, hp, rfl⟩) hn, Interpretation.result, hk]

/-- Inputs that receive known values receive what these mean. -/
theorem map_received_of_known {d : Nat}
    (h : ∀ s v, foldWithin knownStep g d s = some v → g.denote I s = some (I.ofValue v))
    (inputs : List InputId) {vs : List Value}
    (hi : (inputs.map fun i => (g.source? i).bind (foldWithin knownStep g d)) = vs.map some) :
    inputs.map (g.received I) = I.ofItems vs := by
  induction inputs generalizing vs with
  | nil =>
    obtain rfl := List.map_eq_nil_iff.1 hi.symm
    rfl
  | cons i inputs ih =>
    obtain ⟨v, vs, rfl, hv, hvs⟩ := List.map_eq_cons_iff.1 hi.symm
    obtain ⟨s, hs, hv⟩ := Option.bind_eq_some_iff.1 hv.symm
    rw [List.map_cons, received_of_source? hs (h s v hv), ih hvs.symm, Interpretation.ofItems]

theorem denote_of_foldWithin (hv : g.Valid registry) {d : Nat} {v : Value}
    (h : foldWithin knownStep g d o = some v) : g.denote I o = some (I.ofValue v) := by
  induction d generalizing o v with
  | zero => cases h
  | succ d ih =>
    rw [foldWithin, Option.bind_eq_some_iff] at h
    obtain ⟨port, hp, h⟩ := h
    obtain ⟨node, hn, h⟩ := Option.bind_eq_some_iff.1 h
    rw [denote_eq hv hp hn, Interpretation.result]
    obtain ⟨-, ⟨value, hk, rfl⟩ | ⟨element, vs, hk, hvs, rfl⟩ | ⟨fields, vs, hk, hvs, rfl⟩⟩ :=
      knownStep_eq_some.1 h
    · simp [hk, Interpretation.ofValue]
    · have hin := map_received_of_known (fun _ _ => ih) node.inputs hvs
      simp [hk, Interpretation.ofValue, hin]
    · have hin := map_received_of_known (fun _ _ => ih) node.inputs hvs
      simp [hk, Interpretation.ofValue, Interpretation.ofFields_zip, hin]

/-- A known value is the value of its port. -/
theorem denote_of_value? (hv : g.Valid registry) {v : Value} (h : g.value? o = some v) :
    g.denote I o = some (I.ofValue v) := by
  rw [value?_eq_fold, fold] at h
  exact denote_of_foldWithin hv h

theorem denote_of_sameValue (hv : g.Valid registry) {x : OutputId}
    (h : g.sameValue x o = true) : g.denote I x = g.denote I o := by
  unfold sameValue at h
  split at h
  · rename_i v w hx ho
    obtain rfl : v = w := of_decide_eq_true h
    rw [denote_of_value? hv hx, denote_of_value? hv ho]
  · cases h

/-! ## Values in a graph that grows -/

theorem live_of_map_denote {l : List OutputId} {vs : List V}
    (h : l.map (g.denote I) = vs.map some) : ∀ o ∈ l, ∃ port, g.output? o = some port := by
  intro o ho
  have hmem : g.denote I o ∈ vs.map some := h ▸ List.mem_map_of_mem ho
  obtain ⟨v, -, hv⟩ := List.mem_map.1 hmem
  exact live_of_denote hv.symm

theorem Grown.denote {b : List OutputId} (hv : g.Valid registry) (hv' : g'.Valid registry)
    (h : Grown b g g') {port : OutputPort} (ho : g.output? o = some port) :
    g'.denote I o = g.denote I o :=
  (observable_fold I.step).grown hv hv' h ho

theorem Grown.map_denote {b : List OutputId} (hv : g.Valid registry) (hv' : g'.Valid registry)
    (h : Grown b g g') {l : List OutputId} {vs : List V}
    (hl : l.map (g.denote I) = vs.map some) : l.map (g'.denote I) = vs.map some := by
  rw [← hl]
  refine List.map_congr_left fun o ho => ?_
  obtain ⟨port, hp⟩ := live_of_map_denote hl o ho
  exact h.denote hv hv' hp

/-- The value of a port of a new node. -/
theorem Inserted.denote {kind : Kind} {location : Option Location} {sources : List OutputId}
    {results : List (DataType × Nat)} (hv : g.Valid registry) (hv' : g'.Valid registry)
    (h : Inserted g kind location sources results g') {k : Nat} {vs : List V}
    (ho : g'.port g.nextNode k = .ok o) (hs : sources.map (g.denote I) = vs.map some) :
    ∃ port node, node.kind = kind ∧ node.outputs.idxOf port.id = k ∧
      g'.denote I o = some (I.result port node vs) := by
  obtain ⟨hk, rfl⟩ := h.port_eq_ok.1 ho
  have hgrown : Grown sources g g' :=
    (Grown.refl hv.coherent sources).insert hv.coherent h fun o ho => .inr ho
  have hs' : sources.map (g'.fold I.step) = vs.map some := hgrown.map_denote hv hv' hs
  have hlen : sources.length = vs.length := by simpa using congrArg List.length hs
  have hn := h.node? g.nextNode
  rw [if_pos rfl] at hn
  have hzip : (Id.range g.inputs.size sources.length).zipWith (fun i v => v.getD (I.unfed i))
      (vs.map some) = vs :=
    List.ext_getElem (by simp [hlen]) fun j hj hj' => by simp
  have hval := h.fold (f := I.step) hv'.acyclic (List.getElem?_eq_getElem hk)
  rw [hs', Interpretation.step, hzip] at hval
  refine ⟨_, _, ?_, ?_, hval⟩
  · rfl
  · exact hv'.coherent.idxOf_outputs hn (Id.getElem?_range hk)

end Graph

/-! ## Values of patterns -/

namespace Pattern

mutual
/-- What a pattern stands for. The wildcards before it stand for the first values, and all wildcards
up to its end stand for the last ones. -/
inductive Denotes (I : Interpretation V) (registry : Registry) (side : Side) :
    List V → Pattern → V → List V → Prop where
  | literal {σ : List V} (value : Literal) :
    Denotes I registry side σ (.literal value) (I.literal value) σ
  | wildcard {σ : List V} (constant : Bool) (v : V) : side = .input →
    Denotes I registry side σ (.wildcard constant) v (σ ++ [v])
  /-- A slot stands for what its wildcard stands for. -/
  | slot {σ : List V} {k : Nat} {v : V} : σ[k]? = some v →
    Denotes I registry side σ (.slot k) v σ
  | array {σ σ' : List V} {elements : List Pattern} {vs : List V} :
    ElementsDenote I registry side σ elements vs σ' →
    Denotes I registry side σ (.array elements) (I.array vs) σ'
  | call {σ σ' : List V} {module : ModuleId} {s : Signature} {factor place k : Nat}
    {children : List Pattern} {arguments : List V} : registry.lookup module = some s →
    arguments.length = s.inputs.length → s.outputSlot place = some k →
    ChildrenDenote I registry side s arguments (I.call module factor arguments) place 0 σ children
      σ' →
    Denotes I registry side σ (.call module factor place children)
      (I.call module factor arguments k) σ'

inductive ElementsDenote (I : Interpretation V) (registry : Registry) (side : Side) :
    List V → List Pattern → List V → List V → Prop where
  | nil {σ : List V} : ElementsDenote I registry side σ [] [] σ
  | cons {σ σ₁ σ' : List V} {e : Pattern} {es : List Pattern} {v : V} {vs : List V} :
    Denotes I registry side σ e v σ₁ → ElementsDenote I registry side σ₁ es vs σ' →
    ElementsDenote I registry side σ (e :: es) (v :: vs) σ'

/-- The children of a call from a place on, where the call has these arguments and results. -/
inductive ChildrenDenote (I : Interpretation V) (registry : Registry) (side : Side) :
    Signature → List V → (Nat → V) → (place : Nat) → (index : Nat) → List V → List Pattern →
    List V → Prop where
  | nil {s : Signature} {arguments : List V} {results : Nat → V} {place index : Nat}
    {σ : List V} : ChildrenDenote I registry side s arguments results place index σ [] σ
  /-- The arguments that are left can be anything. -/
  | ellipsis {s : Signature} {arguments : List V} {results : Nat → V} {place index : Nat}
    {σ : List V} {cs : List Pattern} :
    ChildrenDenote I registry side s arguments results place index σ (.ellipsis :: cs) σ
  | result {s : Signature} {arguments : List V} {results : Nat → V} {place : Nat}
    {σ σ' : List V} {cs : List Pattern} :
    ChildrenDenote I registry side s arguments results place (place + 1) σ cs σ' →
    ChildrenDenote I registry side s arguments results place place σ (.result :: cs) σ'
  | argument {s : Signature} {arguments : List V} {results : Nat → V} {place index k : Nat}
    {σ σ₁ σ' : List V} {c : Pattern} {cs : List Pattern} {v : V} :
    s.inputSlot index = some k → arguments[k]? = some v → Denotes I registry side σ c v σ₁ →
    ChildrenDenote I registry side s arguments results place (index + 1) σ₁ cs σ' →
    ChildrenDenote I registry side s arguments results place index σ (c :: cs) σ'
  /-- A wildcard at another output stands for what comes out there; in an output pattern it is
  left out. -/
  | sibling {s : Signature} {arguments : List V} {results : Nat → V} {place index k : Nat}
    {σ σ' : List V} {cs : List Pattern} : index ≠ place → s.outputSlot index = some k →
    ChildrenDenote I registry side s arguments results place (index + 1)
      (if side = .input then σ ++ [results k] else σ) cs σ' →
    ChildrenDenote I registry side s arguments results place index σ (.wildcard false :: cs) σ'
end

variable {I : Interpretation V} {registry : Registry} {g : Graph}

mutual
/-- Where a pattern matches, it stands for the value of the port. -/
theorem matchFrom_denotes (hv : g.Valid registry) {bound bound' : Nat} {b b' : Bindings}
    {o : OutputId} {σ : List V} {v : V} (hσ : b.map (g.denote I) = σ.map some)
    (ho : g.denote I o = some v) :
    (p : Pattern) → matchFrom g b o p = .ok (some b') →
    check registry .input bound p = .ok bound' →
    ∃ σ', b'.map (g.denote I) = σ'.map some ∧ Denotes I registry .input σ p v σ'
  | .call module factor place children, hm, hc => by
    obtain ⟨port, hp⟩ := live_of_denote ho
    obtain ⟨node, s, latency, k, hn, hk, rfl, hlook, hslot, hout, hms, hcs⟩ :=
      matchFrom_call_of_check hv (maker?_eq_some.2 ⟨port, hp, rfl⟩) hm hc
    obtain ⟨-, hlen, -⟩ := hv.fits hn s factor latency hk
    obtain ⟨σ', hσ', hd⟩ := matchChildren_denotes hv hn hk hσ children hms hcs
    obtain rfl := Option.some.inj (ho.symm.trans (denote_call hv hn hk hout))
    exact ⟨σ', hσ', .call hlook ((List.length_map _).trans hlen) hslot hd⟩
  | .literal value, hm, _ => by
    obtain ⟨hl, rfl⟩ := matchFrom_literal hm
    obtain rfl := Option.some.inj (ho.symm.trans (denote_of_literal? hv hl))
    exact ⟨σ, hσ, .literal value⟩
  | .array elements, hm, hc => by
    obtain ⟨port, node, element, hp, hn, hk, hl, hm⟩ := matchFrom_array hm
    obtain ⟨σ', hσ', hd⟩ := matchElements_denotes hv hσ elements hl hm (check_array hc)
    have hval := denote_eq (I := I) hv (bare?_eq_some.2 ⟨port, hp, rfl⟩) hn
    rw [Interpretation.result, hk] at hval
    obtain rfl := Option.some.inj (ho.symm.trans hval)
    exact ⟨σ', hσ', .array hd⟩
  | .wildcard constant, hm, hc => by
    obtain ⟨rfl, -⟩ := matchFrom_wildcard hm
    exact ⟨σ ++ [v], by simp [hσ, ho], .wildcard constant v rfl⟩
  | .slot k, hm, hc => by
    obtain ⟨rfl, x, hx, hxo⟩ := matchFrom_slot hv.coherent hm
    refine ⟨σ, hσ, .slot ?_⟩
    have hvx : g.denote I x = some v := by
      rcases hxo with rfl | hs
      · exact ho
      · exact (denote_of_sameValue hv hs).trans ho
    have hk := congrArg (·[k]?) hσ
    simpa [hx, hvx] using hk.symm
  | .result, hm, _ => by cases hm
  | .ellipsis, hm, _ => by cases hm

theorem matchChildren_denotes (hv : g.Valid registry) {n : NodeId} {node : Node} {s : Signature}
    {factor latency place index bound bound' : Nat} {b b' : Bindings} {σ : List V}
    (hn : g.node? n = some node) (hk : node.kind = .call s factor latency)
    (hσ : b.map (g.denote I) = σ.map some) :
    (cs : List Pattern) → matchChildren g s node place index b cs = .ok (some b') →
    checkChildren registry .input s place index bound cs = .ok bound' →
    ∃ σ', b'.map (g.denote I) = σ'.map some ∧
      ChildrenDenote I registry .input s (node.inputs.map (g.received I))
        (I.call s.id factor (node.inputs.map (g.received I))) place index σ cs σ'
  | [], hm, hc => by
    rw [matchChildren] at hm
    cases hm
    exact ⟨σ, hσ, .nil⟩
  | c :: cs, hm, hc => by
    rcases matchChildren_cons hm hc with ⟨rfl, rfl, -⟩ | ⟨rfl, rfl, hms, hcs⟩ |
      ⟨hne, k, i, x, b₁, bound₁, hslot, hi, hs, hm, hc, hms, hcs⟩ |
      ⟨rfl, hne, k, x, -, hslot, hx, hms, hcs⟩
    · exact ⟨σ, hσ, .ellipsis⟩
    · obtain ⟨σ', hσ', hd⟩ := matchChildren_denotes hv hn hk hσ cs hms hcs
      exact ⟨σ', hσ', .result hd⟩
    · obtain ⟨out, hout⟩ := hv.coherent.source_live hs
      obtain ⟨v, hx⟩ := exists_denote (I := I) hv hout
      obtain ⟨σ₁, hσ₁, hd⟩ := matchFrom_denotes hv hσ hx c hm hc
      obtain ⟨σ', hσ', hds⟩ := matchChildren_denotes hv hn hk hσ₁ cs hms hcs
      refine ⟨σ', hσ', .argument hslot ?_ hd hds⟩
      rw [List.getElem?_map, hi, Option.map_some, received_of_source? hs hx]
    · have hσ₁ : (b ++ [x]).map (g.denote I)
          = (σ ++ [I.call s.id factor (node.inputs.map (g.received I)) k]).map some := by
        simp [hσ, denote_call hv hn hk hx]
      obtain ⟨σ', hσ', hds⟩ := matchChildren_denotes hv hn hk hσ₁ cs hms hcs
      exact ⟨σ', hσ', .sibling hne hslot hds⟩

theorem matchElements_denotes (hv : g.Valid registry) {bound bound' : Nat} {b b' : Bindings}
    {inputs : List InputId} {σ : List V} (hσ : b.map (g.denote I) = σ.map some) :
    (es : List Pattern) → inputs.length = es.length →
    matchElements g b inputs es = .ok (some b') →
    checkElements registry .input bound es = .ok bound' →
    ∃ σ', b'.map (g.denote I) = σ'.map some ∧
      ElementsDenote I registry .input σ es (inputs.map (g.received I)) σ'
  | [], hl, hm, _ => by
    rw [matchElements] at hm
    cases hm
    rw [List.length_eq_zero_iff.1 hl]
    exact ⟨σ, hσ, .nil⟩
  | e :: es, hl, hm, hc => by
    obtain ⟨i, rest, x, b₁, rfl, hs, hm, hms⟩ := matchElements_cons hl hm
    obtain ⟨bound₁, hc, hcs⟩ := checkElements_cons hc
    obtain ⟨out, hout⟩ := hv.coherent.source_live hs
    obtain ⟨v, hx⟩ := exists_denote (I := I) hv hout
    obtain ⟨σ₁, hσ₁, hd⟩ := matchFrom_denotes hv hσ hx e hm hc
    obtain ⟨σ', hσ', hds⟩ := matchElements_denotes hv hσ₁ es (Nat.succ.inj hl) hms hcs
    rw [List.map_cons, received_of_source? hs hx]
    exact ⟨σ', hσ', .cons hd hds⟩
end

/-! ## Values of what is built -/

variable {env : Environment} {b : Bindings} {location : Option Location}

/-- What is built first keeps its value while the rest is built. -/
theorem map_denote_cons {w w₁ w' : Workspace} {o : OutputId} {rest : List OutputId} {v : V}
    {vs : List V} (hb : Built env.registry b w.graph w₁.graph (.ok [o]))
    (hb' : Built env.registry b w₁.graph w'.graph (.ok rest))
    (hval : w₁.graph.denote I o = some v) (hvals : rest.map (w'.graph.denote I) = vs.map some) :
    (o :: rest).map (w'.graph.denote I) = (v :: vs).map some := by
  obtain ⟨port, hp⟩ := live_of_denote hval
  rw [List.map_cons, List.map_cons, hvals, hb'.grown.denote hb.valid hb'.valid hp, hval]

mutual
/-- A port that is built has the value that its pattern stands for. -/
theorem instantiate_denotes (hr : env.registry.Reached) {w w' : Workspace} {o : OutputId}
    {bound bound' : Nat} {σ σ' : List V} {v : V} (hv : w.graph.Valid env.registry)
    (hσ : b.map (w.graph.denote I) = σ.map some) :
    (p : Pattern) → instantiate env b location w p = .ok (w', .ok o) →
    check env.registry .output bound p = .ok bound' → Denotes I env.registry .output σ p v σ' →
    w'.graph.denote I o = some v ∧ σ' = σ
  | .call module factor place children, h, hc, hd => by
    cases hd with
    | call hlook hlen hslot hd =>
      obtain ⟨s, hhead, hcs⟩ := check_call hc
      obtain rfl := Option.some.inj (hhead.lookup.symm.trans hlook)
      obtain ⟨hcount, hopen⟩ := hhead.full rfl
      simp only [instantiate, hlook] at h
      obtain ⟨⟨w₁, r₁⟩, ha, h⟩ := bind_eq_ok.1 h
      cases r₁ with
      | error e => cases h
      | ok ports =>
        have hb := instantiateArguments_spec hr hv (live_of_map_denote hσ) _ children ha
        obtain ⟨hports, rfl⟩ := instantiateArguments_denotes hr hv hσ hslot hlen List.drop_zero
          children hcount hopen ha hcs hd
        rcases instantiateCall_eq_ok hr hb.valid.coherent hlook h with ⟨e, he, -⟩ |
          ⟨latency, results, k, o, he, hid, hk, hf, hi, ho⟩
        · cases he
        · cases he
          obtain rfl := Option.some.inj (hk.symm.trans hslot)
          obtain ⟨port, node, hkind, hidx, hval⟩ :=
            hi.denote hb.valid (hi.valid hb.valid hf) ho (by simpa using hports)
          refine ⟨?_, rfl⟩
          simp only [hval, Interpretation.result, hkind, hidx, hid]
  | .literal value, h, _, hd => by
    cases hd
    obtain ⟨_, ⟨⟩, hi, ho⟩ := instantiate_literal hv.coherent h
    have hnone : ([] : List OutputId).map (w.graph.denote I) = ([] : List V).map some := rfl
    obtain ⟨port, node, hkind, -, hval⟩ :=
      hi.denote hv (hi.valid hv (fits_of_not_isCall rfl)) ho hnone
    refine ⟨?_, rfl⟩
    rw [hval, Interpretation.result, hkind]
  | .array elements, h, hc, hd => by
    cases hd with
    | array hd =>
      simp only [instantiate] at h
      obtain ⟨⟨w₁, r₁⟩, he, h⟩ := bind_eq_ok.1 h
      cases r₁ with
      | error e => cases h
      | ok ports =>
        have hb := instantiateElements_spec hr hv (live_of_map_denote hσ) elements he
        obtain ⟨hports, rfl⟩ := instantiateElements_denotes hr hv hσ elements he (check_array hc) hd
        rcases instantiateArray_eq_ok hb.valid.coherent h with ⟨e, he, -⟩ |
          ⟨element, result, o, he, hi, ho⟩
        · cases he
        · cases he
          obtain ⟨port, node, hkind, -, hval⟩ :=
            hi.denote hb.valid (hi.valid hb.valid (fits_of_not_isCall rfl)) ho hports
          refine ⟨?_, rfl⟩
          rw [hval, Interpretation.result, hkind]
  | .slot k, h, _, hd => by
    cases hd with
    | slot hk =>
      simp only [instantiate, bind_eq_ok, get_eq_ok, pure_eq_ok] at h
      obtain ⟨x, hx, h⟩ := h
      cases h
      have he := congrArg (·[k]?) hσ
      refine ⟨?_, rfl⟩
      simpa [hx, hk] using he
  | .wildcard _, h, _, _ => nomatch h
  | .result, h, _, _ => nomatch h
  | .ellipsis, h, _, _ => nomatch h

theorem instantiateArguments_denotes (hr : env.registry.Reached) {w w' : Workspace}
    {ports : List OutputId} {s : Signature} {place k index bound bound' : Nat}
    {arguments σ σ' : List V} {results : Nat → V} {parameters : List Parameter}
    (hv : w.graph.Valid env.registry) (hσ : b.map (w.graph.denote I) = σ.map some)
    (hslot : s.outputSlot place = some k) (hlen : arguments.length = s.inputs.length)
    (hps : s.parameters.drop index = parameters) :
    (cs : List Pattern) → cs.length = parameters.length → (∀ c ∈ cs, c.isEllipsis = false) →
    instantiateArguments env b location w parameters cs = .ok (w', .ok ports) →
    checkChildren env.registry .output s place index bound cs = .ok bound' →
    ChildrenDenote I env.registry .output s arguments results place index σ cs σ' →
    ports.map (w'.graph.denote I) = (arguments.drop
      ((s.parameters.take index).countP Parameter.isInput)).map some ∧ σ' = σ
  | [], hl, _, h, _, hd => by
    rw [instantiateArguments] at h
    cases h
    cases hd
    have hend : s.parameters.length ≤ index := by
      rw [← List.drop_eq_nil_iff, hps]
      exact List.length_eq_zero_iff.1 hl.symm
    refine ⟨?_, rfl⟩
    rw [List.take_of_length_le hend, ← Signature.length_inputs, ← hlen, List.drop_length]
    rfl
  | c :: cs, hl, hopen, h, hc, hd => by
    obtain ⟨hc₀, hopen'⟩ := List.forall_mem_cons.1 hopen
    cases parameters with
    | nil => cases hl
    | cons q parameters =>
      have hq : s.parameters[index]? = some q := by
        have hget := congrArg (·[0]?) hps
        simpa using hget
      have hps' : s.parameters.drop (index + 1) = parameters := by
        rw [← List.drop_drop, hps, List.drop_one, List.tail_cons]
      have hcount : (s.parameters.take (index + 1)).countP Parameter.isInput
          = (s.parameters.take index).countP Parameter.isInput + if q.isInput then 1 else 0 := by
        rw [List.take_add_one, hq, List.countP_append]
        simp [List.countP_cons]
      -- At the place of an output nothing is built.
      have hskip {bound₁ : Nat} (hout : q.isInput = false)
          (hcs : checkChildren env.registry .output s place (index + 1) bound₁ cs = .ok bound')
          (hd : ChildrenDenote I env.registry .output s arguments results place (index + 1) σ cs
            σ') :
          ports.map (w'.graph.denote I) = (arguments.drop
            ((s.parameters.take index).countP Parameter.isInput)).map some ∧ σ' = σ := by
        rw [instantiateArguments, if_neg (by simp [hout])] at h
        have hrest := instantiateArguments_denotes hr hv hσ hslot hlen hps' cs (Nat.succ.inj hl)
          hopen' h hcs hd
        simpa [hcount, hout] using hrest
      cases hd with
      | ellipsis => cases hc₀
      | result hd =>
        rcases checkChildren_cons hc with ⟨he, -⟩ | ⟨-, ⟨-, -, hcs⟩ | ⟨hne, -⟩ | ⟨hne, -⟩⟩
        · cases hc₀.symm.trans he
        · exact hskip (Signature.isInput_of_outputSlot hslot hq) hcs hd
        · exact absurd rfl hne
        · exact absurd rfl hne
      | sibling hne hk hd =>
        rcases checkChildren_cons hc with ⟨he, -⟩ | ⟨-, ⟨hi, -⟩ | ⟨-, hin, -⟩ | ⟨-, -, -, hcs⟩⟩
        · cases hc₀.symm.trans he
        · exact absurd hi hne
        · simp [hq, Signature.isInput_of_outputSlot hk hq] at hin
        · exact hskip (Signature.isInput_of_outputSlot hk hq) hcs hd
      | argument hk hv₀ hd hds =>
        rw [Signature.inputSlot_eq] at hk
        split at hk
        case isFalse => cases hk
        case isTrue hin =>
          cases hk
          have hq' : q.isInput = true := by simpa [hq] using hin
          obtain ⟨w₁, o, rest, hfirst, hrest, rfl⟩ := instantiateArguments_cons hq' h
          rcases checkChildren_cons hc with ⟨he, -⟩ | ⟨-, ⟨-, rfl, -⟩ | ⟨-, -, bound₁, hc, hcs⟩ |
            ⟨-, hout, -⟩⟩
          · cases hc₀.symm.trans he
          · cases hd
          · have hb := instantiate_spec hr hv (live_of_map_denote hσ) c hfirst
            obtain ⟨hval, rfl⟩ := instantiate_denotes hr hv hσ c hfirst hc hd
            have hσ₁ := hb.grown.map_denote hv hb.valid hσ
            have hb' := instantiateArguments_spec hr hb.valid (live_of_map_denote hσ₁) _ cs hrest
            obtain ⟨hvals, rfl⟩ := instantiateArguments_denotes hr hb.valid hσ₁ hslot hlen hps' cs
              (Nat.succ.inj hl) hopen' hrest hcs hds
            obtain ⟨hlt, hget⟩ := List.getElem?_eq_some_iff.1 hv₀
            refine ⟨?_, rfl⟩
            rw [map_denote_cons hb hb' hval hvals, hcount, hq', if_pos rfl,
              List.drop_eq_getElem_cons hlt, hget]
          · exact absurd hin hout

theorem instantiateElements_denotes (hr : env.registry.Reached) {w w' : Workspace}
    {ports : List OutputId} {bound bound' : Nat} {σ σ' vs : List V}
    (hv : w.graph.Valid env.registry) (hσ : b.map (w.graph.denote I) = σ.map some) :
    (es : List Pattern) → instantiateElements env b location w es = .ok (w', .ok ports) →
    checkElements env.registry .output bound es = .ok bound' →
    ElementsDenote I env.registry .output σ es vs σ' →
    ports.map (w'.graph.denote I) = vs.map some ∧ σ' = σ
  | [], h, _, hd => by
    rw [instantiateElements] at h
    cases h
    cases hd
    exact ⟨rfl, rfl⟩
  | e :: es, h, hc, hd => by
    obtain ⟨w₁, o, rest, he, hes, rfl⟩ := instantiateElements_cons h
    obtain ⟨bound₁, hc, hcs⟩ := checkElements_cons hc
    cases hd with
    | cons hd hds =>
      have hb := instantiate_spec hr hv (live_of_map_denote hσ) e he
      obtain ⟨hval, rfl⟩ := instantiate_denotes hr hv hσ e he hc hd
      have hσ₁ := hb.grown.map_denote hv hb.valid hσ
      have hb' := instantiateElements_spec hr hb.valid (live_of_map_denote hσ₁) es hes
      obtain ⟨hvals, rfl⟩ := instantiateElements_denotes hr hb.valid hσ₁ es hes hcs hds
      exact ⟨map_denote_cons hb hb' hval hvals, rfl⟩
end

end Pattern

/-! ## Sound rules -/

/-- Whatever the input pattern stands for, the output patterns stand for, too. -/
def Rule.Sound (I : Interpretation V) (registry : Registry) (r : Rule) : Prop :=
  ∀ (σ : List V) (v : V), r.input.Denotes I registry .input [] v σ →
    ∀ p ∈ r.outputs, p.Denotes I registry .output σ v σ

/-- The port that a sound rule builds has the value of the anchor. -/
theorem Rewrite.denote_eq {I : Interpretation V} {env : Environment} {rule : Rule} {n : NodeId}
    {g g' : Graph} (r : Rewrite env rule n g g') (hr : env.registry.Reached)
    (hv : g.Valid env.registry) (hc : rule.Checked env.registry)
    (hs : rule.Sound I env.registry) :
    r.workspace.graph.denote I r.port.id = r.workspace.graph.denote I r.anchor.id := by
  obtain ⟨bound, hin, hout⟩ := hc.patterns
  obtain ⟨bound', hout⟩ := hout _ r.mem
  obtain ⟨v, ha⟩ := exists_denote (I := I) hv r.anchor_live
  obtain ⟨σ, hσ, hd⟩ := Pattern.matchFrom_denotes hv (σ := []) rfl ha _ r.matched hin
  obtain ⟨hp, -⟩ := Pattern.instantiate_denotes (w := { graph := g }) hr hv hσ _ r.built hout
    (hs σ v hd _ r.mem)
  have hb := r.built_spec hv hc hr
  rw [hp, hb.grown.denote hv hb.valid r.anchor_live, ha]

namespace Rewriting

/-- Sound rules change no value that an input receives. -/
theorem optimize_meaning {env : Environment} {l : List Rule} {rules : RuleSet} {g : Graph}
    {s : Rewriting} {result : Except RewriteError Report} (I : Interpretation V)
    (hr : env.registry.Reached) (hmake : RuleSet.make env.registry l = .ok rules)
    (hsound : ∀ rule ∈ l, rule.Sound I env.registry) (hg : g.Coherent) (hverify : g.verify = [])
    (hcalls : g.CallsFrom env.registry) (ho : optimize env rules g = .ok (s, result)) :
    (∀ i p p', g.input? i = some p → s.graph.input? i = some p' →
      p.source = none ∧ p'.source = none ∨
      ∃ o o' v, p.source = some o ∧ p'.source = some o' ∧ g.denote I o = some v ∧
        s.graph.denote I o' = some v) ∧
    ∀ n node, g.Stays n node → s.graph.node? n = some node ∧
      node.inputs.map (s.graph.received I) = node.inputs.map (g.received I) := by
  obtain ⟨-, hmem, hrules⟩ := RuleSet.make_eq_ok hmake
  have hv : g.Valid env.registry := valid_iff.2 ⟨hg, hverify, hcalls⟩
  have hg' := (optimize_valid hr hrules hv ho).coherent
  have hcarry : Carries (Graph.denote I) g s.graph :=
    optimize_carries hr hrules hv (observable_fold I.step)
      (fun r hm hv₁ => r.denote_eq hr hv₁ (hrules _ hm) (hsound _ ((hmem _).1 hm))) ho
  constructor
  · intro i p p' hp hp'
    obtain ⟨q, hq, he⟩ := hcarry.input (lt_of_input? hp) hp'
    obtain rfl : p = q := Option.some.inj (hp.symm.trans hq)
    refine fed_of_map_eq (fun o hs => ?_) he
    obtain ⟨out, hout⟩ := hg.source_live (source?_eq_some.2 ⟨p, hp, hs⟩)
    exact exists_denote hv hout
  · intro n node hs
    have hn' := (hcarry.stays hs).1
    obtain ⟨-, hin⟩ := hcarry.map_source? hg hg' hs.1 hn'
    refine ⟨hn', List.map_congr_left fun i hi => ?_⟩
    have he := congrArg (·.bind id) (hin i hi)
    simp only [Option.bind_map, Function.id_comp] at he
    rw [received, received, he]

end Rewriting

namespace Negation

open Pattern

/-- Numbers that can be negated. -/
def integers : Interpretation Int where
  literal _ := 0
  array _ := 0
  struct _ := 0
  channel _ := 7
  unfed _ := 0
  call _ _ arguments _ := -arguments.headD 0

/-- What is negated. -/
theorem denotes_call {σ σ' : List Int} {c : Pattern} {v : Int} (hc : c.isEllipsis = false)
    (h : Denotes integers env.registry .input σ (.call signature.id 1 1 [c, .result]) v σ') :
    Denotes integers env.registry .input σ c (-v) σ' := by
  cases h with
  | call hlook hlen hslot hd =>
    cases hlook
    cases hd with
    | ellipsis => cases hc
    | sibling _ hk _ => cases hk
    | argument hk hv hd hds =>
      cases hk
      cases hds with
      | argument hk _ _ _ => cases hk
      | result hds =>
        cases hds
        simpa [integers, List.headD_eq_head?_getD, List.head?_eq_getElem?, hv] using hd

theorem rule_sound : rule.Sound integers env.registry := by
  intro σ v h
  have hx := denotes_call rfl (denotes_call rfl h)
  rw [Int.neg_neg] at hx
  cases hx with
  | wildcard =>
    intro p hp
    obtain rfl := List.mem_singleton.1 hp
    exact .slot rfl

end Negation

namespace Rewriting

theorem optimize_meaning_thrice :
    ∃ runs g s report, Negation.thrice.build Negation.env = .ok (runs, .ok g) ∧
      optimize Negation.env Negation.rules g = .ok (s, .ok report) ∧ report.rewrites = 1 ∧
      ∀ n node, g.Stays n node → s.graph.node? n = some node ∧
        node.inputs.map (s.graph.received Negation.integers)
          = node.inputs.map (g.received Negation.integers) := by
  obtain ⟨runs, g, s, report, hb, ho, hrw, -⟩ := Negation.optimize_thrice
  have hv := (Description.build_loaded Negation.reached hb).valid
  obtain ⟨-, hstay⟩ := optimize_meaning Negation.integers Negation.reached Negation.make_rules
    (by simpa using Negation.rule_sound) hv.coherent (valid_iff.1 hv).2.1 hv.fits ho
  exact ⟨runs, g, s, report, hb, ho, hrw, hstay⟩

end Rewriting

end SignalGraph
