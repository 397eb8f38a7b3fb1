import SignalGraph.Proofs.Describing
import SignalGraph.Proofs.Downstream

/-!
# Matches before and after a change

A port takes the place of another one, and nodes come and go elsewhere (`Handed`). A node that is
there before and after has the same inputs; where one of them is fed from another port now, that is
the port that took over (`Succeeds`).

A wildcard does not tell the two apart, since they have the same type. So a pattern that matches
after the change matched before it, unless a part of it that can tell (`tells`) stands for the port
that took over, or a slot is compared with a value that became known (`Overlooks`). A part that
stands inside `k` calls and arrays (`partLevels`) stands for a port whose node is `k` hops away, so
how far away that port is decides which parts can stand for it (`matchFrom_before`).
-/

namespace SignalGraph

open SignalGraph.Graph

/-! ## Parts of a pattern -/

namespace Pattern

mutual
/-- A pattern that stands inside `level` calls and arrays, and everything in it, each with the
number of calls and arrays it stands inside. -/
def partLevels (level : Nat) : Pattern → List (Pattern × Nat)
  | .call m f r children => (.call m f r children, level) :: partLevelsAll (level + 1) children
  | .array elements => (.array elements, level) :: partLevelsAll (level + 1) elements
  | p => [(p, level)]

def partLevelsAll (level : Nat) : List Pattern → List (Pattern × Nat)
  | [] => []
  | p :: ps => partLevels level p ++ partLevelsAll level ps
end

theorem mem_partLevels (level : Nat) (p : Pattern) : (p, level) ∈ p.partLevels level := by
  cases p <;> simp [partLevels]

/-- Whether a part of a pattern can tell outputs of a node of this kind from other ports. -/
def tells : Pattern → Kind → Bool
  | .call m factor _ _, .call s f _ => s.id = m && f = factor
  | .literal value, .constant v => v = value
  | .array _, .array _ => true
  | .slot _, _ => true
  | _, _ => false

end Pattern

/-! ## Before and after -/

namespace Graph

variable {w g : Graph} {old new x y : OutputId} {n : NodeId} {node : Node} {v : Value}

/-- In the place of `y` stands `x`, after `new` took the place of `old`. -/
def Succeeds (w : Graph) (old new y x : OutputId) : Prop :=
  (∃ port, w.output? y = some port) ∧ (x = y ∨ y = old ∧ x = new)

theorem Succeeds.eq (h : w.Succeeds old new y x) (hne : x ≠ new) : y = x := by
  obtain ⟨-, rfl | ⟨-, rfl⟩⟩ := h
  · rfl
  · exact absurd rfl hne

/-- Whatever is in `w` and in `g` is the same in both, but in `g` the port `new` stands in the place
of `old`, and has its type. -/
structure Handed (w : Graph) (old new : OutputId) (g : Graph) : Prop where
  port {o : OutputId} {port port' : OutputPort} : w.output? o = some port →
    g.output? o = some port' → port.node = port'.node ∧ port.type = port'.type
  node {n : NodeId} {node node' : Node} : w.node? n = some node → g.node? n = some node' →
    node = node'
  source? {n : NodeId} {node : Node} {i : InputId} {x : OutputId} : w.node? n = some node →
    i ∈ node.inputs → g.source? i = some x → ∃ y, w.source? i = some y ∧ w.Succeeds old new y x
  alike {port port' : OutputPort} : w.output? old = some port → g.output? new = some port' →
    port.type = port'.type

/-- The node `n` depends on the node of a port. -/
def Seen (g : Graph) (n : NodeId) (x : OutputId) : Prop :=
  ∃ k m, g.maker? x = some m ∧ g.Hops k m n

/-- What feeds a node is one hop further away. -/
theorem Coherent.hops_of_source? (hg : g.Coherent) {k : Nat} {m : NodeId} {i : InputId}
    (hm : g.node? m = some node) (hi : i ∈ node.inputs) (hx : g.source? i = some x)
    (hk : g.Hops k m n) : ∃ l, g.maker? x = some l ∧ g.Hops (k + 1) l n := by
  obtain ⟨l, -, hl, -⟩ := hg.source_maker hx
  exact ⟨l, hl, .head (hg.feeds_of_source ((hg.mem_inputs hm).1 hi) hx hl) hk⟩

namespace Handed

/-- A port other than the one that took over belongs to the node that it belonged to. -/
theorem unchanged (hw : w.Coherent) (h : Handed w old new g) {port : OutputPort}
    (hx : g.output? x = some port) (hn : g.node? port.node = some node)
    (hs : w.Succeeds old new y x) (hne : x ≠ new) :
    ∃ port', w.output? x = some port' ∧ port'.type = port.type ∧ port'.node = port.node ∧
      w.node? port.node = some node := by
  obtain rfl := hs.eq hne
  obtain ⟨port', hp⟩ := hs.1
  obtain ⟨hnode, htype⟩ := h.port hp hx
  obtain ⟨node', hn', -⟩ := hw.node_of_output? hp
  rw [hnode] at hn'
  obtain rfl := h.node hn' hn
  exact ⟨port', hp, htype, hnode, hn'⟩

/-- A port has the type of the one in whose place it stands. -/
theorem type_of_succeeds (h : Handed w old new g) {port : OutputPort}
    (hx : g.output? x = some port) (hs : w.Succeeds old new y x) :
    ∃ port', w.output? y = some port' ∧ port'.type = port.type := by
  obtain ⟨⟨port', hp⟩, rfl | ⟨rfl, rfl⟩⟩ := hs
  · exact ⟨port', hp, (h.port hp hx).2⟩
  · exact ⟨port', hp, h.alike hp hx⟩

/-! ## Known values -/

/-- A node received known values if whatever stands in their places is known. -/
theorem received {values : List Value} (h : Handed w old new g) (hn : w.node? n = some node)
    (length : values.length = node.inputs.length)
    (fed : ∀ slot < node.inputs.length, ∃ x, g.fedFrom? node slot = some x)
    (parts : ∀ slot x v, g.fedFrom? node slot = some x → values[slot]? = some v →
      ∀ y, w.Succeeds old new y x → w.Known y v) :
    (∀ slot < node.inputs.length, ∃ y, w.fedFrom? node slot = some y) ∧
      ∀ slot y v, w.fedFrom? node slot = some y → values[slot]? = some v → w.Known y v := by
  have hfed (slot : Nat) (hlt : slot < node.inputs.length) : ∃ x y, g.fedFrom? node slot = some x ∧
      w.fedFrom? node slot = some y ∧ w.Succeeds old new y x := by
    obtain ⟨x, hx⟩ := fed slot hlt
    obtain ⟨i, hi, hsource⟩ := Option.bind_eq_some_iff.1 hx
    obtain ⟨y, hy, hs⟩ := h.source? hn (List.mem_of_getElem? hi) hsource
    exact ⟨x, y, hx, Option.bind_eq_some_iff.2 ⟨i, hi, hy⟩, hs⟩
  refine ⟨fun slot hlt => ?_, fun slot y v hy hv => ?_⟩
  · obtain ⟨x, y, -, hy, -⟩ := hfed slot hlt
    exact ⟨y, hy⟩
  · obtain ⟨hlt, -⟩ := List.getElem?_eq_some_iff.1 hv
    obtain ⟨x, y', hx, hy', hs⟩ := hfed slot (length ▸ hlt)
    cases hy.symm.trans hy'
    exact parts slot x v hx hv y hs

theorem seen_of_fedFrom? (hg : g.Coherent) {port : OutputPort} {slot : Nat}
    (hp : g.output? y = some port) (hm : g.node? port.node = some node)
    (hx : g.fedFrom? node slot = some x) (hy : g.Seen n y) : g.Seen n x := by
  obtain ⟨k, m, hmk, hk⟩ := hy
  obtain rfl := Option.some.inj ((maker?_eq_some.2 ⟨port, hp, rfl⟩).symm.trans hmk)
  obtain ⟨i, hi, hx⟩ := Option.bind_eq_some_iff.1 hx
  obtain ⟨l, hl, hh⟩ := hg.hops_of_source? hm (List.mem_of_getElem? hi) hx hk
  exact ⟨k + 1, l, hl, hh⟩

/-- What is known of a port was known of the one in whose place it stands, if nothing is known of
the port that took over. -/
theorem known (hw : w.Coherent) (hg : g.Coherent) (h : Handed w old new g)
    (hnew : ∀ v, g.Seen n new → ¬ g.Known new v) (hk : g.Known x v) (hx : g.Seen n x)
    (hs : w.Succeeds old new y x) : w.Known y v := by
  have hne {x : OutputId} {v : Value} (hx : g.Seen n x) (hk : g.Known x v) : x ≠ new := by
    rintro rfl
    exact hnew v hx hk
  induction hk generalizing y with
  | constant live fixed made kind =>
    have hne := hne hx (.constant live fixed made kind)
    obtain ⟨port', hp, htype, hnode, hn⟩ := h.unchanged hw live made hs hne
    exact hs.eq hne ▸ .constant hp (htype ▸ fixed) (hnode ▸ hn) kind
  | array live fixed made kind length fed parts ih =>
    have hne := hne hx (.array live fixed made kind length fed parts)
    obtain ⟨port', hp, htype, hnode, hn⟩ := h.unchanged hw live made hs hne
    obtain ⟨hfed, hparts⟩ := h.received hn length fed fun slot z v hz hv _ hs =>
      ih slot z v hz hv (seen_of_fedFrom? hg live made hz hx) hs
    exact hs.eq hne ▸ .array hp (htype ▸ fixed) (hnode ▸ hn) kind length hfed hparts
  | struct live fixed made kind length fed parts ih =>
    have hne := hne hx (.struct live fixed made kind length fed parts)
    obtain ⟨port', hp, htype, hnode, hn⟩ := h.unchanged hw live made hs hne
    obtain ⟨hfed, hparts⟩ := h.received hn length fed fun slot z v hz hv _ hs =>
      ih slot z v hz hv (seen_of_fedFrom? hg live made hz hx) hs
    exact hs.eq hne ▸ .struct hp (htype ▸ fixed) (hnode ▸ hn) kind length hfed hparts

end Handed

end Graph

/-! ## Matches -/

namespace Pattern

variable {registry : Registry} {w g : Graph} {old new : OutputId} {n d : NodeId} {target : Node}
  {l l' : List (Pattern × Nat)}

/-- Seen from the node `n`, none of these parts of a pattern tells that `new`, an output of the node
`d`, took the place of `old`: what could tell stands elsewhere, and what slots are compared with was
known before. -/
structure Overlooks (w g : Graph) (old new : OutputId) (d n : NodeId) (target : Node)
    (l : List (Pattern × Nat)) : Prop where
  maker : g.maker? new = some d
  made : g.node? d = some target
  far {p : Pattern} {k : Nat} : (p, k) ∈ l → p.tells target.kind = true → ¬ g.Hops k d n
  known {index k : Nat} {x y : OutputId} {v : Value} : (.slot index, k) ∈ l → g.Seen n x →
    w.Succeeds old new y x → g.Known x v → w.Known y v

theorem Overlooks.mono (h : Overlooks w g old new d n target l) (hl : l' ⊆ l) :
    Overlooks w g old new d n target l' :=
  ⟨h.maker, h.made, fun hp => h.far (hl hp), fun hp => h.known (hl hp)⟩

/-- A part that could tell stands for another port. -/
theorem Overlooks.ne (h : Overlooks w g old new d n target l) {p : Pattern} {k : Nat}
    {m : NodeId} {node : Node} {x : OutputId} (hp : (p, k) ∈ l) (hm : g.maker? x = some m)
    (hn : g.node? m = some node) (hk : g.Hops k m n) (ht : p.tells node.kind = true) :
    x ≠ new := by
  rintro rfl
  obtain rfl := Option.some.inj (h.maker.symm.trans hm)
  obtain rfl := Option.some.inj (h.made.symm.trans hn)
  exact h.far hp ht hk

/-- What wildcards stood for before the change, and what they stand for after it. -/
def Renamed (w g : Graph) (old new : OutputId) (n : NodeId) : Bindings → Bindings → Prop :=
  List.Forall₂ fun y x => w.Succeeds old new y x ∧ g.Seen n x

theorem Renamed.snoc {a b : Bindings} {x y : OutputId} (h : Renamed w g old new n a b)
    (hs : w.Succeeds old new y x) (hx : g.Seen n x) :
    Renamed w g old new n (a ++ [y]) (b ++ [x]) :=
  List.rel_append h (.cons ⟨hs, hx⟩ .nil)

theorem Renamed.getElem? {a b : Bindings} {x : OutputId} {k : Nat} (h : Renamed w g old new n a b)
    (hx : b[k]? = some x) : ∃ y, a[k]? = some y ∧ w.Succeeds old new y x ∧ g.Seen n x := by
  obtain ⟨hlt, rfl⟩ := List.getElem?_eq_some_iff.1 hx
  have hlt' : k < a.length := h.length_eq ▸ hlt
  obtain ⟨hs, hseen⟩ := List.Forall₂.get h hlt' hlt
  exact ⟨a[k], List.getElem?_eq_getElem hlt', hs, hseen⟩

theorem source_eq_ok {i : InputId} {x : OutputId} (h : g.source? i = some x) :
    g.source i = .ok (some x) := by
  obtain ⟨port, hp, hs⟩ := source?_eq_some.1 h
  exact map_eq_ok.2 ⟨port, input_eq_ok.2 hp, hs⟩

mutual
/-- A pattern that overlooks the change matched before it. -/
theorem matchFrom_before (hw : w.Valid registry) (hg : g.Valid registry)
    (hand : Handed w old new g) {a b b' : Bindings} {x y : OutputId} {m : NodeId}
    {k bound bound' : Nat} (hm : g.maker? x = some m) (hk : g.Hops k m n)
    (hs : w.Succeeds old new y x) (hb : Renamed w g old new n a b) :
    (p : Pattern) → Overlooks w g old new d n target (p.partLevels k) →
    matchFrom g b x p = .ok (some b') → check registry .input bound p = .ok bound' →
    ∃ a', matchFrom w a y p = .ok (some a') ∧ Renamed w g old new n a' b'
  | .call module factor place children, ho, hmatch, hc => by
    obtain ⟨node, s, latency, slot, hn, hkind, hid, -, hslot, hout, hms, hcs⟩ :=
      matchFrom_call_of_check hg hm hmatch hc
    have hne := ho.ne (mem_partLevels k _) hm hn hk (by simp [tells, hkind, hid])
    obtain ⟨port, hp, rfl⟩ := maker?_eq_some.1 hm
    obtain ⟨port', hp', -, hnode, hn'⟩ := hand.unchanged hw.coherent hp hn hs hne
    obtain rfl := hs.eq hne
    obtain ⟨a', ha', hb'⟩ := matchChildren_before hw hg hand hn hn' hk hb children
      (ho.mono (by simp [partLevels])) hms hcs
    refine ⟨a', ?_, hb'⟩
    simp only [matchFrom, output_eq_ok.2 hp', hnode, node_eq_ok.2 hn', ok_bind, hkind, hid,
      and_self, if_true, hslot, hout, ha']
  | .literal value, ho, hmatch, hc => by
    obtain ⟨hl, rfl⟩ := matchFrom_literal hmatch
    obtain ⟨port, node, hp, hn, hkind⟩ := literal?_eq_some.1 hl
    obtain rfl := Option.some.inj ((maker?_eq_some.2 ⟨port, hp, rfl⟩).symm.trans hm)
    have hne := ho.ne (mem_partLevels k _) hm hn hk (by simp [tells, hkind])
    obtain ⟨port', hp', -, hnode, hn'⟩ := hand.unchanged hw.coherent hp hn hs hne
    obtain rfl := hs.eq hne
    have hl' : w.literal? y = some value :=
      literal?_eq_some.2 ⟨port', node, hp', hnode ▸ hn', hkind⟩
    exact ⟨a, by simp [matchFrom, hw.coherent.askLiteral_eq hp', hl'], hb⟩
  | .array elements, ho, hmatch, hc => by
    obtain ⟨port, node, element, hp, hn, hkind, hl, hms⟩ := matchFrom_array hmatch
    obtain rfl := Option.some.inj ((maker?_eq_some.2 ⟨port, hp, rfl⟩).symm.trans hm)
    have hne := ho.ne (mem_partLevels k _) hm hn hk (by simp [tells, hkind])
    obtain ⟨port', hp', -, hnode, hn'⟩ := hand.unchanged hw.coherent hp hn hs hne
    obtain rfl := hs.eq hne
    obtain ⟨a', ha', hb'⟩ := matchElements_before hw hg hand hn hn' (List.Subset.refl _) hk hb
      elements hl (ho.mono (by simp [partLevels])) hms (check_array hc)
    refine ⟨a', ?_, hb'⟩
    simp only [matchFrom, output_eq_ok.2 hp', hnode, node_eq_ok.2 hn', ok_bind, hkind, hl, if_true,
      ha']
  | .wildcard constant, ho, hmatch, hc => by
    obtain ⟨rfl, hfixed⟩ := matchFrom_wildcard hmatch
    refine ⟨a ++ [y], ?_, hb.snoc hs ⟨k, m, hm, hk⟩⟩
    cases constant with
    | false => rfl
    | true =>
      obtain ⟨port, hp, hconstant⟩ := hfixed rfl
      obtain ⟨port', hp', htype⟩ := hand.type_of_succeeds hp hs
      simp [matchFrom, output_eq_ok.2 hp', htype, hconstant]
  | .slot index, ho, hmatch, hc => by
    obtain ⟨rfl, x₀, hx₀, hsame⟩ := matchFrom_slot hg.coherent hmatch
    obtain ⟨y₀, hy₀, hs₀, hseen₀⟩ := hb.getElem? hx₀
    obtain ⟨node, hn⟩ := hg.coherent.maker_live hm
    -- The slot stands for another port than the one that took over.
    have hne := ho.ne (mem_partLevels k _) hm hn hk rfl
    have hsame' : y₀ = y ∨ w.sameValue y₀ y = true := by
      obtain rfl | hvalue := hsame
      · exact .inl ((hs₀.eq hne).trans (hs.eq hne).symm)
      · obtain ⟨v, hv₀, hv⟩ := (sameValue_iff hg.coherent hg.acyclic).1 hvalue
        exact .inr ((sameValue_iff hw.coherent hw.acyclic).2
          ⟨v, ho.known (mem_partLevels k _) hseen₀ hs₀ hv₀,
            ho.known (mem_partLevels k _) ⟨k, m, hm, hk⟩ hs hv⟩)
    refine ⟨a, ?_, hb⟩
    simp only [matchFrom, get_eq_ok.2 hy₀, hw.coherent.ask_of_stands hsame', ok_bind, if_true,
      pure_eq_ok]
  | .result, _, hmatch, _ => by cases hmatch
  | .ellipsis, _, hmatch, _ => by cases hmatch

theorem matchChildren_before (hw : w.Valid registry) (hg : g.Valid registry)
    (hand : Handed w old new g) {a b b' : Bindings} {m : NodeId} {node : Node} {s : Signature}
    {place index k bound bound' : Nat} (hn : g.node? m = some node) (hn' : w.node? m = some node)
    (hk : g.Hops k m n) (hb : Renamed w g old new n a b) :
    (cs : List Pattern) → Overlooks w g old new d n target (partLevelsAll (k + 1) cs) →
    matchChildren g s node place index b cs = .ok (some b') →
    checkChildren registry .input s place index bound cs = .ok bound' →
    ∃ a', matchChildren w s node place index a cs = .ok (some a') ∧ Renamed w g old new n a' b'
  | [], _, hmatch, _ => by
    rw [matchChildren] at hmatch
    cases hmatch
    exact ⟨a, by rw [matchChildren], hb⟩
  | c :: cs, ho, hmatch, hc => by
    have hrest : Overlooks w g old new d n target (partLevelsAll (k + 1) cs) :=
      ho.mono (by simp [partLevelsAll])
    rcases matchChildren_cons hmatch hc with ⟨rfl, rfl, -⟩ | ⟨rfl, rfl, hms, hcs⟩ |
      ⟨hne, slot, i, x, b₁, bound₁, hslot, hi, hx, hm, hc', hms, hcs⟩ |
      ⟨rfl, hne, slot, x, hin, hslot, hx, hms, hcs⟩
    · exact ⟨a, by simp [matchChildren, isEllipsis], hb⟩
    · obtain ⟨a', ha', hb'⟩ := matchChildren_before hw hg hand hn hn' hk hb cs hrest hms hcs
      exact ⟨a', by simpa [matchChildren, isEllipsis, isResult] using ha', hb'⟩
    · have hmem := List.mem_of_getElem? hi
      obtain ⟨y, hy, hs⟩ := hand.source? hn' hmem hx
      obtain ⟨l, hl, hhops⟩ := hg.coherent.hops_of_source? hn hmem hx hk
      obtain ⟨a₁, ha₁, hb₁⟩ := matchFrom_before hw hg hand hl hhops hs hb c
        (ho.mono (by simp [partLevelsAll])) hm hc'
      obtain ⟨a', ha', hb'⟩ := matchChildren_before hw hg hand hn hn' hk hb₁ cs hrest hms hcs
      refine ⟨a', ?_, hb'⟩
      simp only [matchChildren, not_ellipsis_of_check hc', Bool.false_eq_true, if_false, hne,
        Graph.portAt, hslot, hi, source_eq_ok hy, ok_bind, ha₁, ha']
    · -- Another output of the same call.
      have hmem := List.mem_of_getElem? hx
      have hlive := maker?_eq_some.1 ((hw.coherent.mem_outputs hn').1 hmem)
      have hb₁ := hb.snoc (y := x) ⟨hlive.imp fun _ h => h.1, .inl rfl⟩
        ⟨k, m, (hg.coherent.mem_outputs hn).1 hmem, hk⟩
      obtain ⟨a', ha', hb'⟩ := matchChildren_before hw hg hand hn hn' hk hb₁ cs hrest hms hcs
      refine ⟨a', ?_, hb'⟩
      simp only [matchChildren, isEllipsis, Bool.false_eq_true, if_false, hne, Graph.portAt, hin,
        hslot, hx, ok_bind, matchFrom, pure_eq_ok, ha']

theorem matchElements_before (hw : w.Valid registry) (hg : g.Valid registry)
    (hand : Handed w old new g) {a b b' : Bindings} {m : NodeId} {node : Node}
    {inputs : List InputId} {k bound bound' : Nat} (hn : g.node? m = some node)
    (hn' : w.node? m = some node) (hin : inputs ⊆ node.inputs) (hk : g.Hops k m n)
    (hb : Renamed w g old new n a b) :
    (es : List Pattern) → inputs.length = es.length →
    Overlooks w g old new d n target (partLevelsAll (k + 1) es) →
    matchElements g b inputs es = .ok (some b') →
    checkElements registry .input bound es = .ok bound' →
    ∃ a', matchElements w a inputs es = .ok (some a') ∧ Renamed w g old new n a' b'
  | [], _, _, hmatch, _ => by
    rw [matchElements] at hmatch
    cases hmatch
    exact ⟨a, by rw [matchElements], hb⟩
  | e :: es, hl, ho, hmatch, hc => by
    obtain ⟨i, rest, x, b₁, rfl, hx, hm, hms⟩ := matchElements_cons hl hmatch
    obtain ⟨bound₁, hc', hcs⟩ := checkElements_cons hc
    obtain ⟨hi, hin⟩ := List.cons_subset.1 hin
    obtain ⟨y, hy, hs⟩ := hand.source? hn' hi hx
    obtain ⟨m', hm', hhops⟩ := hg.coherent.hops_of_source? hn hi hx hk
    obtain ⟨a₁, ha₁, hb₁⟩ := matchFrom_before hw hg hand hm' hhops hs hb e
      (ho.mono (by simp [partLevelsAll])) hm hc'
    obtain ⟨a', ha', hb'⟩ := matchElements_before hw hg hand hn hn' hin hk hb₁ es (Nat.succ.inj hl)
      (ho.mono (by simp [partLevelsAll])) hms hcs
    refine ⟨a', ?_, hb'⟩
    simp only [matchElements, source_eq_ok hy, ok_bind, ha₁, ha']
end

end Pattern

end SignalGraph
