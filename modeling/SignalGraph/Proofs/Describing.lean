import SignalGraph.Proofs.Grammar
import SignalGraph.Proofs.SafeRewriting

/-!
# What a match says about a graph

A pattern is read as a description of a port, given the ports that its wildcards stand for
(`Describes`). The reading knows nothing of an order in which parts are looked at: there is one
assignment for the whole pattern, in which every wildcard has its own number, and each part holds of
its port under it. In the same way `Known` reads the value of a port off the graph.

Matching goes through a pattern once, from left to right, and collects an assignment as it goes. A
checked pattern refers only to what was collected before, so nothing that is found later can change
what was found to hold. What matching collects describes the port (`describes_of_matchFrom`), and
any assignment that describes the port is the one that is collected (`matchFrom_of_describes`).
-/

namespace SignalGraph

open SignalGraph.Graph

/-! ## Known values -/

namespace Graph

/-- What feeds an input of a node. -/
def fedFrom? (g : Graph) (node : Node) (slot : Nat) : Option OutputId :=
  (node.inputs[slot]?).bind g.source?

/-- The value of a constant port is known if it is that of a constant node, or if its node puts it
together from known values. -/
inductive Known (g : Graph) : OutputId → Value → Prop where
  | constant {o : OutputId} {port : OutputPort} {node : Node} {value : Literal}
    (live : g.output? o = some port) (fixed : port.type.isConstant = true)
    (made : g.node? port.node = some node) (kind : node.kind = .constant value) :
    Known g o (.scalar value)
  | array {o : OutputId} {port : OutputPort} {node : Node} {element : Primitive}
    {values : List Value} (live : g.output? o = some port) (fixed : port.type.isConstant = true)
    (made : g.node? port.node = some node) (kind : node.kind = .array element)
    (length : values.length = node.inputs.length)
    (fed : ∀ slot < node.inputs.length, ∃ x, g.fedFrom? node slot = some x)
    (parts : ∀ slot x v, g.fedFrom? node slot = some x → values[slot]? = some v → Known g x v) :
    Known g o (.array values)
  | struct {o : OutputId} {port : OutputPort} {node : Node} {fields : List String}
    {values : List Value} (live : g.output? o = some port) (fixed : port.type.isConstant = true)
    (made : g.node? port.node = some node) (kind : node.kind = .struct fields)
    (length : values.length = node.inputs.length)
    (fed : ∀ slot < node.inputs.length, ∃ x, g.fedFrom? node slot = some x)
    (parts : ∀ slot x v, g.fedFrom? node slot = some x → values[slot]? = some v → Known g x v) :
    Known g o (.struct (fields.zip values))

variable {g : Graph} {o : OutputId} {v : Value}

/-- A node receives these values if it is fed with each of them. -/
theorem map_source?_eq {f : OutputId → Option Value} {node : Node} {values : List Value} :
    (node.inputs.map fun i => (g.source? i).bind f) = values.map some ↔
      values.length = node.inputs.length ∧
      (∀ slot < node.inputs.length, ∃ x, g.fedFrom? node slot = some x) ∧
      ∀ slot x v, g.fedFrom? node slot = some x → values[slot]? = some v → f x = some v := by
  have hat (slot : Nat) : (node.inputs.map fun i => (g.source? i).bind f)[slot]? =
      (node.inputs[slot]?).map fun i => (g.source? i).bind f := List.getElem?_map ..
  constructor
  · intro h
    have hlen : node.inputs.length = values.length := by simpa using congrArg List.length h
    rw [h] at hat
    refine ⟨hlen.symm, fun slot hlt => ?_, fun slot x v hx hv => ?_⟩
    · have hslot := hat slot
      rw [List.getElem?_map, List.getElem?_eq_getElem (hlen ▸ hlt), List.getElem?_eq_getElem hlt,
        Option.map_some, Option.map_some, Option.some.injEq, eq_comm,
        Option.bind_eq_some_iff] at hslot
      obtain ⟨x, hx, -⟩ := hslot
      exact ⟨x, by rw [fedFrom?, List.getElem?_eq_getElem hlt, Option.bind_some, hx]⟩
    · obtain ⟨i, hi, hs⟩ := Option.bind_eq_some_iff.1 hx
      simpa [hi, hv, hs, eq_comm] using hat slot
  · rintro ⟨hlen, hfed, hparts⟩
    refine List.ext_getElem? fun slot => ?_
    rw [hat, List.getElem?_map]
    by_cases hlt : slot < node.inputs.length
    · have hv := List.getElem?_eq_getElem (hlen ▸ hlt)
      obtain ⟨x, hx⟩ := hfed slot hlt
      obtain ⟨i, hi, hs⟩ := Option.bind_eq_some_iff.1 hx
      rw [hi, hv, Option.map_some, Option.map_some, hs, Option.bind_some, hparts slot x _ hx hv]
    · rw [List.getElem?_eq_none (Nat.le_of_not_lt hlt),
        List.getElem?_eq_none (hlen ▸ Nat.le_of_not_lt hlt)]
      rfl

theorem known_of_value? (hg : g.Coherent) (ha : g.Acyclic) (h : g.value? o = some v) :
    g.Known o v := by
  rw [value?_eq_fold] at h
  have hknown (n : NodeId) (o : OutputId) (v : Value) (hm : g.maker? o = some n)
      (h : g.fold knownStep o = some v) : g.Known o v := by
    induction n using ha.induction generalizing o v with
    | _ n ih =>
      obtain ⟨port, hp, rfl⟩ := maker?_eq_some.1 hm
      obtain ⟨node, hn⟩ := hg.maker_live hm
      -- What feeds the node comes before it.
      have hbefore {slot : Nat} {x : OutputId} {v : Value} (hx : g.fedFrom? node slot = some x)
          (hv : g.fold knownStep x = some v) : g.Known x v := by
        obtain ⟨i, hi, hs⟩ := Option.bind_eq_some_iff.1 hx
        obtain ⟨m, -, hm, -⟩ := hg.source_maker hs
        have howner := (hg.mem_inputs hn).1 (List.mem_of_getElem? hi)
        exact ih m (hg.feeds_of_source howner hs hm) x v hm hv
      rw [fold_eq hg ha (bare?_eq_some.2 ⟨port, hp, rfl⟩) hn, knownStep_eq_some] at h
      obtain ⟨hfixed, ⟨value, hk, rfl⟩ | ⟨element, values, hk, hreceived, rfl⟩ |
        ⟨fields, values, hk, hreceived, rfl⟩⟩ := h
      · exact .constant hp hfixed hn hk
      · obtain ⟨hlen, hfed, hparts⟩ := map_source?_eq.1 hreceived
        exact .array hp hfixed hn hk hlen hfed fun slot x v hx hv =>
          hbefore hx (hparts slot x v hx hv)
      · obtain ⟨hlen, hfed, hparts⟩ := map_source?_eq.1 hreceived
        exact .struct hp hfixed hn hk hlen hfed fun slot x v hx hv =>
          hbefore hx (hparts slot x v hx hv)
  cases hp : g.output? o with
  | none =>
    rw [fold_of_dead hp] at h
    cases h
  | some port => exact hknown port.node o v (maker?_eq_some.2 ⟨port, hp, rfl⟩) h

theorem Known.value?_eq (hg : g.Coherent) (ha : g.Acyclic) (h : g.Known o v) :
    g.value? o = some v := by
  rw [value?_eq_fold]
  induction h with
  | constant live fixed made kind =>
    rw [fold_eq hg ha (bare?_eq_some.2 ⟨_, live, rfl⟩) made, knownStep_eq_some]
    exact ⟨fixed, .inl ⟨_, kind, rfl⟩⟩
  | array live fixed made kind length fed parts ih =>
    rw [fold_eq hg ha (bare?_eq_some.2 ⟨_, live, rfl⟩) made, knownStep_eq_some]
    exact ⟨fixed, .inr (.inl ⟨_, _, kind, map_source?_eq.2 ⟨length, fed, ih⟩, rfl⟩)⟩
  | struct live fixed made kind length fed parts ih =>
    rw [fold_eq hg ha (bare?_eq_some.2 ⟨_, live, rfl⟩) made, knownStep_eq_some]
    exact ⟨fixed, .inr (.inr ⟨_, _, kind, map_source?_eq.2 ⟨length, fed, ih⟩, rfl⟩)⟩

/-- Ports have the same value if one value is known of both. -/
theorem sameValue_iff (hg : g.Coherent) (ha : g.Acyclic) {a b : OutputId} :
    g.sameValue a b = true ↔ ∃ v, g.Known a v ∧ g.Known b v := by
  rw [sameValue]
  constructor
  · intro h
    split at h
    · rename_i x y hx hy
      obtain rfl := of_decide_eq_true h
      exact ⟨x, known_of_value? hg ha hx, known_of_value? hg ha hy⟩
    · cases h
  · rintro ⟨v, hx, hy⟩
    rw [hx.value?_eq hg ha, hy.value?_eq hg ha]
    exact decide_eq_true rfl

/-! ## Places of a call -/

/-- The port at the place of a parameter of a call: what feeds the input of an in parameter, or the
output of an out parameter. A call has its inputs and its outputs in the order of its parameters. -/
def parameterPort? (g : Graph) (s : Signature) (node : Node) (place : Nat) : Option OutputId :=
  if (s.parameters[place]?).any Parameter.isInput then
    g.fedFrom? node ((s.parameters.take place).countP Parameter.isInput)
  else node.outputs[(s.parameters.take place).countP fun p => !p.isInput]?

variable {s : Signature} {node : Node} {place slot : Nat}

theorem parameterPort?_input (h : s.inputSlot place = some slot) :
    g.parameterPort? s node place = g.fedFrom? node slot := by
  rw [Signature.inputSlot_eq] at h
  split at h
  · rename_i hin
    rw [parameterPort?, if_pos hin, Option.some.inj h]
  · cases h

theorem parameterPort?_output (h : s.outputSlot place = some slot) :
    g.parameterPort? s node place = node.outputs[slot]? := by
  rw [Signature.outputSlot_eq] at h
  split at h
  · rename_i hout
    have hin : ¬ (s.parameters[place]?).any Parameter.isInput = true := by
      cases hp : s.parameters[place]? with
      | none => simp
      | some p => simpa [hp] using hout
    rw [parameterPort?, if_neg hin, Option.some.inj h]
  · cases h

/-- Matching looks at the port that stands at a place. -/
theorem Valid.portAt_eq {registry : Registry} (hv : g.Valid registry) {n : NodeId}
    {factor latency : Nat} (hn : g.node? n = some node) (hk : node.kind = .call s factor latency)
    (hp : place < s.parameters.length) :
    g.portAt s node place = .ok (g.parameterPort? s node place) := by
  obtain ⟨o?, ho⟩ := hv.exists_portAt hn hk hp
  rw [ho]
  by_cases hin : (s.parameters[place]?).any Parameter.isInput = true
  · obtain ⟨slot, i, port, hslot, hi, hport, rfl⟩ := Pattern.portAt_input hin ho
    rw [parameterPort?_input hslot, fedFrom?, hi, Option.bind_some, source?, hport,
      Option.bind_some]
  · obtain ⟨slot, x, hslot, hx, rfl⟩ := Pattern.portAt_output hin ho
    rw [parameterPort?_output hslot, hx]

end Graph

/-! ## The reading of a pattern -/

namespace Pattern

/-- How many wildcards there are in these patterns. -/
def wildcards (l : List Pattern) : Nat :=
  (partsAll l).countP isWildcard

/-- A pattern describes a port, where `σ` gives the port of each wildcard by its number and the
wildcards of this pattern are numbered from `k` on, from left to right. -/
inductive Describes (g : Graph) (σ : List OutputId) : Nat → Pattern → OutputId → Prop where
  /-- The output of a call that is followed. Each listed child describes the port at its place. -/
  | call {k : Nat} {module : ModuleId} {factor latency place : Nat} {children : List Pattern}
    {o : OutputId} {port : OutputPort} {node : Node} {s : Signature}
    (live : g.output? o = some port) (made : g.node? port.node = some node)
    (kind : node.kind = .call s factor latency) (called : s.id = module)
    (out : (s.parameters[place]?).any (fun p => !p.isInput) = true)
    (followed : g.parameterPort? s node place = some o)
    (fed : ∀ j c, (front children)[j]? = some c → j ≠ place →
      ∃ x, g.parameterPort? s node j = some x)
    (holds : ∀ j c x, (front children)[j]? = some c → j ≠ place →
      g.parameterPort? s node j = some x →
      Describes g σ (k + wildcards (children.take j)) c x) :
    Describes g σ k (.call module factor place children) o
  | literal {k : Nat} {value : Literal} {o : OutputId} {port : OutputPort} {node : Node}
    (live : g.output? o = some port) (made : g.node? port.node = some node)
    (kind : node.kind = .constant value) : Describes g σ k (.literal value) o
  /-- An array with just these elements. -/
  | array {k : Nat} {elements : List Pattern} {element : Primitive} {o : OutputId}
    {port : OutputPort} {node : Node}
    (live : g.output? o = some port) (made : g.node? port.node = some node)
    (kind : node.kind = .array element) (length : node.inputs.length = elements.length)
    (fed : ∀ j e, elements[j]? = some e → ∃ x, g.fedFrom? node j = some x)
    (holds : ∀ j e x, elements[j]? = some e → g.fedFrom? node j = some x →
      Describes g σ (k + wildcards (elements.take j)) e x) :
    Describes g σ k (.array elements) o
  | wildcard {k : Nat} {constant : Bool} {o : OutputId} {port : OutputPort}
    (live : g.output? o = some port) (fixed : constant = true → port.type.isConstant = true)
    (bound : σ[k]? = some o) : Describes g σ k (.wildcard constant) o
  /-- The very port that the slot stands for, or one of which the same value is known. -/
  | slot {k index : Nat} {o x : OutputId} (bound : σ[index]? = some x)
    (same : x = o ∨ ∃ v, g.Known x v ∧ g.Known o v) : Describes g σ k (.slot index) o

variable {registry : Registry} {g : Graph} {σ b b' : Bindings} {o : OutputId} {k k' : Nat}

@[simp] theorem wildcards_nil : wildcards [] = 0 := rfl

@[simp] theorem wildcards_wildcard (constant : Bool) : wildcards [.wildcard constant] = 1 := rfl

/-- A pattern is numbered on after the one before it. -/
theorem wildcards_take_succ (k : Nat) (c : Pattern) (cs : List Pattern) (j : Nat) :
    k + wildcards ((c :: cs).take (j + 1)) = k + wildcards [c] + wildcards (cs.take j) := by
  simp [wildcards, partsAll, Nat.add_assoc]

/-- The check counts wildcards. -/
theorem bound_eq_of_check {p : Pattern} (h : check registry .input k p = .ok k') :
    k' = k + wildcards [p] := by
  obtain ⟨-, -, h⟩ := (check_iff p k k').1 h
  simpa [wildcards, partsAll, Side.binds] using h

theorem not_ellipsis_of_check {p : Pattern} (h : check registry .input k p = .ok k') :
    p.isEllipsis = false := by
  cases p with
  | ellipsis => cases h
  | _ => rfl

theorem getElem?_of_isPrefix {x : OutputId} (h : b <+: σ) (hx : b[k]? = some x) :
    σ[k]? = some x := by
  obtain ⟨hlt, rfl⟩ := List.getElem?_eq_some_iff.1 hx
  exact List.prefix_iff_getElem?.1 h k hlt

theorem Binds.isPrefix {P : OutputId → Prop} (h : Binds b k b' k' P) : b <+: b' := by
  obtain ⟨l, rfl, -⟩ := h
  exact ⟨l, rfl⟩

/-! ## Parts of a description -/

/-- The listed children of a call describe the ports at their places, from `index` on. -/
def DescribeChildren (g : Graph) (σ : List OutputId) (s : Signature) (node : Node)
    (place index k : Nat) (cs : List Pattern) : Prop :=
  ∀ j c, (front cs)[j]? = some c → index + j ≠ place →
    ∃ x, g.parameterPort? s node (index + j) = some x ∧
      Describes g σ (k + wildcards (cs.take j)) c x

/-- The elements of an array describe what feeds its inputs. -/
def DescribeElements (g : Graph) (σ : List OutputId) (k : Nat) (inputs : List InputId)
    (es : List Pattern) : Prop :=
  ∀ j e, es[j]? = some e → ∃ x, (inputs[j]?).bind g.source? = some x ∧
    Describes g σ (k + wildcards (es.take j)) e x

section

variable {s : Signature} {node : Node} {place index : Nat} {c : Pattern} {cs : List Pattern}

theorem describes_call_iff {module : ModuleId} {factor : Nat} {children : List Pattern} :
    Describes g σ k (.call module factor place children) o ↔
      ∃ port node s latency, g.output? o = some port ∧ g.node? port.node = some node ∧
        node.kind = .call s factor latency ∧ s.id = module ∧
        (s.parameters[place]?).any (fun p => !p.isInput) = true ∧
        g.parameterPort? s node place = some o ∧
        DescribeChildren g σ s node place 0 k children := by
  constructor
  · rintro (@⟨_, _, _, latency, _, _, _, port, node, s, live, made, kind, called, out, followed,
      fed, holds⟩)
    refine ⟨port, node, s, latency, live, made, kind, called, out, followed, fun j c hj hne => ?_⟩
    rw [Nat.zero_add] at hne ⊢
    obtain ⟨x, hx⟩ := fed j c hj hne
    exact ⟨x, hx, holds j c x hj hne hx⟩
  · rintro ⟨port, node, s, latency, live, made, kind, called, out, followed, hchildren⟩
    simp only [DescribeChildren, Nat.zero_add] at hchildren
    refine .call live made kind called out followed (fun j c hj hne => ?_) fun j c x hj hne hx => ?_
    · obtain ⟨x, hx, -⟩ := hchildren j c hj hne
      exact ⟨x, hx⟩
    · obtain ⟨y, hy, hd⟩ := hchildren j c hj hne
      cases hx.symm.trans hy
      exact hd

theorem describes_array_iff {elements : List Pattern} :
    Describes g σ k (.array elements) o ↔
      ∃ port node element, g.output? o = some port ∧ g.node? port.node = some node ∧
        node.kind = .array element ∧ node.inputs.length = elements.length ∧
        DescribeElements g σ k node.inputs elements := by
  constructor
  · rintro (_ | _ | @⟨_, _, element, _, port, node, live, made, kind, length, fed, holds⟩)
    refine ⟨port, node, element, live, made, kind, length, fun j e hj => ?_⟩
    obtain ⟨x, hx⟩ := fed j e hj
    exact ⟨x, hx, holds j e x hj hx⟩
  · rintro ⟨port, node, element, live, made, kind, length, helements⟩
    refine .array live made kind length (fun j e hj => ?_) fun j e x hj hx => ?_
    · obtain ⟨x, hx, -⟩ := helements j e hj
      exact ⟨x, hx⟩
    · obtain ⟨y, hy, hd⟩ := helements j e hj
      cases hx.symm.trans hy
      exact hd

theorem describeChildren_nil (hcs : front cs = []) :
    DescribeChildren g σ s node place index k cs := by
  intro j c hj
  simp [hcs] at hj

theorem describeChildren_cons (hc : c.isEllipsis = false) :
    DescribeChildren g σ s node place index k (c :: cs) ↔
      (index ≠ place → ∃ x, g.parameterPort? s node index = some x ∧ Describes g σ k c x) ∧
        DescribeChildren g σ s node place (index + 1) (k + wildcards [c]) cs := by
  have hindex (j : Nat) : index + (j + 1) = index + 1 + j := by omega
  rw [DescribeChildren, front_cons hc]
  constructor
  · intro h
    refine ⟨fun hne => by simpa using h 0 c rfl hne, fun j c' hj hne => ?_⟩
    rw [← wildcards_take_succ, ← hindex]
    exact h (j + 1) c' hj (hindex j ▸ hne)
  · rintro ⟨hhead, htail⟩ j c' hj hne
    cases j with
    | zero =>
      obtain rfl := Option.some.inj hj
      simpa using hhead hne
    | succ j =>
      rw [wildcards_take_succ, hindex]
      exact htail j c' hj (hindex j ▸ hne)

theorem describeElements_cons {i : InputId} {inputs : List InputId} :
    DescribeElements g σ k (i :: inputs) (c :: cs) ↔
      (∃ x, g.source? i = some x ∧ Describes g σ k c x) ∧
        DescribeElements g σ (k + wildcards [c]) inputs cs := by
  constructor
  · intro h
    refine ⟨by simpa using h 0 c rfl, fun j e hj => ?_⟩
    rw [← wildcards_take_succ]
    exact h (j + 1) e hj
  · rintro ⟨hhead, htail⟩ j e hj
    cases j with
    | zero =>
      obtain rfl := Option.some.inj hj
      simpa using hhead
    | succ j =>
      rw [wildcards_take_succ]
      exact htail j e hj

end

/-! ## What is collected describes the port -/

mutual
/-- What is collected describes the port, and so does every assignment that begins with it. -/
theorem describes_of_matchFrom (hv : g.Valid registry) {σ b b' : Bindings} {o : OutputId} {k' : Nat}
    (ho : ∃ n, g.maker? o = some n) (hσ : b' <+: σ) :
    (p : Pattern) → matchFrom g b o p = .ok (some b') →
    check registry .input b.length p = .ok k' → Describes g σ b.length p o
  | .call module factor place children, hm, hc => by
    obtain ⟨n, ho⟩ := ho
    obtain ⟨node, s, latency, slot, hn, hk, hid, -, hslot, hout, hms, hcs⟩ :=
      matchFrom_call_of_check hv ho hm hc
    obtain ⟨port, hp, rfl⟩ := maker?_eq_some.1 ho
    have hplace : (s.parameters[place]?).any (fun p => !p.isInput) = true := by
      by_contra hne
      rw [Signature.outputSlot_eq, if_neg hne] at hslot
      cases hslot
    exact describes_call_iff.2 ⟨port, node, s, latency, hp, hn, hk, hid, hplace,
      (parameterPort?_output hslot).trans hout,
      describeChildren_of_match hv hn hk hσ children hms hcs⟩
  | .literal value, hm, hc => by
    obtain ⟨port, node, hp, hn, hk⟩ := literal?_eq_some.1 (matchFrom_literal hm).1
    exact .literal hp hn hk
  | .array elements, hm, hc => by
    obtain ⟨port, node, element, hp, hn, hk, hl, hms⟩ := matchFrom_array hm
    have hin (i : InputId) (hi : i ∈ node.inputs) : g.owner? i = some port.node ∧
        ∀ x, g.source? i = some x → g.Inner x :=
      ⟨(hv.coherent.mem_inputs hn).1 hi, fun x hs => .element hp hn hk hi hs⟩
    exact describes_array_iff.2 ⟨port, node, element, hp, hn, hk, hl,
      describeElements_of_match hv hin hσ elements hl hms (check_array hc)⟩
  | .wildcard constant, hm, hc => by
    obtain ⟨n, ho⟩ := ho
    obtain ⟨port, hp, -⟩ := maker?_eq_some.1 ho
    obtain ⟨rfl, hfixed⟩ := matchFrom_wildcard hm
    refine .wildcard hp (fun h => ?_) (getElem?_of_isPrefix hσ (by simp))
    obtain ⟨port', hp', hfixed⟩ := hfixed h
    cases hp.symm.trans hp'
    exact hfixed
  | .slot index, hm, hc => by
    obtain ⟨rfl, x, hx, hsame⟩ := matchFrom_slot hv.coherent hm
    rw [sameValue_iff hv.coherent hv.acyclic] at hsame
    exact .slot (getElem?_of_isPrefix hσ hx) hsame
  | .result, hm, _ => by cases hm
  | .ellipsis, hm, _ => by cases hm

theorem describeChildren_of_match (hv : g.Valid registry) {n : NodeId} {node : Node}
    {s : Signature} {factor latency place index k' : Nat} {σ b b' : Bindings}
    (hn : g.node? n = some node) (hk : node.kind = .call s factor latency) (hσ : b' <+: σ) :
    (cs : List Pattern) → matchChildren g s node place index b cs = .ok (some b') →
    checkChildren registry .input s place index b.length cs = .ok k' →
    DescribeChildren g σ s node place index b.length cs
  | [], _, _ => describeChildren_nil rfl
  | c :: cs, hm, hc => by
    rcases matchChildren_cons hm hc with ⟨rfl, -, -⟩ | ⟨rfl, rfl, hms, hcs⟩ |
      ⟨-, slot, i, x, b₁, k₁, hslot, hi, hs, hm, hc, hms, hcs⟩ |
      ⟨rfl, -, slot, x, -, hslot, hx, hms, hcs⟩
    · exact describeChildren_nil (front_eq_nil rfl)
    · refine (describeChildren_cons rfl).2 ⟨fun hne => absurd rfl hne, ?_⟩
      exact describeChildren_of_match hv hn hk hσ cs hms hcs
    · -- What a child adds comes before what the children after it add.
      obtain ⟨m, -, hmk, -⟩ := hv.coherent.source_maker hs
      obtain rfl := (matchFrom_spec hv hmk c hm hc).length_eq rfl
      have hσ₁ := (matchChildren_spec hv hn (by rw [hk]; rfl) cs hms hcs).isPrefix.trans hσ
      have hx : g.parameterPort? s node index = some x := by
        rw [parameterPort?_input hslot, fedFrom?, hi, Option.bind_some, hs]
      refine (describeChildren_cons (not_ellipsis_of_check hc)).2 ⟨fun _ => ?_, ?_⟩
      · exact ⟨x, hx, describes_of_matchFrom hv ⟨m, hmk⟩ hσ₁ c hm hc⟩
      · rw [← bound_eq_of_check hc]
        exact describeChildren_of_match hv hn hk hσ cs hms hcs
    · have hmk := (hv.coherent.mem_outputs hn).1 (List.mem_of_getElem? hx)
      obtain ⟨port, hp, -⟩ := maker?_eq_some.1 hmk
      rw [← List.length_concat (a := x), List.concat_eq_append] at hcs
      have hσ₁ := (matchChildren_spec hv hn (by rw [hk]; rfl) cs hms hcs).isPrefix.trans hσ
      refine (describeChildren_cons rfl).2 ⟨fun _ => ⟨x, (parameterPort?_output hslot).trans hx,
        .wildcard hp (by simp) (getElem?_of_isPrefix hσ₁ (by simp))⟩, ?_⟩
      simpa using describeChildren_of_match hv hn hk hσ cs hms hcs

theorem describeElements_of_match (hv : g.Valid registry) {n : NodeId} {k' : Nat}
    {σ b b' : Bindings} {inputs : List InputId}
    (hin : ∀ i ∈ inputs, g.owner? i = some n ∧ ∀ x, g.source? i = some x → g.Inner x)
    (hσ : b' <+: σ) :
    (es : List Pattern) → inputs.length = es.length →
    matchElements g b inputs es = .ok (some b') →
    checkElements registry .input b.length es = .ok k' →
    DescribeElements g σ b.length inputs es
  | [], _, _, _ => by
    intro j e hj
    simp at hj
  | e :: es, hl, hm, hc => by
    obtain ⟨i, rest, x, b₁, rfl, hs, hm, hms⟩ := matchElements_cons hl hm
    obtain ⟨k₁, hc, hcs⟩ := checkElements_cons hc
    obtain ⟨-, hin⟩ := List.forall_mem_cons.1 hin
    obtain ⟨m, -, hmk, -⟩ := hv.coherent.source_maker hs
    obtain rfl := (matchFrom_spec hv hmk e hm hc).length_eq rfl
    have hl := Nat.succ.inj hl
    have hσ₁ := (matchElements_spec hv hin es hl hms hcs).isPrefix.trans hσ
    refine describeElements_cons.2 ⟨⟨x, hs, describes_of_matchFrom hv ⟨m, hmk⟩ hσ₁ e hm hc⟩, ?_⟩
    rw [← bound_eq_of_check hc]
    exact describeElements_of_match hv hin hσ es hl hms hcs
end

/-! ## What describes the port is collected -/

theorem matchFrom_wildcard_of_describes {constant : Bool}
    (h : Describes g σ k (.wildcard constant) o) :
    matchFrom g (σ.take k) o (.wildcard constant) = .ok (some (σ.take (k + 1))) ∧
      k + 1 ≤ σ.length := by
  cases h with
  | wildcard live fixed bound =>
    have htake : σ.take (k + 1) = σ.take k ++ [o] := by
      rw [List.take_add_one, bound, Option.toList_some]
    obtain ⟨hlt, -⟩ := List.getElem?_eq_some_iff.1 bound
    refine ⟨?_, hlt⟩
    cases constant with
    | false => simp [matchFrom, htake]
    | true => simp [matchFrom, output_eq_ok.2 live, fixed rfl, htake]

mutual
/-- An assignment that describes a port is collected, as far as the wildcards of the pattern go. -/
theorem matchFrom_of_describes (hv : g.Valid registry) {σ : Bindings} {o : OutputId} {k k' : Nat}
    (hσ : k ≤ σ.length) :
    (p : Pattern) → check registry .input k p = .ok k' → Describes g σ k p o →
    matchFrom g (σ.take k) o p = .ok (some (σ.take k')) ∧ k' ≤ σ.length
  | .call module factor place children, hc, hd => by
    obtain ⟨port, node, s, latency, hp, hn, hk, hid, -, hfollowed, hchildren⟩ :=
      describes_call_iff.1 hd
    obtain ⟨s', hhead, hcs⟩ := check_call hc
    obtain ⟨hlookup, -⟩ := hv.fits hn s factor latency hk
    obtain rfl : s' = s := Option.some.inj (hhead.lookup.symm.trans (hid ▸ hlookup))
    obtain ⟨slot, hslot⟩ := hhead.slot
    rw [parameterPort?_output hslot] at hfollowed
    simp only [matchFrom, output_eq_ok.2 hp, node_eq_ok.2 hn, ok_bind, hk, hid, and_self, if_true,
      hslot, hfollowed]
    exact matchChildren_of_describe hv hn hk hσ children (by simpa using hhead.listed_le) hcs
      hchildren
  | .literal value, hc, hd => by
    cases hc
    cases hd with
    | literal live made kind =>
      have hl : g.literal? o = some value := literal?_eq_some.2 ⟨_, _, live, made, kind⟩
      simp only [matchFrom, askLiteral_eq live made, ok_bind, hl, if_true]
      exact ⟨rfl, hσ⟩
  | .array elements, hc, hd => by
    obtain ⟨port, node, element, hp, hn, hk, hl, helements⟩ := describes_array_iff.1 hd
    simp only [matchFrom, output_eq_ok.2 hp, node_eq_ok.2 hn, ok_bind, hk, hl, if_true]
    exact matchElements_of_describe hv hσ elements hl (check_array hc) helements
  | .wildcard constant, hc, hd => by
    cases hc
    exact matchFrom_wildcard_of_describes hd
  | .slot index, hc, hd => by
    rw [check] at hc
    split at hc
    · rename_i hlt
      cases hc
      cases hd with
      | @slot _ _ _ x bound same =>
        rw [← sameValue_iff hv.coherent hv.acyclic] at same
        have hx : Bindings.get (σ.take k) index = .ok x := by
          rw [get_eq_ok, List.getElem?_take_of_lt hlt, bound]
        simp only [matchFrom, hx, ok_bind, hv.coherent.ask_of_stands same, if_true]
        exact ⟨rfl, hσ⟩
    · cases hc
  | .result, hc, _ => by cases hc
  | .ellipsis, hc, _ => by cases hc

theorem matchChildren_of_describe (hv : g.Valid registry) {n : NodeId} {node : Node}
    {s : Signature} {factor latency place index k k' : Nat} {σ : Bindings}
    (hn : g.node? n = some node) (hk : node.kind = .call s factor latency) (hσ : k ≤ σ.length) :
    (cs : List Pattern) → index + listed cs ≤ s.parameters.length →
    checkChildren registry .input s place index k cs = .ok k' →
    DescribeChildren g σ s node place index k cs →
    matchChildren g s node place index (σ.take k) cs = .ok (some (σ.take k')) ∧ k' ≤ σ.length
  | [], _, hc, _ => by
    rw [checkChildren] at hc
    cases hc
    rw [matchChildren]
    exact ⟨rfl, hσ⟩
  | c :: cs, hl, hc, hd => by
    rw [matchChildren]
    rcases checkChildren_cons hc with ⟨he, rfl⟩ | ⟨he, hc⟩
    · simp only [he, if_true]
      exact ⟨rfl, hσ⟩
    · rw [listed_cons he] at hl
      have hindex : index < s.parameters.length := by omega
      have hrest : index + 1 + listed cs ≤ s.parameters.length := by omega
      obtain ⟨hhead, htail⟩ := (describeChildren_cons he).1 hd
      simp only [he, Bool.false_eq_true, if_false]
      rcases hc with ⟨rfl, rfl, hcs⟩ | ⟨hi, hin, k₁, hc, hcs⟩ | ⟨hi, hin, rfl, hcs⟩
      · simp only [isResult, if_true]
        exact matchChildren_of_describe hv hn hk hσ cs hrest hcs htail
      · obtain ⟨x, hx, hd⟩ := hhead hi
        obtain ⟨hm, hσ₁⟩ := matchFrom_of_describes hv hσ c hc hd
        rw [← bound_eq_of_check hc] at htail
        simp only [hi, if_false, hv.portAt_eq hn hk hindex, hx, hm, ok_bind]
        exact matchChildren_of_describe hv hn hk hσ₁ cs hrest hcs htail
      · obtain ⟨x, hx, hd⟩ := hhead hi
        obtain ⟨hm, hσ₁⟩ := matchFrom_wildcard_of_describes hd
        simp only [hi, if_false, hv.portAt_eq hn hk hindex, hx, hm, ok_bind]
        exact matchChildren_of_describe hv hn hk hσ₁ cs hrest hcs htail

theorem matchElements_of_describe (hv : g.Valid registry) {k k' : Nat} {σ : Bindings}
    {inputs : List InputId} (hσ : k ≤ σ.length) :
    (es : List Pattern) → inputs.length = es.length →
    checkElements registry .input k es = .ok k' → DescribeElements g σ k inputs es →
    matchElements g (σ.take k) inputs es = .ok (some (σ.take k')) ∧ k' ≤ σ.length
  | [], _, hc, _ => by
    rw [checkElements] at hc
    cases hc
    rw [matchElements]
    exact ⟨rfl, hσ⟩
  | e :: es, hl, hc, hd => by
    cases inputs with
    | nil => cases hl
    | cons i inputs =>
      obtain ⟨k₁, hc, hcs⟩ := checkElements_cons hc
      obtain ⟨⟨x, hs, hd⟩, htail⟩ := describeElements_cons.1 hd
      obtain ⟨hm, hσ₁⟩ := matchFrom_of_describes hv hσ e hc hd
      rw [← bound_eq_of_check hc] at htail
      obtain ⟨port, hp, hsource⟩ := source?_eq_some.1 hs
      have hsi : g.source i = .ok (some x) := map_eq_ok.2 ⟨port, input_eq_ok.2 hp, hsource⟩
      simp only [matchElements, hsi, hm, ok_bind]
      exact matchElements_of_describe hv hσ₁ es (Nat.succ.inj hl) hcs htail
end

theorem slotCount_eq (p : Pattern) : p.slotCount = wildcards [p] := by
  simp [slotCount, wildcards, partsAll, List.countP_eq_length_filter]

end Pattern

/-- Matching the input pattern of a rule at a port finds the ports that its slots have to stand for
if it is to describe the port, and nothing if there are no such ports. There is one port for each
slot that the check of the rule counts. -/
theorem Rule.matchAt_describes {registry : Registry} {l : List Rule} {rules : RuleSet} {rule : Rule}
    {g : Graph} {o : OutputId} {port : OutputPort} (hmake : RuleSet.make registry l = .ok rules)
    (hrule : rule ∈ l) (hg : g.Coherent) (ha : g.Acyclic) (hcalls : g.CallsFrom registry)
    (ho : g.output? o = some port) :
    (∃ found, rule.input.matchAt g o = .ok found ∧ ∀ b, found = some b ↔
      b.length = rule.input.slotCount ∧ Pattern.Describes g b 0 rule.input o) ∧
    (∀ b b', b.length = rule.input.slotCount → b'.length = rule.input.slotCount →
      Pattern.Describes g b 0 rule.input o → Pattern.Describes g b' 0 rule.input o → b = b') ∧
    rule.input.check registry .input 0 = .ok rule.input.slotCount ∧
    checkOutputs registry rule.input.slotCount rule.outputs = .ok () := by
  obtain ⟨-, hmem, hrules⟩ := RuleSet.make_eq_ok hmake
  have hv : g.Valid registry := ⟨hg, ha, hcalls⟩
  have hmk : g.maker? o = some port.node := maker?_eq_some.2 ⟨port, ho, rfl⟩
  obtain ⟨k, hin, hout⟩ := (hrules rule ((hmem rule).2 hrule)).patterns
  obtain rfl : k = rule.input.slotCount := by
    rw [Pattern.slotCount_eq, Pattern.bound_eq_of_check hin, Nat.zero_add]
  have hcomplete (b : Bindings) (hb : b.length = rule.input.slotCount)
      (hd : Pattern.Describes g b 0 rule.input o) : rule.input.matchAt g o = .ok (some b) := by
    obtain ⟨hm, -⟩ := Pattern.matchFrom_of_describes hv (Nat.zero_le _) rule.input hin hd
    rwa [List.take_zero, ← hb, List.take_length] at hm
  refine ⟨?_, fun b b' hb hb' hd hd' => ?_, hin, checkOutputs_iff.2 hout⟩
  · obtain ⟨found, hfound⟩ := Pattern.exists_matchFrom (b := []) hv rfl (List.forall_mem_nil _)
      ⟨_, hmk⟩ rule.input hin
    refine ⟨found, hfound, fun b => ⟨?_, fun ⟨hb, hd⟩ => ?_⟩⟩
    · rintro rfl
      have hlen := (Pattern.matchFrom_spec hv hmk rule.input hfound hin).length_eq rfl
      exact ⟨hlen.symm,
        Pattern.describes_of_matchFrom hv ⟨_, hmk⟩ (List.prefix_refl b) rule.input hfound hin⟩
    · exact Except.ok.inj (hfound.symm.trans (hcomplete b hb hd))
  · have he := (hcomplete b hb hd).symm.trans (hcomplete b' hb' hd')
    cases he
    rfl

/-! ## A mixture

A gain is among the values that it is applied to, as a constant of its own. The output that is not
followed stands between the two, and has its slot there. -/

namespace Mixture

def mix : Signature where
  id := .ofNat 2
  name := "mix"
  parameters :=
    [.float "low" .output, .float "gain" .input .constant, .float "high" .output,
     .float "values" .input .varying 1 true]
  returnParameter := some 0

def env : Environment where
  registry :=
    { modules :=
        [(Negation.signature.id, .hosted Negation.signature (.fixed 0)),
         (mix.id, .hosted mix (.fixed 0))]
      names := [("mix", mix.id), ("negate", Negation.signature.id)] }
  settings := {}

def rule : Rule where
  name := "mixture"
  input := .call mix.id 1 0 [.result, .wildcard true, .wildcard false, .array
    [.wildcard false, .call Negation.signature.id 1 1 [.wildcard false, .result], .slot 0]]
  outputs := [.slot 2]

def rules : RuleSet where
  rules := [rule]
  ordered := [rule]
  depths := .ofRules [rule]

def program : Description where
  inputs := [{ name := "in", type := { primitive := .float } }]
  entries :=
    [{ name := "gain", kind := .constant (.float 0x3f800000) },
     { name := "one", kind := .constant (.float 0x3f800000) },
     { name := "n", kind := .call "negate" 1 ["in"] },
     { name := "values", kind := .array .float ["in", "n", "one"] },
     { name := "m", kind := .call "mix" 1 ["gain", "values"] }]
  outputs := [{ name := "out", type := { primitive := .float }, source := "m" }]

theorem reached : env.registry.Reached :=
  (Registry.Reached.empty.insert (m := .hosted Negation.signature (.fixed 0)) rfl).insert
    (m := .hosted mix (.fixed 0)) rfl

theorem make_rules : RuleSet.make env.registry [rule] = .ok rules := by
  cbv

/-- What the rule matches at a port. -/
def bindings (o : OutputId) : Option (Option Bindings) :=
  match program.build env with
  | .ok (_, .ok g) =>
    match g.output? o, rule.input.matchAt g o with
    | some _, .ok found => some found
    | _, _ => none
  | _ => none

theorem exists_match {o : OutputId} {found : Option Bindings} (h : bindings o = some found) :
    ∃ runs g port, program.build env = .ok (runs, .ok g) ∧ g.output? o = some port ∧
      rule.input.matchAt g o = .ok found := by
  rw [bindings] at h
  split at h
  · rename_i runs g hb
    split at h
    · rename_i port found' hp hm
      cases h
      exact ⟨runs, g, port, hb, hp, hm⟩
    · cases h
  · cases h

end Mixture

/-- The slots of the rule at the output that it follows, and none at the other one. -/
theorem Rule.matchAt_describes_mixture :
    (∃ runs g, Mixture.program.build Mixture.env = .ok (runs, .ok g) ∧
      Mixture.rule.input.matchAt g ⟨5⟩ = .ok (some [⟨1⟩, ⟨6⟩, ⟨0⟩, ⟨0⟩]) ∧
      Mixture.rule.input.slotCount = 4 ∧
      Pattern.Describes g [⟨1⟩, ⟨6⟩, ⟨0⟩, ⟨0⟩] 0 Mixture.rule.input ⟨5⟩) ∧
    ∃ runs g, Mixture.program.build Mixture.env = .ok (runs, .ok g) ∧
      Mixture.rule.input.matchAt g ⟨6⟩ = .ok none ∧
      ∀ b : Bindings, b.length = 4 → ¬ Pattern.Describes g b 0 Mixture.rule.input ⟨6⟩ := by
  constructor
  · have h : Mixture.bindings ⟨5⟩ = some (some [⟨1⟩, ⟨6⟩, ⟨0⟩, ⟨0⟩]) := by cbv
    obtain ⟨runs, g, port, hb, hp, hm⟩ := Mixture.exists_match h
    have hv := (Description.build_loaded Mixture.reached hb).valid
    obtain ⟨⟨found, hfound, hiff⟩, -⟩ := Rule.matchAt_describes Mixture.make_rules
      List.mem_cons_self hv.coherent hv.acyclic hv.fits hp
    cases hfound.symm.trans hm
    exact ⟨runs, g, hb, hm, rfl, ((hiff _).1 rfl).2⟩
  · have h : Mixture.bindings ⟨6⟩ = some none := by cbv
    obtain ⟨runs, g, port, hb, hp, hm⟩ := Mixture.exists_match h
    have hv := (Description.build_loaded Mixture.reached hb).valid
    obtain ⟨⟨found, hfound, hiff⟩, -⟩ := Rule.matchAt_describes Mixture.make_rules
      List.mem_cons_self hv.coherent hv.acyclic hv.fits hp
    cases hfound.symm.trans hm
    refine ⟨runs, g, hb, hm, fun b hlen hd => ?_⟩
    cases (hiff b).2 ⟨hlen, hd⟩

end SignalGraph
