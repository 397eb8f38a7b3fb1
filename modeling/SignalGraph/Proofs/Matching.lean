import SignalGraph.Pattern.Match
import SignalGraph.Proofs.Calls
import SignalGraph.Proofs.Fold
import SignalGraph.Rule.Check

/-!
# Matches of checked patterns

A pattern that was checked binds as many ports as the check counts, and a match binds each of them
to a port that the matched one depends on, or to the matched port itself (`matchFrom_spec`). A
pattern that calls a module never binds the port it matches (`matchAt_spec`): its children stand for
what feeds the call, and for other outputs of the call. So all that it binds is inside of the match
(`Inner`).

Graphs that are the same have the same matches (`matchFrom_same`).
-/

namespace SignalGraph

namespace Graph

open Relation

/-- The node of `o` is `n`, or `n` depends on it. -/
def Upstream (g : Graph) (o : OutputId) (n : NodeId) : Prop :=
  ∃ m, g.maker? o = some m ∧ ReflTransGen g.Feeds m n

/-- The node `n` depends on the node of `o`. -/
def Above (g : Graph) (o : OutputId) (n : NodeId) : Prop :=
  ∃ m, g.maker? o = some m ∧ TransGen g.Feeds m n

theorem Above.upstream {g : Graph} {o : OutputId} {n : NodeId} (h : g.Above o n) :
    g.Upstream o n :=
  h.imp fun _ ⟨hm, ht⟩ => ⟨hm, ht.to_reflTransGen⟩

theorem Coherent.askStands_eq {g : Graph} (hg : g.Coherent) {a b : OutputId} {p q : OutputPort}
    (ha : g.output? a = some p) (hb : g.output? b = some q) :
    g.askStands a b = .ok (decide (a = b ∨ g.sameValue a b = true)) := by
  have hsame : g.askSameValue a b = .ok (g.sameValue a b) := by
    rw [askSameValue, hg.askValue_eq ha, ok_bind, hg.askValue_eq hb, ok_bind, sameValue]
    cases g.value? a <;> cases g.value? b <;> rfl
  rw [askStands, hsame]
  split
  · rename_i h
    simp [h]
  · rename_i h
    simp [h]

theorem output?_of_value? {g : Graph} {o : OutputId} {v : Value} (h : g.value? o = some v) :
    ∃ port, g.output? o = some port := by
  obtain ⟨port, hp, -⟩ := Option.bind_eq_some_iff.1 h
  exact ⟨port, hp⟩

theorem Coherent.ask_of_stands {g : Graph} (hg : g.Coherent) {a b : OutputId}
    (h : a = b ∨ g.sameValue a b = true) : g.askStands a b = .ok true := by
  rcases h with rfl | h
  · rw [askStands, if_pos rfl]
  · -- Only live ports have values.
    have hlive : ∃ p q, g.output? a = some p ∧ g.output? b = some q := by
      unfold sameValue at h
      split at h
      · rename_i x y hx hy
        obtain ⟨p, hp⟩ := output?_of_value? hx
        obtain ⟨q, hq⟩ := output?_of_value? hy
        exact ⟨p, q, hp, hq⟩
      · cases h
    obtain ⟨p, q, hp, hq⟩ := hlive
    rw [hg.askStands_eq hp hq, decide_eq_true (.inr h)]

theorem Coherent.stands_of_ask {g : Graph} (hg : g.Coherent) {a b : OutputId}
    (h : g.askStands a b = .ok true) : a = b ∨ g.sameValue a b = true := by
  unfold askStands at h
  split at h
  · rename_i hab
    exact .inl hab
  · obtain ⟨x, hx, h⟩ := bind_eq_ok.1 h
    obtain ⟨y, hy, h⟩ := bind_eq_ok.1 h
    rw [sameValue, hg.value?_of_ask hx, hg.value?_of_ask hy]
    cases x <;> cases y <;> exact .inr (Except.ok.inj h)

theorem Upstream.above {g : Graph} {o : OutputId} {m n : NodeId} (h : g.Upstream o m)
    (hf : g.Feeds m n) : g.Above o n :=
  h.imp fun _ ⟨hm, ht⟩ => ⟨hm, TransGen.tail' ht hf⟩

/-- A port that a pattern can bind below its root: it feeds a call, it is an element of an array, or
it comes out of a call. -/
inductive Inner (g : Graph) (o : OutputId) : Prop where
  | argument {n : NodeId} {node : Node} {i : InputId} : g.node? n = some node →
    node.kind.isCall = true → i ∈ node.inputs → g.source? i = some o → Inner g o
  | element {a : OutputId} {port : OutputPort} {node : Node} {element : Primitive} {i : InputId} :
    g.output? a = some port → g.node? port.node = some node → node.kind = .array element →
    i ∈ node.inputs → g.source? i = some o → Inner g o
  | result {n : NodeId} {node : Node} : g.maker? o = some n → g.node? n = some node →
    node.kind.isCall = true → Inner g o

end Graph

namespace Pattern

open SignalGraph.Graph

variable {registry : Registry} {side : Side} {g : Graph} {b b' : Bindings} {o : OutputId}
  {bound bound' : Nat}

/-! ## What a check says -/

/-- Without an ellipsis, all children are listed. -/
theorem findIdx?_isEllipsis {children : List Pattern}
    (h : ¬ (children.findIdx? isEllipsis).getD children.length < children.length) :
    ∀ c ∈ children, c.isEllipsis = false := by
  cases hi : children.findIdx? isEllipsis with
  | none => exact List.findIdx?_eq_none_iff.1 hi
  | some k =>
    obtain ⟨hk, -⟩ := List.findIdx?_eq_some_iff_getElem.1 hi
    simp [hi, hk] at h

/-- How many children stand before an ellipsis. -/
def listed (children : List Pattern) : Nat :=
  (children.findIdx? isEllipsis).getD children.length

/-- What the check of the head of a call pattern says. -/
structure Head (registry : Registry) (side : Side) (module : ModuleId) (factor place : Nat)
    (children : List Pattern) (s : Signature) : Prop where
  lookup : registry.lookup module = some s
  slot : ∃ k, s.outputSlot place = some k
  factor_pos : 0 < factor
  listed_le : listed children ≤ s.parameters.length
  full : side = .output → children.length = s.parameters.length ∧
    ∀ c ∈ children, c.isEllipsis = false

theorem checkHead_eq_ok {module : ModuleId} {factor place : Nat} {children : List Pattern}
    {s : Signature} (h : checkHead registry side module factor place children = .ok s) :
    Head registry side module factor place children s := by
  unfold checkHead at h
  split at h
  case h_2 => cases h
  case h_1 s' hl =>
    by_cases hf : factor = 0
    · simp [hf] at h
    · simp only [hf, if_false] at h
      split at h
      case h_2 => cases h
      case h_1 p hp =>
        by_cases hin : p.isInput = true
        · simp [hin] at h
        · have hout : ∃ k, s'.outputSlot place = some k :=
            Signature.exists_outputSlot hp (Bool.eq_false_iff.2 hin)
          have hpos : 0 < factor := Nat.pos_of_ne_zero hf
          by_cases hlist : (children.findIdx? isEllipsis).getD children.length < children.length
          · simp only [hin, hlist, Bool.false_eq_true, if_false, if_true] at h
            split at h
            · cases h
            · rename_i hfit
              split at h
              · cases h
              · cases h
                refine ⟨hl, hout, hpos, ?_, ?_⟩
                · simp only [Bool.not_eq_true', Bool.not_eq_false, Bool.and_eq_true,
                    decide_eq_true_eq] at hfit
                  exact hfit.2
                · rintro rfl
                  simp at hfit
          · simp only [hin, hlist, Bool.false_eq_true, if_false] at h
            split at h
            · cases h
            · rename_i hfit
              split at h
              · cases h
              · cases h
                have hlen : children.length = s.parameters.length := by simpa using hfit
                refine ⟨hl, hout, hpos, ?_, fun _ => ⟨hlen, findIdx?_isEllipsis hlist⟩⟩
                have hnone := List.findIdx?_eq_none_iff.2 (findIdx?_isEllipsis hlist)
                rw [listed, hnone, Option.getD_none, hlen]

theorem check_call {module : ModuleId} {factor place : Nat} {children : List Pattern}
    (h : check registry side bound (.call module factor place children) = .ok bound') :
    ∃ s, Head registry side module factor place children s ∧
      checkChildren registry side s place 0 bound children = .ok bound' := by
  rw [check, bind_eq_ok] at h
  obtain ⟨s, hs, h⟩ := h
  exact ⟨s, checkHead_eq_ok hs, h⟩

theorem check_array {elements : List Pattern}
    (h : check registry side bound (.array elements) = .ok bound') :
    checkElements registry side bound elements = .ok bound' := by
  rw [check] at h
  split at h
  · cases h
  · exact h

/-- The places a child of a call can have: it ends the list, marks the result, stands for an
argument, or for another output. -/
theorem checkChildren_cons {s : Signature} {place index : Nat} {c : Pattern} {cs : List Pattern}
    (h : checkChildren registry side s place index bound (c :: cs) = .ok bound') :
    c.isEllipsis = true ∧ bound' = bound ∨ c.isEllipsis = false ∧
      (index = place ∧ c = .result ∧
          checkChildren registry side s place (index + 1) bound cs = .ok bound' ∨
        index ≠ place ∧ (s.parameters[index]?).any Parameter.isInput = true ∧
          (∃ bound₁, check registry side bound c = .ok bound₁ ∧
            checkChildren registry side s place (index + 1) bound₁ cs = .ok bound') ∨
        index ≠ place ∧ ¬ (s.parameters[index]?).any Parameter.isInput = true ∧
          c = .wildcard false ∧
          checkChildren registry side s place (index + 1)
            (if side = .input then bound + 1 else bound) cs = .ok bound') := by
  rw [checkChildren.eq_def] at h
  dsimp only at h
  split at h
  · rename_i he
    cases h
    exact .inl ⟨he, rfl⟩
  · rename_i he
    refine .inr ⟨Bool.eq_false_iff.2 he, ?_⟩
    split at h
    · split at h
      · rename_i hp
        obtain ⟨hi, hr⟩ := hp
        have hc : c = .result := by cases c <;> simp_all [isResult]
        exact .inl ⟨hi, hc, h⟩
      · cases h
    · rename_i hne
      have hi : index ≠ place := fun he => hne (.inl he)
      split at h
      · rename_i hin
        split at h
        · rename_i bound₁ hc
          exact .inr (.inl ⟨hi, hin, bound₁, hc, h⟩)
        · cases h
      · rename_i hin
        split at h
        · exact .inr (.inr ⟨hi, hin, rfl, h⟩)
        · cases h

theorem checkElements_cons {e : Pattern} {es : List Pattern}
    (h : checkElements registry side bound (e :: es) = .ok bound') :
    ∃ bound₁, check registry side bound e = .ok bound₁ ∧
      checkElements registry side bound₁ es = .ok bound' := by
  rw [checkElements] at h
  split at h
  · rename_i bound₁ he
    exact ⟨bound₁, he, h⟩
  · cases h

/-! ## What a match says -/

theorem matchFrom_call {module : ModuleId} {factor place : Nat} {children : List Pattern}
    (h : matchFrom g b o (.call module factor place children) = .ok (some b')) :
    ∃ port node s latency k, g.output? o = some port ∧ g.node? port.node = some node ∧
      node.kind = .call s factor latency ∧ s.id = module ∧ s.outputSlot place = some k ∧
      node.outputs[k]? = some o ∧ matchChildren g s node place 0 b children = .ok (some b') := by
  simp only [matchFrom, bind_eq_ok, output_eq_ok, node_eq_ok] at h
  obtain ⟨port, hp, node, hn, h⟩ := h
  split at h
  · rename_i s f latency hk
    split at h
    · rename_i hs
      obtain ⟨hid, rfl⟩ := hs
      split at h
      · rename_i k hslot
        split at h
        · rename_i anchor ho
          split at h
          · rename_i heq
            subst heq
            exact ⟨port, node, s, latency, k, hp, hn, hk, hid, hslot, ho, h⟩
          · cases h
        · cases h
      · cases h
    · cases h
  · cases h

theorem matchFrom_array {elements : List Pattern}
    (h : matchFrom g b o (.array elements) = .ok (some b')) :
    ∃ port node element, g.output? o = some port ∧ g.node? port.node = some node ∧
      node.kind = .array element ∧ node.inputs.length = elements.length ∧
      matchElements g b node.inputs elements = .ok (some b') := by
  simp only [matchFrom, bind_eq_ok, output_eq_ok, node_eq_ok] at h
  obtain ⟨port, hp, node, hn, h⟩ := h
  split at h
  · rename_i element hk
    split at h
    · rename_i hl
      exact ⟨port, node, element, hp, hn, hk, hl, h⟩
    · cases h
  · cases h

theorem literal?_eq_some {value : Literal} :
    g.literal? o = some value ↔ ∃ port node, g.output? o = some port ∧
      g.node? port.node = some node ∧ node.kind = .constant value := by
  simp only [literal?, Option.bind_eq_bind, Option.bind_eq_some_iff]
  constructor
  · rintro ⟨port, hp, node, hn, h⟩
    split at h
    · rename_i value' hk
      cases h
      exact ⟨port, node, hp, hn, hk⟩
    · cases h
  · rintro ⟨port, node, hp, hn, hk⟩
    exact ⟨port, hp, node, hn, by rw [hk]⟩

theorem matchFrom_literal {value : Literal}
    (h : matchFrom g b o (.literal value) = .ok (some b')) :
    g.literal? o = some value ∧ b' = b := by
  simp only [matchFrom, bind_eq_ok] at h
  obtain ⟨found, hfound, h⟩ := h
  split at h
  · rename_i hl
    cases h
    exact ⟨(literal?_of_ask hfound).trans hl, rfl⟩
  · cases h

theorem matchFrom_wildcard {constant : Bool}
    (h : matchFrom g b o (.wildcard constant) = .ok (some b')) :
    b' = b ++ [o] ∧ (constant = true →
      ∃ port, g.output? o = some port ∧ port.type.isConstant = true) := by
  cases constant with
  | false =>
    cases h
    exact ⟨rfl, by simp⟩
  | true =>
    simp only [matchFrom, if_true, bind_eq_ok, output_eq_ok] at h
    obtain ⟨port, hp, h⟩ := h
    split at h
    · rename_i hfixed
      cases h
      exact ⟨rfl, fun _ => ⟨port, hp, hfixed⟩⟩
    · cases h

theorem get_eq_ok {k : Nat} : Bindings.get b k = .ok o ↔ b[k]? = some o := by
  unfold Bindings.get
  split <;> simp_all

theorem matchFrom_slot (hg : g.Coherent) {k : Nat}
    (h : matchFrom g b o (.slot k) = .ok (some b')) :
    b' = b ∧ ∃ x, b[k]? = some x ∧ (x = o ∨ g.sameValue x o = true) := by
  simp only [matchFrom, bind_eq_ok, get_eq_ok] at h
  obtain ⟨x, hx, stands, hstands, h⟩ := h
  split at h
  · rename_i ht
    cases h
    exact ⟨rfl, x, hx, hg.stands_of_ask (ht ▸ hstands)⟩
  · cases h

theorem portAt_input {s : Signature} {node : Node} {index : Nat} {o? : Option OutputId}
    (hin : (s.parameters[index]?).any Parameter.isInput = true)
    (h : g.portAt s node index = .ok o?) :
    ∃ k i port, s.inputSlot index = some k ∧ node.inputs[k]? = some i ∧
      g.input? i = some port ∧ port.source = o? := by
  obtain ⟨k, hk⟩ := Signature.exists_inputSlot hin
  simp only [Graph.portAt, hk] at h
  split at h
  · rename_i i hi
    obtain ⟨port, hp, hs⟩ := map_eq_ok.1 h
    exact ⟨k, i, port, hk, hi, input_eq_ok.1 hp, hs⟩
  · cases h

theorem portAt_output {s : Signature} {node : Node} {index : Nat} {o? : Option OutputId}
    (hin : ¬ (s.parameters[index]?).any Parameter.isInput = true)
    (h : g.portAt s node index = .ok o?) :
    ∃ k x, s.outputSlot index = some k ∧ node.outputs[k]? = some x ∧ o? = some x := by
  simp only [Graph.portAt, Signature.inputSlot_eq_none hin] at h
  split at h
  · rename_i k hk
    split at h
    · rename_i x hx
      cases h
      exact ⟨k, x, hk, hx, rfl⟩
    · cases h
  · cases h

/-- What a child of a checked call stands for: nothing if it ends the list or marks the result,
else what feeds the input at its place, or the output there. -/
theorem matchChildren_cons {s : Signature} {node : Node} {place index : Nat} {c : Pattern}
    {cs : List Pattern}
    (hm : matchChildren g s node place index b (c :: cs) = .ok (some b'))
    (hc : checkChildren registry .input s place index bound (c :: cs) = .ok bound') :
    c = .ellipsis ∧ b' = b ∧ bound' = bound ∨
    c = .result ∧ index = place ∧
      matchChildren g s node place (index + 1) b cs = .ok (some b') ∧
      checkChildren registry .input s place (index + 1) bound cs = .ok bound' ∨
    index ≠ place ∧ (∃ k i x b₁ bound₁, s.inputSlot index = some k ∧
      node.inputs[k]? = some i ∧ g.source? i = some x ∧
      matchFrom g b x c = .ok (some b₁) ∧ check registry .input bound c = .ok bound₁ ∧
      matchChildren g s node place (index + 1) b₁ cs = .ok (some b') ∧
      checkChildren registry .input s place (index + 1) bound₁ cs = .ok bound') ∨
    c = .wildcard false ∧ index ≠ place ∧ (∃ k x, s.inputSlot index = none ∧
      s.outputSlot index = some k ∧ node.outputs[k]? = some x ∧
      matchChildren g s node place (index + 1) (b ++ [x]) cs = .ok (some b') ∧
      checkChildren registry .input s place (index + 1) (bound + 1) cs = .ok bound') := by
  rw [matchChildren] at hm
  rcases checkChildren_cons hc with ⟨he, rfl⟩ | ⟨he, hc⟩
  · simp only [he, if_true] at hm
    cases hm
    have hc : c = .ellipsis := by cases c <;> simp_all [isEllipsis]
    exact .inl ⟨hc, rfl, rfl⟩
  · right
    simp only [he, Bool.false_eq_true, if_false] at hm
    rcases hc with ⟨rfl, rfl, hcs⟩ | ⟨hi, hin, bound₁, hc, hcs⟩ | ⟨hi, hin, rfl, hcs⟩
    · simp only [if_true, isResult] at hm
      exact .inl ⟨rfl, rfl, hm, hcs⟩
    · right
      left
      simp only [hi, if_false, bind_eq_ok] at hm
      obtain ⟨o?, ho, hm⟩ := hm
      obtain ⟨k, i, port, hk, hki, hp, rfl⟩ := portAt_input hin ho
      split at hm
      · cases hm
      · rename_i x hx
        obtain ⟨b?, hb, hm⟩ := bind_eq_ok.1 hm
        split at hm
        · cases hm
        · rename_i b₁
          exact ⟨hi, k, i, x, b₁, bound₁, hk, hki, source?_eq_some.2 ⟨port, hp, hx⟩, hb, hc, hm,
            hcs⟩
    · right
      right
      simp only [hi, if_false, bind_eq_ok] at hm
      obtain ⟨o?, ho, hm⟩ := hm
      obtain ⟨k, x, hk, hx, rfl⟩ := portAt_output hin ho
      obtain ⟨b?, hb, hm⟩ := bind_eq_ok.1 hm
      cases hb
      exact ⟨rfl, hi, k, x, Signature.inputSlot_eq_none hin, hk, hx, hm, hcs⟩

theorem matchElements_cons {e : Pattern} {es : List Pattern} {inputs : List InputId}
    (hl : inputs.length = (e :: es).length)
    (hm : matchElements g b inputs (e :: es) = .ok (some b')) :
    ∃ i rest x b₁, inputs = i :: rest ∧ g.source? i = some x ∧
      matchFrom g b x e = .ok (some b₁) ∧ matchElements g b₁ rest es = .ok (some b') := by
  cases inputs with
  | nil => cases hl
  | cons i rest =>
    simp only [matchElements, bind_eq_ok] at hm
    obtain ⟨o?, ho, hm⟩ := hm
    obtain ⟨port, hp, rfl⟩ := map_eq_ok.1 ho
    split at hm
    · cases hm
    · rename_i x hx
      obtain ⟨b?, hb, hm⟩ := bind_eq_ok.1 hm
      split at hm
      · cases hm
      · rename_i b₁
        exact ⟨i, rest, x, b₁, rfl, source?_eq_some.2 ⟨port, input_eq_ok.1 hp, hx⟩, hb, hm⟩

/-! ## What is bound -/

/-- A match with a pattern that was checked binds one port for each slot that the check counts. -/
structure Binds (b : Bindings) (bound : Nat) (b' : Bindings) (bound' : Nat)
    (P : OutputId → Prop) : Prop where
  append : ∃ l, b' = b ++ l ∧ bound' = bound + l.length ∧ ∀ x ∈ l, P x

namespace Binds

variable {P Q : OutputId → Prop}

theorem refl (b : Bindings) (bound : Nat) : Binds b bound b bound P :=
  ⟨[], by simp⟩

theorem trans {b₁ : Bindings} {bound₁ : Nat} (h : Binds b bound b₁ bound₁ P)
    (h' : Binds b₁ bound₁ b' bound' P) : Binds b bound b' bound' P := by
  obtain ⟨l, rfl, rfl, hl⟩ := h
  obtain ⟨l', rfl, rfl, hl'⟩ := h'
  refine ⟨l ++ l', by simp, by simp [Nat.add_assoc], fun x hx => ?_⟩
  exact (List.mem_append.1 hx).elim (hl x) (hl' x)

theorem mono (h : Binds b bound b' bound' P) (hi : ∀ x, P x → Q x) : Binds b bound b' bound' Q := by
  obtain ⟨l, hb, hbd, hl⟩ := h
  exact ⟨l, hb, hbd, fun x hx => hi x (hl x hx)⟩

theorem one (x : OutputId) (hx : P x) : Binds b bound (b ++ [x]) (bound + 1) P :=
  ⟨[x], rfl, rfl, by simpa using hx⟩

end Binds

/-- A checked call pattern matches at calls of the module that it was checked for. -/
theorem matchFrom_call_of_check (hv : g.Valid registry) {n : NodeId} {module : ModuleId}
    {factor place : Nat} {children : List Pattern} (ho : g.maker? o = some n)
    (hm : matchFrom g b o (.call module factor place children) = .ok (some b'))
    (hc : check registry .input bound (.call module factor place children) = .ok bound') :
    ∃ node s latency k, g.node? n = some node ∧ node.kind = .call s factor latency ∧
      s.id = module ∧ registry.lookup module = some s ∧ s.outputSlot place = some k ∧
      node.outputs[k]? = some o ∧ matchChildren g s node place 0 b children = .ok (some b') ∧
      checkChildren registry .input s place 0 bound children = .ok bound' := by
  obtain ⟨port, node, s, latency, k, hp, hn, hk, hid, hslot, hout, hms⟩ := matchFrom_call hm
  obtain ⟨s', hhead, hcs⟩ := check_call hc
  have hl := hhead.lookup
  obtain ⟨hs, -⟩ := hv.fits hn s factor latency hk
  obtain rfl : s' = s := Option.some.inj (hl.symm.trans (hid ▸ hs))
  obtain rfl : port.node = n := Option.some.inj ((maker?_eq_some.2 ⟨port, hp, rfl⟩).symm.trans ho)
  exact ⟨node, s', latency, k, hn, hk, hid, hl, hslot, hout, hms, hcs⟩

mutual
/-- What a pattern binds is upstream of the port it matches, and inside of the match unless it is
that port. -/
theorem matchFrom_spec (hv : g.Valid registry) {n : NodeId} {bound bound' : Nat}
    {b b' : Bindings} {o : OutputId} (ho : g.maker? o = some n) :
    (p : Pattern) → matchFrom g b o p = .ok (some b') →
    check registry .input bound p = .ok bound' →
    Binds b bound b' bound' fun x => g.Upstream x n ∧ (x = o ∨ g.Inner x)
  | .call module factor place children, hm, hc => by
    obtain ⟨node, s, latency, k, hn, hk, -, -, -, -, hms, hcs⟩ :=
      matchFrom_call_of_check hv ho hm hc
    refine (matchChildren_spec hv hn (by rw [hk]; rfl) children hms hcs).mono fun x hx => ?_
    obtain ⟨hinner, hx | ⟨j, k, -, -, hx⟩⟩ := hx
    · exact ⟨hx.upstream, .inr hinner⟩
    · exact ⟨⟨_, (hv.coherent.mem_outputs hn).1 (List.mem_of_getElem? hx), .refl⟩, .inr hinner⟩
  | .literal value, hm, hc => by
    obtain ⟨-, rfl⟩ := matchFrom_literal hm
    cases hc
    exact .refl ..
  | .array elements, hm, hc => by
    obtain ⟨port, node, element, hp, hn, hk, hl, hm⟩ := matchFrom_array hm
    obtain rfl : port.node = n := Option.some.inj ((maker?_eq_some.2 ⟨port, hp, rfl⟩).symm.trans ho)
    have hin (i : InputId) (hi : i ∈ node.inputs) : g.owner? i = some port.node ∧
        ∀ x, g.source? i = some x → g.Inner x :=
      ⟨(hv.coherent.mem_inputs hn).1 hi, fun x hs => .element hp hn hk hi hs⟩
    exact (matchElements_spec hv hin elements hl hm (check_array hc)).mono fun x hx =>
      ⟨hx.2.upstream, .inr hx.1⟩
  | .wildcard constant, hm, hc => by
    rw [(matchFrom_wildcard hm).1]
    cases hc
    exact .one o ⟨⟨n, ho, .refl⟩, .inl rfl⟩
  | .slot k, hm, hc => by
    obtain ⟨rfl, -⟩ := matchFrom_slot hv.coherent hm
    rw [check] at hc
    split at hc
    · cases hc
      exact .refl ..
    · cases hc
  | .result, hm, _ => by cases hm
  | .ellipsis, hm, _ => by cases hm

/-- What a child binds is above the call, or it is another of its outputs. -/
theorem matchChildren_spec (hv : g.Valid registry) {n : NodeId} {node : Node} {s : Signature}
    {place index bound bound' : Nat} {b b' : Bindings} (hn : g.node? n = some node)
    (hk : node.kind.isCall = true) :
    (cs : List Pattern) → matchChildren g s node place index b cs = .ok (some b') →
    checkChildren registry .input s place index bound cs = .ok bound' →
    Binds b bound b' bound' fun x => g.Inner x ∧ (g.Above x n ∨
      ∃ j k, j ≠ place ∧ s.outputSlot j = some k ∧ node.outputs[k]? = some x)
  | [], hm, hc => by
    rw [matchChildren] at hm
    rw [checkChildren] at hc
    cases hm
    cases hc
    exact .refl ..
  | c :: cs, hm, hc => by
    rcases matchChildren_cons hm hc with ⟨-, rfl, rfl⟩ | ⟨-, -, hms, hcs⟩ |
      ⟨-, k, i, x, b₁, bound₁, -, hi, hs, hm, hc, hms, hcs⟩ |
      ⟨-, hne, k, x, -, hslot, hx, hms, hcs⟩
    · exact .refl ..
    · exact matchChildren_spec hv hn hk cs hms hcs
    · obtain ⟨m, -, hmk, -⟩ := hv.coherent.source_maker hs
      have hi := List.mem_of_getElem? hi
      have hf : g.Feeds m n :=
        hv.coherent.feeds_of_source ((hv.coherent.mem_inputs hn).1 hi) hs hmk
      refine ((matchFrom_spec hv hmk c hm hc).mono fun y hy => ?_).trans
        (matchChildren_spec hv hn hk cs hms hcs)
      refine ⟨hy.2.elim (fun he => ?_) id, .inl (hy.1.above hf)⟩
      exact .argument hn hk hi (he ▸ hs)
    · have hmk := (hv.coherent.mem_outputs hn).1 (List.mem_of_getElem? hx)
      exact (Binds.one x ⟨.result hmk hn hk, .inr ⟨index, k, hne, hslot, hx⟩⟩).trans
        (matchChildren_spec hv hn hk cs hms hcs)

/-- What an element binds is above the array. -/
theorem matchElements_spec (hv : g.Valid registry) {n : NodeId} {bound bound' : Nat}
    {b b' : Bindings} {inputs : List InputId}
    (hin : ∀ i ∈ inputs, g.owner? i = some n ∧ ∀ x, g.source? i = some x → g.Inner x) :
    (es : List Pattern) → inputs.length = es.length →
    matchElements g b inputs es = .ok (some b') →
    checkElements registry .input bound es = .ok bound' →
    Binds b bound b' bound' fun x => g.Inner x ∧ g.Above x n
  | [], _, hm, hc => by
    rw [matchElements] at hm
    rw [checkElements] at hc
    cases hm
    cases hc
    exact .refl ..
  | e :: es, hl, hm, hc => by
    obtain ⟨i, rest, x, b₁, rfl, hs, hm, hms⟩ := matchElements_cons hl hm
    obtain ⟨bound₁, hc, hcs⟩ := checkElements_cons hc
    obtain ⟨hi, hin⟩ := List.forall_mem_cons.1 hin
    obtain ⟨m, -, hmk, -⟩ := hv.coherent.source_maker hs
    have hf : g.Feeds m n := hv.coherent.feeds_of_source hi.1 hs hmk
    refine ((matchFrom_spec hv hmk e hm hc).mono fun y hy => ?_).trans
      (matchElements_spec hv hin es (Nat.succ.inj hl) hms hcs)
    exact ⟨hy.2.elim (fun he => he ▸ hi.2 x hs) id, hy.1.above hf⟩
end

/-- A match of an input pattern binds the slots that its check counts, to ports upstream of the
matched one. A call pattern does not bind the port it matches. -/
theorem matchAt_spec (hv : g.Valid registry) {p : Pattern} {n : NodeId} {bound : Nat}
    {b : Bindings} {o : OutputId} (hp : p.isCall = true) (ho : g.maker? o = some n)
    (hm : p.matchAt g o = .ok (some b)) (hc : p.check registry .input 0 = .ok bound) :
    bound = b.length ∧ ∀ x ∈ b, g.Upstream x n ∧ x ≠ o ∧ g.Inner x := by
  cases p <;> try cases hp
  case call module factor place children =>
    obtain ⟨node, s, latency, k, hn, hk, -, -, hslot, hout, hms, hcs⟩ :=
      matchFrom_call_of_check hv ho hm hc
    obtain ⟨l, rfl, rfl, hl⟩ := matchChildren_spec hv hn (by rw [hk]; rfl) children hms hcs
    refine ⟨by simp, fun x hx => ?_⟩
    obtain ⟨hinner, ⟨m, hmk, ht⟩ | ⟨j, k', hne, hk', hx'⟩⟩ := hl x hx
    · refine ⟨⟨m, hmk, ht.to_reflTransGen⟩, ?_, hinner⟩
      rintro rfl
      obtain rfl : m = n := Option.some.inj (hmk.symm.trans ho)
      exact hv.acyclic.not_feeds_back ht .refl
    · refine ⟨⟨_, (hv.coherent.mem_outputs hn).1 (List.mem_of_getElem? hx'), .refl⟩, ?_, hinner⟩
      rintro rfl
      -- The outputs of a node are different, and so are the slots of different parameters.
      obtain ⟨hlt, h₁⟩ := List.getElem?_eq_some_iff.1 hout
      obtain ⟨hlt', h₂⟩ := List.getElem?_eq_some_iff.1 hx'
      have hkk : k = k' := (hv.coherent.outputs_nodup hn).getElem_inj_iff.1 (h₁.trans h₂.symm)
      subst hkk
      exact hne (Signature.outputSlot_inj hk' hslot)

end Pattern

/-! ## Matches in graphs that are the same -/

namespace Graph

namespace Same

variable {g g' : Graph}

theorem node (h : Same g g') (n : NodeId) : g'.node n = g.node n := by
  rw [Graph.node, Graph.node, h.node?]

theorem output (h : Same g g') (o : OutputId) : g'.output o = g.output o := by
  rw [Graph.output, Graph.output, h.output?]

theorem source (h : Same g g') (i : InputId) : g'.source i = g.source i := by
  simp only [Graph.source, Graph.input, h.input?]

theorem portAt (h : Same g g') (s : Signature) (node : Node) (place : Nat) :
    g'.portAt s node place = g.portAt s node place := by
  simp only [Graph.portAt, h.source]

theorem askLiteral (h : Same g g') (o : OutputId) : g'.askLiteral o = g.askLiteral o := by
  simp only [Graph.askLiteral, h.output, h.node]

theorem value? (hg : g.Coherent) (ha : g.Acyclic) (hg' : g'.Coherent) (h : Same g g')
    (o : OutputId) : g'.value? o = g.value? o := by
  rw [value?_eq_fold, value?_eq_fold]
  exact h.agree.fold hg ha hg' (h.acyclic ha) trivial

theorem askValue (hg : g.Coherent) (ha : g.Acyclic) (hg' : g'.Coherent) (h : Same g g')
    (o : OutputId) : g'.askValue o = g.askValue o := by
  cases ho : g.output? o with
  | none => rw [askValue_of_dead ho, askValue_of_dead ((h.output? o).trans ho)]
  | some port =>
    rw [hg.askValue_eq ho, hg'.askValue_eq ((h.output? o).trans ho), h.value? hg ha hg']

theorem askStands (hg : g.Coherent) (ha : g.Acyclic) (hg' : g'.Coherent) (h : Same g g')
    (a b : OutputId) : g'.askStands a b = g.askStands a b := by
  simp only [Graph.askStands, Graph.askSameValue, h.askValue hg ha hg']

end Same

end Graph

namespace Pattern

open SignalGraph.Graph

variable {g g' : Graph}

mutual
theorem matchFrom_same (hg : g.Coherent) (ha : g.Acyclic) (hg' : g'.Coherent) (h : Same g g')
    (b : Bindings) (o : OutputId) : (p : Pattern) → matchFrom g' b o p = matchFrom g b o p
  | .call .. => by
    simp only [matchFrom, h.output, h.node, matchChildren_same hg ha hg' h]
  | .literal _ => by simp only [matchFrom, h.askLiteral]
  | .array _ => by simp only [matchFrom, h.output, h.node, matchElements_same hg ha hg' h]
  | .wildcard _ => by simp only [matchFrom, h.output]
  | .slot _ => by simp only [matchFrom, h.askStands hg ha hg']
  | .result => rfl
  | .ellipsis => rfl

theorem matchChildren_same (hg : g.Coherent) (ha : g.Acyclic) (hg' : g'.Coherent) (h : Same g g')
    (s : Signature) (node : Node) (place index : Nat) (b : Bindings) :
    (cs : List Pattern) →
      matchChildren g' s node place index b cs = matchChildren g s node place index b cs
  | [] => rfl
  | c :: cs => by
    simp only [matchChildren, h.portAt, matchFrom_same hg ha hg' h _ _ c,
      matchChildren_same hg ha hg' h s node place _ _ cs]

theorem matchElements_same (hg : g.Coherent) (ha : g.Acyclic) (hg' : g'.Coherent) (h : Same g g')
    (b : Bindings) (inputs : List InputId) :
    (es : List Pattern) → matchElements g' b inputs es = matchElements g b inputs es
  | [] => by simp only [matchElements]
  | e :: es => by
    cases inputs with
    | nil => simp only [matchElements]
    | cons i inputs =>
      simp only [matchElements, h.source, matchFrom_same hg ha hg' h _ _ e,
        matchElements_same hg ha hg' h _ inputs es]
end

end Pattern

end SignalGraph
