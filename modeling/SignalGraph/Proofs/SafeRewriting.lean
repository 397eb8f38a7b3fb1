import SignalGraph.Proofs.Downstream
import SignalGraph.Proofs.Passes
import SignalGraph.Proofs.Safety

/-!
# Rewriting does not fault

A checked pattern can be matched at every port (`exists_matchFrom`), and a checked alternative can
be built from what was matched (`safe_instantiate`). What takes the place of an anchor survives the
collection after it (`Rewrite.port_survives`), because what is collected are nodes that the node of
the anchor depends on, and the consumers of the anchor are not among them. Rewrites keep types
sound, so this goes on for a whole run (`optimize_safe`).
-/

namespace SignalGraph

open SignalGraph.Graph Relation

/-! ## Matching -/

namespace Graph

variable {registry : Registry} {g : Graph}

theorem exists_source {i : InputId} (hi : ∃ n, g.owner? i = some n) :
    ∃ o?, g.source i = .ok o? := by
  obtain ⟨n, hi⟩ := hi
  obtain ⟨port, hp, -⟩ := owner?_eq_some.1 hi
  exact ⟨port.source, map_eq_ok.2 ⟨port, input_eq_ok.2 hp, rfl⟩⟩

/-- A call has a port for each parameter. -/
theorem Valid.exists_portAt (hv : g.Valid registry) {n : NodeId} {node : Node} {s : Signature}
    {factor latency place : Nat} (hn : g.node? n = some node)
    (hk : node.kind = .call s factor latency) (hp : place < s.parameters.length) :
    ∃ o?, g.portAt s node place = .ok o? := by
  obtain ⟨-, hin, hout⟩ := hv.fits hn s factor latency hk
  by_cases hi : (s.parameters[place]?).any Parameter.isInput = true
  · obtain ⟨slot, hs⟩ := Signature.exists_inputSlot hi
    obtain ⟨hlt, -⟩ := List.findIdx?_eq_some_iff_getElem.1 hs
    rw [← hin] at hlt
    simp only [portAt, hs, List.getElem?_eq_getElem hlt]
    exact exists_source ⟨n, (hv.coherent.mem_inputs hn).1 (List.getElem_mem hlt)⟩
  · have ho : s.parameters[place].isInput = false := by
      simpa [List.getElem?_eq_getElem hp] using hi
    obtain ⟨slot, hs⟩ := Signature.exists_outputSlot (List.getElem?_eq_getElem hp) ho
    obtain ⟨hlt, -⟩ := List.findIdx?_eq_some_iff_getElem.1 hs
    rw [← hout] at hlt
    simp only [portAt, Signature.inputSlot_eq_none hi, hs, List.getElem?_eq_getElem hlt]
    exact ⟨_, rfl⟩

end Graph

namespace Pattern

variable {registry : Registry} {g : Graph}

theorem exists_get {b : Bindings} {k : Nat} (h : k < b.length) : ∃ o, Bindings.get b k = .ok o :=
  ⟨_, get_eq_ok.2 (List.getElem?_eq_getElem h)⟩

theorem listed_cons {c : Pattern} {cs : List Pattern} (h : c.isEllipsis = false) :
    listed (c :: cs) = listed cs + 1 := by
  simp only [listed, List.findIdx?_cons, h, Bool.false_eq_true, if_false, List.length_cons]
  cases cs.findIdx? isEllipsis <;> rfl

/-- After a match as many ports are bound as the check counts. -/
theorem Binds.length_eq {b b' : Bindings} {bound bound' : Nat} {P : OutputId → Prop}
    (h : Binds b bound b' bound' P) (hb : bound = b.length) : bound' = b'.length := by
  obtain ⟨l, rfl, rfl, -⟩ := h
  simp [hb]

/-- What is bound stays live. -/
theorem Binds.live {b b' : Bindings} {bound bound' : Nat} {n : NodeId} {P : OutputId → Prop}
    (h : Binds b bound b' bound' fun x => g.Upstream x n ∧ P x)
    (hb : ∀ x ∈ b, ∃ m, g.maker? x = some m) : ∀ x ∈ b', ∃ m, g.maker? x = some m := by
  obtain ⟨l, rfl, -, hl⟩ := h
  refine List.forall_mem_append.2 ⟨hb, fun x hx => ?_⟩
  obtain ⟨⟨m, hm, -⟩, -⟩ := hl x hx
  exact ⟨m, hm⟩

mutual
/-- A checked pattern can be matched at any port, after wildcards that stand for live ports. -/
theorem exists_matchFrom (hv : g.Valid registry) {bound bound' : Nat} {b : Bindings} {o : OutputId}
    (hb : bound = b.length) (hlive : ∀ x ∈ b, ∃ m, g.maker? x = some m)
    (ho : ∃ n, g.maker? o = some n) :
    (p : Pattern) → check registry .input bound p = .ok bound' →
    ∃ found, matchFrom g b o p = .ok found
  | .call module factor place children, hc => by
    obtain ⟨n, ho⟩ := ho
    obtain ⟨port, hp, -⟩ := maker?_eq_some.1 ho
    obtain ⟨node, hn, -⟩ := hv.coherent.node_of_output? hp
    obtain ⟨s', hhead, hcs⟩ := check_call hc
    simp only [matchFrom, output_eq_ok.2 hp, node_eq_ok.2 hn, ok_bind]
    split
    · rename_i s f latency hk
      split
      · rename_i hid
        -- The call is of the module that the pattern was checked for.
        obtain ⟨hs, -, hout⟩ := hv.fits hn s f latency hk
        obtain rfl : s' = s := Option.some.inj (hhead.lookup.symm.trans (hid.1 ▸ hs))
        split
        · rename_i slot hslot
          obtain ⟨hlt, -⟩ := List.findIdx?_eq_some_iff_getElem.1 hslot
          rw [← hout] at hlt
          simp only [List.getElem?_eq_getElem hlt]
          split
          · exact exists_matchChildren hv hb hlive hn hk children
              (by simpa using hhead.listed_le) hcs
          · exact ⟨none, rfl⟩
        · exact ⟨none, rfl⟩
      · exact ⟨none, rfl⟩
    · exact ⟨none, rfl⟩
  | .literal value, hc => by
    obtain ⟨n, ho⟩ := ho
    obtain ⟨port, hp, -⟩ := maker?_eq_some.1 ho
    simp only [matchFrom, hv.coherent.askLiteral_eq hp, ok_bind]
    exact ⟨_, rfl⟩
  | .array elements, hc => by
    obtain ⟨n, ho⟩ := ho
    obtain ⟨port, hp, -⟩ := maker?_eq_some.1 ho
    obtain ⟨node, hn, -⟩ := hv.coherent.node_of_output? hp
    simp only [matchFrom, output_eq_ok.2 hp, node_eq_ok.2 hn, ok_bind]
    split
    · split
      · refine exists_matchElements hv hb hlive elements (fun i hi => ?_) (check_array hc)
        exact ⟨_, (hv.coherent.mem_inputs hn).1 hi⟩
      · exact ⟨none, rfl⟩
    · exact ⟨none, rfl⟩
  | .wildcard constant, hc => by
    obtain ⟨n, ho⟩ := ho
    obtain ⟨port, hp, -⟩ := maker?_eq_some.1 ho
    simp only [matchFrom, output_eq_ok.2 hp, ok_bind]
    split
    · exact ⟨_, rfl⟩
    · exact ⟨_, rfl⟩
  | .slot k, hc => by
    rw [check] at hc
    split at hc
    · rename_i hk
      obtain ⟨x, hx⟩ := exists_get (hb ▸ hk)
      obtain ⟨m, hm⟩ := hlive x (List.mem_of_getElem? (get_eq_ok.1 hx))
      obtain ⟨bound, hbound, -⟩ := maker?_eq_some.1 hm
      obtain ⟨n, ho⟩ := ho
      obtain ⟨port, hp, -⟩ := maker?_eq_some.1 ho
      simp only [matchFrom, hx, hv.coherent.askStands_eq hbound hp, ok_bind]
      exact ⟨_, rfl⟩
    · cases hc
  | .result, hc => nomatch hc
  | .ellipsis, hc => nomatch hc

theorem exists_matchChildren (hv : g.Valid registry) {n : NodeId} {node : Node} {s : Signature}
    {factor latency place index bound bound' : Nat} {b : Bindings} (hb : bound = b.length)
    (hlive : ∀ x ∈ b, ∃ m, g.maker? x = some m) (hn : g.node? n = some node)
    (hk : node.kind = .call s factor latency) :
    (cs : List Pattern) → index + listed cs ≤ s.parameters.length →
    checkChildren registry .input s place index bound cs = .ok bound' →
    ∃ found, matchChildren g s node place index b cs = .ok found
  | [], _, _ => by
    rw [matchChildren]
    exact ⟨_, rfl⟩
  | c :: cs, hl, hc => by
    rw [matchChildren]
    rcases checkChildren_cons hc with ⟨he, -⟩ | ⟨he, hc⟩
    · simp only [he, if_true]
      exact ⟨_, rfl⟩
    · rw [listed_cons he] at hl
      have hindex : index < s.parameters.length := by omega
      have hrest : index + 1 + listed cs ≤ s.parameters.length := by omega
      obtain ⟨o?, ho⟩ := hv.exists_portAt hn hk hindex
      simp only [he, Bool.false_eq_true, if_false]
      rcases hc with ⟨rfl, rfl, hcs⟩ | ⟨hi, hin, bound₁, hc, hcs⟩ | ⟨hi, hin, rfl, hcs⟩
      · simp only [isResult, if_true]
        exact exists_matchChildren hv hb hlive hn hk cs hrest hcs
      · simp only [hi, if_false, ho, ok_bind]
        obtain ⟨slot, i, port, -, -, hp, rfl⟩ := portAt_input hin ho
        split
        · exact ⟨none, rfl⟩
        · rename_i o hs
          obtain ⟨m, -, hm, -⟩ := hv.coherent.source_maker (source?_eq_some.2 ⟨port, hp, hs⟩)
          obtain ⟨found, hfound⟩ := exists_matchFrom hv hb hlive ⟨m, hm⟩ c hc
          simp only [hfound, ok_bind]
          cases found with
          | none => exact ⟨none, rfl⟩
          | some b₁ =>
            have hbinds := matchFrom_spec hv hm c hfound hc
            exact exists_matchChildren hv (hbinds.length_eq hb) (hbinds.live hlive) hn hk cs hrest
              hcs
      · simp only [hi, if_false, ho, ok_bind]
        obtain ⟨slot, x, -, hx, rfl⟩ := portAt_output hin ho
        have hmaker := (hv.coherent.mem_outputs hn).1 (List.mem_of_getElem? hx)
        refine exists_matchChildren hv ?_ ?_ hn hk cs hrest hcs
        · simp [hb]
        · exact List.forall_mem_append.2 ⟨hlive, List.forall_mem_singleton.2 ⟨n, hmaker⟩⟩

theorem exists_matchElements (hv : g.Valid registry) {bound bound' : Nat} {b : Bindings}
    {inputs : List InputId} (hb : bound = b.length)
    (hlive : ∀ x ∈ b, ∃ m, g.maker? x = some m) :
    (es : List Pattern) → (∀ i ∈ inputs, ∃ n, g.owner? i = some n) →
    checkElements registry .input bound es = .ok bound' →
    ∃ found, matchElements g b inputs es = .ok found
  | [], _, _ => by
    rw [matchElements]
    exact ⟨_, rfl⟩
  | e :: es, hin, hc => by
    cases inputs with
    | nil =>
      rw [matchElements]
      exact ⟨_, rfl⟩
    | cons i inputs =>
      obtain ⟨hi, hin⟩ := List.forall_mem_cons.1 hin
      obtain ⟨bound₁, hc, hcs⟩ := checkElements_cons hc
      obtain ⟨o?, ho⟩ := exists_source hi
      simp only [matchElements, ho, ok_bind]
      obtain ⟨port, hp, rfl⟩ := map_eq_ok.1 ho
      split
      · exact ⟨none, rfl⟩
      · rename_i o hs
        obtain ⟨m, -, hm, -⟩ :=
          hv.coherent.source_maker (source?_eq_some.2 ⟨port, input_eq_ok.1 hp, hs⟩)
        obtain ⟨found, hfound⟩ := exists_matchFrom hv hb hlive ⟨m, hm⟩ e hc
        simp only [hfound, ok_bind]
        cases found with
        | none => exact ⟨none, rfl⟩
        | some b₁ =>
          have hbinds := matchFrom_spec hv hm e hfound hc
          exact exists_matchElements hv (hbinds.length_eq hb) (hbinds.live hlive) es hin hcs
end

/-! ## Instantiation -/

mutual
/-- Alternatives bind nothing. -/
theorem bound_of_check {bound bound' : Nat} :
    (p : Pattern) → check registry .output bound p = .ok bound' → bound' = bound
  | .call module factor place children, h => by
    obtain ⟨s, -, hcs⟩ := check_call h
    exact bound_of_checkChildren children hcs
  | .literal value, h => by
    cases h
    rfl
  | .array elements, h => bound_of_checkElements elements (check_array h)
  | .wildcard constant, h => nomatch h
  | .slot k, h => by
    rw [check] at h
    split at h
    · cases h
      rfl
    · cases h
  | .result, h => nomatch h
  | .ellipsis, h => nomatch h

theorem bound_of_checkChildren {s : Signature} {place index bound bound' : Nat} :
    (cs : List Pattern) → checkChildren registry .output s place index bound cs = .ok bound' →
    bound' = bound
  | [], h => by
    rw [checkChildren] at h
    cases h
    rfl
  | c :: cs, h => by
    rcases checkChildren_cons h with ⟨-, rfl⟩ | ⟨-, ⟨-, -, hcs⟩ | ⟨-, -, bound₁, hc, hcs⟩ |
      ⟨-, -, -, hcs⟩⟩
    · rfl
    · exact bound_of_checkChildren cs hcs
    · exact (bound_of_checkChildren cs hcs).trans (bound_of_check c hc)
    · exact bound_of_checkChildren cs hcs

theorem bound_of_checkElements {bound bound' : Nat} :
    (es : List Pattern) → checkElements registry .output bound es = .ok bound' → bound' = bound
  | [], h => by
    rw [checkElements] at h
    cases h
    rfl
  | e :: es, h => by
    obtain ⟨bound₁, he, hes⟩ := checkElements_cons h
    exact (bound_of_checkElements es hes).trans (bound_of_check e he)
end

/-- In an alternative, a child is checked at the place of an in parameter and skipped at others. -/
theorem checkChildren_output {s : Signature} {place slot index bound bound' : Nat} {q : Parameter}
    {c : Pattern} {cs : List Pattern} (hslot : s.outputSlot place = some slot)
    (hq : s.parameters[index]? = some q) (he : c.isEllipsis = false)
    (h : checkChildren registry .output s place index bound (c :: cs) = .ok bound') :
    (q.isInput = true ∧ check registry .output bound c = .ok bound ∨ q.isInput = false) ∧
      checkChildren registry .output s place (index + 1) bound cs = .ok bound' := by
  rcases checkChildren_cons h with ⟨he', -⟩ | ⟨-, ⟨rfl, -, hcs⟩ | ⟨-, hin, bound₁, hc, hcs⟩ |
    ⟨-, hin, -, hcs⟩⟩
  · cases he.symm.trans he'
  · exact ⟨.inr (Signature.isInput_of_outputSlot hslot hq), hcs⟩
  · obtain rfl := bound_of_check c hc
    exact ⟨.inl ⟨by simpa [hq] using hin, hc⟩, hcs⟩
  · exact ⟨.inr (by simpa [hq] using hin), hcs⟩

section Parts

variable {env : Environment} {b : Bindings} {location : Option Location} {w w' : Workspace}

/-- One port is built for each in parameter. -/
theorem length_of_instantiateArguments {parameters : List Parameter} {cs : List Pattern}
    {ports : List OutputId} (hl : cs.length = parameters.length)
    (h : instantiateArguments env b location w parameters cs = .ok (w', .ok ports)) :
    ports.length = parameters.countP Parameter.isInput := by
  induction cs generalizing w parameters ports with
  | nil =>
    obtain rfl := List.length_eq_zero_iff.1 hl.symm
    rw [instantiateArguments] at h
    cases h
    rfl
  | cons c cs ih =>
    cases parameters with
    | nil => cases hl
    | cons q parameters =>
      by_cases hq : q.isInput = true
      · obtain ⟨w₁, o, rest, -, hrest, rfl⟩ := instantiateArguments_cons hq h
        simp [hq, ih (Nat.succ.inj hl) hrest]
      · rw [instantiateArguments, if_neg hq] at h
        simp [hq, ih (Nat.succ.inj hl) h]

theorem length_of_instantiateElements {es : List Pattern} {ports : List OutputId}
    (h : instantiateElements env b location w es = .ok (w', .ok ports)) :
    ports.length = es.length := by
  induction es generalizing w ports with
  | nil =>
    rw [instantiateElements] at h
    cases h
    rfl
  | cons e es ih =>
    obtain ⟨w₁, o, rest, -, hrest, rfl⟩ := instantiateElements_cons h
    simp [ih hrest]

theorem safe_added {g g' : Graph} {kind : Kind} {sources : List OutputId}
    {results : List (DataType × Nat)} {runs : List Preparation} {k : Nat}
    (hi : Inserted g kind location sources results g') (hk : k < results.length) :
    Safe (Workspace.added runs g' g.nextNode k) := by
  refine Safe.bind (safe_of_eq_ok (hi.port_eq_ok.2 ⟨hk, rfl⟩)) fun _ _ => safe_ok _

/-- A call of a registered module with live arguments can be added. -/
theorem safe_instantiateCall {s : Signature} {module : ModuleId} {factor place k : Nat}
    {arguments : List OutputId} (hr : env.registry.Reached) (hg : w.graph.Coherent)
    (ht : w.graph.Typed) (hs : env.registry.lookup module = some s) (hf : 0 < factor)
    (hk : s.outputSlot place = some k) (hlen : arguments.length = s.inputs.length)
    (hl : ∀ o ∈ arguments, ∃ port, w.graph.output? o = some port) :
    Safe (instantiateCall env w location s module factor place arguments) := by
  refine (Call.safe_ready hg hf hs hl ht hlen).bind fun made hmade => ?_
  obtain ⟨run, result⟩ := made
  cases result with
  | error e => exact safe_ok _
  | ok c =>
    refine (Call.safe_insert hg hf hs hl hr hmade rfl).bind fun p hp => ?_
    obtain ⟨g, n⟩ := p
    obtain ⟨latency, results, rfl, -, hfits, hi⟩ :=
      Call.Ready.inserted_of_insert hr hg hmade rfl hp
    obtain ⟨hlook, -⟩ := Call.ready_eq_ok hmade rfl
    obtain rfl : s = c.signature := Option.some.inj (hs.symm.trans hlook)
    obtain ⟨-, -, hout⟩ := hfits _ _ _ rfl
    obtain ⟨hlt, -⟩ := List.findIdx?_eq_some_iff_getElem.1 hk
    simp only [hk]
    exact safe_added hi (hout ▸ hlt)

theorem safe_instantiateArray {ports : List OutputId} (hg : w.graph.Coherent)
    (ht : w.graph.Typed) (hne : ports ≠ [])
    (hl : ∀ o ∈ ports, ∃ port, w.graph.output? o = some port) :
    Safe (instantiateArray w location ports) := by
  have helement : Safe (elementType w.graph ports) := by
    cases ports with
    | nil => exact absurd rfl hne
    | cons o rest =>
      obtain ⟨port, hp⟩ := hl o List.mem_cons_self
      simp only [elementType, output_eq_ok.2 hp, ok_bind]
      split
      · exact safe_ok _
      · exact safe_ok _
  refine helement.bind fun r _ => ?_
  cases r with
  | error e => exact safe_ok _
  | ok element =>
    obtain ⟨answer, hanswer⟩ := arrayResult_answers ht hl
    refine (safe_of_eq_ok hanswer).bind fun r _ => ?_
    cases r with
    | error e => exact safe_ok _
    | ok made =>
      obtain ⟨g', hi, hins⟩ := insert_spec hg (.array element) location [made] hl
      simp only [hi, ok_bind]
      exact safe_added hins (by simp)

end Parts

mutual
/-- A checked alternative can be built, or is refused. -/
theorem safe_instantiate {env : Environment} {b : Bindings} {location : Option Location}
    {w : Workspace} {bound bound' : Nat} (hr : env.registry.Reached)
    (hv : w.graph.Valid env.registry) (ht : w.graph.Typed) (hb : bound = b.length)
    (hl : ∀ o ∈ b, ∃ out, w.graph.output? o = some out) :
    (p : Pattern) → check env.registry .output bound p = .ok bound' →
    Safe (instantiate env b location w p)
  | .call module factor place children, hc => by
    obtain ⟨s, hhead, hcs⟩ := check_call hc
    obtain ⟨k, hk⟩ := hhead.slot
    obtain ⟨hlen, hopen⟩ := hhead.full rfl
    simp only [instantiate, hhead.lookup]
    refine (safe_instantiateArguments hr hv ht hb hl hk List.drop_zero children hlen hopen
      hcs).bind fun r hargs => ?_
    obtain ⟨w₁, r⟩ := r
    cases r with
    | error e => exact safe_ok _
    | ok arguments =>
      have hbuilt := instantiateArguments_spec hr hv hl _ children hargs
      obtain ⟨runs, hadd⟩ := instantiateArguments_additions _ children hargs
      have hcount := length_of_instantiateArguments hlen hargs
      exact safe_instantiateCall hr hbuilt.valid.coherent (hadd.typed hv.coherent ht) hhead.lookup
        hhead.factor_pos hk (hcount.trans s.length_inputs.symm) (hbuilt.offers rfl).live
  | .literal value, hc => by
    have hnone : ∀ o ∈ ([] : List OutputId), ∃ port, w.graph.output? o = some port := nofun
    obtain ⟨g', hi, hins⟩ := insert_spec hv.coherent (.constant value) location
      [(value.dataType, 0)] hnone
    rw [instantiate_literal_eq, hi, ok_bind]
    exact safe_added hins (by simp)
  | .array elements, hc => by
    have hne : elements ≠ [] := by
      rintro rfl
      cases hc
    simp only [instantiate]
    refine (safe_instantiateElements hr hv ht hb hl elements (check_array hc)).bind
      fun r helements => ?_
    obtain ⟨w₁, r⟩ := r
    cases r with
    | error e => exact safe_ok _
    | ok ports =>
      have hbuilt := instantiateElements_spec hr hv hl elements helements
      obtain ⟨runs, hadd⟩ := instantiateElements_additions elements helements
      have hcount := length_of_instantiateElements helements
      refine safe_instantiateArray hbuilt.valid.coherent (hadd.typed hv.coherent ht) ?_
        (hbuilt.offers rfl).live
      rintro rfl
      exact hne (List.length_eq_zero_iff.1 hcount.symm)
  | .slot k, hc => by
    rw [check] at hc
    split at hc
    · rename_i hk
      obtain ⟨x, hx⟩ := exists_get (hb ▸ hk)
      exact (safe_of_eq_ok hx).bind fun _ _ => safe_ok _
    · cases hc
  | .wildcard constant, hc => nomatch hc
  | .result, hc => nomatch hc
  | .ellipsis, hc => nomatch hc

theorem safe_instantiateArguments {env : Environment} {b : Bindings}
    {location : Option Location} {w : Workspace} {s : Signature}
    {place slot index bound bound' : Nat} {parameters : List Parameter}
    (hr : env.registry.Reached) (hv : w.graph.Valid env.registry) (ht : w.graph.Typed)
    (hb : bound = b.length) (hl : ∀ o ∈ b, ∃ out, w.graph.output? o = some out)
    (hslot : s.outputSlot place = some slot) (hps : s.parameters.drop index = parameters) :
    (cs : List Pattern) → cs.length = parameters.length → (∀ c ∈ cs, c.isEllipsis = false) →
    checkChildren env.registry .output s place index bound cs = .ok bound' →
    Safe (instantiateArguments env b location w parameters cs)
  | [], _, _, _ => by
    rw [instantiateArguments]
    exact safe_ok _
  | c :: cs, hlen, hopen, hc => by
    obtain ⟨he, hopen⟩ := List.forall_mem_cons.1 hopen
    cases parameters with
    | nil => cases hlen
    | cons q parameters =>
      have hq : s.parameters[index]? = some q := by
        have hget := congrArg (·[0]?) hps
        simpa using hget
      have hps' : s.parameters.drop (index + 1) = parameters := by
        rw [← List.drop_drop, hps, List.drop_one, List.tail_cons]
      have hlen' : cs.length = parameters.length := Nat.succ.inj hlen
      obtain ⟨hfirst, hcs⟩ := checkChildren_output hslot hq he hc
      rw [instantiateArguments]
      rcases hfirst with ⟨hin, hc⟩ | hin
      · rw [if_pos hin]
        refine (safe_instantiate hr hv ht hb hl c hc).bind fun r hfirst => ?_
        obtain ⟨w₁, r⟩ := r
        cases r with
        | error e => exact safe_ok _
        | ok o =>
          have hbuilt := instantiate_spec hr hv hl c hfirst
          obtain ⟨runs, hadd⟩ := instantiate_additions c hfirst
          refine (safe_instantiateArguments hr hbuilt.valid (hadd.typed hv.coherent ht) hb
            (hbuilt.live hl) hslot hps' cs hlen' hopen hcs).bind fun _ _ => safe_ok _
      · rw [if_neg (by simp [hin])]
        exact safe_instantiateArguments hr hv ht hb hl hslot hps' cs hlen' hopen hcs

theorem safe_instantiateElements {env : Environment} {b : Bindings} {location : Option Location}
    {w : Workspace} {bound bound' : Nat} (hr : env.registry.Reached)
    (hv : w.graph.Valid env.registry) (ht : w.graph.Typed) (hb : bound = b.length)
    (hl : ∀ o ∈ b, ∃ out, w.graph.output? o = some out) :
    (es : List Pattern) → checkElements env.registry .output bound es = .ok bound' →
    Safe (instantiateElements env b location w es)
  | [], _ => by
    rw [instantiateElements]
    exact safe_ok _
  | e :: es, hc => by
    obtain ⟨bound₁, he, hes⟩ := checkElements_cons hc
    obtain rfl := bound_of_check e he
    rw [instantiateElements]
    refine (safe_instantiate hr hv ht hb hl e he).bind fun r hfirst => ?_
    obtain ⟨w₁, r⟩ := r
    cases r with
    | error e => exact safe_ok _
    | ok o =>
      have hbuilt := instantiate_spec hr hv hl e hfirst
      obtain ⟨runs, hadd⟩ := instantiate_additions e hfirst
      exact (safe_instantiateElements hr hbuilt.valid (hadd.typed hv.coherent ht) hb
        (hbuilt.live hl) es hes).bind fun _ _ => safe_ok _
end

end Pattern

/-! ## Rewrites -/

namespace Rewrite

variable {env : Environment} {rule : Rule} {n : NodeId} {g g' : Graph}

/-- Rewrites keep types sound. -/
theorem typed (r : Rewrite env rule n g g') (hg : g.Coherent) (ht : g.Typed) : g'.Typed := by
  obtain ⟨runs, hadd⟩ := Pattern.instantiate_additions r.alternative r.built
  have hw : r.workspace.graph.Typed := hadd.typed hg ht
  exact (hw.rewired r.redirect.toRewired).pruned r.collected.1

section

variable (r : Rewrite env rule n g g') (hr : env.registry.Reached) (hv : g.Valid env.registry)
  (hc : rule.Checked env.registry)

include hr hv hc

theorem maker_anchor_workspace : r.workspace.graph.maker? r.anchor.id = some n := by
  rw [(r.built_spec hv hc hr).grown.maker? (lt_of_output? r.anchor_live)]
  exact r.maker_anchor

/-- What the node of the anchor depends on after redirecting, it depended on before: a redirected
link leads to a node that depends on it. -/
theorem path_workspace {v : NodeId} (h : ReflTransGen r.redirected.Feeds v n) :
    ReflTransGen r.workspace.graph.Feeds v n := by
  have hw := (r.built_spec hv hc hr).valid
  have hport : r.workspace.graph.maker? r.port.id = some r.port.node :=
    maker?_eq_some.2 ⟨r.port, r.port_live, rfl⟩
  induction h using ReflTransGen.head_induction_on with
  | refl => exact .refl
  | @head v v' hf _ ih =>
    rcases r.redirect.feeds hw.coherent hport hf with hf | ⟨-, i, hi, hs⟩
    · exact .head hf ih
    · have hnv := hw.coherent.feeds_of_source hi hs (r.maker_anchor_workspace hr hv hc)
      exact absurd ih (hw.acyclic.not_feeds_back (.single hnv))

/-- What takes the place of the anchor survives collection: the consumers of the anchor use it, and
the node of the anchor does not depend on them. -/
theorem port_survives : ∃ port, g'.output? r.port.id = some port := by
  have hbuilt := r.built_spec hv hc hr
  have hw := hbuilt.valid
  obtain ⟨i, hi⟩ := List.exists_mem_of_ne_nil _ r.anchor_used
  have hs : g.source? i = some r.anchor.id := (hv.coherent.mem_consumers r.anchor_live).1 hi
  have hlt := lt_of_source? hs
  rw [← hbuilt.grown.source? hlt] at hs
  obtain ⟨port, hp, -⟩ := source?_eq_some.1 hs
  have ho : r.workspace.graph.owner? i = some port.node := owner?_eq_some.2 ⟨port, hp, rfl⟩
  have hfeeds := hw.coherent.feeds_of_source ho hs (r.maker_anchor_workspace hr hv hc)
  rw [← r.redirect.owner?] at ho
  obtain ⟨c, hlive⟩ := r.redirect.coherent.owner_live ho
  cases hc' : g'.node? port.node with
  | none =>
    obtain ⟨w, hmem, hpath⟩ :=
      collectWithin_upstream r.redirect.coherent r.collect hlive hc'
    obtain rfl : w = n := by simpa [Ascending.mem_ofList] using hmem
    exact absurd (r.path_workspace hr hv hc hpath)
      (hw.acyclic.not_feeds_back (.single hfeeds))
  | some node =>
    have hin := r.collected.1.input?_of_owner? r.redirect.coherent hc' ho
    refine r.collected.1.coherent.source_live (i := i) ?_
    rw [source?_congr hin, r.redirect.source?, if_pos hs]

end

end Rewrite

theorem Reaches.typed {env : Environment} {rules : RuleSet} {g g' : Graph}
    (hr : env.registry.Reached) (hrules : ∀ rule ∈ rules.ordered, rule.Checked env.registry)
    (hv : g.Valid env.registry) (ht : g.Typed) (h : Reaches env rules g g') : g'.Typed := by
  induction h with
  | refl => exact ht
  | restore _ hs ih => exact ih.same hs.toSame
  | rewrite hreach hm hrw ih => exact hrw.typed (hreach.valid hr hrules hv).coherent ih

namespace Rewriting

variable {env : Environment} {b : Bindings} {anchor : OutputPort} {location : Option Location}
  {g : Graph} {n : NodeId}

/-- Checked alternatives can be tried one after another. -/
theorem safe_replace {bound : Nat} {runs : List Preparation} (hr : env.registry.Reached)
    (hv : g.Valid env.registry) (ht : g.Typed) (hb : bound = b.length)
    (hl : ∀ x ∈ b, ∃ out, g.output? x = some out) (ps : List Pattern)
    (hps : ∀ p ∈ ps, ∃ bound', p.check env.registry .output bound = .ok bound') :
    Safe (replace env b anchor location g runs ps) := by
  induction ps generalizing g runs with
  | nil => exact safe_ok _
  | cons p ps ih =>
    obtain ⟨⟨bound', hp⟩, hps⟩ := List.forall_mem_cons.1 hps
    simp only [replace]
    have hsafe : Safe (p.instantiate env b location { graph := g }) :=
      Pattern.safe_instantiate hr hv ht hb hl p hp
    refine hsafe.bind fun r hi => ?_
    obtain ⟨w, built⟩ := r
    have hbuilt := Pattern.instantiate_spec (w := { graph := g }) hr hv hl p hi
    obtain ⟨g₁, hd, hres⟩ := discard_spec hv.coherent hbuilt.valid.coherent hbuilt.grown
    have hl₁ (x : OutputId) (hx : x ∈ b) : ∃ out, g₁.output? x = some out := by
      rw [hres.output?]
      exact hl x hx
    have hrest := @ih g₁ (w.runs ++ runs) (hres.valid hv) (ht.same hres.toSame) hl₁ hps
    cases built with
    | error e =>
      simp only [hd, ok_bind]
      exact hrest
    | ok o =>
      obtain ⟨port, hport⟩ := (hbuilt.offers rfl).live o (by simp)
      simp only [output_eq_ok.2 hport, ok_bind]
      split
      · exact safe_ok _
      · simp only [hd, ok_bind]
        exact hrest

/-- A call has the output that a rule asks for. -/
theorem safe_anchor? {node : Node} {sig : Signature} {factor latency : Nat} {rule : Rule}
    (hv : g.Valid env.registry) (hn : g.node? n = some node)
    (hk : node.kind = .call sig factor latency) : Safe (anchor? g sig n rule) := by
  obtain ⟨-, -, hout⟩ := hv.fits hn sig factor latency hk
  simp only [anchor?]
  split
  · split
    · exact safe_ok _
    · rename_i slot hslot
      obtain ⟨hlt, -⟩ := List.findIdx?_eq_some_iff_getElem.1 hslot
      rw [← hout] at hlt
      have hm := (hv.coherent.mem_outputs hn).1 (List.getElem_mem hlt)
      obtain ⟨port, hp, -⟩ := maker?_eq_some.1 hm
      simp only [Graph.port, node_eq_ok.2 hn, List.getElem?_eq_getElem hlt, ok_bind,
        output_eq_ok.2 hp]
      exact safe_ok _
  · exact safe_ok _

/-- A replacement that was built can take the place of its anchor, and that is a rewrite. -/
theorem exists_commit {rule : Rule} {p : Pattern} {w : Workspace} {r : Replacement}
    {port : OutputPort} (depths : Depths) (hr : env.registry.Reached) (hv : g.Valid env.registry)
    (hc : rule.Checked env.registry) (ha : g.output? anchor.id = some anchor)
    (hnode : anchor.node = n) (hused : anchor.consumers ≠ [])
    (hm : rule.input.matchAt g anchor.id = .ok (some b)) (mem : p ∈ rule.outputs)
    (built : p.instantiate env b location { graph := g } = .ok (w, .ok r.port))
    (live : w.graph.output? r.port = some port) (ne : r.port ≠ anchor.id)
    (type : port.type = anchor.type) (latency : port.latency = anchor.latency) :
    ∃ g₂ count requeue, ∃ made : Rewrite env rule n g g₂,
      w.graph.redirect anchor.id r.port = .ok (made.redirected, count) ∧
      commit depths w.graph n anchor.id r = .ok (g₂, made.removed, requeue) := by
  have hl := (bound_of_matchAt hv hc ha hm).1
  have hbuilt := Pattern.instantiate_spec (w := { graph := g }) hr hv hl p built
  have hw := hbuilt.valid.coherent
  obtain ⟨out, hout, -⟩ := hbuilt.grown.output?_isSome ha
  obtain ⟨g₁, hredirect, hred⟩ := redirect_spec hw ne.symm hout live
  obtain ⟨g₂, removed, hcol, hpruned, -⟩ := collectFrom_spec hred.coherent [n]
  obtain ⟨made, rfl, rfl, hport, -⟩ := exists_rewrite hw ha hnode hused hm mem built live ne type
    latency hred hcol
  obtain ⟨port', hp'⟩ := made.port_survives hr hv hc
  rw [hport] at hp'
  obtain ⟨node, hnode', -⟩ := hpruned.coherent.node_of_output? hp'
  obtain ⟨requeue, hrequeue, -⟩ := hpruned.coherent.askEnabled_spec depths r.watermark hnode'
  refine ⟨g₂, _, requeue, made, hredirect, ?_⟩
  simp only [commit, hredirect, hcol, output_eq_ok.2 hp', hrequeue, ok_bind, pure_eq_ok]

theorem safe_tryRules {depths : Depths} {allowed : Bool} {node : Node} {sig : Signature}
    {factor latency : Nat} {s : Rewriting} (hr : env.registry.Reached)
    (hv : s.graph.Valid env.registry) (ht : s.graph.Typed) (hn : s.graph.node? n = some node)
    (hk : node.kind = .call sig factor latency) (rules : List Rule)
    (hrules : ∀ rule ∈ rules, rule.Checked env.registry) :
    Safe (tryRules env depths allowed sig n location s rules) := by
  induction rules generalizing s with
  | nil => exact safe_ok _
  | cons rule rules ih =>
    obtain ⟨hc, hrules⟩ := List.forall_mem_cons.1 hrules
    have hrest := ih hv ht hn hrules
    simp only [tryRules]
    refine (safe_anchor? hv hn hk).bind fun anchor ha => ?_
    cases anchor with
    | none => exact hrest
    | some anchor =>
      obtain ⟨hlive, hnode, hused⟩ := anchor?_eq_ok hv.coherent ha
      have hmk : s.graph.maker? anchor.id = some anchor.node :=
        maker?_eq_some.2 ⟨anchor, hlive, rfl⟩
      obtain ⟨bound, hin, hout⟩ := hc.patterns
      obtain ⟨found, hm⟩ := Pattern.exists_matchFrom (b := []) hv rfl (List.forall_mem_nil _)
        ⟨_, hmk⟩ rule.input hin
      rw [← Pattern.matchAt] at hm
      simp only [hm, ok_bind]
      cases found with
      | none => exact hrest
      | some b =>
        have hlen := (Pattern.matchAt_spec hv hc.isCall hmk hm hin).1
        obtain ⟨hblive, hbne⟩ := bound_of_matchAt hv hc hlive hm
        cases allowed with
        | false => exact safe_ok _
        | true =>
          simp only [Bool.not_true, Bool.false_eq_true, if_false]
          refine (safe_replace hr hv ht hlen hblive rule.outputs hout).bind fun r hrep => ?_
          obtain ⟨g₁, runs₁, found⟩ := r
          cases replace_spec hr hv hblive hbne hlive rule.outputs hrep with
          | rejected restored all =>
            simp only [askWarn_eq ((restored.output? _).trans hlive), ok_bind]
            refine @ih (warn ⟨g₁, runs₁, s.warned, s.diagnostics⟩ rule.name anchor location)
              ?_ ?_ ?_ hrules
            · simpa using restored.valid hv
            · simpa using ht.same restored.toSame
            · simpa [restored.node?] using hn
          | @accepted g₂ w p port r restored mem built graph live ne type latency =>
            subst graph
            have hm₂ := (Pattern.matchFrom_same hv.coherent hv.acyclic restored.coherent
              restored.toSame [] anchor.id rule.input).trans hm
            obtain ⟨_, _, _, _, -, hcommit⟩ := exists_commit depths hr (restored.valid hv) hc
              ((restored.output? _).trans hlive) hnode hused hm₂ mem built live ne type latency
            exact (safe_of_eq_ok hcommit).bind fun _ _ => safe_ok _

theorem safe_visit {rules : RuleSet} {allowed : Bool} {s : Rewriting} {node : Node}
    (hr : env.registry.Reached) (hv : s.graph.Valid env.registry) (ht : s.graph.Typed)
    (hrules : ∀ rule ∈ rules.ordered, rule.Checked env.registry)
    (hn : s.graph.node? n = some node) : Safe (visit env rules allowed s n) := by
  simp only [visit, node_eq_ok.2 hn, ok_bind]
  split
  · rename_i sig factor latency hk
    refine safe_tryRules hr hv ht hn hk _ fun rule hrule => ?_
    exact hrules rule (List.mem_filter.1 hrule).1
  · exact safe_ok _

theorem safe_run {rules : RuleSet} {report : Report} {changed : Bool} {agenda : Agenda}
    {s : Rewriting} (hr : env.registry.Reached)
    (hrules : ∀ rule ∈ rules.ordered, rule.Checked env.registry)
    (hv : s.graph.Valid env.registry) (ht : s.graph.Typed) :
    Safe (run env rules report changed agenda s) := by
  have hnext {s s' : Rewriting} {allowed : Bool} {n : NodeId} {v : Visit}
      (hv : s.graph.Valid env.registry) (ht : s.graph.Typed)
      (h : visit env rules allowed s n = .ok (s', v)) :
      s'.graph.Valid env.registry ∧ s'.graph.Typed := by
    have hreach := visit_reaches hr hv hrules h
    exact ⟨hreach.valid hr hrules hv, hreach.typed hr hrules hv ht⟩
  fun_induction run env rules report changed agenda s with
  | case1 report agenda s _ ih => exact ih hv ht
  | case2 report changed agenda s => exact safe_ok _
  | case3 report changed agenda s n rest _ hlive fault hvis =>
    obtain ⟨node, hn⟩ := contains_iff.1 hlive
    rintro f ⟨⟩
    exact safe_visit hr hv ht hrules hn fault hvis
  | case4 report changed agenda s n rest _ _ s₁ hvis ih =>
    obtain ⟨hv, ht⟩ := hnext hv ht hvis
    exact ih hv ht
  | case5 report changed agenda s n rest _ _ s₁ rule hvis => exact safe_ok _
  | case6 report changed agenda s n rest _ _ s₁ rule removed requeue hvis _ ih =>
    obtain ⟨hv, ht⟩ := hnext hv ht hvis
    exact ih hv ht
  | case7 report changed agenda s n rest _ _ s₁ rule removed requeue hvis => exact safe_ok _
  | case8 report changed agenda s n rest _ _ ih => exact ih hv ht

/-- Optimizing with checked rules faults at most because a number outgrew its 32 bits. -/
theorem optimize_safe {rules : RuleSet} (hr : env.registry.Reached)
    (hrules : ∀ rule ∈ rules.ordered, rule.Checked env.registry) (hv : g.Valid env.registry)
    (ht : g.Typed) : Safe (optimize env rules g) := by
  obtain ⟨g₀, removed, hc, hp, -⟩ := collect_spec hv.coherent
  simp only [optimize, hc, ok_bind]
  split
  · exact safe_ok _
  · exact safe_run hr hrules (hp.valid hv) (ht.pruned hp)

/-- Optimizing keeps types sound. -/
theorem optimize_typed {rules : RuleSet} {s : Rewriting} {result : Except RewriteError Report}
    (hr : env.registry.Reached) (hrules : ∀ rule ∈ rules.ordered, rule.Checked env.registry)
    (hv : g.Valid env.registry) (ht : g.Typed) (h : optimize env rules g = .ok (s, result)) :
    s.graph.Typed := by
  obtain ⟨g₀, hp, -, hreach⟩ := optimize_reaches hr hrules hv h
  exact hreach.typed hr hrules (hp.valid hv) (ht.pruned hp)

end Rewriting

end SignalGraph
