import SignalGraph.Proofs.Additions
import SignalGraph.Proofs.Excess

/-!
# Building does not fault

A computation is `Safe` if it faults at most because a number outgrew its 32 bits. Building a
description is safe (`Description.build_safe`): references are resolved to ports that are there,
calls are made of registered modules with the right number of arguments, and types are made from
sound types. Each function has one lemma, which says what it has to be given.

Only calls can overflow. Everything else comes to an answer, and a description faults exactly if one
of its calls overflows when it is reached (`Description.build_eq_error`).
-/

namespace SignalGraph

open SignalGraph.Graph

theorem Fault.isOverflow_iff {f : Fault} :
    f.isOverflow = true ↔ f = .addOverflow ∨ f = .mulOverflow := by
  cases f <;> simp [isOverflow]

/-- Faults at most because a number outgrew its 32 bits. -/
def Safe {α : Type} (x : Except Fault α) : Prop :=
  ∀ f, x = .error f → f.isOverflow = true

section Safe

variable {α β : Type}

theorem safe_ok (a : α) : Safe (.ok a) :=
  fun _ h => nomatch h

theorem safe_of_eq_ok {x : Except Fault α} {a : α} (h : x = .ok a) : Safe x :=
  h ▸ safe_ok a

/-- What comes next may rely on what was found. -/
theorem Safe.bind {x : Except Fault α} {f : α → Except Fault β} (hx : Safe x)
    (hf : ∀ a, x = .ok a → Safe (f a)) : Safe (x >>= f) := by
  cases x with
  | error e => exact fun e' h => hx e' (by simpa using h)
  | ok a => exact hf a rfl

namespace Word

theorem safe_add (a b : Nat) : Safe (add a b) := by
  intro fault h
  obtain ⟨rfl, -⟩ := add_eq_error.1 h
  rfl

end Word

end Safe

/-! ## Calls -/

namespace Call

variable {env : Environment} {g : Graph} {module : ModuleId} {factor : Nat}
  {arguments : List OutputId} {location : Option Location} {s : Signature}

section Build

variable (hg : g.Coherent) (hf : 0 < factor) (hs : env.registry.lookup module = some s)
  (hl : ∀ o ∈ arguments, ∃ port, g.output? o = some port)

include hg hf hs hl

theorem safe_ready (ht : g.Typed) (hlen : arguments.length = s.inputs.length) :
    Safe (ready env g module factor arguments location) := by
  obtain ⟨m, hm, rfl⟩ := Option.map_eq_some_iff.1 hs
  intro fault h
  obtain ⟨rfl, -⟩ := (ready_eq_error hm hg ht hf hlen hl).1 h
  rfl

/-- A call that is ready can be inserted. -/
theorem safe_insert (hr : env.registry.Reached) {made : Made Ready} {c : Ready}
    (h : ready env g module factor arguments location = .ok made) (hc : made.result = .ok c) :
    Safe (c.insert g factor arguments location) := by
  obtain ⟨m, hm, rfl⟩ := Option.map_eq_some_iff.1 hs
  obtain ⟨hlook, -⟩ := ready_eq_ok h hc
  have hsig : m.signature = c.signature := Option.some.inj (hs.symm.trans hlook)
  have hvalid := (hr.of_module? hm).2
  rw [hsig] at hvalid
  exact fun fault h => ((Ready.insert_eq_error hg hf hvalid hl).1 h).isOverflow

theorem safe_build (hr : env.registry.Reached) (ht : g.Typed)
    (hlen : arguments.length = s.inputs.length) :
    Safe (build env g module factor arguments location) := by
  obtain ⟨m, hm, rfl⟩ := Option.map_eq_some_iff.1 hs
  exact fun fault h => ((build_eq_error hm hg ht hf hlen hl hr).1 h).isOverflow

end Build

end Call

/-! ## Arrays and structs -/

namespace Graph

variable {g : Graph}

theorem elementsFrom_answers {element : Primitive} {l : List (OutputId × Nat)} (e : Elements)
    (hl : ∀ q ∈ l, ∃ port, g.output? q.1 = some port) :
    ∃ r, (g.elementsFrom element e l).run = .ok r := by
  induction l generalizing e with
  | nil => exact ⟨_, rfl⟩
  | cons q l ih =>
    obtain ⟨o, index⟩ := q
    obtain ⟨⟨port, hp⟩, hl⟩ := List.forall_mem_cons.1 hl
    simp only [elementsFrom, output_eq_ok.2 hp, Outcome.lift_ok_bind]
    split
    · exact ih _ hl
    · exact ⟨_, rfl⟩

theorem arrayResult_answers {element : Primitive} {elements : List OutputId} (ht : g.Typed)
    (hl : ∀ o ∈ elements, ∃ port, g.output? o = some port) :
    ∃ r, (g.arrayResult element elements).run = .ok r := by
  refine Outcome.bind_answers (elementsFrom_answers {} fun q hq => ?_) fun e he => ?_
  · exact hl q.1 (List.fst_mem_of_mem_zipIdx hq)
  · refine Outcome.bind_answers (Outcome.lift_answers ?_) fun _ _ => ⟨_, rfl⟩
    have hgathers := gathers_of_elementsFrom 0 (fun _ => rfl) he
    cases hu : e.factor with
    | none => exact ⟨_, DataType.toArray_eq_ok.2 ⟨by simp [DataType.constant], rfl⟩⟩
    | some u =>
      -- The rate is that of an element, which has a sound type.
      obtain ⟨o, ho, port, hp, hpu, -⟩ := (hgathers.attained hu).resolve_left (by simp)
      obtain ⟨port', hp', hprim, -⟩ := hgathers.live ho
      obtain rfl := Option.some.inj (hp.symm.trans hp')
      have hsound := ht.output? hp
      have hvar := DataType.varying_eq_ok.2 ⟨Nat.ne_of_gt (hsound.factor_pos hpu), fun hstr => ?_,
        (rfl : (⟨some element, some u, false⟩ : DataType) = _)⟩
      · simp only [arrayType, hvar, ok_bind]
        exact ⟨_, DataType.toArray_eq_ok.2 ⟨by simp, rfl⟩⟩
      · have hnone := (DataType.sound_iff.1 hsound).2.2 (hstr ▸ hprim)
        rw [hpu] at hnone
        cases hnone

theorem addArray_answers {element : Primitive} {elements : List OutputId}
    {location : Option Location} (hg : g.Coherent) (ht : g.Typed)
    (hl : ∀ o ∈ elements, ∃ port, g.output? o = some port) :
    ∃ r, g.addArray element elements location = .ok r :=
  insertChecked_answers hg
    (Outcome.bind_answers (arrayResult_answers ht hl) fun _ _ => ⟨_, rfl⟩) hl

end Graph

/-! ## Descriptions -/

namespace Loader

variable {env : Environment} {l l' : Loader} {n : NodeId}

/-- The graph is in order, and names stand for nodes that are there. -/
structure Sound (l : Loader) : Prop where
  coherent : l.graph.Coherent
  typed : l.graph.Typed
  named {name : String} {n : NodeId} : (name, n) ∈ l.names → ∃ node, l.graph.node? n = some node

namespace Sound

theorem empty : Sound {} :=
  ⟨.empty, .empty, nofun⟩

/-- Names stay good when nodes are added. -/
theorem additions (h : l.Sound) {g : Graph} {runs : List Preparation}
    (ha : Additions env l.graph runs g) : Sound { l with graph := g } where
  coherent := ha.coherent h.coherent
  typed := ha.typed h.coherent h.typed
  named hn := by
    obtain ⟨node, hn⟩ := h.named hn
    exact ⟨node, ha.node? h.coherent hn⟩

theorem insert (h : l.Sound) {g : Graph} {kind : Kind} {location : Option Location}
    {sources : List OutputId} {results : List (DataType × Nat)}
    (h' : l.graph.insert kind location sources results = .ok (g, n))
    (hs : ∀ r ∈ results, r.1.Sound) :
    Sound { l with graph := g } ∧ ∃ node, g.node? n = some node := by
  obtain ⟨rfl, hi⟩ := inserted_of_insert h.coherent h'
  refine ⟨⟨hi.coherent, h.typed.inserted hi hs, fun {name m} hm => ?_⟩, _,
    (hi.node? _).trans (if_pos rfl)⟩
  obtain ⟨node, hn⟩ := h.named hm
  rw [hi.node?]
  split
  · exact ⟨_, rfl⟩
  · exact ⟨node, hn⟩

theorem addInput (h : l.Sound) (name : String) {type : DataType} (ht : type.Sound)
    (location : Option Location) :
    Sound { l with graph := (l.graph.addInput name type location).1 } ∧
      ∃ node, (l.graph.addInput name type location).1.node? (l.graph.addInput name type location).2
        = some node :=
  h.insert (addInput_eq_insert l.graph name type location) (by simpa using ht)

theorem modifySurface (h : l.Sound) (f : Surface → Surface) : (l.modifySurface f).Sound :=
  ⟨h.coherent.withSurface _, h.typed, h.named⟩

theorem bind (h : l.Sound) {name : String} (hn : ∃ node, l.graph.node? n = some node)
    (hb : l.bind name n = .ok l') : l'.Sound := by
  unfold Loader.bind at hb
  split at hb
  · cases hb
  · cases hb
    refine ⟨h.coherent, h.typed, fun hm => ?_⟩
    rcases List.mem_cons.1 hm with heq | hm
    · cases heq
      exact hn
    · exact h.named hm

end Sound

/-- A reference means a port that is there. -/
theorem resolve_live (h : l.Sound) {node reference : String} {o : OutputId}
    (hr : (l.resolve node reference).run = .ok (.ok o)) :
    ∃ port, l.graph.output? o = some port := by
  simp only [resolve] at hr
  split at hr
  · cases hr
  · simp only [Outcome.bind_eq_ok, Outcome.lift_eq_ok, node_eq_ok] at hr
    obtain ⟨node, hn, hr⟩ := hr
    split at hr
    · rename_i o' ho
      cases hr
      obtain ⟨port, hp, -⟩ :=
        maker?_eq_some.1 ((h.coherent.mem_outputs hn).1 (List.mem_of_getElem? ho))
      exact ⟨port, hp⟩
    · cases hr

theorem resolve_answers (h : l.Sound) (node reference : String) :
    ∃ r, (l.resolve node reference).run = .ok r := by
  simp only [resolve]
  split
  · exact ⟨_, rfl⟩
  · rename_i id hid
    obtain ⟨l₁, l₂, hl, -⟩ := List.lookup_eq_some_iff.1 hid
    have hmem : ((l.target reference).1, id) ∈ l.names := by simp [hl]
    obtain ⟨node, hn⟩ := h.named hmem
    simp only [node_eq_ok.2 hn, Outcome.lift_ok_bind]
    split
    · exact ⟨_, rfl⟩
    · exact ⟨_, rfl⟩

theorem resolveAll_spec (h : l.Sound) (node : String) (references : List String) :
    (∃ r, (l.resolveAll node references).run = .ok r) ∧ ∀ ports,
      (l.resolveAll node references).run = .ok (.ok ports) →
        ports.length = references.length ∧ ∀ o ∈ ports, ∃ port, l.graph.output? o = some port := by
  induction references with
  | nil =>
    refine ⟨⟨_, rfl⟩, fun ports hp => ?_⟩
    cases hp
    simp
  | cons reference rest ih =>
    simp only [resolveAll]
    refine ⟨Outcome.bind_answers (resolve_answers h _ _) fun o _ =>
      Outcome.bind_answers ih.1 fun _ _ => ⟨_, rfl⟩, fun ports hp => ?_⟩
    simp only [Outcome.bind_eq_ok] at hp
    obtain ⟨o, ho, os, hos, hp⟩ := hp
    cases hp
    obtain ⟨hlen, hlive⟩ := ih.2 os hos
    exact ⟨by simp [hlen], List.forall_mem_cons.2 ⟨resolve_live h ho, hlive⟩⟩

theorem resolveFields_spec (h : l.Sound) (node : String) (fields : List (String × String)) :
    (∃ r, (l.resolveFields node fields).run = .ok r) ∧ ∀ ports,
      (l.resolveFields node fields).run = .ok (.ok ports) →
        ∀ f ∈ ports, ∃ port, l.graph.output? f.2 = some port := by
  induction fields with
  | nil =>
    refine ⟨⟨_, rfl⟩, fun ports hp => ?_⟩
    cases hp
    simp
  | cons field rest ih =>
    obtain ⟨name, reference⟩ := field
    simp only [resolveFields]
    refine ⟨Outcome.bind_answers (resolve_answers h _ _) fun o _ =>
      Outcome.bind_answers ih.1 fun _ _ => ⟨_, rfl⟩, fun ports hp => ?_⟩
    simp only [Outcome.bind_eq_ok] at hp
    obtain ⟨o, ho, os, hos, hp⟩ := hp
    cases hp
    exact List.forall_mem_cons.2 ⟨resolve_live h ho, ih.2 os hos⟩

theorem ofExcept_answers {α : Type} (e : Except DescriptionError α) :
    ∃ r, (ofExcept e).run = .ok r :=
  ⟨e, rfl⟩

theorem built_answers {node : String} {location : Option Location}
    {x : Except Fault (Graph × Except BuildError NodeId)} (h : ∃ r, x = .ok r) :
    ∃ r, (built node location x).run = .ok r := by
  obtain ⟨⟨g, e | n⟩, rfl⟩ := h
  · exact ⟨.error (.build node location e), rfl⟩
  · exact ⟨.ok (g, n), rfl⟩

theorem addInput_spec (h : l.Sound) (c : Channel) :
    (∃ r, (l.addInput c).run = .ok r) ∧ ∀ l', (l.addInput c).run = .ok (.ok l') → l'.Sound := by
  refine ⟨?_, fun l' hl => ?_⟩
  · exact Outcome.bind_answers (ofExcept_answers _) fun type _ =>
      Outcome.bind_answers (ofExcept_answers _) fun l₁ _ => ⟨_, rfl⟩
  · simp only [addInput, Outcome.bind_eq_ok, ofExcept_eq_ok] at hl
    obtain ⟨type, ht, l₁, hb, hl⟩ := hl
    cases hl
    obtain ⟨hs, hlive⟩ := h.addInput c.name (sound_of_channelType ht) c.location
    exact (hs.bind hlive hb).modifySurface _

theorem addSink_spec (h : l.Sound) (s : Sink) :
    (∃ r, (l.addSink s).run = .ok r) ∧
      ∀ l' n, (l.addSink s).run = .ok (.ok (l', n)) → l'.Sound := by
  refine ⟨?_, fun l' n hl => ?_⟩
  · refine Outcome.bind_answers (ofExcept_answers _) fun type _ =>
      Outcome.bind_answers (resolve_answers h _ _) fun source hs =>
      Outcome.bind_answers (built_answers ?_) fun _ _ => ⟨_, rfl⟩
    obtain ⟨port, hp⟩ := resolve_live h hs
    exact addOutput_answers h.coherent hp
  · simp only [addSink, Outcome.bind_eq_ok, built_eq_ok] at hl
    obtain ⟨type, -, source, -, ⟨g, m⟩, hadd, hl⟩ := hl
    cases hl
    obtain ⟨port, -, -, hi⟩ := addOutput_eq_ok.1 hadd
    exact (h.insert hi (List.forall_mem_nil _)).1

theorem addBoundary_spec (h : l.Sound) (name source : String) (type : ChannelType)
    (location : Option Location) :
    (∃ r, (l.addBoundary name type source location).run = .ok r) ∧ ∀ l' n,
      (l.addBoundary name type source location).run = .ok (.ok (l', n)) →
        l'.Sound ∧ ∃ node, l'.graph.node? n = some node := by
  obtain ⟨hanswers, hsound⟩ := addSink_spec h { name, type, source, location }
  refine ⟨?_, fun l' n hl => ?_⟩
  · exact Outcome.bind_answers hanswers fun p _ =>
      Outcome.bind_answers (ofExcept_answers _) fun type _ => ⟨_, rfl⟩
  · simp only [addBoundary, Outcome.bind_eq_ok, ofExcept_eq_ok] at hl
    obtain ⟨⟨l₁, sink⟩, hsink, dataType, ht, hl⟩ := hl
    cases hl
    have hs := (hsound l₁ sink hsink).modifySurface fun s =>
      { s with boundaryOutputs := s.boundaryOutputs ++ [sink] }
    obtain ⟨hs', hlive⟩ := hs.addInput name (sound_of_channelType ht) location
    exact ⟨hs'.modifySurface _, hlive⟩

theorem addArray_spec (h : l.Sound) (node : String) (location : Option Location)
    (element : Primitive) (elements : List String) :
    (∃ r, (l.addArray node location element elements).run = .ok r) ∧ ∀ l' n,
      (l.addArray node location element elements).run = .ok (.ok (l', n)) →
        l'.Sound ∧ ∃ node, l'.graph.node? n = some node := by
  obtain ⟨hanswers, hlive⟩ := resolveAll_spec h node elements
  refine ⟨?_, fun l' n hl => ?_⟩
  · exact Outcome.bind_answers hanswers fun ports hp =>
      Outcome.bind_answers
        (built_answers (addArray_answers h.coherent h.typed (hlive ports hp).2)) fun _ _ => ⟨_, rfl⟩
  · simp only [addArray, Outcome.bind_eq_ok, built_eq_ok] at hl
    obtain ⟨ports, -, ⟨g, m⟩, hadd, hl⟩ := hl
    cases hl
    obtain ⟨result, hres, hi⟩ := addArray_eq_ok.1 hadd
    exact h.insert hi (by simpa using (arrayOf_of_arrayResult hres).sound)

theorem addStruct_spec (h : l.Sound) (node : String) (location : Option Location)
    (fields : List (String × String)) :
    (∃ r, (l.addStruct node location fields).run = .ok r) ∧ ∀ l' n,
      (l.addStruct node location fields).run = .ok (.ok (l', n)) →
        l'.Sound ∧ ∃ node, l'.graph.node? n = some node := by
  obtain ⟨hanswers, hlive⟩ := resolveFields_spec h node fields
  refine ⟨?_, fun l' n hl => ?_⟩
  · exact Outcome.bind_answers hanswers fun ports hp =>
      Outcome.bind_answers (built_answers (addStruct_answers h.coherent (hlive ports hp)))
        fun _ _ => ⟨_, rfl⟩
  · simp only [addStruct, Outcome.bind_eq_ok, built_eq_ok] at hl
    obtain ⟨ports, -, ⟨g, m⟩, hadd, hl⟩ := hl
    cases hl
    exact h.insert (addStruct_eq_ok.1 hadd).2 (by simpa using DataType.sound_struct)

/-- A call is planned for a registered module, at a rate, and with arguments that are there. -/
theorem planCall_spec (hr : env.registry.Reached) (h : l.Sound) (node module : String)
    (factor : Nat) (arguments : List String) :
    (∃ r, (l.planCall env node module factor arguments).run = .ok r) ∧ ∀ id ports,
      (l.planCall env node module factor arguments).run = .ok (.ok (id, ports)) →
        ∃ s, env.registry.lookup id = some s ∧ 0 < factor ∧ ports.length = s.inputs.length ∧
          ∀ o ∈ ports, ∃ port, l.graph.output? o = some port := by
  simp only [planCall]
  cases hname : env.registry.lookupName module with
  | none => exact ⟨⟨_, rfl⟩, fun id ports hp => by cases hp⟩
  | some s =>
    obtain ⟨id, -, hlook⟩ := Option.bind_eq_some_iff.1 hname
    have hid := hr.id_of_lookup hlook
    dsimp only
    split
    · exact ⟨⟨_, rfl⟩, fun id ports hp => by cases hp⟩
    · rename_i hlen
      split
      · exact ⟨⟨_, rfl⟩, fun id ports hp => by cases hp⟩
      · rename_i hf
        obtain ⟨hanswers, hlive⟩ := resolveAll_spec h node arguments
        refine ⟨Outcome.bind_answers hanswers fun _ _ => ⟨_, rfl⟩, fun id' ports hp => ?_⟩
        obtain ⟨ports', hports, hp⟩ := Outcome.bind_eq_ok.1 hp
        cases hp
        obtain ⟨hcount, hports⟩ := hlive ports hports
        exact ⟨s, hid ▸ hlook, Nat.pos_of_ne_zero hf, hcount.trans (not_not.1 hlen).symm, hports⟩

/-- An entry is a call whose arguments are found, and it overflows. -/
inductive Overflows (env : Environment) (l : Loader) (e : Entry) : Fault → Prop where
  | call {name : String} {factor : Nat} {references : List String} {m : Module}
    {ports : List OutputId} {fault : Fault} (kind : e.kind = .call name factor references)
    (found : (l.planCall env e.name name factor references).run =
      .ok (.ok (m.signature.id, ports)))
    (registered : env.registry.module? m.signature.id = some m)
    (overflows : Call.Overflows env l.graph m factor ports e.location fault) :
    Overflows env l e fault

theorem addCall_spec (hr : env.registry.Reached) (h : l.Sound) (e : Entry) (module : String)
    (factor : Nat) (arguments : List String) :
    (e.kind = .call module factor arguments → ∀ fault,
      l.addCall env e module factor arguments = .error fault ↔ l.Overflows env e fault) ∧
    ∀ run l' n, l.addCall env e module factor arguments = .ok (run, .ok (l', n)) →
      l'.Sound ∧ ∃ node, l'.graph.node? n = some node := by
  obtain ⟨⟨planned, hplanned⟩, hplan⟩ := planCall_spec hr h e.name module factor arguments
  refine ⟨fun hkind fault => ?_, fun run l' n hl => ?_⟩
  · have hbuild {id : ModuleId} {m : Module} {ports : List OutputId}
        (hp : (l.planCall env e.name module factor arguments).run = .ok (.ok (id, ports)))
        (hm : env.registry.module? id = some m) :
        Call.build env l.graph id factor ports e.location = .error fault ↔
          Call.Overflows env l.graph m factor ports e.location fault := by
      obtain ⟨s, hs, hf, hlen, hports⟩ := hplan id ports hp
      rw [Registry.lookup, hm] at hs
      cases hs
      exact Call.build_eq_error hm h.coherent h.typed hf hlen hports hr
    constructor
    · intro hfault
      rcases bind_eq_error.1 hfault with hfault | ⟨r, hp, hfault⟩
      · cases hplanned.symm.trans hfault
      · cases r with
        | error err => cases hfault
        | ok p =>
          obtain ⟨id, ports⟩ := p
          obtain ⟨s, hs, -⟩ := hplan id ports hp
          obtain ⟨m, hm, -⟩ := Option.map_eq_some_iff.1 hs
          obtain ⟨rfl, -⟩ := hr.of_module? hm
          rcases bind_eq_error.1 hfault with hfault | ⟨⟨g, made⟩, -, hfault⟩
          · exact .call hkind hp hm ((hbuild hp hm).1 hfault)
          · dsimp only at hfault
            split at hfault
            · cases hfault
            · cases hfault
    · rintro ⟨hkind', hp, hm, hover⟩
      cases hkind.symm.trans hkind'
      rw [addCall, hp, ok_bind]
      dsimp only
      rw [(hbuild hp hm).2 hover]
      rfl
  · simp only [addCall] at hl
    obtain ⟨planned, -, hl⟩ := SignalGraph.bind_eq_ok.1 hl
    split at hl
    · cases hl
    · obtain ⟨⟨g, made⟩, hmade, hl⟩ := SignalGraph.bind_eq_ok.1 hl
      split at hl
      · cases hl
      · rename_i m hm
        cases hl
        refine ⟨h.additions (Additions.addition_call hmade hm).one, ?_⟩
        obtain ⟨s, latency, results, rfl, -, hi⟩ := Call.inserted_of_build hr h.coherent hmade hm
        exact ⟨_, (hi.node? _).trans (if_pos rfl)⟩

theorem quietly_answers {α : Type} {o : Outcome DescriptionError α} (h : ∃ r, o.run = .ok r) :
    ∃ r, quietly o = .ok r := by
  obtain ⟨r, hr⟩ := h
  exact ⟨(none, r), by rw [quietly, hr]; rfl⟩

/-- What is no call does not overflow. -/
theorem not_overflows {e : Entry} {fault : Fault}
    (hkind : ∀ name factor references, e.kind ≠ .call name factor references) :
    ¬ l.Overflows env e fault := by
  rintro ⟨hcall, -⟩
  exact hkind _ _ _ hcall

theorem addNode_spec (hr : env.registry.Reached) (h : l.Sound) (e : Entry) :
    (∀ fault, l.addNode env e = .error fault ↔ l.Overflows env e fault) ∧
    ∀ run l' n, l.addNode env e = .ok (run, .ok (l', n)) →
      l'.Sound ∧ ∃ node, l'.graph.node? n = some node := by
  have hquiet {x : Except Fault (Option Preparation × Except DescriptionError (Loader × NodeId))}
      (hx : ∃ r, x = .ok r)
      (hkind : ∀ name factor references, e.kind ≠ .call name factor references) (fault : Fault) :
      x = .error fault ↔ l.Overflows env e fault := by
    obtain ⟨r, rfl⟩ := hx
    exact iff_of_false (by simp) (not_overflows hkind)
  unfold addNode
  split
  · rename_i hkind
    refine ⟨hquiet ⟨_, rfl⟩ (by simp [hkind]), fun run l' n hl => ?_⟩
    cases hl
    exact h.insert (addConstant_eq_insert l.graph _ e.location)
      (by simpa [Literal.dataType] using DataType.sound_constant _)
  · rename_i hkind
    obtain ⟨hanswers, hspec⟩ := addArray_spec h e.name e.location _ _
    exact ⟨hquiet (quietly_answers hanswers) (by simp [hkind]),
      fun run l' n hl => hspec l' n (quietly_eq_ok hl)⟩
  · rename_i hkind
    obtain ⟨hanswers, hspec⟩ := addStruct_spec h e.name e.location _
    exact ⟨hquiet (quietly_answers hanswers) (by simp [hkind]),
      fun run l' n hl => hspec l' n (quietly_eq_ok hl)⟩
  · rename_i hkind
    obtain ⟨hfault, hspec⟩ := addCall_spec hr h e _ _ _
    exact ⟨hfault hkind, hspec⟩
  · rename_i hkind
    obtain ⟨hanswers, hspec⟩ := addBoundary_spec h e.name _ _ e.location
    exact ⟨hquiet (quietly_answers hanswers) (by simp [hkind]),
      fun run l' n hl => hspec l' n (quietly_eq_ok hl)⟩

theorem addEntry_spec (hr : env.registry.Reached) (h : l.Sound) (e : Entry) :
    (∀ fault, l.addEntry env e = .error fault ↔ l.Overflows env e fault) ∧
    ∀ run l', l.addEntry env e = .ok (run, .ok l') → l'.Sound := by
  obtain ⟨hfault, hspec⟩ := addNode_spec hr h e
  refine ⟨fun fault => ?_, fun run l' hl => ?_⟩
  · rw [addEntry, bind_eq_error, hfault]
    refine or_iff_left ?_
    rintro ⟨⟨run, _ | ⟨l₁, m⟩⟩, -, h⟩
    · cases h
    · cases h
  · simp only [addEntry] at hl
    obtain ⟨⟨run₁, r⟩, hn, hl⟩ := SignalGraph.bind_eq_ok.1 hl
    cases r with
    | error err => cases hl
    | ok p =>
      obtain ⟨l₁, m⟩ := p
      simp only [pure_eq_ok, Except.ok.injEq, Prod.mk.injEq] at hl
      obtain ⟨hl₁, hlive⟩ := hspec run₁ l₁ m hn
      exact hl₁.bind hlive hl.2

theorem addInputs_spec (h : l.Sound) (cs : List Channel) :
    (∃ r, (l.addInputs cs).run = .ok r) ∧ ∀ l', (l.addInputs cs).run = .ok (.ok l') → l'.Sound := by
  induction cs generalizing l with
  | nil =>
    refine ⟨⟨_, rfl⟩, fun l' hl => ?_⟩
    cases hl
    exact h
  | cons c cs ih =>
    obtain ⟨hanswers, hspec⟩ := addInput_spec h c
    refine ⟨Outcome.bind_answers hanswers fun l₁ hl => (ih (hspec l₁ hl)).1, fun l' hl => ?_⟩
    simp only [addInputs, Outcome.bind_eq_ok] at hl
    obtain ⟨l₁, hc, hl⟩ := hl
    exact (ih (hspec l₁ hc)).2 l' hl

/-- Entries are added up to the first that overflows. -/
theorem addEntries_spec (hr : env.registry.Reached) (h : l.Sound) (es : List Entry) :
    (∀ fault, l.addEntries env es = .error fault ↔ ∃ before e after runs l',
      es = before ++ e :: after ∧ l.addEntries env before = .ok (runs, .ok l') ∧
        l'.Overflows env e fault) ∧
    ∀ runs l', l.addEntries env es = .ok (runs, .ok l') → l'.Sound := by
  induction es generalizing l with
  | nil =>
    refine ⟨fun fault => iff_of_false (by simp [addEntries]) (by simp), fun runs l' hl => ?_⟩
    cases hl
    exact h
  | cons e es ih =>
    obtain ⟨hfault, hspec⟩ := addEntry_spec hr h e
    refine ⟨fun fault => ⟨fun hf => ?_, ?_⟩, fun runs l' hl => ?_⟩
    · rcases bind_eq_error.1 hf with hf | ⟨⟨run, _ | l₁⟩, he, hf⟩
      · exact ⟨[], e, es, [], l, rfl, rfl, (hfault fault).1 hf⟩
      · cases hf
      · rcases bind_eq_error.1 hf with hf | ⟨rest, -, hf⟩
        · obtain ⟨before, e', after, runs, l', rfl, hbefore, hover⟩ :=
            ((ih (hspec run l₁ he)).1 fault).1 hf
          exact ⟨e :: before, e', after, _, l', rfl,
            addEntries_cons.2 ⟨run, l₁, runs, he, hbefore, rfl⟩, hover⟩
        · cases hf
    · rintro ⟨before, e', after, runs, l', hes, hbefore, hover⟩
      cases before with
      | nil =>
        cases hes
        cases hbefore
        exact bind_eq_error.2 (.inl ((hfault fault).2 hover))
      | cons first before =>
        obtain ⟨rfl, rfl⟩ := List.cons.inj hes
        obtain ⟨run, l₁, runs₁, he, hbefore, -⟩ := addEntries_cons.1 hbefore
        have hrest := ((ih (hspec run l₁ he)).1 fault).2
          ⟨before, e', after, runs₁, l', rfl, hbefore, hover⟩
        simp only [addEntries, he, hrest, ok_bind, error_bind]
    · obtain ⟨run, l₁, runs₁, he, hes, -⟩ := addEntries_cons.1 hl
      exact (ih (hspec run l₁ he)).2 runs₁ l' hes

theorem addSinks_spec (h : l.Sound) (ss : List Sink) :
    (∃ r, (l.addSinks ss).run = .ok r) ∧ ∀ l', (l.addSinks ss).run = .ok (.ok l') → l'.Sound := by
  induction ss generalizing l with
  | nil =>
    refine ⟨⟨_, rfl⟩, fun l' hl => ?_⟩
    cases hl
    exact h
  | cons s ss ih =>
    obtain ⟨hanswers, hspec⟩ := addSink_spec h s
    refine ⟨Outcome.bind_answers hanswers fun p hp => ?_, fun l' hl => ?_⟩
    · exact (ih ((hspec p.1 p.2 hp).modifySurface _)).1
    · simp only [addSinks, Outcome.bind_eq_ok] at hl
      obtain ⟨⟨l₁, m⟩, hs, hl⟩ := hl
      exact (ih ((hspec l₁ m hs).modifySurface _)).2 l' hl

/-- The sink for one half of the program, if there is one, and what comes after it. -/
theorem addActive_answers (h : l.Sound) {name : String} {active : Option String}
    {f : NodeId → Surface → Surface} {k : Loader → Outcome DescriptionError Graph}
    (hk : ∀ l' : Loader, l'.Sound → ∃ r, (k l').run = .ok r) :
    ∃ r, (match active with
      | none => do
        let l ← pure l
        k l
      | some source => do
        let (l, n) ← l.addSink (activeSink name source)
        let l ← pure (l.modifySurface (f n))
        k l : Outcome DescriptionError Graph).run = .ok r := by
  cases active with
  | none => exact hk l h
  | some source =>
    obtain ⟨hanswers, hspec⟩ := addSink_spec h (activeSink name source)
    exact Outcome.bind_answers hanswers fun p hp => hk _ ((hspec p.1 p.2 hp).modifySurface _)

theorem addOutputs_answers (h : l.Sound) (d : Description) :
    (∃ r, (l.addOutputs d).run = .ok r) := by
  obtain ⟨hanswers, hspec⟩ := addSinks_spec h d.outputs
  refine Outcome.bind_answers hanswers fun l₁ hl => ?_
  refine addActive_answers (f := fun n s => { s with voiceActive := some n }) (hspec l₁ hl)
    fun l₂ hl₂ => ?_
  exact addActive_answers (f := fun n s => { s with effectActive := some n }) hl₂
    fun l₃ hl₃ => ⟨_, rfl⟩

end Loader

namespace Description

variable {env : Environment} {d : Description} {fault : Fault}

/-- What stands before some entry is added, and then the entry overflows. -/
inductive Overflows (env : Environment) (d : Description) : Fault → Prop where
  | entry {l₀ l : Loader} {before after : List Entry} {e : Entry} {runs : List Preparation}
    {fault : Fault} (inputs : (Loader.addInputs {} d.inputs).run = .ok (.ok l₀))
    (split : d.entries = before ++ e :: after)
    (reached : l₀.addEntries env before = .ok (runs, .ok l))
    (overflows : l.Overflows env e fault) : Overflows env d fault

theorem Overflows.isOverflow (h : d.Overflows env fault) : fault.isOverflow = true := by
  cases h with
  | entry _ _ _ overflows =>
    cases overflows with
    | call _ _ _ overflows => exact overflows.isOverflow

/-- Building a description faults exactly if one of its calls overflows. -/
theorem build_eq_error (hr : env.registry.Reached) (d : Description) :
    d.build env = .error fault ↔ d.Overflows env fault := by
  obtain ⟨⟨r, hin⟩, hsound⟩ := Loader.addInputs_spec .empty d.inputs
  constructor
  · intro h
    rcases bind_eq_error.1 h with h | ⟨_ | l₀, hl₀, h⟩
    · cases hin.symm.trans h
    · cases h
    · obtain ⟨hfault, hsound'⟩ := Loader.addEntries_spec hr (hsound l₀ hl₀) d.entries
      rcases bind_eq_error.1 h with h | ⟨⟨runs, _ | l⟩, hl, h⟩
      · obtain ⟨before, e, after, runs, l, hsplit, hreached, hover⟩ := (hfault fault).1 h
        exact .entry hl₀ hsplit hreached hover
      · cases h
      · obtain ⟨r, hout⟩ := Loader.addOutputs_answers (hsound' runs l hl) d
        rcases bind_eq_error.1 h with h | ⟨g, -, h⟩
        · cases hout.symm.trans h
        · cases h
  · rintro ⟨hl₀, hsplit, hreached, hover⟩
    have hentries := ((Loader.addEntries_spec hr (hsound _ hl₀) d.entries).1 fault).2
      ⟨_, _, _, _, _, hsplit, hreached, hover⟩
    simp only [build, hl₀, hentries, ok_bind, error_bind]

theorem build_safe (hr : env.registry.Reached) (d : Description) : Safe (d.build env) :=
  fun _ h => ((build_eq_error hr d).1 h).isOverflow

theorem build_typed {runs : List Preparation} {g : Graph} (h : d.build env = .ok (runs, .ok g)) :
    g.Typed :=
  (build_additions h).typed .empty .empty

end Description

end SignalGraph
