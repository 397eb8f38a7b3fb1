import SignalGraph.Proofs.Arguments
import SignalGraph.Proofs.Safety

/-!
# Which calls are accepted

`Compatible` says in terms of single arguments when a call fits a graph: what type and what rate an
argument has for its parameter, and that one latency of the call accounts for the latencies of all
ports that bring one in (`Brings`). A call on live arguments is accepted exactly if it is compatible
and the hook of its module reports no error (`build_iff_compatible`). Then one node is added; else
the graph stays as it was.
-/

namespace SignalGraph

open SignalGraph.Graph

namespace Call

/-- The port `o` brings its latency into a call with the argument `a`: it is the argument itself, or
an element if the argument is an array node. -/
def Brings (g : Graph) (a o : OutputId) : Prop :=
  ∃ port node, g.output? a = some port ∧ g.node? port.node = some node ∧
    port.type.isConstant = false ∧ (node.kind.isArray = false ∧ o = a ∨
      node.kind.isArray = true ∧ o ∈ g.feeders node ∧
        ∃ out, g.output? o = some out ∧ out.type.isConstant = false)

/-- An in parameter of type `declared` gets an argument of type `found`. -/
def Gets (g : Graph) (s : Signature) (arguments : List OutputId) (declared : ParameterType)
    (found : DataType) : Prop :=
  ∃ (k : Nat) (q : Parameter × Nat) (a : OutputId) (port : OutputPort), s.inputs[k]? = some q ∧
    q.1.type = declared ∧ arguments[k]? = some a ∧ g.output? a = some port ∧ port.type = found

/-- The arguments can be those of a call, and `p` is what is planned for it. -/
structure Compatible (g : Graph) (s : Signature) (factor : Nat) (arguments : List OutputId)
    (p : CallPlan) : Prop where
  type {declared : ParameterType} {found : DataType} : Gets g s arguments declared found →
    found.primitive = some declared.primitive ∧ found.isArray = declared.isArray
  constant {declared : ParameterType} {found : DataType} : Gets g s arguments declared found →
    declared.mutability = .constant → found.isConstant = true
  rate {declared : ParameterType} {found : DataType} {u : Nat} :
    Gets g s arguments declared found → declared.mutability ≠ .constant →
    found.factor = some u → u = declared.factor * factor
  latency {a o : OutputId} {port : OutputPort} {u : Nat} : a ∈ arguments → Brings g a o →
    g.output? o = some port → port.type.factor = some u →
    factor ∣ u ∧ port.latency = p.inputLatency * (u / factor)
  /-- Where no latency comes in, there is none. -/
  quiet : (∀ a ∈ arguments, ∀ o, ¬ Brings g a o) → p.inputLatency = 0
  dependent : p.dependentConstant = true ↔ ∀ declared found, Gets g s arguments declared found →
    declared.mutability = .dependent → found.isConstant = true

variable {g g' : Graph} {s : Signature} {factor : Nat} {arguments : List OutputId} {p : CallPlan}

theorem gets_iff {declared : ParameterType} {found : DataType} :
    Gets g s arguments declared found ↔ ∃ q ∈ (s.inputs.map Prod.fst).zip arguments,
      q.1.type = declared ∧ ∃ port, g.output? q.2 = some port ∧ port.type = found := by
  constructor
  · rintro ⟨k, q, a, port, hq, ht, ha, hp, hf⟩
    refine ⟨(q.1, a), List.mem_of_getElem? (i := k) ?_, ht, port, hp, hf⟩
    rw [List.getElem?_zip_eq_some, List.getElem?_map, hq]
    exact ⟨rfl, ha⟩
  · rintro ⟨⟨q, a⟩, hmem, ht, port, hp, hf⟩
    obtain ⟨k, hk⟩ := List.mem_iff_getElem?.1 hmem
    rw [List.getElem?_zip_eq_some, List.getElem?_map] at hk
    obtain ⟨hq, ha⟩ := hk
    obtain ⟨q', hq', rfl⟩ := Option.map_eq_some_iff.1 hq
    exact ⟨k, q', a, port, hq', ht, ha, hp, hf⟩

theorem mem_late_iff (hg : g.Coherent) {a o : OutputId} {port : OutputPort}
    (hp : g.output? a = some port) : o ∈ late g a ↔ Brings g a o := by
  obtain ⟨node, hn, -⟩ := hg.node_of_output? hp
  rw [mem_late hg hp hn]
  constructor
  · exact fun h => ⟨port, node, hp, hn, h⟩
  · rintro ⟨port', node', hp', hn', h⟩
    obtain rfl := Option.some.inj (hp.symm.trans hp')
    obtain rfl := Option.some.inj (hn.symm.trans hn')
    exact h

theorem Brings.varying {a o : OutputId} (h : Brings g a o) :
    ∃ port u, g.output? o = some port ∧ port.type.factor = some u := by
  obtain ⟨port, node, hp, -, hv, ⟨-, rfl⟩ | ⟨-, -, out, hout, hvo⟩⟩ := h
  · obtain ⟨u, hu⟩ := DataType.isConstant_eq_false.1 hv
    exact ⟨port, u, hp, hu⟩
  · obtain ⟨u, hu⟩ := DataType.isConstant_eq_false.1 hvo
    exact ⟨out, u, hout, hu⟩

/-- To have a latency at the rate of a call, in two ways to say it. -/
theorem aligned_iff {latency u : Nat} {port : OutputPort} (hf : 0 < factor) (hpos : 0 < u)
    (hu : port.type.factor = some u) :
    Aligned factor latency port ↔ factor ∣ u ∧ port.latency = latency * (u / factor) := by
  rw [Aligned, hu, Option.getD_some]
  constructor
  · rintro ⟨k, -, rfl, hlat⟩
    rw [Nat.mul_div_cancel k hf]
    exact ⟨Dvd.intro_left k rfl, hlat⟩
  · rintro ⟨hdvd, hlat⟩
    exact ⟨u / factor, Nat.div_pos (Nat.le_of_dvd hpos hdvd) hf, (Nat.div_mul_cancel hdvd).symm,
      hlat⟩

theorem dependentOn_iff (hlive : ∀ a ∈ arguments, ∃ port, g.output? a = some port) :
    dependentOn g ((s.inputs.map Prod.fst).zip arguments) = true ↔
      ∀ declared found, Gets g s arguments declared found → declared.mutability = .dependent →
        found.isConstant = true := by
  simp only [dependentOn, List.all_eq_true, Bool.or_eq_true, decide_eq_true_eq, gets_iff]
  constructor
  · rintro h _ _ ⟨q, hq, rfl, port, hp, rfl⟩ hdep
    simpa [hdep, hp] using h q hq
  · intro h q hq
    obtain ⟨port, hp⟩ := hlive q.2 (List.of_mem_zip hq).2
    by_cases hdep : q.1.type.mutability = .dependent
    · exact .inr (by simpa [hp] using h _ _ ⟨q, hq, rfl, port, hp, rfl⟩ hdep)
    · exact .inl hdep

section Live

variable (hg : g.Coherent) (ht : g.Typed)
  (hlive : ∀ a ∈ arguments, ∃ port, g.output? a = some port)

include hg ht hlive

theorem Planned.compatible (h : Planned g s factor arguments p) :
    Compatible g s factor arguments p := by
  have haccepts {declared : ParameterType} {found : DataType}
      (hgets : Gets g s arguments declared found) : Accepts declared factor found := by
    obtain ⟨q, hq, rfl, port, hp, rfl⟩ := gets_iff.1 hgets
    obtain ⟨port', hp', haccepts⟩ := h.accepts q hq
    obtain rfl := Option.some.inj (hp.symm.trans hp')
    exact haccepts
  refine
    { type := fun hgets => ⟨(haccepts hgets).primitive, (haccepts hgets).isArray⟩
      constant := fun {declared found} hgets hc => ?_
      rate := fun hgets _ hu => ((haccepts hgets).varying hu).2.2
      latency := fun {a o port u} ha hb hp hu => ?_
      quiet := fun hnone => h.quiet fun a ha => List.eq_nil_iff_forall_not_mem.2 fun o ho => ?_
      dependent := by rw [h.dependent, dependentOn_iff hlive] }
  · by_contra hv
    obtain ⟨u, hu⟩ := DataType.isConstant_eq_false.1 (Bool.not_eq_true _ ▸ hv)
    exact ((haccepts hgets).varying hu).1 hc
  · obtain ⟨found, hfound⟩ := hlive a ha
    obtain ⟨port', hp', hal⟩ := h.aligned a ha o ((mem_late_iff hg hfound).2 hb)
    obtain rfl := Option.some.inj (hp.symm.trans hp')
    exact (aligned_iff h.positive ((ht.output? hp).factor_pos hu) hu).1 hal
  · obtain ⟨found, hfound⟩ := hlive a ha
    exact hnone a ha o ((mem_late_iff hg hfound).1 ho)

end Live

/-! ## Nothing but an overflow stands between -/

theorem accepts_or_exceeds {declared : ParameterType} {found : DataType}
    (htype : found.primitive = some declared.primitive ∧ found.isArray = declared.isArray)
    (hconst : declared.mutability = .constant → found.isConstant = true)
    (hrate : ∀ u, declared.mutability ≠ .constant → found.factor = some u →
      u = declared.factor * factor) :
    Accepts declared factor found ∨ RateExceeds declared factor found := by
  cases hu : found.factor with
  | none => exact .inl ⟨htype.1, htype.2, by simp [hu]⟩
  | some u =>
    have hmut : declared.mutability ≠ .constant := fun hc => by
      simpa [DataType.isConstant, hu] using hconst hc
    by_cases hlt : declared.factor * factor < Word.limit
    · refine .inl ⟨htype.1, htype.2, fun {v} hv => ⟨hmut, hlt, hrate v hmut hv⟩⟩
    · exact .inr ⟨htype.1, htype.2, by simp [DataType.isConstant, hu], hmut, Nat.le_of_not_lt hlt⟩

theorem accepts_or_ratesExceed {pairs : List (Parameter × OutputId)}
    (h : ∀ q ∈ pairs, ∃ port, g.output? q.2 = some port ∧
      (Accepts q.1.type factor port.type ∨ RateExceeds q.1.type factor port.type)) :
    (∀ q ∈ pairs, ∃ port, g.output? q.2 = some port ∧ Accepts q.1.type factor port.type) ∨
      RatesExceed g factor pairs := by
  induction pairs with
  | nil => exact .inl (List.forall_mem_nil _)
  | cons q pairs ih =>
    obtain ⟨⟨port, hp, haccepts | hexceeds⟩, hrest⟩ := List.forall_mem_cons.1 h
    · rcases ih hrest with hall | hexceed
      · exact .inl (List.forall_mem_cons.2 ⟨⟨port, hp, haccepts⟩, hall⟩)
      · exact .inr (.later hp haccepts hexceed)
    · exact .inr (.here hp hexceeds)

/-- A compatible call can be planned, if nothing overflows. -/
theorem Compatible.planned (hg : g.Coherent) (ht : g.Typed) (hf : 0 < factor)
    (hlen : arguments.length = s.inputs.length)
    (hlive : ∀ a ∈ arguments, ∃ port, g.output? a = some port)
    (h : Compatible g s factor arguments p) :
    Planned g s factor arguments p ∨ (plan g s factor arguments).run = .error .mulOverflow := by
  have hpairs : ∀ q ∈ (s.inputs.map Prod.fst).zip arguments, ∃ port, g.output? q.2 = some port ∧
      (Accepts q.1.type factor port.type ∨ RateExceeds q.1.type factor port.type) := by
    intro q hq
    obtain ⟨port, hp⟩ := hlive q.2 (List.of_mem_zip hq).2
    have hgets : Gets g s arguments q.1.type port.type := gets_iff.2 ⟨q, hq, rfl, port, hp, rfl⟩
    exact ⟨port, hp, accepts_or_exceeds (h.type hgets) (h.constant hgets) fun u => h.rate hgets⟩
  rcases accepts_or_ratesExceed hpairs with hall | hexceed
  · refine .inl ⟨hf, hlen, hall, ?_, fun a ha => ?_, fun a ha o ho => ?_, fun hnone => ?_⟩
    · rw [Bool.eq_iff_iff, h.dependent, dependentOn_iff hlive]
    · obtain ⟨port, hp⟩ := hlive a ha
      obtain ⟨l, hl, -⟩ := hg.latePorts_live hp
      exact ⟨l, hl⟩
    · obtain ⟨found, hfound⟩ := hlive a ha
      have hb := (mem_late_iff hg hfound).1 ho
      obtain ⟨port, u, hp, hu⟩ := hb.varying
      refine ⟨port, hp, ?_⟩
      exact (aligned_iff hf ((ht.output? hp).factor_pos hu) hu).2 (h.latency ha hb hp hu)
    · refine h.quiet fun a ha o hb => ?_
      obtain ⟨found, hfound⟩ := hlive a ha
      simpa [hnone a ha] using (mem_late_iff hg hfound).2 hb
  · exact .inr ((plan_eq_error hg ht hf hlen hlive).2 ⟨rfl, hexceed⟩)

/-! ## What comes of a call -/

theorem exists_result {latency : Nat} {l : List (Parameter × Nat)} {rs : List (DataType × Nat)}
    (h : results p factor latency l = .ok rs) {k : Nat} {q : Parameter × Nat}
    (hk : l[k]? = some q) : ∃ r, rs[k]? = some r ∧ Result p factor latency q.1.type r := by
  induction l generalizing rs k with
  | nil => cases hk
  | cons first l ih =>
    simp only [results, bind_eq_ok, pure_eq_ok] at h
    obtain ⟨r, hfirst, rest, hrest, h⟩ := h
    cases h
    cases k with
    | zero =>
      cases hk
      exact ⟨r, rfl, result_eq_ok hfirst⟩
    | succ k => exact ih hrest hk

variable {env : Environment} {m : Module} {module : ModuleId} {location : Option Location}
  {made : Made NodeId} {n : NodeId}

/-- A call is refused by its plan or by its hook, or it is inserted. -/
inductive Became (env : Environment) (g : Graph) (m : Module) (factor : Nat)
    (arguments : List OutputId) (location : Option Location) : Graph → Made NodeId → Prop where
  | unplanned {e : BuildError} : (plan g m.signature factor arguments).run = .ok (.error e) →
    Became env g m factor arguments location g ⟨none, .error e⟩
  | unprepared {p : CallPlan} {run : Preparation} :
    (plan g m.signature factor arguments).run = .ok (.ok p) →
    run = prepare env.settings g m p factor arguments location →
    0 < Diagnostic.errorCount run.prepared.diagnostics →
    Became env g m factor arguments location g ⟨some run, .error (.prepareFailed m.signature.name
      (Diagnostic.errorCount run.prepared.diagnostics))⟩
  | inserted {p : CallPlan} {run : Preparation} {g' : Graph} {n : NodeId} :
    (plan g m.signature factor arguments).run = .ok (.ok p) →
    run = prepare env.settings g m p factor arguments location →
    Diagnostic.errorCount run.prepared.diagnostics = 0 →
    Ready.insert ⟨m.signature, p, run.prepared.latency⟩ g factor arguments location =
      .ok (g', n) →
    Became env g m factor arguments location g' ⟨some run, .ok n⟩

theorem became_of_build (hm : env.registry.module? module = some m) (hg : g.Coherent)
    (hlive : ∀ a ∈ arguments, ∃ port, g.output? a = some port)
    (h : build env g module factor arguments location = .ok (g', made)) :
    Became env g m factor arguments location g' made := by
  simp only [build, ready, hm, bind_assoc] at h
  obtain ⟨planned, hplan, h⟩ := bind_eq_ok.1 h
  cases planned with
  | error e =>
    cases h
    exact .unplanned hplan
  | ok p =>
    simp only [hg.askPrepare_eq hlive, ok_bind] at h
    split at h
    · rename_i herrors
      cases h
      exact .unprepared hplan rfl herrors
    · rename_i herrors
      simp only [pure_eq_ok, ok_bind, bind_eq_ok] at h
      obtain ⟨⟨g', n⟩, hi, h⟩ := h
      cases h
      exact .inserted hplan rfl (Nat.eq_zero_of_not_pos herrors) hi

/-- The node of a call that was inserted: where its arguments go, and what comes out. -/
structure Placed (g : Graph) (s : Signature) (p : CallPlan) (factor latency : Nat)
    (location : Option Location) (arguments : List OutputId) (g' : Graph) (n : NodeId) :
    Prop where
  fresh : n = g.nextNode
  inserted : ∃ results, Inserted g (.call s factor latency) location arguments results g'
  callAt : g'.CallAt n s factor latency arguments
  outputs : ∃ node, g'.node? n = some node ∧ node.outputs.length = s.outputs.length ∧
    ∀ (k : Nat) (q : Parameter × Nat), s.outputs[k]? = some q →
      ∃ o port, node.outputs[k]? = some o ∧ g'.output? o = some port ∧
        Result p factor latency q.1.type (port.type, port.latency)

theorem placed_of_insert {hookLatency : Nat} (hg : g.Coherent)
    (h : Ready.insert ⟨s, p, hookLatency⟩ g factor arguments location = .ok (g', n)) :
    Placed g s p factor (p.inputLatency + hookLatency) location arguments g' n := by
  simp only [Ready.insert, bind_eq_ok] at h
  obtain ⟨latency, hadd, results, hres, hinsert⟩ := h
  obtain ⟨-, rfl⟩ := Word.add_eq_ok.1 hadd
  obtain ⟨rfl, hi⟩ := inserted_of_insert hg hinsert
  have hn := hi.node? g.nextNode
  rw [if_pos rfl] at hn
  refine ⟨rfl, ⟨results, hi⟩, hi.callAt, _, hn, ?_, fun k q hk => ?_⟩
  · rw [Id.length_range, length_of_results hres]
  · obtain ⟨r, hr, hresult⟩ := exists_result hres hk
    obtain ⟨port, hp, -, htype, hlat⟩ := hi.output?_port hr
    refine ⟨_, port, Id.getElem?_range (List.getElem?_eq_some_iff.1 hr).1, hp, ?_⟩
    rw [htype, hlat]
    exact hresult

/-- A call on live arguments that does not overflow is accepted exactly if it is compatible and its
hook reports no error. It is then placed in the graph, and else the graph stays as it was. -/
theorem build_iff_compatible (hr : env.registry.Reached)
    (hm : env.registry.module? module = some m) (hg : g.Coherent) (ht : g.Typed)
    (hf : 0 < factor) (hlen : arguments.length = m.signature.inputs.length)
    (hlive : ∀ a ∈ arguments, ∃ port, g.output? a = some port)
    (hfits : ∀ fault, build env g module factor arguments location = .error fault →
      fault.isOverflow = false) :
    ∃ g' made, build env g module factor arguments location = .ok (g', made) ∧
      ((∃ n, made.result = .ok n) ↔
        ∃ p, Compatible g m.signature factor arguments p ∧ Diagnostic.errorCount
          (prepare env.settings g m p factor arguments location).prepared.diagnostics = 0) ∧
      (∀ n, made.result = .ok n →
        ∃ p run, Compatible g m.signature factor arguments p ∧
          run = prepare env.settings g m p factor arguments location ∧ made.run = some run ∧
          Placed g m.signature p factor (p.inputLatency + run.prepared.latency) location arguments
            g' n) ∧
      ∀ e, made.result = .error e → g' = g ∧
        (made.run = none ∧ (¬ ∃ p, Compatible g m.signature factor arguments p) ∨
          ∃ p run, Compatible g m.signature factor arguments p ∧
            run = prepare env.settings g m p factor arguments location ∧ made.run = some run ∧
            0 < Diagnostic.errorCount run.prepared.diagnostics ∧
            e = .prepareFailed m.signature.name
              (Diagnostic.errorCount run.prepared.diagnostics)) := by
  have hlook : env.registry.lookup module = some m.signature := by
    rw [Registry.lookup, hm]
    rfl
  have hsafe : Safe (build env g module factor arguments location) :=
    safe_build hg hf hlook hlive hr ht hlen
  cases hmade : build env g module factor arguments location with
  | error fault =>
    have hover := hsafe fault hmade
    rw [hfits fault hmade] at hover
    cases hover
  | ok built =>
    obtain ⟨g', made⟩ := built
    have hbecame := became_of_build hm hg hlive hmade
    have hplan : ∃ r, (plan g m.signature factor arguments).run = .ok r := by
      cases hbecame with
      | unplanned hplan | unprepared hplan | inserted hplan => exact ⟨_, hplan⟩
    have hcompatible {p : CallPlan} : Compatible g m.signature factor arguments p ↔
        (plan g m.signature factor arguments).run = .ok (.ok p) := by
      rw [plan_iff]
      refine ⟨fun h => ?_, fun h => h.compatible hg ht hlive⟩
      refine (h.planned hg ht hf hlen hlive).resolve_right fun hover => ?_
      obtain ⟨r, hr⟩ := hplan
      cases hr.symm.trans hover
    simp only [hcompatible]
    refine ⟨g', made, rfl, ?_⟩
    cases hbecame with
    | unplanned hplan =>
      refine ⟨by simp [hplan], by simp, fun e he => ⟨rfl, ?_⟩⟩
      exact .inl ⟨rfl, by simp [hplan]⟩
    | @unprepared p run hplan hrun herrors =>
      refine ⟨?_, by simp, fun e he => ⟨rfl, ?_⟩⟩
      · simp only [hplan, Except.ok.injEq, exists_eq_left', ← hrun, reduceCtorEq, exists_false,
          false_iff]
        exact Nat.ne_of_gt herrors
      · exact .inr ⟨p, run, hplan, hrun, rfl, herrors, (Except.error.inj he).symm⟩
    | @inserted p run _ n hplan hrun hquiet hi =>
      refine ⟨?_, fun n₁ h => ?_, by simp⟩
      · simp only [hplan, Except.ok.injEq, exists_eq_left', ← hrun, hquiet, iff_true]
        exact ⟨n, rfl⟩
      · cases h
        exact ⟨p, run, hplan, hrun, rfl, placed_of_insert hg hi⟩

end Call

namespace Ensemble

def delay : Signature := .unary 1 "delay"

def blend : Signature where
  id := .ofNat 2
  name := "blend"
  parameters :=
    [.float "gain" .input .constant, .float "out" .output .varying 2,
     .float "level" .output .dependent, .float "values" .input .varying 2 true,
     .float "bias" .input .dependent]
  returnParameter := some 1

def env : Environment where
  registry :=
    { modules := [(delay.id, .hosted delay (.fixed 8)), (blend.id, .hosted blend (.fixed 3))]
      names := [("blend", blend.id), ("delay", delay.id)] }
  settings := {}

def program : Description where
  inputs := [{ name := "in", type := { primitive := .float, factor := 4 } }]
  entries :=
    [{ name := "gain", kind := .constant (.float 0x3f800000) },
     { name := "late", kind := .call "delay" 4 ["in"] },
     { name := "even", kind := .array .float ["late", "gain", "late"] },
     { name := "uneven", kind := .array .float ["late", "in"] }]

theorem reached : env.registry.Reached :=
  (Registry.Reached.empty.insert (m := .hosted delay (.fixed 8)) rfl).insert
    (m := .hosted blend (.fixed 3)) rfl

/-- The kind of a call of `blend`, if it is accepted. -/
def blended (values : OutputId) : Option (Option Kind) :=
  match program.build env with
  | .ok (_, .ok g) =>
    match Call.build env g blend.id 2 [⟨1⟩, values, ⟨1⟩] none with
    | .ok (g', made) =>
      if [⟨1⟩, values, ⟨1⟩].all fun a => (g.output? a).isSome then
        match made.result with
        | .ok n => some ((g'.node? n).map Node.kind)
        | .error _ => some none
      else none
    | .error _ => none
  | _ => none

/-- What is known of a call of `blend`. -/
theorem exists_blended {values : OutputId} {kind : Option Kind}
    (h : blended values = some kind) :
    ∃ runs g g' made, program.build env = .ok (runs, .ok g) ∧
      Call.build env g blend.id 2 [⟨1⟩, values, ⟨1⟩] none = .ok (g', made) ∧
      (∀ a ∈ [⟨1⟩, values, ⟨1⟩], ∃ port, g.output? a = some port) ∧
      ((∃ n, made.result = .ok n ∧ (g'.node? n).map Node.kind = kind) ∨
        ∃ e, made.result = .error e ∧ kind = none) := by
  rw [blended] at h
  split at h
  · rename_i runs g hb
    split at h
    · rename_i g' made hmade
      split at h
      · rename_i hlive
        have hports : ∀ a ∈ [⟨1⟩, values, ⟨1⟩], ∃ port, g.output? a = some port := fun a ha =>
          Option.isSome_iff_exists.1 (List.all_eq_true.1 hlive a ha)
        refine ⟨runs, g, g', made, hb, hmade, hports, ?_⟩
        split at h
        · rename_i n hresult
          exact .inl ⟨n, hresult, Option.some.inj h⟩
        · rename_i e hresult
          exact .inr ⟨e, hresult, (Option.some.inj h).symm⟩
      · cases h
    · cases h
  · cases h

end Ensemble

open Ensemble in
/-- Elements that are eight samples late at four times the base rate are four samples late for a
call at twice the base rate, and three more with its hook. With an element that is not late, there
is no such latency. -/
theorem Call.build_iff_compatible_ensemble :
    (∃ runs g g' made n p, program.build env = .ok (runs, .ok g) ∧
      Call.build env g blend.id 2 [⟨1⟩, ⟨3⟩, ⟨1⟩] none = .ok (g', made) ∧
      made.result = .ok n ∧ Call.Compatible g blend 2 [⟨1⟩, ⟨3⟩, ⟨1⟩] p ∧
      Call.Placed g blend p 2 7 none [⟨1⟩, ⟨3⟩, ⟨1⟩] g' n) ∧
    ∃ runs g made e, program.build env = .ok (runs, .ok g) ∧
      Call.build env g blend.id 2 [⟨1⟩, ⟨4⟩, ⟨1⟩] none = .ok (g, made) ∧
      made.result = .error e ∧ made.run = none ∧
      ¬ ∃ p, Call.Compatible g blend 2 [⟨1⟩, ⟨4⟩, ⟨1⟩] p := by
  constructor
  · have h : blended ⟨3⟩ = some (some (.call blend 2 7)) := by cbv
    obtain ⟨runs, g, g', made, hb, hmade, hlive, ⟨n, hresult, hkind⟩ | ⟨-, -, hkind⟩⟩ :=
      exists_blended h
    · have hfits : ∀ fault, Call.build env g blend.id 2 [⟨1⟩, ⟨3⟩, ⟨1⟩] none = .error fault →
          fault.isOverflow = false := by simp [hmade]
      obtain ⟨g₁, made', hmade', -, hok, -⟩ := Call.build_iff_compatible reached
        (m := .hosted blend (.fixed 3)) rfl (Description.build_loaded reached hb).valid.coherent
        (Description.build_typed hb) (by decide) rfl hlive hfits
      cases hmade.symm.trans hmade'
      obtain ⟨p, run, hp, rfl, -, hplaced⟩ := hok n hresult
      obtain ⟨node, hn, hk, -⟩ := hplaced.callAt
      have hlat : p.inputLatency + 3 = 7 := by
        rw [hn, Option.map_some, hk, Option.some.injEq] at hkind
        exact (Kind.call.inj hkind).2.2
      exact ⟨runs, g, g', made, n, p, hb, hmade, hresult, hp, hlat ▸ hplaced⟩
    · cases hkind
  · have h : blended ⟨4⟩ = some none := by cbv
    obtain ⟨runs, g, g', made, hb, hmade, hlive, hcases⟩ := exists_blended h
    have hfits : ∀ fault, Call.build env g blend.id 2 [⟨1⟩, ⟨4⟩, ⟨1⟩] none = .error fault →
        fault.isOverflow = false := by simp [hmade]
    obtain ⟨g₁, made', hmade', -, hok, herr⟩ := Call.build_iff_compatible reached
      (m := .hosted blend (.fixed 3)) rfl (Description.build_loaded reached hb).valid.coherent
      (Description.build_typed hb) (by decide) rfl hlive hfits
    cases hmade.symm.trans hmade'
    rcases hcases with ⟨n, hresult, hkind⟩ | ⟨e, hresult, -⟩
    · obtain ⟨p, run, -, -, -, hplaced⟩ := hok n hresult
      obtain ⟨node, hn, -⟩ := hplaced.callAt
      rw [hn] at hkind
      cases hkind
    · obtain ⟨rfl, hwhy⟩ := herr e hresult
      rcases hwhy with ⟨hrun, hnone⟩ | ⟨p, run, -, rfl, -, herrors, -⟩
      · exact ⟨runs, _, made, e, hb, hmade, hresult, hrun, hnone⟩
      · exact absurd herrors (Nat.lt_irrefl 0)

end SignalGraph
