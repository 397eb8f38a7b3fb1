import SignalGraph.Proofs.Passes
import SignalGraph.Proofs.Turns

/-!
# What a compilation depends on

Of a registry, compiling asks which modules there are under which ids and names, and what their
hooks answer. It never asks where a module was defined. Of a rule set, it asks which rules a module
has, by precedence, how deep modules sit in patterns, and whether there are rules at all. So
compilations agree that are given the same answers (`Compilation.runPasses_congr`).
-/

namespace SignalGraph

/-- What a module does in a compilation. -/
def Module.behaviour (m : Module) : Signature × Hook :=
  (m.signature, m.hook)

/-- Two environments with the same settings, and with modules that do the same under the same ids
and names. -/
structure Environment.Agrees (env env' : Environment) : Prop where
  settings : env.settings = env'.settings
  modules (id : ModuleId) :
    (env.registry.module? id).map Module.behaviour = (env'.registry.module? id).map Module.behaviour
  names (name : String) : env.registry.lookupName name = env'.registry.lookupName name

variable {env env' : Environment}

namespace Environment.Agrees

theorem lookup (h : env.Agrees env') (id : ModuleId) :
    env.registry.lookup id = env'.registry.lookup id := by
  have hm := congrArg (Option.map Prod.fst) (h.modules id)
  simpa [Registry.lookup, Option.map_map, Function.comp_def, Module.behaviour] using hm

/-- A module is in both registries, and does the same. -/
theorem module?_cases (h : env.Agrees env') (id : ModuleId) :
    env.registry.module? id = none ∧ env'.registry.module? id = none ∨
      ∃ m origin, env.registry.module? id = some m ∧
        env'.registry.module? id = some { m with origin } := by
  have hm := h.modules id
  cases hl : env.registry.module? id with
  | none =>
    rw [hl, Option.map_none, eq_comm, Option.map_eq_none_iff] at hm
    exact .inl ⟨rfl, hm⟩
  | some m =>
    rw [hl, Option.map_some, eq_comm, Option.map_eq_some_iff] at hm
    obtain ⟨⟨signature, hook, origin⟩, hl', hb⟩ := hm
    obtain ⟨rfl, rfl⟩ := Prod.mk.inj hb
    exact .inr ⟨m, origin, rfl, hl'⟩

end Environment.Agrees

/-! ## Calls -/

theorem Call.ready_congr (h : env.Agrees env') : ready env = ready env' := by
  funext g module factor arguments location
  unfold ready
  rw [h.settings]
  rcases h.module?_cases module with ⟨hm, hm'⟩ | ⟨m, origin, hm, hm'⟩
  · rw [hm, hm']
  · rw [hm, hm']
    rfl

theorem Call.build_congr (h : env.Agrees env') : build env = build env' := by
  funext g module factor arguments location
  simp only [build, ready_congr h]

/-! ## Descriptions -/

namespace Loader

theorem planCall_congr (h : env.Agrees env') : planCall env = planCall env' := by
  funext l node module factor arguments
  simp only [planCall, h.names]

theorem addEntry_congr (h : env.Agrees env') : addEntry env = addEntry env' := by
  funext l e
  simp only [addEntry, addNode, addCall, planCall_congr h, Call.build_congr h]

theorem addEntries_congr (h : env.Agrees env') (l : Loader) (es : List Entry) :
    l.addEntries env es = l.addEntries env' es := by
  induction es generalizing l with
  | nil => rfl
  | cons e es ih => simp only [addEntries, addEntry_congr h, ih]

end Loader

theorem Description.build_congr (h : env.Agrees env') : build env = build env' := by
  funext d
  simp only [build, Loader.addEntries_congr h]

/-! ## Rewriting -/

/-- Two rule sets with the same rules for each module and the same depths. -/
structure RuleSet.Agrees (rules rules' : RuleSet) : Prop where
  rooted (m : ModuleId) : rules.rootedAt m = rules'.rootedAt m
  depths : rules.depths = rules'.depths
  isEmpty : rules.rules.isEmpty = rules'.rules.isEmpty

namespace Pattern

theorem instantiateCall_congr (h : env.Agrees env') :
    instantiateCall env = instantiateCall env' := by
  funext w location signature module factor place arguments
  simp only [instantiateCall, Call.ready_congr h]

mutual
theorem instantiate_congr (h : env.Agrees env') (b : Bindings) (location : Option Location)
    (w : Workspace) : (p : Pattern) →
    instantiate env b location w p = instantiate env' b location w p
  | .call module factor place children => by
    simp only [instantiate, h.lookup, instantiateCall_congr h,
      instantiateArguments_congr h b location _ _ children]
  | .literal value => rfl
  | .array elements => by simp only [instantiate, instantiateElements_congr h b location _ elements]
  | .slot index => rfl
  | .wildcard constant => rfl
  | .result => rfl
  | .ellipsis => rfl

theorem instantiateArguments_congr (h : env.Agrees env') (b : Bindings)
    (location : Option Location) (w : Workspace) (parameters : List Parameter) :
    (cs : List Pattern) → instantiateArguments env b location w parameters cs =
      instantiateArguments env' b location w parameters cs
  | [] => by simp only [instantiateArguments]
  | c :: cs => by
    cases parameters with
    | nil => simp only [instantiateArguments]
    | cons q parameters =>
      simp only [instantiateArguments, instantiate_congr h b location _ c,
        instantiateArguments_congr h b location _ parameters cs]

theorem instantiateElements_congr (h : env.Agrees env') (b : Bindings)
    (location : Option Location) (w : Workspace) :
    (es : List Pattern) → instantiateElements env b location w es =
      instantiateElements env' b location w es
  | [] => by simp only [instantiateElements]
  | e :: es => by
    simp only [instantiateElements, instantiate_congr h b location _ e,
      instantiateElements_congr h b location _ es]
end

end Pattern

namespace Rewriting

variable {rules rules' : RuleSet}

theorem replace_congr (h : env.Agrees env') (b : Bindings) (anchor : OutputPort)
    (location : Option Location) (g : Graph) (runs : List Preparation) (ps : List Pattern) :
    replace env b anchor location g runs ps = replace env' b anchor location g runs ps := by
  induction ps generalizing g runs with
  | nil => rfl
  | cons p ps ih => simp only [replace, Pattern.instantiate_congr h, ih]

theorem tryRules_congr (h : env.Agrees env') (depths : Depths) (allowed : Bool)
    (signature : Signature) (n : NodeId) (location : Option Location) (s : Rewriting)
    (l : List Rule) : tryRules env depths allowed signature n location s l =
      tryRules env' depths allowed signature n location s l := by
  induction l generalizing s with
  | nil => rfl
  | cons rule l ih => simp only [tryRules, replace_congr h, ih]

theorem visit_congr (h : env.Agrees env') (hr : rules.Agrees rules') :
    visit env rules = visit env' rules' := by
  funext allowed s n
  simp only [visit, tryRules_congr h, hr.rooted, hr.depths]

section

variable (h : env.Agrees env') (hr : rules.Agrees rules')

include h hr

theorem Turn.congr {p q : Position} (ht : Turn env rules p q) : Turn env' rules' p q := by
  have hallowed : p.allowed env = p.allowed env' := by rw [Position.allowed, h.settings]; rfl
  cases ht with
  | sweep drained changed => exact .sweep drained changed
  | skip next dead => exact .skip next dead
  | pass next live visit =>
    rw [visit_congr h hr, hallowed] at visit
    exact .pass next live visit
  | rewrite next live visit =>
    rw [visit_congr h hr, hallowed] at visit
    exact .rewrite next live visit

theorem Stop.congr {p : Position} {answer : Answer} (hs : Stop env rules p answer) :
    Stop env' rules' p answer := by
  have hallowed : p.allowed env = p.allowed env' := by rw [Position.allowed, h.settings]; rfl
  cases hs with
  | settled drained unchanged => exact .settled drained unchanged
  | limited next live visit =>
    rw [visit_congr h hr, hallowed] at visit
    rw [h.settings]
    exact .limited next live visit
  | faulted next live visit =>
    rw [visit_congr h hr, hallowed] at visit
    exact .faulted next live visit

theorem Ends.congr {p : Position} {answer : Answer} (he : Ends env rules p answer) :
    Ends env' rules' p answer := by
  induction he with
  | stop hs => exact .stop (hs.congr h hr)
  | turn ht _ ih => exact .turn (ht.congr h hr) ih

theorem optimize_congr : optimize env rules = optimize env' rules' := by
  funext g
  have hrun (p : Position) : p.run env rules = p.run env' rules' :=
    (run_of_ends ((ends_run env rules p).congr h hr)).symm
  simp only [optimize, hr.isEmpty]
  refine bind_congr fun r => ?_
  split
  · rfl
  · exact hrun (.start r.1 r.2)

end

end Rewriting

/-! ## Compilations -/

namespace Compilation

/-- The compilation with another environment and other rules. -/
def given (c : Compilation) (env : Environment) (rules : RuleSet) : Compilation :=
  { c with env, rules }

/-- What a pass did, if the compilation had been given something else. -/
def Effect.given (e : Effect) (env : Environment) (rules : RuleSet) : Effect :=
  { e with compilation := e.compilation.given env rules }

section

variable {c : Compilation} {rules : RuleSet} (h : c.env.Agrees env) (hr : c.rules.Agrees rules)

include h hr

theorem runPass_congr (p : Pass) :
    (c.given env rules).runPass p = (c.runPass p).map (Effect.given · env rules) := by
  obtain ⟨env₀, rules₀, d, graph, report, diagnostics, failed⟩ := c
  cases p with
  | loadGraph =>
    simp only [runPass, loadGraph, given, Description.build_congr h]
    rcases d.build env with fault | ⟨runs, e | g⟩ <;> rfl
  | optimize =>
    simp only [runPass, Compilation.optimize, given, Rewriting.optimize_congr h hr]
    cases graph with
    | none => rfl
    | some g =>
      simp only [loaded, ok_bind]
      rcases Rewriting.optimize env rules g with fault | ⟨s, e | report⟩ <;> rfl
  | verify =>
    cases graph with
    | none => rfl
    | some g =>
      simp only [runPass, Compilation.verify, given, loaded, ok_bind]
      cases g.askVerify <;> rfl
  | latency =>
    cases graph with
    | none => rfl
    | some g =>
      simp only [runPass, Compilation.latency, given, loaded, ok_bind]
      cases g.updateLatency <;> rfl

end

/-- What a run does after its first pass. -/
theorem runPasses_of_runPass {c : Compilation} {p : Pass} {e : Effect} (h : c.runPass p = .ok e)
    (ps : List Pass) : c.runPasses (p :: ps) =
      if e.diagnostics.any Diagnostic.isError then
        .ok ({ e.after with failed := true }, ⟨[(p, e.diagnostics)], e.runs, some p⟩)
      else (e.after.runPasses ps).map fun r =>
        (r.1, ⟨(p, e.diagnostics) :: r.2.passes, e.runs ++ r.2.runs, r.2.failing⟩) := by
  simp only [runPasses, h, ok_bind, Effect.after]
  split
  · rfl
  · rename_i hd
    simp only [bind, Except.bind, Except.map]
    rfl

/-- A compilation does the same if it is given what no pass tells from what it was given. -/
theorem runPasses_congr {c : Compilation} {rules : RuleSet} (h : c.env.Agrees env)
    (hr : c.rules.Agrees rules) (ps : List Pass) :
    (c.given env rules).runPasses ps =
      (c.runPasses ps).map fun r => (r.1.given env rules, r.2) := by
  induction ps generalizing c with
  | nil => rfl
  | cons p ps ih =>
    have hp := runPass_congr h hr p
    cases he : c.runPass p with
    | error fault =>
      rw [he] at hp
      simp only [runPasses, he, hp, Except.map, error_bind]
    | ok e =>
      rw [he] at hp
      obtain ⟨henv, hrules⟩ := runPass_given he
      have hrest := ih (c := e.after) (henv ▸ h) (hrules ▸ hr)
      rw [runPasses_of_runPass he, runPasses_of_runPass hp]
      by_cases hd : e.diagnostics.any Diagnostic.isError = true
      · simp only [Effect.given, hd, if_true]
        rfl
      · simp only [Effect.given, hd]
        change Except.map _ ((e.after.given env rules).runPasses ps) = _
        rw [hrest]
        cases e.after.runPasses ps <;> rfl

end Compilation

end SignalGraph
