import SignalGraph.Proofs.CanonicalText
import SignalGraph.Proofs.Dependence
import SignalGraph.Proofs.Registries

/-!
# What fingerprints tell

The fingerprints of a compilation are made from the text of its description and from the canonical
texts of its registry and its rules. The canonical text of a registry tells which modules there are
and under which names, and that of a rule set which rules there are. Hooks have no text, and
infinite constants have none of their own. So of two compilations with the same texts and settings,
the products are the same if the hooks are and if the constants of the rules are finite
(`product_of_canonical`). Manifests with other latencies have other hooks.
-/

namespace SignalGraph

/-! ## Registries with the same signatures -/

section

variable {env env' : Environment}

/-- Environments with the same signatures and the same hooks agree. Modules may have been registered
in another order and from elsewhere. -/
theorem Environment.agrees_of_signatures (hr : env.registry.Reached)
    (hr' : env'.registry.Reached) (hsettings : env.settings = env'.settings)
    (hsignatures : env.registry.signatures = env'.registry.signatures)
    (hhooks : ∀ id, env.registry.hook? id = env'.registry.hook? id) : env.Agrees env' where
  settings := hsettings
  modules id := by
    have hlookup : env.registry.lookup id = env'.registry.lookup id := by
      ext s
      rw [hr.indexed.lookup_eq_some, hr'.indexed.lookup_eq_some, hsignatures]
    have hhook := hhooks id
    rw [Registry.lookup, Registry.lookup] at hlookup
    rw [Registry.hook?, Registry.hook?] at hhook
    cases hm : env.registry.module? id <;> cases hm' : env'.registry.module? id <;>
      simp_all [Module.behaviour]
  names name := by
    ext s
    rw [hr.indexed.lookupName_eq_some, hr'.indexed.lookupName_eq_some, hsignatures]

end

/-- A rule set is what its list of rules makes it. -/
theorem RuleSet.eq_of_make {registry registry' : Registry} {l l' : List Rule}
    {rules rules' : RuleSet} (h : make registry l = .ok rules) (h' : make registry' l' = .ok rules')
    (heq : rules.rules = rules'.rules) : rules = rules' := by
  obtain ⟨_, -, hrules⟩ := bind_eq_ok.1 h
  obtain ⟨_, -, hrules'⟩ := bind_eq_ok.1 h'
  cases hrules
  cases hrules'
  obtain rfl : l = l' := heq
  rfl

theorem Description.load_unique {text origin origin' : String} {d d' : Description}
    (h : load text origin = .ok d) (h' : load text origin' = .ok d') : d = d' := by
  unfold load at h h'
  split at h
  · rename_i hd
    rw [hd] at h'
    cases h
    cases h'
    rfl
  · cases h

/-! ## Products -/

namespace Compilation

/-- What a compilation makes, without what it makes it from. -/
structure Product where
  graph : Option Graph
  report : Option Report
  diagnostics : List Diagnostic
  failed : Bool
  /-- What each pass said and which pass failed. -/
  trace : Trace

def product (c : Compilation) (terminal : Pass) (optimizing : Bool) : Except Fault Product :=
  (c.run terminal optimizing).map fun r =>
    ⟨r.1.graph, r.1.report, r.1.diagnostics, r.1.failed, r.2⟩

theorem product_congr {c : Compilation} {env : Environment} {rules : RuleSet}
    (h : c.env.Agrees env) (hr : c.rules.Agrees rules) (terminal : Pass) (optimizing : Bool) :
    (c.given env rules).product terminal optimizing = c.product terminal optimizing := by
  rw [product, run, runPasses_congr h hr, product, run]
  cases c.runPasses (plan terminal optimizing) <;> rfl

/-- The text of a program and the canonical texts of the registry and the rules tell what is made,
if the hooks are the same and JSON has values for the constants of the rules. -/
theorem product_of_canonical {registry registry' : Registry} {l l' : List Rule}
    {rules rules' : RuleSet} {text origin origin' : String} {d d' : Description}
    (hr : registry.Reached) (hr' : registry'.Reached)
    (hmake : RuleSet.make registry l = .ok rules) (hmake' : RuleSet.make registry' l' = .ok rules')
    (hload : Description.load text origin = .ok d) (hload' : Description.load text origin' = .ok d')
    (hregistry : registry.canonical = registry'.canonical)
    (hrules : rules.canonical = rules'.canonical)
    (hhooks : ∀ id, registry.hook? id = registry'.hook? id)
    (hstorable : ∀ rule ∈ rules.rules, rule.Storable) (settings : Settings) (terminal : Pass)
    (optimizing : Bool) :
    product { env := ⟨registry, settings⟩, rules, description := d } terminal optimizing =
      product { env := ⟨registry', settings⟩, rules := rules', description := d' } terminal
        optimizing := by
  obtain rfl := Description.load_unique hload hload'
  obtain rfl := RuleSet.eq_of_make hmake hmake' (RuleSet.rules_of_canonical hstorable hrules)
  have hagrees : Environment.Agrees ⟨registry, settings⟩ ⟨registry', settings⟩ :=
    Environment.agrees_of_signatures hr hr' rfl (Registry.signatures_of_canonical hregistry) hhooks
  exact (product_congr hagrees ⟨fun _ => rfl, rfl, rfl⟩ terminal optimizing).symm

end Compilation

/-! ## A program to look at

A channel is scaled by a constant and then delayed. One rule drops scaling by a constant. -/

namespace Scaled

def scale (origin : String) : Module where
  signature :=
    { id := .ofNat 1
      name := "scale"
      parameters := [.float "x" .input, .float "factor" .input, .float "y" .output]
      returnParameter := some 2 }
  hook := .fixed 0
  origin := origin

def delay (latency : Nat) (origin : String) : Module where
  signature := .unary 2 "delay"
  hook := .fixed latency
  origin := origin

/-- The modules from one manifest. -/
def manifest (latency : Nat) : Registry where
  modules := [(.ofNat 1, scale "modules.json"), (.ofNat 2, delay latency "modules.json")]
  names := [("delay", .ofNat 2), ("scale", .ofNat 1)]

/-- The same modules from the host, in another order. -/
def host (latency : Nat) : Registry where
  modules := [(.ofNat 1, scale "<host>"), (.ofNat 2, delay latency "<host>")]
  names := [("scale", .ofNat 1), ("delay", .ofNat 2)]

theorem manifest_reached (latency : Nat) : (manifest latency).Reached :=
  (Registry.Reached.empty.insert (m := scale "modules.json") rfl).insert
    (m := delay latency "modules.json") rfl

theorem host_reached (latency : Nat) : (host latency).Reached :=
  (Registry.Reached.empty.insert (m := delay latency "<host>") rfl).insert
    (m := scale "<host>") rfl

def one : UInt32 := 0x3f800000

def infinity : UInt32 := 0x7f800000

def negativeInfinity : UInt32 := 0xff800000

def rule (factor : UInt32) : Rule where
  name := "unit"
  input := .call (.ofNat 1) 1 2 [.wildcard false, .literal (.float factor), .result]
  outputs := [.slot 0]

def ruleSet (factor : UInt32) : RuleSet where
  rules := [rule factor]
  ordered := [rule factor]
  depths := .ofRules [rule factor]

def channel : Json := .object [("primitive", .string "float")]

def call (name module : String) (arguments : List String) : Json :=
  .object [("kind", .string "call"), ("name", .string name), ("module", .string module),
    ("arguments", .array (arguments.map .string))]

def text (factor : String) : String :=
  (Json.object
    [("inputs", .array [.object [("name", .string "in"), ("type", channel)]]),
     ("nodes", .array
       [.object [("kind", .string "constant"), ("name", .string "factor"),
          ("value", .object [("float", .number factor)])],
        call "scaled" "scale" ["in", "factor"], call "delayed" "delay" ["scaled"]]),
     ("outputs", .array [.object [("name", .string "out"), ("type", channel),
       ("source", .string "delayed")]])]).compact

def program (factor : UInt32) : Description where
  inputs := [{ name := "in", type := { primitive := .float } }]
  entries :=
    [{ name := "factor", kind := .constant (.float factor) },
     { name := "scaled", kind := .call "scale" 1 ["in", "factor"] },
     { name := "delayed", kind := .call "delay" 1 ["scaled"] }]
  outputs := [{ name := "out", type := { primitive := .float }, source := "delayed" }]

theorem load_text (origin : String) : Description.load (text "1.0") origin = .ok (program one) := by
  rw [Description.load, text, Json.parse?_compact (by cbv)]
  rfl

theorem make_rules_manifest :
    RuleSet.make (manifest 8) [rule one] = .ok (ruleSet one) := by
  cbv

theorem make_rules_host : RuleSet.make (host 8) [rule one] = .ok (ruleSet one) := by
  cbv

theorem storable_rule : (rule one).Storable where
  input := by
    intro value hvalue
    obtain rfl : value = .float one := by
      simpa [rule, Pattern.parts, Pattern.partsAll] using hvalue
    intro hnull
    cases hnull
  outputs := by simp [rule, Pattern.Storable, Pattern.parts]

theorem hook_host (latency : Nat) (id : ModuleId) :
    (manifest latency).hook? id = (host latency).hook? id := by
  simp only [Registry.hook?, Registry.module?, manifest, host, List.lookup_cons]
  cases id == .ofNat 1 <;> cases id == .ofNat 2 <;> rfl

def compilation (registry : Registry) (rules : RuleSet) (factor : UInt32) : Compilation where
  env := ⟨registry, {}⟩
  rules
  description := program factor

/-- How many rewrites a compilation makes, and how late the program is. -/
def summary (c : Compilation) : Option (Nat × Nat) :=
  match c.product .latency true with
  | .ok p => p.report.bind fun report => p.graph.map fun g => (report.rewrites, g.surface.latency)
  | .error _ => none

end Scaled

namespace Compilation

open Scaled

/-- The texts do not tell which latencies a manifest gives, nor one infinite constant from
another. -/
theorem product_of_canonical_scaled :
    (summary (compilation (manifest 8) (ruleSet one) one) = some (1, 8) ∧
      product (compilation (manifest 8) (ruleSet one) one) .latency true =
        product (compilation (host 8) (ruleSet one) one) .latency true) ∧
    ((manifest 8).canonical = (manifest 0).canonical ∧
      summary (compilation (manifest 0) (ruleSet one) one) = some (1, 0)) ∧
    (ruleSet infinity).canonical = (ruleSet negativeInfinity).canonical ∧
      summary (compilation (manifest 8) (ruleSet infinity) infinity) = some (1, 8) ∧
      summary (compilation (manifest 8) (ruleSet negativeInfinity) infinity) = some (0, 8) := by
  refine ⟨⟨by cbv, ?_⟩, ⟨rfl, by cbv⟩, rfl, by cbv, by cbv⟩
  exact product_of_canonical (manifest_reached 8) (host_reached 8) make_rules_manifest
    make_rules_host (load_text "a") (load_text "b") rfl rfl (hook_host 8)
    (List.forall_mem_singleton.2 storable_rule) {} .latency true

end Compilation

end SignalGraph
