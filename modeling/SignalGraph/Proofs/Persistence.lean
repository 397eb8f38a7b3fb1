import SignalGraph.Proofs.Decoding

/-!
# Rules that are written and read again

The text of rules that were read, on one line or indented, reads as the same rules exactly if none
of their constants is infinite; otherwise it cannot be read (`RuleSet.load_written`). An infinite
constant comes from a numeral that is too large for a single, and JSON has no numeral to write it
with.
-/

namespace SignalGraph

/-! ## Rules -/

namespace Rule

/-- A rule that a list of rules in a text can hold. -/
structure Held (r : Rule) : Prop where
  input : r.input.Held 2
  outputs (p : Pattern) (hp : p ∈ r.outputs) : p.Held 3

/-- A rule has this constant somewhere. -/
def Uses (r : Rule) (value : Literal) : Prop :=
  ∃ p ∈ r.input :: r.outputs, .literal value ∈ p.parts

variable {r r' : Rule}

theorem storable_iff : r.Storable ↔ ∀ value, r.Uses value → value.Storable := by
  constructor
  · rintro ⟨hin, hout⟩ value ⟨p, hp, hv⟩
    rcases List.mem_cons.1 hp with rfl | hp
    · exact hin value hv
    · exact hout p hp value hv
  · intro h
    exact ⟨fun value hv => h value ⟨_, List.mem_cons_self, hv⟩,
      fun p hp value hv => h value ⟨p, List.mem_cons_of_mem _ hp, hv⟩⟩

theorem held_of_ofJson? {v : Json} (h : ofJson? v = some r) : r.Held := by
  simp only [ofJson?, Option.bind_eq_bind, Option.bind_eq_some_iff, Option.pure_def,
    Option.some.injEq, Json.Record.required] at h
  obtain ⟨record, -, name, -, input, ⟨w, -, hin⟩, outputs, ⟨w', -, hout⟩, rfl⟩ := h
  refine ⟨Pattern.held_of_ofJson? hin, fun p hp => ?_⟩
  unfold Json.list? at hout
  split at hout
  · obtain ⟨item, -, hitem⟩ := exists_of_mapM hout hp
    exact Pattern.held_of_ofJson? hitem
  · cases hout

theorem ofJson?_toJson_eq (r : Rule) :
    ofJson? r.toJson = (Pattern.ofJson? 2 r.input.toJson).bind fun input =>
      ((r.outputs.map Pattern.toJson).mapM (Pattern.ofJson? 3)).map (Rule.mk r.name input) := by
  simp [ofJson?, toJson, Json.record?, Json.Record.ofMembers?, Json.Record.required,
    Json.Record.get?, Json.string?, Json.list?, List.lookup_cons, Option.map_eq_bind,
    Function.comp_def]

/-- A rule that can be held and written reads back. -/
theorem Held.ofJson?_toJson (hr : r.Held) (hs : r.Storable)
    (hread : ∀ bits, r.Uses (.float bits) → Literal.SingleReadsBack bits) :
    ofJson? r.toJson = some r := by
  have hin : Pattern.ofJson? 2 r.input.toJson = some r.input :=
    hr.input.ofJson?_toJson hs.input fun bits hv => hread bits ⟨_, List.mem_cons_self, hv⟩
  have hout : (r.outputs.map Pattern.toJson).mapM (Pattern.ofJson? 3) = some r.outputs :=
    mapM_map_eq_some fun p hp => (hr.outputs p hp).ofJson?_toJson (hs.outputs p hp)
      fun bits hv => hread bits ⟨p, List.mem_cons_of_mem _ hp, hv⟩
  rw [ofJson?_toJson_eq, hin, Option.bind_some, hout, Option.map_some]

theorem Held.storable (hr : r.Held) (h : ofJson? r.toJson = some r') : r.Storable := by
  rw [ofJson?_toJson_eq] at h
  obtain ⟨input, hin, h⟩ := Option.bind_eq_some_iff.1 h
  obtain ⟨outputs, hout, -⟩ := Option.map_eq_some_iff.1 h
  refine ⟨hr.input.storable hin, fun p hp => ?_⟩
  obtain ⟨q, hq⟩ := exists_of_mapM_map hout hp
  exact (hr.outputs p hp).storable hq

theorem Held.inRange (hr : r.Held) {value : Literal} (hv : r.Uses value) :
    Pattern.InRange (.literal value) := by
  obtain ⟨p, hp, hv⟩ := hv
  rcases List.mem_cons.1 hp with rfl | hp
  · exact hr.input.1 _ hv
  · exact (hr.outputs p hp).1 _ hv

/-- Of the rules that were read, those can be written whose constants are finite. -/
theorem Held.storable_iff_finite (hr : r.Held) :
    r.Storable ↔ ∀ value, r.Uses value → value.isInfinite = false := by
  rw [storable_iff]
  constructor
  · intro h value hv
    exact Literal.not_isInfinite (h value hv)
  · intro h value hv
    exact hr.inRange hv (h value hv)

end Rule

namespace RuleSet

variable {registry : Registry} {text origin : String} {s : RuleSet}

/-- No constant of the rules is infinite. -/
def Finite (s : RuleSet) : Prop :=
  ∀ r ∈ s.rules, ∀ value, r.Uses value → value.isInfinite = false

/-- The texts of the finite singles among the constants read back. -/
def SinglesReadBack (s : RuleSet) : Prop :=
  ∀ r ∈ s.rules, ∀ bits, r.Uses (.float bits) → (Literal.float bits).isInfinite = false →
    Literal.SingleReadsBack bits

theorem load_eq_ok : load registry text origin = .ok s ↔
    Rule.parseList? text = some s.rules ∧ make registry s.rules = .ok s := by
  unfold load
  cases Rule.parseList? text with
  | none => simp
  | some rules =>
    simp only [Option.some.injEq]
    constructor
    · intro h
      cases hmake : make registry rules with
      | error e =>
        rw [hmake] at h
        cases h
      | ok s' =>
        rw [hmake] at h
        obtain rfl : s' = s := Except.ok.inj h
        obtain rfl : s'.rules = rules := by
          simp only [make, bind_eq_ok, pure_eq_ok] at hmake
          obtain ⟨_, -, hmake⟩ := hmake
          cases hmake
          rfl
        exact ⟨rfl, hmake⟩
    · rintro ⟨rfl, h⟩
      rw [h]
      rfl

theorem held_of_load (h : load registry text origin = .ok s) : ∀ r ∈ s.rules, r.Held := by
  intro r hr
  obtain ⟨v, -, hv⟩ := Option.bind_eq_some_iff.1 (load_eq_ok.1 h).1
  unfold Json.list? at hv
  split at hv
  · obtain ⟨item, -, hitem⟩ := exists_of_mapM hv hr
    exact Rule.held_of_ofJson? hitem
  · cases hv

/-- Rules can be written if and only if no constant is infinite. -/
theorem storable_iff_finite (h : load registry text origin = .ok s) :
    (∀ r ∈ s.rules, r.Storable) ↔ s.Finite :=
  forall₂_congr fun r hr => (held_of_load h r hr).storable_iff_finite

/-- Both texts of a rule set are read as the JSON of its rules. -/
theorem parseList?_written (s : RuleSet) {written : String}
    (hw : written = s.indented ∨ written = s.canonical) :
    Rule.parseList? written = (s.rules.map Rule.toJson).mapM Rule.ofJson? := by
  have hfaithful := Rule.faithful_listToJson s.rules
  rw [Rule.parseList?]
  rcases hw with rfl | rfl
  · rw [indented, Json.parse?_indented hfaithful]
    rfl
  · rw [canonical, Json.parse?_compact hfaithful]
    rfl

/-- Rules that were read are the same after they are written and read again, unless a constant is
infinite; then the text cannot be read. So the canonical text of rules with finite constants tells
which rules they are. -/
theorem load_written (h : load registry text origin = .ok s) :
    (s.SinglesReadBack → ∀ written, written = s.indented ∨ written = s.canonical → ∀ again,
      ((∃ s', load registry written again = .ok s' ∧ s'.rules = s.rules) ↔ s.Finite) ∧
        (¬ s.Finite → load registry written again = .error (.malformed again))) ∧
    ∀ registry' text' origin' s', load registry' text' origin' = .ok s' → s.Finite → s'.Finite →
      s.canonical = s'.canonical → s.rules = s'.rules := by
  have hheld := held_of_load h
  have hstorable := storable_iff_finite h
  refine ⟨fun hread written hw again => ?_, fun _ _ _ s' _ hs _ hcanonical =>
    rules_of_canonical (hstorable.2 hs) hcanonical⟩
  have hparse := parseList?_written s hw
  have hinfinite (hs : ¬ s.Finite) : Rule.parseList? written = none := by
    rw [hparse, Option.eq_none_iff_forall_ne_some]
    intro rules hrules
    refine hs (hstorable.1 fun r hr => ?_)
    obtain ⟨r', hr'⟩ := exists_of_mapM_map hrules hr
    exact (hheld r hr).storable hr'
  refine ⟨⟨?_, fun hs => ⟨s, load_eq_ok.2 ⟨?_, (load_eq_ok.1 h).2⟩, rfl⟩⟩, fun hs => ?_⟩
  · rintro ⟨s', hs', -⟩
    by_contra hs
    cases (hinfinite hs).symm.trans (load_eq_ok.1 hs').1
  · rw [hparse]
    refine mapM_map_eq_some fun r hr => ?_
    exact (hheld r hr).ofJson?_toJson (hstorable.2 hs r hr) fun bits hv =>
      hread r hr bits hv (hs r hr _ hv)
  · rw [load, hinfinite hs]

end RuleSet

/-! ## A rule to look at

Scaling by a constant is dropped. The text gives the fields in another order than they are written,
and one pattern as an array. -/

namespace Damped

def scale : Module where
  signature :=
    { id := .ofNat 1
      name := "scale"
      parameters := [.float "x" .input, .float "factor" .input, .float "y" .output]
      returnParameter := some 2 }
  hook := .fixed 0
  origin := "modules.json"

def registry : Registry where
  modules := [(.ofNat 1, scale)]
  names := [("scale", .ofNat 1)]

def text (factor : String) : String :=
  (Json.array [.object
    [("output_patterns", .array [.array [.string "input_reference", .number "0"]]),
     ("name", .string "undamp"),
     ("input_pattern", .object
       [("module", .string "0x1"), ("upsample_factor", .number "1"),
        ("return_parameter", .number "2"),
        ("children", .array
          [.object [("kind", .string "input")],
           .object [("value", .object [("float", .number factor)]), ("kind", .string "constant")],
           .object [("kind", .string "output")]]),
        ("kind", .string "native_module_call")])]]).compact

def rule (factor : UInt32) : Rule where
  name := "undamp"
  input := .call (.ofNat 1) 1 2 [.wildcard false, .literal (.float factor), .result]
  outputs := [.slot 0]

def ruleSet (factor : UInt32) : RuleSet where
  rules := [rule factor]
  ordered := [rule factor]
  depths := .ofRules [rule factor]

def tenth : UInt32 := 0x3dcccccd

def infinity : UInt32 := 0x7f800000

theorem load_tenth : RuleSet.load registry (text "0.1") "rules.json" = .ok (ruleSet tenth) := by
  refine RuleSet.load_eq_ok.2 ⟨?_, by cbv⟩
  rw [Rule.parseList?, text, Json.parse?_compact (by cbv)]
  decide +kernel

theorem load_infinity :
    RuleSet.load registry (text "1e39") "rules.json" = .ok (ruleSet infinity) := by
  refine RuleSet.load_eq_ok.2 ⟨?_, by cbv⟩
  rw [Rule.parseList?, text, Json.parse?_compact (by cbv)]
  decide +kernel

theorem uses_rule {factor : UInt32} {value : Literal} :
    (rule factor).Uses value ↔ value = .float factor := by
  simp [Rule.Uses, rule, Pattern.parts, Pattern.partsAll]

theorem finite_ruleSet {factor : UInt32} :
    (ruleSet factor).Finite ↔ (Literal.float factor).isInfinite = false := by
  simp [RuleSet.Finite, ruleSet, uses_rule]

end Damped

namespace RuleSet

open Damped

theorem load_written_damped :
    (load registry (text "0.1") "rules.json" = .ok (ruleSet tenth) ∧
      (ruleSet tenth).SinglesReadBack ∧
      ∃ s', load registry (ruleSet tenth).indented "again.json" = .ok s' ∧
        s'.rules = [rule tenth]) ∧
    load registry (text "1e39") "rules.json" = .ok (ruleSet infinity) ∧
      (ruleSet infinity).SinglesReadBack ∧
      load registry (ruleSet infinity).canonical "again.json" =
        .error (.malformed "again.json") := by
  have htenth : (ruleSet tenth).SinglesReadBack := by
    simp only [SinglesReadBack, ruleSet, List.mem_singleton, forall_eq, uses_rule,
      Literal.float.injEq]
    intro _
    decide +kernel
  have hinfinity : (ruleSet infinity).SinglesReadBack := by
    simp only [SinglesReadBack, ruleSet, List.mem_singleton, forall_eq, uses_rule,
      Literal.float.injEq]
    intro h
    cases h
  refine ⟨⟨load_tenth, htenth, ?_⟩, load_infinity, hinfinity, ?_⟩
  · have hfinite : (ruleSet tenth).Finite := finite_ruleSet.2 (by decide +kernel)
    exact (((load_written load_tenth).1 htenth _ (.inl rfl) "again.json").1).2 hfinite
  · have hinfinite : ¬ (ruleSet infinity).Finite := by
      rw [finite_ruleSet]
      decide +kernel
    exact (((load_written load_infinity).1 hinfinity _ (.inr rfl) "again.json").2) hinfinite

end RuleSet

end SignalGraph
