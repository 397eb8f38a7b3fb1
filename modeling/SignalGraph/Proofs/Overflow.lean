import SignalGraph.Proofs.SafeCompilation

/-!
# Which programs overflow

Rates multiply and latencies add up along the calls of a program, so whether they fit into 32 bits
is a matter of the program as a whole. Building it faults exactly if it comes to a call for which an
exact product or sum does not fit (`Description.Overflows`); in all other cases it is built or
refused. The latency of what was built is the sum of two exact maxima (`Arrivals`), and only this
sum can overflow then (`build_overflows_iff`).
-/

namespace SignalGraph

open SignalGraph.Graph

namespace Graph

variable {g : Graph}

/-- What feeds an input is late by so many samples at the base rate, rounded up. -/
def LateBy (g : Graph) (i : InputId) (samples : Nat) : Prop :=
  ∃ o port u, g.source? i = some o ∧ g.output? o = some port ∧ port.type.factor = some u ∧
    samples = (port.latency + u - 1) / u

/-- The latencies at the inputs of these sinks, and zero. -/
def Arrivals (g : Graph) (sinks : List NodeId) : Set Nat :=
  { samples | samples = 0 ∨ ∃ n ∈ sinks, ∃ node, g.node? n = some node ∧
    ∃ i ∈ node.inputs, g.LateBy i samples }

/-- What feeds an input is late by what `baseLatency` says, or it is a constant. -/
theorem lateBy_of_baseLatency {i : InputId} {o : OutputId} {base : Nat}
    (hs : g.source? i = some o) (h : g.baseLatency o = .ok base) :
    (∀ samples, g.LateBy i samples → samples = base) ∧ (g.LateBy i base ∨ base = 0) := by
  obtain ⟨port, hp, h⟩ := bind_eq_ok.1 h
  rw [output_eq_ok] at hp
  cases hu : port.type.factor with
  | none =>
    rw [hu] at h
    cases h
    refine ⟨?_, .inr rfl⟩
    rintro samples ⟨o', port', u, hs', hp', hu', -⟩
    cases hs.symm.trans hs'
    cases hp.symm.trans hp'
    cases hu.symm.trans hu'
  | some u =>
    have hbase : base = (port.latency + u - 1) / u := by
      simp only [hu, Word.divCeil] at h
      split at h
      · cases h
      · exact (Except.ok.inj h).symm
    refine ⟨?_, .inl ⟨o, port, u, hs, hp, hu, hbase⟩⟩
    rintro samples ⟨o', port', u', hs', hp', hu', rfl⟩
    cases hs.symm.trans hs'
    cases hp.symm.trans hp'
    cases hu.symm.trans hu'
    exact hbase.symm

/-- One input is taken into account after another. -/
theorem isGreatest_latencyFrom {most latency : Nat} {l : List InputId}
    (h : g.latencyFrom most l = .ok latency) :
    IsGreatest { samples | samples = most ∨ ∃ i ∈ l, g.LateBy i samples } latency := by
  induction l generalizing most with
  | nil =>
    cases h
    simp
  | cons i l ih =>
    obtain ⟨source, hsource, h⟩ := bind_eq_ok.1 h
    obtain ⟨port, hport, rfl⟩ := map_eq_ok.1 hsource
    rw [input_eq_ok] at hport
    cases hs : port.source with
    | none =>
      have hquiet : ∀ samples, ¬ g.LateBy i samples := by
        rintro samples ⟨o, out, u, hs', -⟩
        obtain ⟨port', hport', hs'⟩ := source?_eq_some.1 hs'
        cases hport.symm.trans hport'
        cases hs.symm.trans hs'
      rw [hs] at h
      simpa [hquiet] using ih h
    | some o =>
      rw [hs] at h
      obtain ⟨base, hbase, h⟩ := bind_eq_ok.1 h
      have hsome : g.source? i = some o := source?_eq_some.2 ⟨port, hport, hs⟩
      obtain ⟨honly, harrives⟩ := lateBy_of_baseLatency hsome hbase
      obtain ⟨hmem, hbound⟩ := ih h
      have hmax : max most base ≤ latency := hbound (.inl rfl)
      refine ⟨?_, ?_⟩
      · rcases hmem with rfl | ⟨j, hj, hlate⟩
        · rcases Nat.le_total base most with hle | hle
          · exact .inl (Nat.max_eq_left hle)
          · rw [Nat.max_eq_right hle]
            rcases harrives with hlate | rfl
            · exact .inr ⟨i, List.mem_cons_self, hlate⟩
            · exact .inl (Nat.le_zero.1 hle).symm
        · exact .inr ⟨j, List.mem_cons_of_mem i hj, hlate⟩
      · rintro samples (rfl | ⟨j, hj, hlate⟩)
        · omega
        · rcases List.mem_cons.1 hj with rfl | hj
          · obtain rfl := honly samples hlate
            omega
          · exact hbound (.inr ⟨j, hj, hlate⟩)

theorem isGreatest_sinkLatency {sinks : List NodeId} {latency : Nat}
    (h : g.sinkLatency sinks = .ok latency) : IsGreatest (g.Arrivals sinks) latency := by
  have harrivals : g.Arrivals sinks =
      { samples | samples = 0 ∨ ∃ i ∈ g.sinkInputs sinks, g.LateBy i samples } := by
    ext samples
    simp only [Arrivals, sinkInputs, Set.mem_ofPred_eq, List.mem_flatMap, List.mem_filterMap]
    refine or_congr_right ⟨?_, ?_⟩
    · rintro ⟨n, hn, node, hnode, i, hi, hlate⟩
      exact ⟨i, ⟨node, ⟨n, hn, hnode⟩, hi⟩, hlate⟩
    · rintro ⟨i, ⟨node, ⟨n, hn, hnode⟩, hi⟩, hlate⟩
      exact ⟨n, hn, node, hnode, i, hi, hlate⟩
  rw [harrivals]
  exact isGreatest_latencyFrom h

end Graph

/-- Building a description faults exactly if it overflows at a call, and comes to an answer in all
other cases. If it is built, its latency is the latest arrival at the boundary and the latest at the
outputs together, and faults exactly if this sum does not fit. -/
theorem Description.build_overflows_iff {env : Environment} (hr : env.registry.Reached)
    (d : Description) :
    (∀ fault, d.build env = .error fault ↔ d.Overflows env fault) ∧
    ((∀ fault, ¬ d.Overflows env fault) → ∃ runs result, d.build env = .ok (runs, result)) ∧
    ∀ runs g, d.build env = .ok (runs, .ok g) → ∃ voice effect,
      IsGreatest (g.Arrivals g.surface.boundaryOutputs) voice ∧
      IsGreatest (g.Arrivals g.surface.outputs) effect ∧
      g.totalLatency =
        if voice + effect < Word.limit then .ok (voice + effect) else .error .addOverflow := by
  refine ⟨fun fault => build_eq_error hr d, fun hfits => ?_, fun runs g h => ?_⟩
  · cases h : d.build env with
    | error fault => exact absurd ((build_eq_error hr d).1 h) (hfits fault)
    | ok answer => exact ⟨answer.1, answer.2, rfl⟩
  · have hg : g.Coherent := (build_loaded hr h).valid.coherent
    have ht : g.Typed := build_typed h
    obtain ⟨voice, hvoice⟩ := sinkLatency_answers hg ht g.surface.boundaryOutputs
    obtain ⟨effect, heffect⟩ := sinkLatency_answers hg ht g.surface.outputs
    refine ⟨voice, effect, isGreatest_sinkLatency hvoice, isGreatest_sinkLatency heffect, ?_⟩
    rw [totalLatency, hvoice, ok_bind, heffect, ok_bind]
    rfl

/-! ## Three programs that overflow

In `product` a call would need an argument at 2 ^ 32 times the base rate. In `sum` a signal is
delayed twice by the largest number there is. In `halves` it is delayed so once in each half, and
only the sum of the two does not fit. -/

namespace Brim

def wide : Signature where
  id := .ofNat 1
  name := "wide"
  parameters := [.float "x" .input .varying 65536, .float "y" .output]
  returnParameter := some 1

def late : Signature := .unary 2 "late"

def env : Environment where
  registry :=
    { modules :=
        [(wide.id, .hosted wide (.fixed 0)), (late.id, .hosted late (.fixed 4294967295))]
      names := [("late", late.id), ("wide", wide.id)] }
  settings := {}

theorem reached : env.registry.Reached :=
  (Registry.Reached.empty.insert (m := .hosted wide (.fixed 0)) rfl).insert
    (m := .hosted late (.fixed 4294967295)) rfl

def program (entries : List Entry) (source : String) : Description where
  inputs := [{ name := "in", type := { primitive := .float } }]
  entries := entries
  outputs := [{ name := "out", type := { primitive := .float }, source }]

def product : Description :=
  program [{ name := "a", kind := .call "wide" 65536 ["in"] }] "a"

def sum : Description :=
  program [{ name := "a", kind := .call "late" 1 ["in"] },
    { name := "b", kind := .call "late" 1 ["a"] }] "b"

def halves : Description :=
  program [{ name := "a", kind := .call "late" 1 ["in"] },
    { name := "v", kind := .boundary { primitive := .float } "a" },
    { name := "b", kind := .call "late" 1 ["v"] }] "b"

/-- The latency of what is built. -/
def latency (d : Description) : Option (Except Fault Nat) :=
  match d.build env with
  | .ok (_, .ok g) => some g.totalLatency
  | _ => none

theorem latency_halves : ∃ runs g, halves.build env = .ok (runs, .ok g) ∧
    g.totalLatency = .error .addOverflow := by
  have h : latency halves = some (.error .addOverflow) := by cbv
  rw [latency] at h
  split at h
  · rename_i runs g hb
    exact ⟨runs, g, hb, Option.some.inj h⟩
  · cases h

end Brim

theorem Description.build_overflows_iff_brim :
    Brim.product.Overflows Brim.env .mulOverflow ∧ Brim.sum.Overflows Brim.env .addOverflow ∧
    ∃ runs g voice effect, Brim.halves.build Brim.env = .ok (runs, .ok g) ∧
      IsGreatest (g.Arrivals g.surface.boundaryOutputs) voice ∧
      IsGreatest (g.Arrivals g.surface.outputs) effect ∧ Word.limit ≤ voice + effect := by
  obtain ⟨hproduct, -⟩ := build_overflows_iff Brim.reached Brim.product
  obtain ⟨hsum, -⟩ := build_overflows_iff Brim.reached Brim.sum
  obtain ⟨-, -, hhalves⟩ := build_overflows_iff Brim.reached Brim.halves
  refine ⟨(hproduct .mulOverflow).1 (by cbv), (hsum .addOverflow).1 (by cbv), ?_⟩
  obtain ⟨runs, g, hb, htotal⟩ := Brim.latency_halves
  obtain ⟨voice, effect, hvoice, heffect, hlatency⟩ := hhalves runs g hb
  refine ⟨runs, g, voice, effect, hb, hvoice, heffect, Nat.le_of_not_lt fun hlt => ?_⟩
  rw [if_pos hlt, htotal] at hlatency
  cases hlatency

end SignalGraph
