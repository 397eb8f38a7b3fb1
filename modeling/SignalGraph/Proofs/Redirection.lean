import SignalGraph.Proofs.Linking
import SignalGraph.Proofs.Replay

/-!
# Redirecting a port

`redirect` connects the consumers of a port to another one, one after the other. `redirect_spec`
says what this does to the inputs. Consumers are known by the sources of inputs, so it also says
what becomes of the outputs (`Redirected.output?_old`, `output?_new`, `output?_other`).
`redirect_moves` has both ends: what moves, and that nothing else does.
-/

namespace SignalGraph

namespace Graph

variable {g g' : Graph} {old new : OutputId} {out out' : OutputPort}

namespace Redirected

theorem source?_ne_old (h : Redirected g old new g') (hne : old ≠ new) (i : InputId) :
    g'.source? i ≠ some old := by
  rw [h.source?]
  split
  · exact fun he => hne (Option.some.inj he).symm
  · assumption

/-- The old port feeds nothing. -/
theorem output?_old (h : Redirected g old new g') (hne : old ≠ new)
    (ho : g.output? old = some out) : g'.output? old = some { out with consumers := [] } := by
  have hb : g'.bare? old = some out.bare := (h.bare? old).trans (bare?_eq_some.2 ⟨out, ho, rfl⟩)
  refine h.coherent.output?_eq hb List.Pairwise.nil fun i => ?_
  exact iff_of_false List.not_mem_nil (h.source?_ne_old hne i)

/-- The new port feeds what one of the two fed. -/
theorem output?_new (hg : g.Coherent) (h : Redirected g old new g')
    (ho : g.output? old = some out) (hn : g.output? new = some out') :
    g'.output? new =
      some { out' with consumers := Ascending.union out'.consumers out.consumers } := by
  have hb : g'.bare? new = some out'.bare := (h.bare? new).trans (bare?_eq_some.2 ⟨out', hn, rfl⟩)
  refine h.coherent.output?_eq hb (Ascending.ascends_union (hg.ascends hn)) fun i => ?_
  rw [Ascending.mem_union, hg.mem_consumers hn, hg.mem_consumers ho, h.source?]
  split
  · rename_i hs
    exact iff_of_true (.inr hs) rfl
  · rename_i hs
    exact or_iff_left hs

/-- Other ports feed what they fed. -/
theorem output?_other (hg : g.Coherent) (h : Redirected g old new g') {o : OutputId}
    (hold : o ≠ old) (hnew : o ≠ new) : g'.output? o = g.output? o := by
  cases ho : g.output? o with
  | none =>
    have hb := h.bare? o
    simpa [Graph.bare?, ho] using hb
  | some port =>
    have hb : g'.bare? o = some port.bare := (h.bare? o).trans (bare?_eq_some.2 ⟨port, ho, rfl⟩)
    refine h.coherent.output?_eq hb (hg.ascends ho) fun i => ?_
    rw [hg.mem_consumers ho, h.source?]
    split
    · rename_i hs
      rw [hs, Option.some.injEq, Option.some.injEq]
      exact iff_of_false hold.symm hnew.symm
    · rfl

end Redirected

/-- `g'` is `g` with the consumers of `old`, a port `out`, handed to `new`, a port `out'`. -/
structure Moved (g : Graph) (old new : OutputId) (out out' : OutputPort) (g' : Graph) : Prop where
  coherent : g'.Coherent
  output?_old : g'.output? old = some { out with consumers := [] }
  output?_new : ∃ consumers, g'.output? new = some { out' with consumers } ∧ Ascends consumers ∧
    ∀ i, i ∈ consumers ↔ i ∈ out.consumers ∨ i ∈ out'.consumers
  output?_other {o : OutputId} : o ≠ old → o ≠ new → g'.output? o = g.output? o
  input?_moved {i : InputId} : i ∈ out.consumers → ∃ port, g.input? i = some port ∧
    port.source = some old ∧ g'.input? i = some { port with source := some new }
  input?_other {i : InputId} : i ∉ out.consumers → g'.input? i = g.input? i
  nodes : g'.nodes = g.nodes
  surface : g'.surface = g.surface
  counters : g'.counters = g.counters

theorem Redirected.moved (hg : g.Coherent) (h : Redirected g old new g') (hne : old ≠ new)
    (ho : g.output? old = some out) (hn : g.output? new = some out') :
    Moved g old new out out' g' where
  coherent := h.coherent
  output?_old := h.output?_old hne ho
  output?_new := by
    refine ⟨_, h.output?_new hg ho hn, Ascending.ascends_union (hg.ascends hn), fun i => ?_⟩
    rw [Ascending.mem_union, or_comm]
  output?_other hold hnew := h.output?_other hg hold hnew
  input?_moved {i} hi := by
    obtain ⟨port, hp, hs⟩ := source?_eq_some.1 ((hg.mem_consumers ho).1 hi)
    refine ⟨port, hp, hs, ?_⟩
    rw [h.input?, hp, Option.map_some, if_pos hs]
  input?_other {i} hi := by
    rw [h.input?]
    cases hp : g.input? i with
    | none => rfl
    | some port =>
      have hs : port.source ≠ some old := fun hs =>
        hi ((hg.mem_consumers ho).2 (source?_eq_some.2 ⟨port, hp, hs⟩))
      rw [Option.map_some, if_neg hs]
  nodes := h.nodes
  surface := h.surface
  counters := by
    rw [h.coherent.counters, hg.counters, h.nodes, h.inputs_size, h.outputs_size]

/-- Redirecting one live port to another hands over all its consumers, says how many there were and
changes nothing else. Redirecting a port to itself changes nothing. -/
theorem redirect_moves (hg : g.Coherent) (ho : g.output? old = some out)
    (hn : g.output? new = some out') :
    (old ≠ new → ∃ g', g.redirect old new = .ok (g', out.consumers.length) ∧
      Moved g old new out out' g') ∧
    (old = new → g.redirect old new = .ok (g, 0)) := by
  constructor
  · intro hne
    obtain ⟨g', hr, h⟩ := redirect_spec hg hne ho hn
    exact ⟨g', hr, h.moved hg hne ho hn⟩
  · rintro rfl
    simp [redirect]

end Graph

/-! ## Two ports of one call

The right side of the sample program feeds an element of an array and the dry output, the left side
feeds the other element. -/

namespace Halves

/-- A port of the program by its number. -/
def portOf (o : OutputId) : Option OutputPort :=
  match program.build env with
  | .ok (_, .ok g) => g.output? o
  | _ => none

theorem exists_sides : ∃ runs g left right, program.build env = .ok (runs, .ok g) ∧
    g.output? ⟨2⟩ = some left ∧ left.node = ⟨2⟩ ∧ left.consumers = [⟨2⟩] ∧
    g.output? ⟨3⟩ = some right ∧ right.node = ⟨2⟩ ∧ right.consumers = [⟨1⟩, ⟨7⟩] := by
  obtain ⟨runs, g, hb, -, -⟩ := build_program
  have hport (o : OutputId) : portOf o = g.output? o := by rw [portOf, hb]
  have hleft : (portOf ⟨2⟩).map (fun p => (p.node, p.consumers)) = some (⟨2⟩, [⟨2⟩]) := by
    decide +kernel
  have hright : (portOf ⟨3⟩).map (fun p => (p.node, p.consumers)) = some (⟨2⟩, [⟨1⟩, ⟨7⟩]) := by
    decide +kernel
  rw [hport, Option.map_eq_some_iff] at hleft hright
  obtain ⟨left, hl, hleft⟩ := hleft
  obtain ⟨right, hr, hright⟩ := hright
  obtain ⟨hln, hlc⟩ := Prod.mk.inj hleft
  obtain ⟨hrn, hrc⟩ := Prod.mk.inj hright
  exact ⟨runs, g, left, right, hb, hl, hln, hlc, hr, hrn, hrc⟩

end Halves

/-- Both elements of the array and the dry output are fed from the left side afterwards. -/
theorem Graph.redirect_moves_halves :
    ∃ runs g left right g', Halves.program.build Halves.env = .ok (runs, .ok g) ∧ g.Coherent ∧
      g.output? ⟨2⟩ = some left ∧ left.node = ⟨2⟩ ∧ left.consumers = [⟨2⟩] ∧
      g.output? ⟨3⟩ = some right ∧ right.node = ⟨2⟩ ∧ right.consumers = [⟨1⟩, ⟨7⟩] ∧
      g.redirect ⟨3⟩ ⟨2⟩ = .ok (g', 2) ∧ Moved g ⟨3⟩ ⟨2⟩ right left g' ∧
      g'.output? ⟨2⟩ = some { left with consumers := [⟨1⟩, ⟨2⟩, ⟨7⟩] } ∧
      g.redirect ⟨3⟩ ⟨3⟩ = .ok (g, 0) := by
  obtain ⟨runs, g, left, right, hb, hl, hln, hlc, hr, hrn, hrc⟩ := Halves.exists_sides
  have hg := (Description.build_loaded Halves.reached hb).valid.coherent
  obtain ⟨g', hredirect, hmoved⟩ := (redirect_moves hg hr hl).1 (by decide)
  rw [hrc] at hredirect
  refine ⟨runs, g, left, right, g', hb, hg, hl, hln, hlc, hr, hrn, hrc, hredirect, hmoved, ?_,
    (redirect_moves hg hr hr).2 rfl⟩
  obtain ⟨consumers, hnew, hascends, hmem⟩ := hmoved.output?_new
  rw [hnew, hascends.ext (m := [⟨1⟩, ⟨2⟩, ⟨7⟩]) (by simp [Ascends]) fun i => ?_]
  simp only [hmem, hrc, hlc, List.mem_cons, List.not_mem_nil, or_false]
  tauto

end SignalGraph
