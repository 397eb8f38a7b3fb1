import SignalGraph.Proofs.Insertion
import SignalGraph.Proofs.Removal

/-!
# The flow of values

`Feeds` is the relation from a node to the nodes that take its values. It is well-founded in a
graph without cycles (`Acyclic`), and there every node has a rank below the number of nodes that
grows along it (`rank_le`, `rank_lt`).

New nodes and removed nodes close no cycle. Redirecting closes none if the node that takes over
does not itself depend on a node that is redirected (`Redirected.acyclic`).
-/

namespace SignalGraph

namespace Graph

open Relation

variable {g g' : Graph}

/-- A value flows from `m` straight to `n`. -/
def Feeds (g : Graph) (m n : NodeId) : Prop :=
  m ∈ g.sources n

/-- No value depends on itself. -/
def Acyclic (g : Graph) : Prop :=
  WellFounded g.Feeds

theorem Coherent.feeds_iff (hg : g.Coherent) {m n : NodeId} :
    g.Feeds m n ↔ ∃ i, g.owner? i = some n ∧ g.feeder? i = some m := by
  unfold Feeds sources
  split
  · rename_i node hn
    simp only [List.mem_filterMap, hg.mem_inputs hn]
  · rename_i hn
    refine ⟨(nomatch ·), fun ⟨i, hi, _⟩ => ?_⟩
    obtain ⟨node, hn'⟩ := hg.owner_live hi
    rw [hn] at hn'
    cases hn'

theorem Coherent.feeds_of_source (hg : g.Coherent) {i : InputId} {o : OutputId} {m n : NodeId}
    (hi : g.owner? i = some n) (hs : g.source? i = some o) (ho : g.maker? o = some m) :
    g.Feeds m n :=
  hg.feeds_iff.2 ⟨i, hi, feeder?_eq_some.2 ⟨o, hs, ho⟩⟩

theorem Coherent.feeds_live (hg : g.Coherent) {m n : NodeId} (h : g.Feeds m n) :
    (∃ node, g.node? m = some node) ∧ ∃ node, g.node? n = some node := by
  obtain ⟨i, hi, hf⟩ := hg.feeds_iff.1 h
  obtain ⟨o, -, ho⟩ := feeder?_eq_some.1 hf
  exact ⟨hg.maker_live ho, hg.owner_live hi⟩

theorem Acyclic.not_feeds_back (ha : g.Acyclic) {m n : NodeId} (h : TransGen g.Feeds m n) :
    ¬ ReflTransGen g.Feeds n m := by
  intro hb
  have hc : TransGen g.Feeds n n := TransGen.trans_right hb h
  exact ha.transGen.irrefl.irrefl n hc

/-! ## Changes that close no cycle -/

theorem Same.feeds (h : Same g g') {m n : NodeId} : g'.Feeds m n ↔ g.Feeds m n := by
  have hf : g'.feeder? = g.feeder? := by
    funext i
    rw [feeder?_eq, feeder?_eq, h.source?, funext h.maker?]
  rw [Feeds, Feeds, sources, sources, h.node?, hf]

theorem Same.acyclic (h : Same g g') (ha : g.Acyclic) : g'.Acyclic :=
  Subrelation.wf h.feeds.1 ha

theorem Without.feeds {n : NodeId} (hg : g.Coherent) (h : Without g n g') {a b : NodeId}
    (hf : g'.Feeds a b) : g.Feeds a b := by
  obtain ⟨i, hi, hs⟩ := h.coherent.feeds_iff.1 hf
  obtain ⟨o, hs, ho⟩ := feeder?_eq_some.1 hs
  have hin := h.input? i
  split at hin
  · rw [owner?, hin] at hi
    cases hi
  · have hbare := h.bare? o
    rw [maker?_eq_bare?] at ho
    split at hbare
    · rw [hbare] at ho
      cases ho
    · rw [hbare, ← maker?_eq_bare?] at ho
      exact hg.feeds_of_source (owner?_congr hin ▸ hi) (source?_congr hin ▸ hs) ho

section Inserted

variable {kind : Kind} {location : Option Location} {sources : List OutputId}
  {results : List (DataType × Nat)}

theorem Inserted.maker?_old (h : Inserted g kind location sources results g') {o : OutputId}
    {out : OutputPort} (ho : g.output? o = some out) : g'.maker? o = g.maker? o := by
  refine maker?_congr ?_
  rw [h.bare?, if_pos (lt_of_output? ho)]

theorem Inserted.source?_old (h : Inserted g kind location sources results g') {i : InputId}
    (hi : i.index < g.inputs.size) : g'.source? i = g.source? i := by
  refine source?_congr ?_
  rw [h.input?, if_pos hi]

theorem Inserted.input?_new (h : Inserted g kind location sources results g') {i : InputId}
    {port : InputPort} (hi : g.inputs.size ≤ i.index) (hp : g'.input? i = some port) :
    port.node = g.nextNode ∧ ∃ o ∈ sources, port.source = some o := by
  rw [h.input?, if_neg (Nat.not_lt.2 hi), Option.map_eq_some_iff] at hp
  obtain ⟨o, ho, rfl⟩ := hp
  exact ⟨rfl, o, List.mem_of_getElem? ho, rfl⟩

/-- Values flow to a new node from what it was made from, and to old nodes as before. -/
theorem Inserted.feeds (hg : g.Coherent) (h : Inserted g kind location sources results g')
    {m n : NodeId} (hf : g'.Feeds m n) :
    (n ≠ g.nextNode ∧ g.Feeds m n) ∨
      n = g.nextNode ∧ ∃ o ∈ sources, g.maker? o = some m := by
  obtain ⟨i, hi, hs⟩ := h.coherent.feeds_iff.1 hf
  obtain ⟨o, hs, ho⟩ := feeder?_eq_some.1 hs
  by_cases hlt : i.index < g.inputs.size
  · left
    have hin := h.input? i
    rw [if_pos hlt] at hin
    rw [owner?_congr hin] at hi
    rw [source?_congr hin] at hs
    obtain ⟨out, hout⟩ := hg.source_live hs
    rw [h.maker?_old hout] at ho
    obtain ⟨node, hn⟩ := hg.owner_live hi
    refine ⟨fun he => ?_, hg.feeds_of_source hi hs ho⟩
    rw [he, node?_nextNode] at hn
    cases hn
  · right
    obtain ⟨port, hp, hpn⟩ := owner?_eq_some.1 hi
    obtain ⟨hnode, o', ho', hps⟩ := h.input?_new (Nat.le_of_not_lt hlt) hp
    have he : o = o' := by
      rw [source?, hp, Option.bind_some, hps, Option.some.injEq] at hs
      exact hs.symm
    subst he
    obtain ⟨out, hout⟩ := h.sources_live o ho'
    exact ⟨hpn.symm.trans hnode, o, ho', h.maker?_old hout ▸ ho⟩

theorem Inserted.acyclic (hg : g.Coherent) (h : Inserted g kind location sources results g')
    (ha : g.Acyclic) : g'.Acyclic := by
  have hold (n : NodeId) : n ≠ g.nextNode → Acc g'.Feeds n := by
    induction n using ha.induction with
    | h n ih =>
      refine fun hn => Acc.intro n fun m hm => ?_
      rcases h.feeds hg hm with ⟨-, hf⟩ | ⟨he, -⟩
      · refine ih m hf fun he => ?_
        obtain ⟨⟨node, hl⟩, -⟩ := hg.feeds_live hf
        rw [he, node?_nextNode] at hl
        cases hl
      · exact absurd he hn
  refine ⟨fun n => ?_⟩
  by_cases hn : n = g.nextNode
  · refine Acc.intro n fun m hm => hold m fun he => ?_
    rcases h.feeds hg hm with ⟨hne, -⟩ | ⟨-, o, -, ho⟩
    · exact hne hn
    · obtain ⟨node, hl⟩ := hg.maker_live ho
      rw [he, node?_nextNode] at hl
      cases hl
  · exact hold n hn

end Inserted

section Redirected

variable {old new : OutputId} {r : NodeId}

theorem Redirected.feeds (hg : g.Coherent) (h : Redirected g old new g')
    (hr : g.maker? new = some r) {m n : NodeId} (hf : g'.Feeds m n) :
    g.Feeds m n ∨ m = r ∧ ∃ i, g.owner? i = some n ∧ g.source? i = some old := by
  obtain ⟨i, hi, hs⟩ := h.coherent.feeds_iff.1 hf
  obtain ⟨o, hs, ho⟩ := feeder?_eq_some.1 hs
  rw [h.owner?] at hi
  rw [h.source?] at hs
  rw [h.maker?] at ho
  split at hs
  · rename_i hold
    cases hs
    exact .inr ⟨Option.some.inj (ho.symm.trans hr), i, hi, hold⟩
  · exact .inl (hg.feeds_of_source hi hs ho)

/-- Redirecting closes no cycle if what takes over does not depend on what is redirected. -/
theorem Redirected.acyclic (hg : g.Coherent) (h : Redirected g old new g')
    (hr : g.maker? new = some r) (ha : g.Acyclic)
    (hfree : ∀ i c, g.source? i = some old → g.owner? i = some c → ¬ ReflTransGen g.Feeds c r) :
    g'.Acyclic := by
  -- What the node that takes over depends on is not redirected, so it keeps its sources.
  have hbelow (n : NodeId) : ReflTransGen g.Feeds n r → Acc g'.Feeds n := by
    induction n using ha.induction with
    | h n ih =>
      refine fun hn => Acc.intro n fun m hm => ?_
      rcases h.feeds hg hr hm with hf | ⟨-, i, hi, hs⟩
      · exact ih m hf (.head hf hn)
      · exact absurd hn (hfree i n hs hi)
  refine ⟨fun n => ?_⟩
  induction n using ha.induction with
  | h n ih =>
    refine Acc.intro n fun m hm => ?_
    rcases h.feeds hg hr hm with hf | ⟨rfl, -⟩
    · exact ih m hf
    · exact hbelow m .refl

end Redirected

/-! ## Ranks -/

theorem length_nodeIds_le (g : Graph) : g.nodeIds.length ≤ g.nodes.size := by
  rw [nodeIds, List.length_map]
  exact List.length_filterMap_le ..

open Classical in
/-- How many nodes a node depends on. -/
noncomputable def rank (g : Graph) (n : NodeId) : Nat :=
  (g.nodeIds.filter fun m => TransGen g.Feeds m n).length

theorem rank_le (g : Graph) (n : NodeId) : g.rank n ≤ g.nodes.size :=
  Nat.le_trans (List.length_filter_le ..) g.length_nodeIds_le

theorem rank_lt (hg : g.Coherent) (ha : g.Acyclic) {m n : NodeId} (h : g.Feeds m n) :
    g.rank m < g.rank n := by
  classical
  have hm : m ∈ g.nodeIds := hg.mem_nodeIds.2 (hg.feeds_live h).1
  have hsub : (g.nodeIds.filter fun a => TransGen g.Feeds a m)
      = (g.nodeIds.filter fun a => TransGen g.Feeds a n).filter fun a => TransGen g.Feeds a m := by
    rw [List.filter_filter]
    refine List.filter_congr fun a _ => ?_
    by_cases hma : TransGen g.Feeds a m
    · simp [hma, TransGen.tail hma h]
    · simp [hma]
  unfold rank
  rw [hsub, List.length_filter_lt_length_iff_exists]
  refine ⟨m, List.mem_filter.2 ⟨hm, by simpa using TransGen.single h⟩, ?_⟩
  simpa using fun hc => ha.not_feeds_back hc .refl

end Graph

end SignalGraph
