import SignalGraph.Proofs.Asking
import SignalGraph.Proofs.Growth
import SignalGraph.Rewriting.Step

/-!
# Downstream of a node

`Hops` counts the steps in which a value flows from one node to another, through nodes of any kind.
The walk goes level by level and looks at no node twice. What it leaves behind is closed: all that a
node behind its frontier feeds was seen before (`Enclosed`). So it finds what is at most so many
steps away, and nothing else (`askDownstream_spec`), and a commit names the nodes that are at most
`reach` steps downstream of its result, and the new calls (`askEnabled_spec`). All nodes that it
comes to on the way are live.
-/

namespace SignalGraph

namespace Graph

open Relation

variable {g : Graph} {k levels : Nat} {l m n : NodeId} {seen frontier : List NodeId}

/-- A value flows from one node to another in so many steps. -/
inductive Hops (g : Graph) : Nat → NodeId → NodeId → Prop where
  | refl (n : NodeId) : Hops g 0 n n
  | head {k : Nat} {l m n : NodeId} : g.Feeds l m → Hops g k m n → Hops g (k + 1) l n

theorem Hops.reflTransGen (h : g.Hops k m n) : ReflTransGen g.Feeds m n := by
  induction h with
  | refl n => exact .refl
  | head hf _ ih => exact .head hf ih

theorem Coherent.mem_consumers_iff (hg : g.Coherent) : n ∈ g.consumers m ↔ g.Feeds m n := by
  rw [hg.feeds_iff, consumers]
  constructor
  · intro h
    split at h
    · rename_i node hm
      obtain ⟨o, ho, hn⟩ := List.mem_flatMap.1 (Ascending.mem_ofList.1 h)
      rw [fed] at hn
      split at hn
      · rename_i port hp
        obtain ⟨i, hi, hn⟩ := List.mem_filterMap.1 hn
        exact ⟨i, hn, feeder?_eq_some.2 ⟨o, (hg.mem_consumers hp).1 hi, (hg.mem_outputs hm).1 ho⟩⟩
      · cases hn
    · cases h
  · rintro ⟨i, hi, hf⟩
    obtain ⟨o, hs, ho⟩ := feeder?_eq_some.1 hf
    obtain ⟨node, hm⟩ := hg.maker_live ho
    obtain ⟨port, hp, -⟩ := maker?_eq_some.1 ho
    rw [hm]
    refine Ascending.mem_ofList.2 (List.mem_flatMap.2 ⟨o, (hg.mem_outputs hm).2 ho, ?_⟩)
    rw [fed, hp]
    exact List.mem_filterMap.2 ⟨i, (hg.mem_consumers hp).2 hs, hi⟩

/-! ## The walk -/

/-- The walk has left behind all that is seen and not in the frontier. -/
structure Enclosed (g : Graph) (seen frontier : List NodeId) : Prop where
  subset : frontier ⊆ seen
  closed {m n : NodeId} : m ∈ seen → m ∉ frontier → g.Feeds m n → n ∈ seen

/-- What the frontier feeds and was not seen. -/
def onward (g : Graph) (seen frontier : List NodeId) : List NodeId :=
  (Ascending.ofList (frontier.flatMap g.consumers)).filter fun n => n ∉ seen

theorem Coherent.mem_onward (hg : g.Coherent) :
    n ∈ g.onward seen frontier ↔ n ∉ seen ∧ ∃ m ∈ frontier, g.Feeds m n := by
  simp [onward, hg.mem_consumers_iff, and_comm]

theorem Coherent.onward_live (hg : g.Coherent) :
    ∀ n ∈ g.onward seen frontier, ∃ node, g.node? n = some node := by
  intro n hn
  obtain ⟨-, m, -, hf⟩ := hg.mem_onward.1 hn
  exact (hg.feeds_live hf).2

theorem Coherent.askDownstreamFrom_succ (hg : g.Coherent)
    (hlive : ∀ n ∈ frontier, ∃ node, g.node? n = some node) :
    g.askDownstreamFrom (levels + 1) seen frontier =
      if (g.onward seen frontier).isEmpty then .ok seen
      else g.askDownstreamFrom levels (Ascending.union seen (g.onward seen frontier))
        (g.onward seen frontier) := by
  have hfed : frontier.mapM g.askConsumers = .ok (frontier.map g.consumers) := by
    refine mapM_ok fun n hn => ?_
    obtain ⟨node, hn⟩ := hlive n hn
    exact hg.askConsumers_eq hn
  rw [askDownstreamFrom, hfed]
  rfl

theorem Enclosed.next (hg : g.Coherent) (h : g.Enclosed seen frontier) :
    g.Enclosed (Ascending.union seen (g.onward seen frontier)) (g.onward seen frontier) where
  subset _ hn := Ascending.mem_union.2 (.inr hn)
  closed {m n} hm hne hf := by
    have hseen := (Ascending.mem_union.1 hm).resolve_right hne
    rw [Ascending.mem_union, hg.mem_onward]
    by_cases hn : n ∈ seen
    · exact .inl hn
    · by_cases hfront : m ∈ frontier
      · exact .inr ⟨hn, m, hfront, hf⟩
      · exact absurd (h.closed hseen hfront hf) hn

/-- A way out of what was seen goes through the frontier. -/
theorem Enclosed.leaves (hg : g.Coherent) (h : g.Enclosed seen frontier) (hm : m ∈ seen)
    (hk : g.Hops k m n) :
    n ∈ seen ∨ ∃ l ∈ g.onward seen frontier, ∃ j < k, g.Hops j l n := by
  induction hk with
  | refl => exact .inl hm
  | @head k m l n hf hk ih =>
    by_cases hl : l ∈ seen
    · exact (ih hl).imp_right fun ⟨l', hl', j, hj, hh⟩ => ⟨l', hl', j, Nat.lt_succ_of_lt hj, hh⟩
    · have hfront : m ∈ frontier := by
        by_contra hne
        exact hl (h.closed hm hne hf)
      exact .inr ⟨l, hg.mem_onward.2 ⟨hl, m, hfront, hf⟩, k, Nat.lt_succ_self k, hk⟩

theorem Coherent.askDownstreamFrom_spec (hg : g.Coherent) (levels : Nat)
    (h : g.Enclosed seen frontier) (hlive : ∀ n ∈ frontier, ∃ node, g.node? n = some node) :
    ∃ found, g.askDownstreamFrom levels seen frontier = .ok found ∧
      ∀ n, n ∈ found ↔ n ∈ seen ∨ ∃ m ∈ frontier, ∃ k ≤ levels, g.Hops k m n := by
  induction levels generalizing seen frontier with
  | zero =>
    refine ⟨seen, rfl, fun n => ⟨.inl, ?_⟩⟩
    rintro (hn | ⟨m, hm, k, hk, hh⟩)
    · exact hn
    · obtain rfl := Nat.le_zero.1 hk
      cases hh
      exact h.subset hm
  | succ levels ih =>
    have hout (n : NodeId) : (∃ m ∈ frontier, ∃ k ≤ levels + 1, g.Hops k m n) →
        n ∈ seen ∨ ∃ l ∈ g.onward seen frontier, ∃ k ≤ levels, g.Hops k l n := by
      rintro ⟨m, hm, k, hk, hh⟩
      exact (h.leaves hg (h.subset hm) hh).imp_right fun ⟨l, hl, j, hj, hh⟩ =>
        ⟨l, hl, j, by omega, hh⟩
    rw [hg.askDownstreamFrom_succ hlive]
    split
    · rename_i hempty
      rw [List.isEmpty_iff.1 hempty] at hout
      refine ⟨seen, rfl, fun n => ⟨.inl, fun hn => ?_⟩⟩
      refine hn.elim id fun hn => (hout n hn).resolve_right ?_
      simp
    · obtain ⟨found, hfound, hmem⟩ := ih (h.next hg) hg.onward_live
      refine ⟨found, hfound, fun n => ?_⟩
      rw [hmem, Ascending.mem_union]
      constructor
      · rintro ((hn | hn) | ⟨l, hl, k, hk, hh⟩)
        · exact .inl hn
        · obtain ⟨-, m, hm, hf⟩ := hg.mem_onward.1 hn
          exact .inr ⟨m, hm, 1, by omega, .head hf (.refl n)⟩
        · obtain ⟨-, m, hm, hf⟩ := hg.mem_onward.1 hl
          exact .inr ⟨m, hm, k + 1, by omega, .head hf hh⟩
      · rintro (hn | hn)
        · exact .inl (.inl hn)
        · exact (hout n hn).imp_left .inl

/-- The walk finds what is at most so many steps away. -/
theorem Coherent.askDownstream_spec (hg : g.Coherent) (levels : Nat) {node : Node}
    (hm : g.node? m = some node) :
    ∃ found, g.askDownstream m levels = .ok found ∧
      ∀ n, n ∈ found ↔ ∃ k ≤ levels, g.Hops k m n := by
  have henclosed : g.Enclosed [m] [m] := ⟨List.Subset.refl _, fun hm hne => absurd hm hne⟩
  have hlive : ∀ n ∈ [m], ∃ node, g.node? n = some node := by simp [hm]
  obtain ⟨found, hfound, hmem⟩ := hg.askDownstreamFrom_spec levels henclosed hlive
  refine ⟨found, hfound, fun n => ?_⟩
  rw [hmem]
  constructor
  · rintro (hn | ⟨m', hm', h⟩)
    · obtain rfl := List.mem_singleton.1 hn
      exact ⟨0, Nat.zero_le _, .refl n⟩
    · obtain rfl := List.mem_singleton.1 hm'
      exact h
  · intro h
    exact .inr ⟨m, List.mem_singleton_self m, h⟩

theorem askReach_eq {depths : Depths} {node : Node} (hn : g.node? n = some node) :
    g.askReach depths n = .ok (g.reach depths n) := by
  rw [askReach, node_eq_ok.2 hn, ok_bind, reach, hn, Option.map_some]
  cases node.kind <;> rfl

/-- A commit names what is within reach of its result, and the new calls. -/
theorem Coherent.askEnabled_spec (hg : g.Coherent) (depths : Depths) (watermark : NodeId)
    {node : Node} (hm : g.node? m = some node) :
    ∃ found, g.askEnabled depths m watermark = .ok found ∧
      ∀ n, n ∈ found ↔ (∃ k ≤ g.reach depths m, g.Hops k m n) ∨
        watermark.index ≤ n.index ∧ ∃ node, g.node? n = some node ∧ node.kind.isCall = true := by
  obtain ⟨near, hnear, hmem⟩ := hg.askDownstream_spec (g.reach depths m) hm
  have hfresh : ((g.addedSince watermark).filterMapM fun n => do
      return if (← g.node n).kind.isCall then some n else none : Except Fault (List NodeId)) =
      .ok ((g.addedSince watermark).filterMap fun n =>
        if (g.node? n).any fun node => node.kind.isCall then some n else none) := by
    refine filterMapM_ok fun n hn => ?_
    obtain ⟨-, node, hn⟩ := mem_addedSince.1 hn
    simp [node_eq_ok.2 hn, hn]
  refine ⟨_, by rw [askEnabled, askReach_eq hm, ok_bind, hnear, ok_bind, hfresh]; rfl,
    fun n => ?_⟩
  rw [Ascending.mem_union, hmem, List.mem_filterMap]
  refine or_congr_right ⟨?_, ?_⟩
  · rintro ⟨n', hn', h⟩
    obtain ⟨hle, node, hn⟩ := mem_addedSince.1 hn'
    simp only [hn, Option.any_some, Option.ite_none_right_eq_some, Option.some.injEq] at h
    obtain ⟨hcall, rfl⟩ := h
    exact ⟨hle, node, hn, hcall⟩
  · rintro ⟨hle, node, hn, hcall⟩
    exact ⟨n, mem_addedSince.2 ⟨hle, node, hn⟩, by simp [hn, hcall]⟩

end Graph

end SignalGraph
