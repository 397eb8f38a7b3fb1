import SignalGraph.Proofs.CycleSearch
import SignalGraph.Proofs.Downstream
import SignalGraph.Proofs.Reachability

/-!
# Upstream of the sinks

What `reachable` finds is everything upstream of the sinks: the live nodes from which a live sink is
reached by going from nodes to their consumers (`Coherent.mem_reachable_iff`). This holds with
cycles and without.

The walk is also done step by step here (`Walk`). A node is put on the stack for each input that it
feeds, so it may be there many times, and whether it was seen is asked when it is taken off. Ports
that are asked for have to be there. In a coherent graph they always are, and the walk ends after
one step for each live sink and one for each link that it goes along (`Coherent.ends_walk`).
-/

namespace SignalGraph

namespace Graph

open Relation

variable {g : Graph} {n : NodeId}

/-- A node is upstream of some sinks. -/
def UpstreamOf (g : Graph) (sinks : List NodeId) (n : NodeId) : Prop :=
  ∃ s ∈ sinks, g.contains s = true ∧ ReflTransGen (fun a b => b ∈ g.consumers a) n s

theorem Coherent.upstreamOf_iff (hg : g.Coherent) {sinks : List NodeId} :
    g.UpstreamOf sinks n ↔
      ∃ s ∈ sinks, (∃ node, g.node? s = some node) ∧ ReflTransGen g.Feeds n s := by
  have hstep : (fun a b => b ∈ g.consumers a) = g.Feeds := by
    funext a b
    exact propext hg.mem_consumers_iff
  simp only [UpstreamOf, hstep, contains_iff]

theorem Coherent.mem_reachable_iff (hg : g.Coherent) {sinks : List NodeId} :
    n ∈ g.reachable sinks ↔ g.contains n = true ∧ g.UpstreamOf sinks n := by
  rw [mem_reachable hg, hg.upstreamOf_iff]
  refine (and_iff_right_of_imp fun h => ?_).symm
  rw [← mem_reachable hg, reachable, List.mem_filter, hg.mem_nodeIds] at h
  exact contains_iff.2 h.1

theorem Coherent.ascends_reachable (hg : g.Coherent) (sinks : List NodeId) :
    Ascends (g.reachable sinks) :=
  hg.ascends_nodeIds.filter _

/-! ## The walk -/

/-- Where a walk stands: what it has seen, and where it has to go. -/
structure Walk where
  seen : List NodeId := []
  stack : List NodeId

namespace Walk

/-- A walk starts from the sinks that are there. -/
def start (g : Graph) (sinks : List NodeId) : Walk where
  stack := (sinks.filter g.contains).reverse

/-- A step leads on, or gives what was seen when there is nowhere to go. The last source comes
first. -/
def step (g : Graph) (w : Walk) : Except Fault (Walk ⊕ List NodeId) :=
  match w.stack with
  | [] => .ok (.inr w.seen)
  | n :: rest =>
    if n ∈ w.seen then .ok (.inl { w with stack := rest })
    else do
      let sources ← g.askSources n
      return .inl { seen := n :: w.seen, stack := sources.reverse ++ rest }

/-- A walk that stands here ends after so many steps, without a fault, and has seen these nodes. -/
inductive Ends (g : Graph) : Walk → Nat → List NodeId → Prop where
  | stop {w : Walk} {seen : List NodeId} : w.step g = .ok (.inr seen) → Ends g w 0 seen
  | next {w w' : Walk} {steps : Nat} {seen : List NodeId} : w.step g = .ok (.inl w') →
    Ends g w' steps seen → Ends g w (steps + 1) seen

/-- How many links lead into these nodes. -/
def links (g : Graph) (l : List NodeId) : Nat :=
  (l.map fun n => (g.sources n).length).sum

theorem step_seen {seen rest : List NodeId} (hn : n ∈ seen) :
    step g ⟨seen, n :: rest⟩ = .ok (.inl ⟨seen, rest⟩) := by
  simp [step, hn]

theorem step_new (hg : g.Coherent) {seen rest : List NodeId} {node : Node}
    (hlive : g.node? n = some node) (hn : n ∉ seen) :
    step g ⟨seen, n :: rest⟩ = .ok (.inl ⟨n :: seen, (g.sources n).reverse ++ rest⟩) := by
  simp [step, hn, hg.askSources_eq hlive]

/-- A walk finds what `gather` finds if it goes to sources in the same order. -/
theorem ends_gather (hg : g.Coherent) {seen remaining stack : List NodeId}
    (hstack : ∀ n ∈ stack, ∃ node, g.node? n = some node)
    (hremaining : ∀ n, n ∈ remaining ↔ (∃ node, g.node? n = some node) ∧ n ∉ seen)
    (hnodup : remaining.Nodup) :
    Ends g ⟨seen, stack⟩
      (stack.length + links g (gather (fun n => (g.sources n).reverse) remaining stack))
      ((gather (fun n => (g.sources n).reverse) remaining stack).reverse ++ seen) := by
  fun_induction gather (fun n => (g.sources n).reverse) remaining stack generalizing seen with
  | case1 => exact .stop rfl
  | case2 remaining n rest hn ih =>
    obtain ⟨⟨node, hlive⟩, hnew⟩ := (hremaining n).1 hn
    have hstack' : ∀ m ∈ (g.sources n).reverse ++ rest, ∃ node, g.node? m = some node := by
      intro m hm
      rcases List.mem_append.1 hm with hm | hm
      · exact (hg.feeds_live (List.mem_reverse.1 hm)).1
      · exact hstack m (List.mem_cons_of_mem n hm)
    have hremaining' : ∀ m, m ∈ remaining.erase n ↔
        (∃ node, g.node? m = some node) ∧ m ∉ n :: seen := by
      intro m
      rw [hnodup.mem_erase_iff, hremaining, List.mem_cons, not_or]
      tauto
    have hends := ih hstack' hremaining' (hnodup.erase n)
    rw [List.length_cons, Nat.add_right_comm]
    refine .next (step_new hg hlive hnew) ?_
    convert hends using 1
    · simp only [links, List.map_cons, List.sum_cons, List.length_append, List.length_reverse]
      omega
    · simp
  | case3 remaining n rest hn ih =>
    obtain ⟨hlive, hrest⟩ := List.forall_mem_cons.1 hstack
    have hseen : n ∈ seen := by
      by_contra hnew
      exact hn ((hremaining n).2 ⟨hlive, hnew⟩)
    have hends := ih hrest hremaining hnodup
    rw [List.length_cons, Nat.add_right_comm]
    exact .next (step_seen hseen) hends

end Walk

/-- The walk ends without a fault. It has seen what is reachable, each node once, and taken one step
for each live sink and one for each link into what it has seen. -/
theorem Coherent.ends_walk (hg : g.Coherent) (sinks : List NodeId) :
    ∃ seen, Walk.Ends g (.start g sinks)
        ((sinks.filter g.contains).length + Walk.links g (g.reachable sinks)) seen ∧
      seen.Perm (g.reachable sinks) := by
  have hstack : ∀ n ∈ (sinks.filter g.contains).reverse, ∃ node, g.node? n = some node := by
    intro n hn
    exact contains_iff.1 (List.mem_filter.1 (List.mem_reverse.1 hn)).2
  have hremaining : ∀ n, n ∈ g.nodeIds ↔ (∃ node, g.node? n = some node) ∧ n ∉ [] := by
    simp [hg.mem_nodeIds]
  have hends := Walk.ends_gather hg hstack hremaining hg.ascends_nodeIds.nodup
  have hperm : (gather (fun n => (g.sources n).reverse) g.nodeIds
      (sinks.filter g.contains).reverse).Perm (g.reachable sinks) := by
    refine (List.perm_ext_iff_of_nodup (gather_nodup hg.ascends_nodeIds.nodup)
      (hg.ascends_reachable sinks).nodup).2 fun n => ?_
    rw [mem_gather hg fun m n => List.mem_reverse, mem_reachable hg]
    simp [contains_iff, and_assoc]
  rw [List.length_reverse, List.append_nil, Walk.links,
    (hperm.map fun n => (g.sources n).length).sum_eq] at hends
  exact ⟨_, hends, (List.reverse_perm _).trans hperm⟩

/-- Whatever is listed as a sink, what is reachable is the set of live nodes upstream of the live
sinks, in a graph with cycles and in one without. The walk finds it after finitely many steps. -/
theorem reachable_upstream (hg : g.Coherent) (sinks : List NodeId) :
    Ascends (g.reachable sinks) ∧
      (∀ n, n ∈ g.reachable sinks ↔ g.contains n = true ∧ g.UpstreamOf sinks n) ∧
      ∃ seen, Walk.Ends g (.start g sinks)
          ((sinks.filter g.contains).length + Walk.links g (g.reachable sinks)) seen ∧
        seen.Perm (g.reachable sinks) :=
  ⟨hg.ascends_reachable sinks, fun _ => hg.mem_reachable_iff, hg.ends_walk sinks⟩

/-- A node that is there twice, and one that is not there. -/
def listedSinks : List NodeId :=
  [⟨3⟩, ⟨9⟩, ⟨3⟩]

/-- In a graph with a cycle the array is fed from three ports, and each of the negations from one.
The walk from the array takes two steps for the sinks and five for these links. -/
theorem reachable_upstream_knotted :
    ∃ g, Operation.performAll {} Operation.knotted = .ok g ∧ g.Coherent ∧
      TransGen g.FedBy ⟨2⟩ ⟨2⟩ ∧ g.reachable listedSinks = [⟨0⟩, ⟨1⟩, ⟨2⟩, ⟨3⟩] ∧
      g.reachable [⟨1⟩] = [⟨0⟩, ⟨1⟩] ∧ g.UpstreamOf listedSinks ⟨2⟩ ∧ ¬ g.UpstreamOf [⟨1⟩] ⟨2⟩ ∧
      ∃ seen, Walk.Ends g (.start g listedSinks) 7 seen ∧ seen.Perm [⟨0⟩, ⟨1⟩, ⟨2⟩, ⟨3⟩] := by
  have hrun : (do
      let g ← Operation.performAll {} Operation.knotted
      return (g.cycle?, g.reachable listedSinks, g.reachable [⟨1⟩], g.contains ⟨2⟩,
        (listedSinks.filter g.contains).length + Walk.links g (g.reachable listedSinks))) =
      .ok (some ⟨2⟩, [⟨0⟩, ⟨1⟩, ⟨2⟩, ⟨3⟩], [⟨0⟩, ⟨1⟩], true, 7) := by cbv
  obtain ⟨g, h, hrun⟩ := bind_eq_ok.1 hrun
  simp only [pure_eq_ok, Except.ok.injEq, Prod.mk.injEq] at hrun
  obtain ⟨hcycle, hall, hone, hlive, hsteps⟩ := hrun
  have hg : g.Coherent := (Operation.performAll_made h .empty).1.coherent
  obtain ⟨-, hmem, seen, hends, hperm⟩ := reachable_upstream hg listedSinks
  obtain ⟨-, hmem', -⟩ := reachable_upstream hg [⟨1⟩]
  rw [hsteps] at hends
  rw [hall] at hperm
  refine ⟨g, h, hg, hg.fedBy_cycle.2 (hg.cycle?_eq_some hcycle), hall, hone, ?_, ?_, seen, hends,
    hperm⟩
  · exact ((hmem ⟨2⟩).1 (by simp [hall])).2
  · intro hup
    have h2 := (hmem' ⟨2⟩).2 ⟨hlive, hup⟩
    simp [hone] at h2

end Graph

end SignalGraph
