import SignalGraph.Proofs.Histories

/-!
# The search for a cycle, step by step

`Graph.visit` goes down into sources by recursion, no deeper than there are nodes. Here the same
search keeps what it has to do on a stack (`Search`). Every step takes one task from the stack; to
enter a node is to open it, and to put its sources on the stack above the task of closing it. A
node can be on the stack many times, and nothing bounds the number of steps in advance.

The search comes to an end on every coherent graph, and then its answer is that of `cycle?`
(`Coherent.ends_start`). While a node is entered, the open nodes are a trail that begins with it.
So an open node is never entered again, and one that is found among the sources closes a cycle.

Graphs that came about by operations are coherent, however they were rewired. So `verify` has
nothing to say of them but whether they have a cycle (`Operation.history_verify`).
-/

namespace SignalGraph

namespace Graph

open Relation

variable {g : Graph}

/-! ## Steps -/

/-- What is to be done with a node: it is to be visited, or to be closed after its sources were. -/
inductive Task where
  | enter (n : NodeId)
  | leave (n : NodeId)

/-- Where a search stands: the nodes that are open, those that were closed, and the stack. -/
structure Search where
  opened : List NodeId := []
  done : List NodeId := []
  tasks : List Task

namespace Search

/-- A search visits all nodes by number. -/
def start (g : Graph) : Search where
  tasks := g.nodeIds.map .enter

/-- A step leads on, or gives the answer: a node on a cycle, or none. A source that was closed is
not put on the stack, and the last source comes first. -/
def step (g : Graph) (s : Search) : Search ⊕ Option NodeId :=
  match s.tasks with
  | [] => .inr none
  | .leave n :: rest =>
    .inl { opened := s.opened.erase n, done := n :: s.done, tasks := rest }
  | .enter n :: rest =>
    if n ∈ s.done then .inl { s with tasks := rest }
    else if n ∈ s.opened then .inr (some n)
    else
      match (g.sources n).find? fun m => m ∈ n :: s.opened with
      | some m => .inr (some m)
      | none =>
        let sources := (g.sources n).reverse.filter fun m => m ∉ s.done
        .inl { s with opened := n :: s.opened, tasks := sources.map .enter ++ .leave n :: rest }

/-- A search that stands here gives this answer after finitely many steps. -/
inductive Ends (g : Graph) : Search → Option NodeId → Prop where
  | stop {s : Search} {answer : Option NodeId} : s.step g = .inr answer → Ends g s answer
  | next {s t : Search} {answer : Option NodeId} : s.step g = .inl t → Ends g t answer →
    Ends g s answer

/-- What comes of some tasks if it is known what visiting their nodes gives: the search goes on to
the rest of the stack with the nodes that are closed by then, or it ends. -/
def Follows (g : Graph) (opened done : List NodeId) (tasks rest : List Task) :
    Except NodeId (List NodeId) → Prop
  | .ok done' => ∀ answer, Ends g ⟨opened, done', rest⟩ answer →
    Ends g ⟨opened, done, tasks ++ rest⟩ answer
  | .error n => Ends g ⟨opened, done, tasks ++ rest⟩ (some n)

variable {opened done : List NodeId} {rest : List Task} {n : NodeId}

theorem ends_leave {answer : Option NodeId} (h : Ends g ⟨opened, n :: done, rest⟩ answer) :
    Ends g ⟨n :: opened, done, .leave n :: rest⟩ answer := by
  refine .next ?_ h
  simp [step]

/-- A node that was closed is passed over. -/
theorem ends_closed {answer : Option NodeId} (hn : n ∈ done)
    (h : Ends g ⟨opened, done, rest⟩ answer) :
    Ends g ⟨opened, done, .enter n :: rest⟩ answer := by
  refine .next ?_ h
  simp [step, hn]

/-- A source that is open closes a cycle. -/
theorem ends_open {m : NodeId} (hdone : n ∉ done) (hopen : n ∉ opened)
    (hfind : ((g.sources n).find? fun m => m ∈ n :: opened) = some m) :
    Ends g ⟨opened, done, .enter n :: rest⟩ (some m) := by
  refine .stop ?_
  simp only [step, if_neg hdone, if_neg hopen, hfind]

/-- The sources of a node are visited before it is closed. -/
theorem ends_enter {answer : Option NodeId} (hdone : n ∉ done) (hopen : n ∉ opened)
    (hfind : ((g.sources n).find? fun m => m ∈ n :: opened) = none)
    (h : Ends g ⟨n :: opened, done,
      (((g.sources n).reverse.filter fun m => m ∉ done).map .enter) ++ .leave n :: rest⟩ answer) :
    Ends g ⟨opened, done, .enter n :: rest⟩ answer := by
  refine .next ?_ h
  simp only [step, if_neg hdone, if_neg hopen, hfind]

/-! ## The recursion on a stack -/

theorem visit_of_mem (depth : Nat) (hn : n ∈ done) : g.visit depth opened done n = .ok done := by
  cases depth with
  | zero => rw [visit]
  | succ depth => rw [visit, if_pos hn]

/-- Tasks for the nodes of a list do what visiting them does. The tasks of nodes that were closed
when the stack was filled are left out; they would be passed over. -/
theorem visitAll_follows {depth : Nat}
    (hv : ∀ {done n}, (∀ m ∈ done, Acc g.Feeds m) → Trail g (n :: opened) →
      Searched g done [n] (g.visit depth opened done n) ∧
        ∀ rest, Follows g opened done [.enter n] rest (g.visit depth opened done n))
    (closed l : List NodeId) (rest : List Task) (hd : ∀ m ∈ done, Acc g.Feeds m)
    (hclosed : ∀ m ∈ closed, m ∈ done) (hl : ∀ n ∈ l, Trail g (n :: opened)) :
    Follows g opened done ((l.filter fun m => m ∉ closed).map .enter) rest
      (g.visitAll depth opened done l) := by
  induction l generalizing done with
  | nil =>
    rw [visitAll]
    exact fun answer h => h
  | cons n l ih =>
    obtain ⟨hn, hl⟩ := List.forall_mem_cons.1 hl
    rw [visitAll]
    by_cases hmem : n ∈ closed
    · rw [visit_of_mem depth (hclosed n hmem), List.filter_cons_of_neg (by simpa using hmem)]
      exact ih hd hclosed hl
    · rw [List.filter_cons_of_pos (by simpa using hmem), List.map_cons]
      obtain ⟨hs, hf⟩ := hv hd hn
      cases h : g.visit depth opened done n with
      | error m =>
        rw [h] at hf
        exact hf _
      | ok done₁ =>
        rw [h] at hs hf
        obtain ⟨hd₁, hsub, -⟩ := hs
        have hrest := ih hd₁ (fun m hm => hsub m (hclosed m hm)) hl
        simp only
        cases h₂ : g.visitAll depth opened done₁ l with
        | error m =>
          rw [h₂] at hrest
          exact hf _ _ hrest
        | ok done₂ =>
          rw [h₂] at hrest
          exact fun answer ha => hf _ _ (hrest answer ha)

/-- By induction on the depth, which with the open nodes is more than there are nodes. So it is
never used up, and the recursion goes as deep as the stack does. -/
theorem visit_follows (hg : g.Coherent) (depth : Nat)
    (hdepth : g.nodes.size < depth + opened.length) (hd : ∀ m ∈ done, Acc g.Feeds m)
    (ht : Trail g (n :: opened)) (rest : List Task) :
    Follows g opened done [.enter n] rest (g.visit depth opened done n) := by
  induction depth generalizing opened done n rest with
  | zero =>
    have hle := ht.length_le hg
    rw [List.length_cons] at hle
    omega
  | succ depth ih =>
    have hopen : n ∉ opened := (List.nodup_cons.1 ht.nodup).1
    rw [visit]
    split
    · rename_i hn
      exact fun answer h => ends_closed hn h
    · rename_i hdone
      simp only
      split
      · rename_i m hf
        exact ends_open hdone hopen hf
      · rename_i hf
        have hlen : g.nodes.size < depth + (n :: opened).length := by
          rw [List.length_cons]
          omega
        have hall := visitAll_follows
          (fun hd ht => ⟨visit_searched hg depth hlen hd ht, ih hlen hd ht⟩) done
          (g.sources n).reverse (.leave n :: rest) hd (fun m hm => hm) (ht.cons_of_find? hg hf)
        split
        · rename_i done₁ h
          rw [h] at hall
          exact fun answer ha => ends_enter hdone hopen hf (hall answer (ends_leave ha))
        · rename_i m h
          rw [h] at hall
          exact ends_enter hdone hopen hf hall

end Search

/-- On a coherent graph the search comes to an end, with the answer of `cycle?`. -/
theorem Coherent.ends_start (hg : g.Coherent) : Search.Ends g (.start g) g.cycle? := by
  have hall : Search.Follows g [] [] ((g.nodeIds.filter fun m => m ∉ ([] : List NodeId)).map .enter)
      [] (g.visitAll (g.nodes.size + 1) [] [] g.nodeIds) :=
    Search.visitAll_follows
      (fun hd ht =>
        ⟨visit_searched hg _ (by simp) hd ht, Search.visit_follows hg _ (by simp) hd ht⟩)
      [] g.nodeIds [] (List.forall_mem_nil _) (List.forall_mem_nil _)
      fun n hn => hg.trail_singleton hn
  have hstart : Search.start g =
      ⟨[], [], (g.nodeIds.filter fun m => m ∉ ([] : List NodeId)).map .enter ++ []⟩ := by
    simp [Search.start]
  rw [hstart]
  unfold cycle?
  split
  · rename_i done h
    rw [h] at hall
    exact hall none (.stop rfl)
  · rename_i n h
    rw [h] at hall
    exact hall

/-! ## Cycles -/

/-- An input of `n` is fed by an output of `m`. -/
def FedBy (g : Graph) (n m : NodeId) : Prop :=
  ∃ i input o output, g.input? i = some input ∧ input.node = n ∧ input.source = some o ∧
    g.output? o = some output ∧ output.node = m

theorem Coherent.fedBy_eq (hg : g.Coherent) : g.FedBy = Function.swap g.Feeds := by
  funext n m
  rw [Function.swap, hg.feeds_iff, eq_iff_iff]
  constructor
  · rintro ⟨i, input, o, output, hi, hn, hs, ho, hm⟩
    exact ⟨i, owner?_eq_some.2 ⟨input, hi, hn⟩, feeder?_eq_some.2
      ⟨o, source?_eq_some.2 ⟨input, hi, hs⟩, maker?_eq_some.2 ⟨output, ho, hm⟩⟩⟩
  · rintro ⟨i, hi, hf⟩
    obtain ⟨o, hs, ho⟩ := feeder?_eq_some.1 hf
    obtain ⟨input, hi, hn⟩ := owner?_eq_some.1 hi
    obtain ⟨input', hi', hs⟩ := source?_eq_some.1 hs
    obtain ⟨output, ho, hm⟩ := maker?_eq_some.1 ho
    obtain rfl := Option.some.inj (hi.symm.trans hi')
    exact ⟨i, input, o, output, hi, hn, hs, ho, hm⟩

theorem Coherent.fedBy_cycle (hg : g.Coherent) {n : NodeId} :
    TransGen g.FedBy n n ↔ TransGen g.Feeds n n := by
  rw [hg.fedBy_eq]
  exact transGen_swap

/-- A graph has violations just if it has a cycle, and then a node on a cycle is named. -/
theorem Coherent.verify_cases (hg : g.Coherent) :
    (g.verify = [] ∧ ∀ n, ¬ TransGen g.FedBy n n) ∨
      ∃ n, g.verify = [.cycle n] ∧ TransGen g.FedBy n n := by
  rw [hg.verify_eq]
  cases h : g.cycle? with
  | none =>
    refine .inl ⟨rfl, fun n hn => ?_⟩
    exact (hg.cycle?_eq_none.1 h).not_feeds_back (hg.fedBy_cycle.1 hn) .refl
  | some n => exact .inr ⟨n, rfl, hg.fedBy_cycle.2 (hg.cycle?_eq_some h)⟩

end Graph

namespace Operation

open SignalGraph.Graph Relation

/-- After every history, whatever was rewired in it, verification finds a graph in order just if no
node depends on itself. Otherwise it says one thing, that there is a cycle through some node, and
that node is on a cycle. The search for the cycle ends after finitely many steps. -/
theorem history_verify {history : List Operation} {g : Graph}
    (h : performAll {} history = .ok g) :
    (g.verify = [] ↔ ∀ n, ¬ TransGen g.FedBy n n) ∧
      (g.verify ≠ [] → ∃ n, TransGen g.FedBy n n ∧ g.verify = [.cycle n] ∧
        g.verify.map Violation.message = [s!"cycle through {n}"]) ∧
      Search.Ends g (.start g) g.cycle? := by
  have hg : g.Coherent := (performAll_made h .empty).1.coherent
  refine ⟨?_, fun hne => ?_, hg.ends_start⟩
  · rcases hg.verify_cases with ⟨hnil, hnone⟩ | ⟨n, hn, hcycle⟩
    · exact iff_of_true hnil hnone
    · exact iff_of_false (by simp [hn]) fun hnone => hnone n hcycle
  · rcases hg.verify_cases with ⟨hnil, -⟩ | ⟨n, hn, hcycle⟩
    · exact absurd hnil hne
    · exact ⟨n, hcycle, hn, by rw [hn]; rfl⟩

/-- Two negations of one value in an array, the first of them twice. -/
def shared : List Operation :=
  [.addInput "x" (.constant .float) none,
   .call Negation.env Negation.signature.id 1 [⟨0⟩] none,
   .call Negation.env Negation.signature.id 1 [⟨0⟩] none,
   .addArray .float [⟨1⟩, ⟨2⟩, ⟨1⟩] none]

/-- The second negation is fed from the array that it is in. -/
def knotted : List Operation :=
  shared ++ [.connect ⟨1⟩ (some ⟨3⟩)]

/-- Nodes that are used twice close no cycle, but a node that is fed from what it feeds does. -/
theorem history_verify_knotted :
    (∃ g, performAll {} shared = .ok g ∧ g.verify = [] ∧ (∀ n, ¬ TransGen g.FedBy n n) ∧
      Search.Ends g (.start g) none) ∧
    ∃ g, performAll {} knotted = .ok g ∧ g.verify = [.cycle ⟨2⟩] ∧
      TransGen g.FedBy ⟨2⟩ ⟨2⟩ ∧ g.verify.map Violation.message = ["cycle through n2"] ∧
      Search.Ends g (.start g) (some ⟨2⟩) := by
  constructor
  · have hrun : (do
        let g ← performAll {} shared
        return (g.verify, g.cycle?)) = .ok ([], none) := by cbv
    obtain ⟨g, h, hrun⟩ := bind_eq_ok.1 hrun
    obtain ⟨hnil, hcycle⟩ := Prod.mk.inj (Except.ok.inj hrun)
    obtain ⟨hiff, -, hends⟩ := history_verify h
    exact ⟨g, h, hnil, hiff.1 hnil, hcycle ▸ hends⟩
  · have hrun : (do
        let g ← performAll {} knotted
        return (g.verify, g.cycle?)) = .ok ([.cycle ⟨2⟩], some ⟨2⟩) := by cbv
    obtain ⟨g, h, hrun⟩ := bind_eq_ok.1 hrun
    obtain ⟨hverify, hcycle⟩ := Prod.mk.inj (Except.ok.inj hrun)
    obtain ⟨-, hnamed, hends⟩ := history_verify h
    obtain ⟨n, hn, hsays, hmessage⟩ := hnamed (by simp [hverify])
    obtain rfl : n = ⟨2⟩ := by simpa [hverify] using hsays.symm
    exact ⟨g, h, hverify, hn, hmessage, hcycle ▸ hends⟩

end Operation

end SignalGraph
