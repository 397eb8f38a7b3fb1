import SignalGraph.Proofs.Outcome
import SignalGraph.Rewriting.Fixpoint

/-!
# Runs of rewriting, turn by turn

A run goes in turns. In each it visits the next node of its agenda, or begins another sweep
(`Turn`), until it stops (`Stop`). No turn has a bound of its own, and nothing about the graph has
to go down from one turn to the next: rules may build more than they remove, and may undo each
other. What goes down is what `Position.remaining` says, the rewrites that are still allowed, then
whether another sweep is due, then the agenda. So there is no endless sequence of turns
(`turn_wellFounded`).

`Ends` says that a run stops after finitely many turns, and with which answer. From wherever it
stands, a run ends with what `run` gives (`ends_run`) and with nothing else (`run_of_ends`). What
every turn keeps is true where a run stops (`Ends.exists_stop`).
-/

namespace SignalGraph.Rewriting

/-- Where a run stands between two turns. -/
structure Position where
  report : Report
  /-- Whether anything changed in this sweep. -/
  changed : Bool := false
  agenda : Agenda
  state : Rewriting

/-- The answer of a run. -/
abbrev Answer := Except Fault (Rewriting × Except RewriteError Report)

namespace Position

/-- Where a run starts on a graph from which `removed` nodes were collected. -/
def start (g : Graph) (removed : Nat) : Position where
  report := { removed, sweeps := 1 }
  agenda := .all g
  state := { graph := g }

/-- Whether one more rewrite is allowed. -/
def allowed (p : Position) (env : Environment) : Bool :=
  p.report.rewrites < env.settings.maxRewrites

/-- What is left to do: how many rewrites are allowed, whether a sweep follows this one, and how
many nodes this one has to visit. -/
def remaining (p : Position) (env : Environment) : ℕ ×ₗ ℕ ×ₗ ℕ :=
  toLex (env.settings.maxRewrites - p.report.rewrites, toLex (p.changed.toNat, p.agenda.size))

def run (p : Position) (env : Environment) (rules : RuleSet) : Answer :=
  Rewriting.run env rules p.report p.changed p.agenda p.state

end Position

variable {env : Environment} {rules : RuleSet}

/-- One turn of a run that goes on. -/
inductive Turn (env : Environment) (rules : RuleSet) (p : Position) : Position → Prop where
  /-- The agenda is empty, and something changed. -/
  | sweep (drained : p.agenda.next? = none) (changed : p.changed = true) :
    Turn env rules p
      { p with
        report := { p.report with sweeps := p.report.sweeps + 1 }
        changed := false
        agenda := .all p.state.graph }
  | skip {n : NodeId} {rest : Agenda} (next : p.agenda.next? = some (n, rest))
    (dead : p.state.graph.contains n = false) : Turn env rules p { p with agenda := rest }
  | pass {n : NodeId} {rest : Agenda} {s : Rewriting} (next : p.agenda.next? = some (n, rest))
    (live : p.state.graph.contains n = true)
    (visit : visit env rules (p.allowed env) p.state n = .ok (s, .unchanged)) :
    Turn env rules p { p with agenda := rest, state := s }
  | rewrite {n : NodeId} {rest : Agenda} {s : Rewriting} {rule : String} {removed : Nat}
    {requeue : List NodeId} (next : p.agenda.next? = some (n, rest))
    (live : p.state.graph.contains n = true)
    (visit : visit env rules (p.allowed env) p.state n = .ok (s, .rewritten rule removed requeue)) :
    Turn env rules p
      { report := p.report.applied rule removed
        changed := true
        agenda := rest.extend s.graph requeue
        state := s }

/-- The last turn of a run, and its answer. -/
inductive Stop (env : Environment) (rules : RuleSet) (p : Position) : Answer → Prop where
  | settled (drained : p.agenda.next? = none) (unchanged : p.changed = false) :
    Stop env rules p (.ok (p.state, .ok p.report))
  | limited {n : NodeId} {rest : Agenda} {s : Rewriting} {rule : String}
    (next : p.agenda.next? = some (n, rest)) (live : p.state.graph.contains n = true)
    (visit : visit env rules (p.allowed env) p.state n = .ok (s, .limited rule)) :
    Stop env rules p (.ok (s, .error (.limitExceeded env.settings.maxRewrites rule n)))
  | faulted {n : NodeId} {rest : Agenda} {fault : Fault}
    (next : p.agenda.next? = some (n, rest)) (live : p.state.graph.contains n = true)
    (visit : visit env rules (p.allowed env) p.state n = .error fault) :
    Stop env rules p (.error fault)

/-- A run that stands here stops after finitely many turns, with this answer. -/
inductive Ends (env : Environment) (rules : RuleSet) : Position → Answer → Prop where
  | stop {p : Position} {answer : Answer} : Stop env rules p answer → Ends env rules p answer
  | turn {p q : Position} {answer : Answer} : Turn env rules p q → Ends env rules q answer →
    Ends env rules p answer

/-! ## Every run ends -/

/-- Rules are applied only where that is allowed. -/
theorem allowed_of_tryRules {depths : Depths} {allowed : Bool} {sig : Signature} {n : NodeId}
    {location : Option Location} {s s' : Rewriting} {name : String} {removed : Nat}
    {requeue : List NodeId} (l : List Rule)
    (h : tryRules env depths allowed sig n location s l =
      .ok (s', .rewritten name removed requeue)) : allowed = true := by
  by_contra hne
  rw [Bool.not_eq_true] at hne
  subst hne
  induction l generalizing s with
  | nil => cases h
  | cons rule l ih =>
    rw [tryRules] at h
    obtain ⟨anchor, -, h⟩ := bind_eq_ok.1 h
    cases anchor with
    | none => exact ih h
    | some anchor =>
      obtain ⟨found, -, h⟩ := bind_eq_ok.1 h
      cases found with
      | none => exact ih h
      | some b => cases h

theorem allowed_of_visit {allowed : Bool} {s s' : Rewriting} {n : NodeId} {name : String}
    {removed : Nat} {requeue : List NodeId}
    (h : visit env rules allowed s n = .ok (s', .rewritten name removed requeue)) :
    allowed = true := by
  obtain ⟨node, -, h⟩ := bind_eq_ok.1 h
  split at h
  · exact allowed_of_tryRules _ h
  · cases h

/-- A turn leaves less to do. -/
theorem Turn.remaining_lt {p q : Position} (h : Turn env rules p q) :
    q.remaining env < p.remaining env := by
  cases h with
  | sweep _ changed =>
    refine Prod.Lex.toLex_lt_toLex.2 (.inr ⟨rfl, Prod.Lex.toLex_lt_toLex.2 (.inl ?_)⟩)
    simp [changed]
  | skip next _ =>
    refine Prod.Lex.toLex_lt_toLex.2 (.inr ⟨rfl, Prod.Lex.toLex_lt_toLex.2 (.inr ⟨rfl, ?_⟩)⟩)
    exact Agenda.size_lt_of_next? next
  | pass next _ _ =>
    refine Prod.Lex.toLex_lt_toLex.2 (.inr ⟨rfl, Prod.Lex.toLex_lt_toLex.2 (.inr ⟨rfl, ?_⟩)⟩)
    exact Agenda.size_lt_of_next? next
  | rewrite _ _ visit =>
    have hlt : p.report.rewrites < env.settings.maxRewrites :=
      of_decide_eq_true (allowed_of_visit visit)
    refine Prod.Lex.toLex_lt_toLex.2 (.inl ?_)
    simp only [Report.applied]
    omega

/-- No run goes on forever. -/
theorem turn_wellFounded (env : Environment) (rules : RuleSet) :
    WellFounded fun q p => Turn env rules p q :=
  Subrelation.wf Turn.remaining_lt (InvImage.wf (Position.remaining · env) wellFounded_lt)

/-- A run ends with what `run` gives. -/
theorem ends_run (env : Environment) (rules : RuleSet) (p : Position) :
    Ends env rules p (p.run env rules) := by
  obtain ⟨report, changed, agenda, s⟩ := p
  rw [Position.run]
  fun_induction Rewriting.run env rules report changed agenda s with
  | case1 report agenda s hd ih => exact .turn (.sweep hd rfl) ih
  | case2 report changed agenda s hd hc => exact .stop (.settled hd (Bool.not_eq_true _ ▸ hc))
  | case3 report changed agenda s n rest hd hlive fault hvis => exact .stop (.faulted hd hlive hvis)
  | case4 report changed agenda s n rest hd hlive s₁ hvis ih => exact .turn (.pass hd hlive hvis) ih
  | case5 report changed agenda s n rest hd hlive s₁ rule hvis =>
    exact .stop (.limited hd hlive hvis)
  | case6 report changed agenda s n rest hd hlive s₁ rule removed requeue hvis _ ih =>
    exact .turn (.rewrite hd hlive hvis) ih
  | case7 report changed agenda s n rest hd hlive s₁ rule removed requeue hvis hspent =>
    exact absurd (of_decide_eq_true (allowed_of_visit hvis)) hspent
  | case8 report changed agenda s n rest hd hlive ih =>
    exact .turn (.skip hd (Bool.not_eq_true _ ▸ hlive)) ih

/-- What every turn keeps is true where a run stops. -/
theorem Ends.exists_stop {P : Position → Prop} {p : Position} {answer : Answer}
    (hturn : ∀ p q, P p → Turn env rules p q → P q) (h : Ends env rules p answer) (hp : P p) :
    ∃ q, P q ∧ Stop env rules q answer := by
  induction h with
  | @stop p answer hs => exact ⟨p, hp, hs⟩
  | turn ht _ ih => exact ih (hturn _ _ hp ht)

/-! ## A run ends in one way -/

section

variable {p : Position} {answer : Answer}

theorem run_of_drained (h : p.agenda.next? = none) : p.run env rules =
    if p.changed then
      { p with
        report := { p.report with sweeps := p.report.sweeps + 1 }
        changed := false
        agenda := .all p.state.graph : Position }.run env rules
    else .ok (p.state, .ok p.report) := by
  rw [Position.run, Rewriting.run]
  split
  · rfl
  · rename_i hn
    cases h.symm.trans hn

theorem run_of_next {n : NodeId} {rest : Agenda} (h : p.agenda.next? = some (n, rest)) :
    p.run env rules =
      if p.state.graph.contains n then
        match visit env rules (p.allowed env) p.state n with
        | .error fault => .error fault
        | .ok (s, .unchanged) => { p with agenda := rest, state := s : Position }.run env rules
        | .ok (s, .limited rule) =>
          .ok (s, .error (.limitExceeded env.settings.maxRewrites rule n))
        | .ok (s, .rewritten rule removed requeue) =>
          if p.report.rewrites < env.settings.maxRewrites then
            Position.run ⟨p.report.applied rule removed, true, rest.extend s.graph requeue, s⟩ env
              rules
          else .ok (s, .error (.limitExceeded env.settings.maxRewrites rule n))
      else { p with agenda := rest : Position }.run env rules := by
  rw [Position.run, Rewriting.run]
  split
  · rename_i hd
    cases h.symm.trans hd
  · rename_i hd
    cases h.symm.trans hd
    rfl

theorem Stop.run_eq (h : Stop env rules p answer) : p.run env rules = answer := by
  cases h with
  | settled drained unchanged => simp [run_of_drained drained, unchanged]
  | limited next live visit => simp [run_of_next next, live, visit]
  | faulted next live visit => simp [run_of_next next, live, visit]

theorem Turn.run_eq {q : Position} (h : Turn env rules p q) :
    p.run env rules = q.run env rules := by
  cases h with
  | sweep drained changed => simp [run_of_drained drained, changed]
  | skip next dead => simp [run_of_next next, dead]
  | pass next live visit => simp [run_of_next next, live, visit]
  | rewrite next live visit =>
    have hlt : p.report.rewrites < env.settings.maxRewrites :=
      of_decide_eq_true (allowed_of_visit visit)
    simp [run_of_next next, live, visit, hlt]

/-- A run ends with nothing but what `run` gives. -/
theorem run_of_ends (h : Ends env rules p answer) : p.run env rules = answer := by
  induction h with
  | stop h => exact h.run_eq
  | turn h _ ih => exact h.run_eq.trans ih

end

end SignalGraph.Rewriting
