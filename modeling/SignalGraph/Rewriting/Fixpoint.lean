import SignalGraph.Rewriting.Step

/-!
# Rewriting to a fixpoint

Nodes are visited by number, and again where a step may have made a rule match, until a whole
sweep over the graph changes nothing. A limit on the number of rewrites ends runs that would not
come to rest.
-/

namespace SignalGraph

/-- Rewriting came to its limit; a rule matches at a node that could not be rewritten. -/
inductive RewriteError where
  | limitExceeded (limit : Nat) (rule : String) (node : NodeId)
deriving DecidableEq, Repr

namespace RewriteError

def message : RewriteError → String
  | .limitExceeded limit rule node =>
    s!"rewrite limit of {limit} reached before a fixpoint; rule '{rule}' would fire again at {node}"

def diagnostic (e : RewriteError) : Diagnostic :=
  { level := .error
    location := none
    message := e.message
    code := some .E0401
    hint := some
      "the rule set may not terminate; raise max_rewrites or check for cyclic rules" }

end RewriteError

/-- What a run of rewriting did. -/
structure Report where
  rewrites : Nat := 0
  /-- How many nodes were collected. -/
  removed : Nat := 0
  /-- How often the whole graph was visited, the last time without a change included. -/
  sweeps : Nat := 0
  /-- How often each rule was applied, in ascending order of names. -/
  fired : List (String × Nat) := []
deriving DecidableEq, Repr

namespace Report

/-- One application of a rule more. -/
def count (rule : String) : List (String × Nat) → List (String × Nat)
  | [] => [(rule, 1)]
  | (name, n) :: rest =>
    if rule = name then (name, n + 1) :: rest
    else if rule < name then (rule, 1) :: (name, n) :: rest
    else (name, n) :: count rule rest

/-- A rule was applied, and this many nodes were collected. -/
def applied (r : Report) (rule : String) (removed : Nat) : Report :=
  { r with
    rewrites := r.rewrites + 1
    removed := r.removed + removed
    fired := count rule r.fired }

def text (r : Report) : String :=
  s!"{r.rewrites} rewrite(s), {r.removed} node(s) removed, {r.sweeps} sweep(s)"
    ++ String.join (r.fired.map fun (rule, n) => s!"\n  {rule}: {n}")

instance : ToString Report := ⟨text⟩

end Report

/-- What a sweep still has to visit: nodes that it passed and where a rule may match by now, which
come first and are ascending, and then all nodes from `cursor` on and before `stop`. -/
structure Agenda where
  passed : List NodeId := []
  cursor : Nat := 0
  stop : Nat
deriving DecidableEq, Repr

namespace Agenda

/-- Every node of a graph. -/
def all (g : Graph) : Agenda where
  stop := g.nodes.size

def size (a : Agenda) : Nat :=
  a.passed.length + (a.stop - a.cursor)

/-- The node with the lowest number, and what remains after it. -/
def next? (a : Agenda) : Option (NodeId × Agenda) :=
  match a.passed with
  | n :: rest => some (n, { a with passed := rest })
  | [] => if a.cursor < a.stop then some (⟨a.cursor⟩, { a with cursor := a.cursor + 1 }) else none

/-- The agenda with some nodes once more, and with all nodes that a graph has now. -/
def extend (a : Agenda) (g : Graph) (nodes : List NodeId) : Agenda :=
  { a with
    passed := Ascending.union a.passed (nodes.filter fun n => n.index < a.cursor)
    stop := g.nodes.size }

theorem size_lt_of_next? {a b : Agenda} {n : NodeId} (h : a.next? = some (n, b)) :
    b.size < a.size := by
  unfold next? at h
  split at h
  · rename_i hp
    simp only [Option.some.injEq, Prod.mk.injEq] at h
    simp [← h.2, size, hp]
  · rename_i hp
    split at h
    · simp only [Option.some.injEq, Prod.mk.injEq] at h
      simp only [← h.2, size, hp, List.length_nil]
      omega
    · simp at h

end Agenda

namespace Rewriting

/-- Visits the nodes of an agenda, and sweeps again if anything changed. -/
def run (env : Environment) (rules : RuleSet) (report : Report) (changed : Bool)
    (agenda : Agenda) (s : Rewriting) :
    Except Fault (Rewriting × Except RewriteError Report) :=
  match _h : agenda.next? with
  | none =>
    if changed then
      run env rules { report with sweeps := report.sweeps + 1 } false (.all s.graph) s
    else .ok (s, .ok report)
  | some (n, rest) =>
    if s.graph.contains n then
      match visit env rules (report.rewrites < env.settings.maxRewrites) s n with
      | .error fault => .error fault
      | .ok (s, .unchanged) => run env rules report changed rest s
      | .ok (s, .limited rule) =>
        .ok (s, .error (.limitExceeded env.settings.maxRewrites rule n))
      | .ok (s, .rewritten rule removed requeue) =>
        if report.rewrites < env.settings.maxRewrites then
          run env rules (report.applied rule removed) true (rest.extend s.graph requeue) s
        else .ok (s, .error (.limitExceeded env.settings.maxRewrites rule n))
    else run env rules report changed rest s
termination_by (env.settings.maxRewrites - report.rewrites, changed.toNat, agenda.size)
decreasing_by
  · rename_i hc
    subst hc
    simp_wf
    apply Prod.Lex.right
    apply Prod.Lex.left
    decide
  · apply Prod.Lex.right
    apply Prod.Lex.right
    exact Agenda.size_lt_of_next? _h
  · rename_i hl
    apply Prod.Lex.left
    simp only [Report.applied]
    omega
  · apply Prod.Lex.right
    apply Prod.Lex.right
    exact Agenda.size_lt_of_next? _h

/-- Collects garbage and then rewrites to a fixpoint. -/
def optimize (env : Environment) (rules : RuleSet) (g : Graph) :
    Except Fault (Rewriting × Except RewriteError Report) := do
  let (g, removed) ← g.collect
  if rules.rules.isEmpty then return ({ graph := g }, .ok { removed })
  run env rules { removed, sweeps := 1 } false (.all g) { graph := g }

end Rewriting

end SignalGraph
