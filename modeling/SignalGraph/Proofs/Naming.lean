import SignalGraph.Proofs.References
import SignalGraph.Proofs.Safety

/-!
# What a declared name denotes

While a description is read, a name that was given to a node denotes the first output of that node,
and the name with a point and a number denotes the output with that number (`resolve_named`). Names
are any texts, so a name can itself be another name with a point and a number. Such a name is
hidden: it denotes an output of the other node (`resolve_hidden`).
-/

namespace SignalGraph

namespace Loader

open Reference

/-- The states of the loader between two parts of a description. -/
inductive Underway (env : Environment) : Loader → Prop where
  | start : Underway env {}
  | input {l l' : Loader} {c : Channel} : Underway env l → (l.addInput c).run = .ok (.ok l') →
    Underway env l'
  | entry {l l' : Loader} {e : Entry} {run : Option Preparation} : Underway env l →
    l.addEntry env e = .ok (run, .ok l') → Underway env l'
  | sink {l l' : Loader} {s : Sink} {n : NodeId} (f : Surface → Surface) : Underway env l →
    (l.addSink s).run = .ok (.ok (l', n)) → Underway env (l'.modifySurface f)

/-- An output of a node by its number, as the answer to a reference. -/
def answer (entry reference : String) (maker : Node) (slot : Nat) :
    Except DescriptionError OutputId :=
  match maker.outputs[slot]? with
  | some o => .ok o
  | none => .error (.noSuchOutput entry reference slot maker.outputs.length)

variable {env : Environment} {l : Loader} {entry reference name base : String} {slot : Nat}
  {n : NodeId} {maker : Node}

theorem Underway.sound (hr : env.registry.Reached) (h : Underway env l) : l.Sound := by
  induction h with
  | start => exact .empty
  | input _ hc ih => exact (addInput_spec ih _).2 _ hc
  | entry _ he ih => exact (addEntry_spec hr ih _).2 _ _ he
  | sink f _ hs ih => exact ((addSink_spec ih _).2 _ _ hs).modifySurface f

theorem Sound.of_lookup (h : l.Sound) (hname : l.names.lookup name = some n) :
    ∃ maker, l.graph.node? n = some maker := by
  obtain ⟨before, after, hnames, -⟩ := List.lookup_eq_some_iff.1 hname
  have hmem : (name, n) ∈ l.names := by simp [hnames]
  exact h.named hmem

theorem resolve_of_means (hmeans : Means (l.names.map Prod.fst) reference base slot)
    (hn : l.names.lookup base = some n) (hmaker : l.graph.node? n = some maker) :
    (l.resolve entry reference).run = .ok (answer entry reference maker slot) := by
  rw [← target_eq] at hmeans
  simp only [resolve, hmeans, hn, Graph.node_eq_ok.2 hmaker, Outcome.lift_ok_bind, answer]
  cases maker.outputs[slot]? <;> rfl

theorem indexes_append (hname : l.names.lookup name = some n) {digits : List Char}
    (hdigits : Numbers digits slot) :
    Indexes (l.names.map Prod.fst) (name ++ "." ++ String.ofList digits) name slot := by
  refine ⟨digits, by simp, isSome_lookup.1 ?_, hdigits⟩
  rw [hname]
  rfl

/-- A name denotes the first output of its node, and with a point and a number the output with that
number, whatever other names there are. Only if the name is itself a name with a point and a number,
it denotes that output instead. -/
theorem resolve_named (entry : String) (hr : env.registry.Reached) (hl : Underway env l)
    (hname : l.names.lookup name = some n) :
    ∃ maker, l.graph.node? n = some maker ∧
      ((∀ base slot, ¬ Indexes (l.names.map Prod.fst) name base slot) →
        (l.resolve entry name).run = .ok (answer entry name maker 0)) ∧
      (∀ base slot, Indexes (l.names.map Prod.fst) name base slot →
        ∃ other maker', l.names.lookup base = some other ∧ l.graph.node? other = some maker' ∧
          (l.resolve entry name).run = .ok (answer entry name maker' slot)) ∧
      ∀ digits slot, Numbers digits slot →
        (l.resolve entry (name ++ "." ++ String.ofList digits)).run =
          .ok (answer entry (name ++ "." ++ String.ofList digits) maker slot) := by
  have hs := hl.sound hr
  obtain ⟨maker, hmaker⟩ := hs.of_lookup hname
  refine ⟨maker, hmaker, fun hplain => ?_, fun base slot hindexes => ?_,
    fun digits slot hdigits => ?_⟩
  · exact resolve_of_means (.inr ⟨hplain, rfl, rfl⟩) hname hmaker
  · have ⟨_, _, hbase, _⟩ := hindexes
    obtain ⟨other, hother⟩ := Option.isSome_iff_exists.1 (isSome_lookup.2 hbase)
    obtain ⟨maker', hmaker'⟩ := hs.of_lookup hother
    exact ⟨other, maker', hother, hmaker', resolve_of_means (.inl hindexes) hother hmaker'⟩
  · exact resolve_of_means (.inl (indexes_append hname hdigits)) hname hmaker

end Loader

namespace Pointed

def env : Environment where
  registry := {}
  settings := {}

def channel (name : String) : Channel :=
  { name, type := { primitive := .float } }

/-- After the inputs `a`, `a.0` and `b.x`. -/
theorem exists_underway :
    ∃ l, Loader.Underway env l ∧ l.names = [("b.x", ⟨2⟩), ("a.0", ⟨1⟩), ("a", ⟨0⟩)] ∧
      ∀ k < 3, (l.graph.node? ⟨k⟩).map Node.outputs = some [⟨k⟩] := by
  refine ⟨_, .input (.input (.input .start (c := channel "a") rfl) (c := channel "a.0") rfl)
    (c := channel "b.x") rfl, rfl, fun k hk => ?_⟩
  interval_cases k <;> rfl

end Pointed

/-- The name `a.0` of the second input denotes the first one. -/
theorem Loader.resolve_hidden :
    ∃ l n maker o, Loader.Underway Pointed.env l ∧ l.names.lookup "a.0" = some n ∧
      l.graph.node? n = some maker ∧ maker.outputs = [o] ∧
      ∃ o', (l.resolve "out" "a.0").run = .ok (.ok o') ∧ o' ≠ o := by
  obtain ⟨l, hl, hnames, hports⟩ := Pointed.exists_underway
  obtain ⟨maker, hmaker, hout⟩ := Option.map_eq_some_iff.1 (hports 1 (by decide))
  obtain ⟨other, hother, hother'⟩ := Option.map_eq_some_iff.1 (hports 0 (by decide))
  have hzero : Reference.Numbers ['0'] 0 := Reference.slot?_eq_some.1 rfl
  refine ⟨l, ⟨1⟩, maker, ⟨1⟩, hl, by rw [hnames]; rfl, hmaker, hout, ⟨0⟩, ?_, by decide⟩
  refine Loader.resolve_eq_ok.2 ⟨"a", 0, ⟨0⟩, other, .inl ⟨['0'], rfl, by simp [hnames], hzero⟩,
    by rw [hnames]; rfl, hother, by rw [hother']; rfl⟩

/-- The names `b.x`, `a.0` and `a` with numbers after them, and the first two without. -/
theorem Loader.resolve_named_pointed :
    ∃ l, Loader.Underway Pointed.env l ∧ l.names.lookup "b.x" = some ⟨2⟩ ∧
      l.names.lookup "a.0" = some ⟨1⟩ ∧
      (l.resolve "out" "b.x").run = .ok (.ok ⟨2⟩) ∧
      (l.resolve "out" "b.x.7").run = .ok (.error (.noSuchOutput "out" "b.x.7" 7 1)) ∧
      (l.resolve "out" "a.0").run = .ok (.ok ⟨0⟩) ∧
      (l.resolve "out" "a.0.+0").run = .ok (.ok ⟨1⟩) := by
  obtain ⟨l, hl, hnames, hports⟩ := Pointed.exists_underway
  have hbx : l.names.lookup "b.x" = some ⟨2⟩ := by rw [hnames]; rfl
  have ha0 : l.names.lookup "a.0" = some ⟨1⟩ := by rw [hnames]; rfl
  have ha : l.names.lookup "a" = some ⟨0⟩ := by rw [hnames]; rfl
  have hplain (base : String) (slot : Nat) :
      ¬ Reference.Indexes (l.names.map Prod.fst) "b.x" base slot := by
    have hsplit : Reference.split? "b.x".toList = some (['b'], ['x']) := by cbv
    rw [Reference.indexes_iff hsplit, hnames]
    rintro ⟨rfl, hb, -⟩
    revert hb
    decide
  have hdigits : Reference.Numbers ['0'] 0 := Reference.slot?_eq_some.1 rfl
  have hindexes : Reference.Indexes (l.names.map Prod.fst) "a.0" "a" 0 :=
    Loader.indexes_append ha hdigits
  obtain ⟨bx, hbx', hfirst, -, hseventh⟩ := Loader.resolve_named "out" .empty hl hbx
  obtain ⟨a0, ha0', -, hhidden, hzero⟩ := Loader.resolve_named "out" .empty hl ha0
  obtain ⟨other, maker, hother, hmaker, hhidden⟩ := hhidden "a" 0 hindexes
  cases ha.symm.trans hother
  have hport (k : Nat) (hk : k < 3) {node : Node} (hn : l.graph.node? ⟨k⟩ = some node) :
      node.outputs = [⟨k⟩] := by
    have h := hports k hk
    rw [hn] at h
    exact Option.some.inj h
  refine ⟨l, hl, hbx, ha0, ?_, ?_, ?_, ?_⟩
  · rw [hfirst hplain, Loader.answer, hport 2 (by decide) hbx']
    rfl
  · have h := hseventh ['7'] 7 (Reference.slot?_eq_some.1 rfl)
    rw [Loader.answer, hport 2 (by decide) hbx'] at h
    exact h
  · rw [hhidden, Loader.answer, hport 0 (by decide) hmaker]
    rfl
  · have h := hzero ['+', '0'] 0 (Reference.slot?_eq_some.1 rfl)
    rw [Loader.answer, hport 1 (by decide) ha0'] at h
    exact h

end SignalGraph
