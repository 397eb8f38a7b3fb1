import SignalGraph.Proofs.Precedence
import SignalGraph.Proofs.Registration

/-!
# Modules in any order

Whether a module is refused depends on everything that was registered before it. But for a list of
modules as a whole there is a condition that does not speak of order: every one passes its check,
and no two share an id or a name (`Indexed.foldlM_insert_iff`).

A registry keeps its modules in ascending order of their ids (`Reached.ascending`), and ids differ.
So there is one way to arrange the same modules (`Reached.modules_eq`), and with it everything that
can be asked of a registry is the same, its canonical text included (`registerAll_perm`). The index
by names is in the order of registration, but that is not seen from outside.
-/

namespace SignalGraph

namespace Registry

variable {r r' : Registry} {m : Module} {l l' : List Module}

/-! ## Which modules can be registered -/

/-- Modules that can be in one registry. -/
structure Apart (a b : Module) : Prop where
  id : a.signature.id ≠ b.signature.id
  name : a.signature.name ≠ b.signature.name

theorem Apart.symm {a b : Module} (h : Apart a b) : Apart b a :=
  ⟨h.id.symm, h.name.symm⟩

/-- No module has the id or the name of a signature, in terms of single modules. -/
theorem Indexed.clash?_eq_none (h : r.Indexed) :
    r.clash? m.signature = none ↔ ∀ p ∈ r.modules, Apart p.2 m := by
  rw [clash?, Option.or_eq_none_iff]
  constructor
  · rintro ⟨hid, hname⟩ ⟨id, other⟩ hp
    have hkey : other.signature.id = id := h.keyed _ hp
    have hother := h.module?_eq_some.2 hp
    refine ⟨fun heq => ?_, fun heq => ?_⟩
    · rw [show m.signature.id = id from heq.symm.trans hkey, hother] at hid
      cases hid
    · have hlookup : r.names.lookup m.signature.name = some id :=
        (h.named _ _).2 ⟨other, hp, heq⟩
      rw [hlookup, Option.bind_some, hother] at hname
      cases hname
  · intro hall
    constructor
    · refine Option.eq_none_iff_forall_ne_some.2 fun other hother => ?_
      have hp := h.module?_eq_some.1 hother
      exact (hall _ hp).id (h.keyed _ hp)
    · refine Option.eq_none_iff_forall_ne_some.2 fun other hother => ?_
      obtain ⟨id, hlookup, -⟩ := Option.bind_eq_some_iff.1 hother
      obtain ⟨first, hp, hname⟩ := (h.named _ _).1 hlookup
      exact (hall _ hp).name hname

theorem Indexed.insert_iff (h : r.Indexed) :
    (∃ r', r.insert m = .ok r') ↔
      m.signature.validate = .ok () ∧ ∀ p ∈ r.modules, Apart p.2 m := by
  rw [← h.clash?_eq_none]
  constructor
  · rintro ⟨r', hi⟩
    obtain ⟨hvalid, hclash, -⟩ := insert_eq_ok hi
    exact ⟨hvalid, hclash⟩
  · rintro ⟨hvalid, hclash⟩
    simp only [Registry.insert, hvalid, hclash]
    exact ⟨_, rfl⟩

/-- Modules can be registered one after another just if each passes its check, and no two of them
and none of them and an earlier module share an id or a name. -/
theorem Indexed.foldlM_insert_iff (h : r.Indexed) :
    (∃ r', l.foldlM Registry.insert r = .ok r') ↔
      (∀ m ∈ l, m.signature.validate = .ok ()) ∧ l.Pairwise Apart ∧
        ∀ m ∈ l, ∀ p ∈ r.modules, Apart p.2 m := by
  induction l generalizing r with
  | nil =>
    simp only [List.foldlM_nil, List.not_mem_nil, List.Pairwise.nil]
    exact iff_of_true ⟨r, rfl⟩ (by simp)
  | cons m l ih =>
    simp only [List.foldlM_cons, bind_eq_ok, List.forall_mem_cons, List.pairwise_cons]
    constructor
    · rintro ⟨r', r₁, hi, hl⟩
      obtain ⟨hvalid, hapart⟩ := h.insert_iff.1 ⟨r₁, hi⟩
      obtain ⟨hvalids, hpairs, haparts⟩ := (ih (h.insert hi)).1 ⟨r', hl⟩
      obtain ⟨-, -, rfl⟩ := insert_eq_ok hi
      refine ⟨⟨hvalid, hvalids⟩, ⟨fun q hq => ?_, hpairs⟩, hapart, fun q hq p hp => ?_⟩
      · exact haparts q hq (m.signature.id, m) (mem_place.2 (.inl rfl))
      · exact haparts q hq p (mem_place.2 (.inr hp))
    · rintro ⟨⟨hvalid, hvalids⟩, ⟨hfirst, hpairs⟩, hapart, haparts⟩
      obtain ⟨r₁, hi⟩ := h.insert_iff.2 ⟨hvalid, hapart⟩
      have hlater : ∀ q ∈ l, ∀ p ∈ r₁.modules, Apart p.2 q := by
        obtain ⟨-, -, rfl⟩ := insert_eq_ok hi
        intro q hq p hp
        rcases mem_place.1 hp with rfl | hp
        · exact hfirst q hq
        · exact haparts q hq p hp
      obtain ⟨r', hl⟩ := (ih (h.insert hi)).2 ⟨hvalids, hpairs, hlater⟩
      exact ⟨r', r₁, hi, hl⟩

/-! ## How modules are arranged -/

/-- A new id goes in its place. -/
theorem place_ascending {id : ModuleId} {l : List (ModuleId × Module)}
    (hl : l.Pairwise fun p q => p.1.toNat < q.1.toNat) (hnew : ∀ p ∈ l, p.1 ≠ id) :
    (place id m l).Pairwise fun p q => p.1.toNat < q.1.toNat := by
  induction l with
  | nil => exact List.pairwise_singleton _ _
  | cons p l ih =>
    obtain ⟨hp, hl⟩ := List.pairwise_cons.1 hl
    obtain ⟨hne, hnew⟩ := List.forall_mem_cons.1 hnew
    rw [place]
    split
    · rename_i hlt
      refine List.pairwise_cons.2 ⟨fun q hq => ?_, List.pairwise_cons.2 ⟨hp, hl⟩⟩
      rcases List.mem_cons.1 hq with rfl | hq
      · exact hlt
      · exact Nat.lt_trans hlt (hp q hq)
    · rename_i hge
      refine List.pairwise_cons.2 ⟨fun q hq => ?_, ih hl hnew⟩
      rcases mem_place.1 hq with rfl | hq
      · have hne : p.1.toNat ≠ id.toNat := fun heq => hne (ModuleId.toNat_inj.1 heq)
        show p.1.toNat < id.toNat
        omega
      · exact hp q hq

theorem Reached.ascending (hr : r.Reached) :
    r.modules.Pairwise fun p q => p.1.toNat < q.1.toNat := by
  induction hr with
  | empty => exact .nil
  | @insert r r' m hr hi ih =>
    have hnew := (hr.indexed.insert_iff.1 ⟨r', hi⟩).2
    obtain ⟨-, -, rfl⟩ := insert_eq_ok hi
    refine place_ascending ih fun p hp heq => (hnew p hp).id ?_
    exact (hr.indexed.keyed p hp).trans heq

/-- The same modules are arranged in the same way. -/
theorem Reached.modules_eq (hr : r.Reached) (hr' : r'.Reached) (hp : r.modules.Perm r'.modules) :
    r.modules = r'.modules := by
  refine hp.eq_of_pairwise (fun p q _ _ hpq hqp => ?_) hr.ascending hr'.ascending
  omega

/-- Registering modules adds them to those that are there. -/
theorem foldlM_insert_perm (h : l.foldlM insert r = .ok r') :
    r'.modules.Perm (l.map (fun m => (m.signature.id, m)) ++ r.modules) := by
  induction l generalizing r with
  | nil =>
    cases h
    exact .refl _
  | cons m l ih =>
    rw [List.foldlM_cons] at h
    obtain ⟨r₁, hi, h⟩ := bind_eq_ok.1 h
    obtain ⟨-, -, rfl⟩ := insert_eq_ok hi
    refine (ih h).trans ?_
    rw [List.map_cons, List.cons_append]
    exact ((place_perm _ m r.modules).append_left _).trans List.perm_middle

theorem Reached.foldlM_insert (hr : r.Reached) (h : l.foldlM Registry.insert r = .ok r') :
    r'.Reached := by
  induction l generalizing r with
  | nil =>
    cases h
    exact hr
  | cons m l ih =>
    rw [List.foldlM_cons] at h
    obtain ⟨r₁, hi, h⟩ := bind_eq_ok.1 h
    exact ih (hr.insert hi) h

/-- Modules that can be registered can be registered in any other order, and are then arranged in
the same way. -/
theorem foldlM_insert_of_perm (h : l.foldlM insert {} = .ok r) (hp : l.Perm l') :
    ∃ r', l'.foldlM insert {} = .ok r' ∧ r.Reached ∧ r'.Reached ∧ r'.modules = r.modules := by
  obtain ⟨hvalid, hpairs, hnew⟩ := Indexed.empty.foldlM_insert_iff.1 ⟨r, h⟩
  have hvalid' : ∀ m ∈ l', m.signature.validate = .ok () :=
    fun m hm => hvalid m (hp.mem_iff.2 hm)
  have hpairs' : l'.Pairwise Apart := (hp.pairwise_iff Apart.symm).1 hpairs
  have hnew' : ∀ m ∈ l', ∀ p ∈ ({} : Registry).modules, Apart p.2 m :=
    fun m hm => hnew m (hp.mem_iff.2 hm)
  obtain ⟨r', h'⟩ := Indexed.empty.foldlM_insert_iff.2 ⟨hvalid', hpairs', hnew'⟩
  have hr := Reached.empty.foldlM_insert h
  have hr' := Reached.empty.foldlM_insert h'
  have hmodules := (hp.map fun m => (m.signature.id, m)).append_right ({} : Registry).modules
  refine ⟨r', h', hr, hr', hr'.modules_eq hr ?_⟩
  exact (foldlM_insert_perm h').trans (hmodules.symm.trans (foldlM_insert_perm h).symm)

/-! ## The host's modules -/

/-- Registers modules that the host supplies, up to the first that is refused. -/
def registerAll (l : List (Signature × Hook)) : Except RegistryError Registry :=
  l.foldlM (fun r s => (r.register s.1 s.2).2.map fun _ => (r.register s.1 s.2).1) {}

theorem registerAll_eq (l : List (Signature × Hook)) :
    registerAll l = (l.map fun s => Module.hosted s.1 s.2).foldlM insert {} := by
  have hstep (r : Registry) (s : Signature × Hook) :
      ((r.register s.1 s.2).2.map fun _ => (r.register s.1 s.2).1) =
        r.insert (.hosted s.1 s.2) := by
    rw [register]
    cases r.insert (.hosted s.1 s.2) with
    | error e => rfl
    | ok r' => rfl
  simp only [registerAll, hstep, List.foldlM_map]

/-- The order in which modules are registered does not matter. If all are accepted, they are in
every other order, and then the same signature and the same hook is found for every id and the same
signature for every name, all signatures are listed in the same order, and the canonical text is the
same. -/
theorem registerAll_perm {l l' : List (Signature × Hook)} (h : registerAll l = .ok r)
    (hp : l.Perm l') :
    ∃ r', registerAll l' = .ok r' ∧
      (∀ id, r'.lookup id = r.lookup id ∧ r'.hook? id = r.hook? id) ∧
      (∀ name, r'.lookupName name = r.lookupName name) ∧
      r'.signatures = r.signatures ∧ r'.canonical = r.canonical := by
  rw [registerAll_eq] at h
  obtain ⟨r', h', hr, hr', hmodules⟩ := foldlM_insert_of_perm h (hp.map _)
  have hmodule (id : ModuleId) : r'.module? id = r.module? id := by
    rw [module?, module?, hmodules]
  have hsignatures : r'.signatures = r.signatures := by
    rw [signatures, signatures, hmodules]
  refine ⟨r', (registerAll_eq l').trans h', fun id => ⟨?_, ?_⟩, fun name => ?_, hsignatures, ?_⟩
  · rw [lookup, lookup, hmodule]
  · rw [hook?, hook?, hmodule]
  · -- The indexes by names differ in their order, but lead to the same modules.
    refine Option.ext fun s => ?_
    rw [hr'.indexed.lookupName_eq_some, hr.indexed.lookupName_eq_some, hsignatures]
  · rw [canonical, canonical, hsignatures]

/-- A module that makes a signal of nothing. -/
def generator (id : Nat) (name : String) : Signature where
  id := .ofNat id
  name := name
  parameters := [.float "y" .output]
  returnParameter := some 0

/-- Three modules, in the order of their ids. -/
def generators : List (Signature × Hook) :=
  [(generator 1 "ramp", .fixed 0), (generator 2 "noise", .fixed 4), (generator 3 "tone", .fixed 0)]

/-- Registered backwards they make another index by names, and the same canonical text. -/
theorem registerAll_perm_generators : ∃ r r',
    registerAll generators = .ok r ∧ registerAll generators.reverse = .ok r' ∧
      r'.names = r.names.reverse ∧ r.names ≠ r'.names ∧
      r'.lookupName "noise" = some (generator 2 "noise") ∧ r'.canonical = r.canonical := by
  have h : registerAll generators = .ok
      { modules := generators.map fun s => (s.1.id, .hosted s.1 s.2)
        names := generators.reverse.map fun s => (s.1.name, s.1.id) } := by rfl
  have hreverse : registerAll generators.reverse = .ok
      { modules := generators.map fun s => (s.1.id, .hosted s.1 s.2)
        names := generators.map fun s => (s.1.name, s.1.id) } := by rfl
  obtain ⟨r', h', -, hname, -, hcanonical⟩ := registerAll_perm h generators.reverse_perm.symm
  cases hreverse.symm.trans h'
  exact ⟨_, _, h, h', by decide, by decide, (hname _).trans (by decide), hcanonical⟩

end Registry

end SignalGraph
