import SignalGraph.Proofs.Registries

/-!
# Histories of a registry

Modules come into a registry one by one, from the host of the compiler or from manifests
(`Registration`). Whatever was registered and whatever was refused, the two indexes of the registry
are in step (`Consistent`): modules have their own ids as keys and passed their check, no two share
an id or a name, and a module is found by its name exactly if it is found by its id.

A call that is refused adds nothing. A manifest is registered module by module, so one that is
refused at some module leaves what registering the modules before it gives (`load_eq_error`).
-/

namespace SignalGraph

namespace Registry

/-- The index by ids and the index by names are in step. -/
structure Consistent (r : Registry) : Prop where
  keyed (id : ModuleId) (m : Module) (h : (id, m) ∈ r.modules) :
    m.signature.id = id ∧ m.signature.validate = .ok ()
  ids_nodup : (r.signatures.map Signature.id).Nodup
  names_nodup : (r.signatures.map Signature.name).Nodup
  lookup_iff (id : ModuleId) (s : Signature) :
    r.lookup id = some s ↔ s ∈ r.signatures ∧ s.id = id
  lookupName_iff (name : String) (s : Signature) :
    r.lookupName name = some s ↔ ∃ id, r.lookup id = some s ∧ s.name = name
  listed_nodup : (r.names.map Prod.fst).Nodup
  count : r.names.length = r.size

variable {r r' : Registry}

/-! ## The index by names -/

/-- The index by names has one entry for each module. -/
theorem Reached.names_perm (hr : r.Reached) :
    r.names.Perm (r.modules.map fun p => (p.2.signature.name, p.1)) := by
  induction hr with
  | empty => exact .nil
  | @insert r r' m hr hi ih =>
    obtain ⟨-, -, rfl⟩ := insert_eq_ok hi
    have hplace := (place_perm m.signature.id m r.modules).map fun p => (p.2.signature.name, p.1)
    exact (ih.cons _).trans hplace.symm

theorem Reached.nodup_names (hr : r.Reached) : (r.names.map Prod.fst).Nodup := by
  induction hr with
  | empty => exact List.nodup_nil
  | @insert r r' m hr hi ih =>
    obtain ⟨-, hclash, rfl⟩ := insert_eq_ok hi
    have hfresh := hr.indexed.lookup_names_eq_none hclash
    refine List.nodup_cons.2 ⟨fun hmem => ?_, ih⟩
    obtain ⟨p, hp, hname⟩ := List.mem_map.1 hmem
    have hne := List.lookup_eq_none_iff.1 hfresh p hp
    simp [hname] at hne

theorem Reached.consistent (hr : r.Reached) : r.Consistent where
  keyed id m h := hr.of_module? (hr.indexed.module?_eq_some.2 h)
  ids_nodup := by
    have hids : r.signatures.map Signature.id = r.modules.map Prod.fst := by
      rw [signatures, List.map_map]
      exact List.map_congr_left fun p hp => hr.indexed.keyed p hp
    exact hids ▸ hr.indexed.nodup
  names_nodup := by
    have hnames := hr.names_perm.map Prod.fst
    have hmap : (r.modules.map fun p => (p.2.signature.name, p.1)).map Prod.fst =
        r.signatures.map Signature.name := by
      simp [signatures]
    exact (hmap ▸ hnames).nodup_iff.1 hr.nodup_names
  lookup_iff id s := hr.indexed.lookup_eq_some
  lookupName_iff name s := by
    simp only [hr.indexed.lookupName_eq_some, hr.indexed.lookup_eq_some]
    constructor
    · rintro ⟨hs, hn⟩
      exact ⟨s.id, ⟨hs, rfl⟩, hn⟩
    · rintro ⟨-, ⟨hs, -⟩, hn⟩
      exact ⟨hs, hn⟩
  listed_nodup := hr.nodup_names
  count := hr.names_perm.length_eq.trans (List.length_map _)

/-! ## Manifests -/

/-- Modules are inserted up to the first that is refused. -/
theorem insertAll_eq_some {l : List Module} {e : RegistryError} :
    r.insertAll l = (r', some e) ↔
      ∃ k m, l[k]? = some m ∧ (l.take k).foldlM insert r = .ok r' ∧ r'.insert m = .error e := by
  induction l generalizing r with
  | nil => simp [insertAll]
  | cons m l ih =>
    rw [insertAll]
    cases hm : r.insert m with
    | error e' =>
      constructor
      · intro h
        cases h
        exact ⟨0, m, rfl, rfl, hm⟩
      · rintro ⟨k, m', hk, hfold, hm'⟩
        cases k with
        | zero =>
          cases hk
          cases hfold
          cases hm.symm.trans hm'
          rfl
        | succ k =>
          rw [List.take_succ_cons, List.foldlM_cons, hm] at hfold
          cases hfold
    | ok r₁ =>
      rw [ih]
      constructor
      · rintro ⟨k, m', hk, hfold, hm'⟩
        refine ⟨k + 1, m', hk, ?_, hm'⟩
        rwa [List.take_succ_cons, List.foldlM_cons, hm]
      · rintro ⟨k, m', hk, hfold, hm'⟩
        cases k with
        | zero =>
          cases hk
          cases hfold
          cases hm.symm.trans hm'
        | succ k =>
          rw [List.take_succ_cons, List.foldlM_cons, hm] at hfold
          exact ⟨k, m', hk, hfold, hm'⟩

/-- A manifest is refused as a whole if it cannot be read. Otherwise it is refused at the first of
its modules that cannot be registered, and everything before that stays. -/
theorem load_eq_error {text origin : String} {e : LoadError RegistryError} :
    r.load text origin = (r', .error e) ↔
      manifest? text origin = none ∧ r' = r ∧ e = .malformed origin ∨
      ∃ modules k m cause, manifest? text origin = some modules ∧ modules[k]? = some m ∧
        (modules.take k).foldlM insert r = .ok r' ∧ r'.insert m = .error cause ∧
        e = .invalid cause := by
  unfold load
  cases manifest? text origin with
  | none => simp [eq_comm]
  | some modules =>
    simp only [reduceCtorEq, false_and, false_or, Option.some.injEq]
    constructor
    · intro h
      cases hall : r.insertAll modules with
      | mk r₁ refused =>
        rw [hall] at h
        cases refused with
        | none => cases h
        | some cause =>
          cases h
          obtain ⟨k, m, hk, hfold, hm⟩ := insertAll_eq_some.1 hall
          exact ⟨modules, k, m, cause, rfl, hk, hfold, hm, rfl⟩
    · rintro ⟨_, k, m, cause, rfl, hk, hfold, hm, rfl⟩
      rw [insertAll_eq_some.2 ⟨k, m, hk, hfold, hm⟩]

/-- A module that is refused leaves the registry as it is. -/
theorem register_refused {signature : Signature} {hook : Hook} {e : RegistryError}
    (h : r.register signature hook = (r', .error e)) : r' = r := by
  rw [register] at h
  split at h
  · cases h
  · cases h
    rfl

end Registry

/-! ## Histories -/

/-- A call that adds modules to a registry. -/
inductive Registration where
  /-- The host of the compiler supplies a module. -/
  | register (signature : Signature) (hook : Hook)
  | load (text origin : String)

namespace Registration

/-- The registry after a call, also if it is refused. -/
def perform (r : Registry) : Registration → Registry
  | .register signature hook => (r.register signature hook).1
  | .load text origin => (r.load text origin).1

/-- The registry after calls on an empty one. -/
def performAll (history : List Registration) : Registry :=
  history.foldl perform {}

theorem reached_perform {r : Registry} (hr : r.Reached) (call : Registration) :
    (perform r call).Reached := by
  cases call with
  | register signature hook =>
    rw [perform, Registry.register]
    split
    · rename_i r' h
      exact hr.insert h
    · exact hr
  | load text origin => exact hr.load text origin

theorem reached_performAll (history : List Registration) : (performAll history).Reached := by
  suffices h : ∀ r : Registry, r.Reached → (history.foldl perform r).Reached from h {} .empty
  intro r hr
  induction history generalizing r with
  | nil => exact hr
  | cons call history ih => exact ih _ (reached_perform hr call)

/-- After every history the two indexes of a registry are in step. A call that is refused next
leaves the registry as it is, but for the modules of a manifest before the one that is refused. -/
theorem history_consistent (history : List Registration) :
    (performAll history).Consistent ∧
      (∀ signature hook r e, (performAll history).register signature hook = (r, .error e) →
        r = performAll history ∧
          performAll (history ++ [.register signature hook]) = performAll history) ∧
      ∀ text origin r e, (performAll history).load text origin = (r, .error e) ↔
        Registry.manifest? text origin = none ∧ r = performAll history ∧ e = .malformed origin ∨
        ∃ modules k m cause, Registry.manifest? text origin = some modules ∧
          modules[k]? = some m ∧
          (modules.take k).foldlM Registry.insert (performAll history) = .ok r ∧
          r.insert m = .error cause ∧ e = .invalid cause := by
  refine ⟨(reached_performAll history).consistent, fun signature hook r e h => ?_,
    fun text origin r e => Registry.load_eq_error⟩
  have hnext : performAll (history ++ [.register signature hook]) =
      ((performAll history).register signature hook).1 := by
    rw [performAll, List.foldl_append]
    rfl
  rw [hnext, h]
  obtain rfl := Registry.register_refused h
  exact ⟨rfl, rfl⟩

end Registration

end SignalGraph
