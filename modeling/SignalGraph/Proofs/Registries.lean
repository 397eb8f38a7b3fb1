import SignalGraph.Proofs.Calls

/-!
# The indexes of a registry

A registry has its modules under their ids and a second index from names to ids. However modules
are registered, no two share an id, and the second index has exactly the names of the modules
(`Indexed`, `Reached.indexed`). So finding a module by its id or by its name is finding the one
signature with that id or name (`Indexed.lookup_eq_some`, `Indexed.lookupName_eq_some`).
-/

namespace SignalGraph

/-- If no key is there twice, what is found under a key is what is there. -/
theorem lookup_eq_some_iff_mem {α β : Type} [BEq α] [LawfulBEq α] {l : List (α × β)} {a : α} {b : β}
    (h : (l.map Prod.fst).Nodup) : l.lookup a = some b ↔ (a, b) ∈ l := by
  constructor
  · intro hb
    obtain ⟨before, after, hl, -⟩ := List.lookup_eq_some_iff.1 hb
    simp [hl]
  · intro hb
    obtain ⟨before, after, hl⟩ := List.mem_iff_append.1 hb
    refine List.lookup_eq_some_iff.2 ⟨before, after, hl, fun p hp => ?_⟩
    rw [hl, List.map_append, List.map_cons, List.nodup_append] at h
    simpa using (h.2.2 p.1 (List.mem_map_of_mem hp) a List.mem_cons_self).symm

namespace Registry

/-- The modules have their own ids as keys, and the names lead to them. -/
structure Indexed (r : Registry) : Prop where
  keyed (p : ModuleId × Module) (hp : p ∈ r.modules) : p.2.signature.id = p.1
  nodup : (r.modules.map Prod.fst).Nodup
  named (name : String) (id : ModuleId) : r.names.lookup name = some id ↔
    ∃ m, (id, m) ∈ r.modules ∧ m.signature.name = name

variable {r r' : Registry} {m : Module} {id : ModuleId} {name : String} {s : Signature}

theorem place_perm (id : ModuleId) (m : Module) (l : List (ModuleId × Module)) :
    (place id m l).Perm ((id, m) :: l) := by
  induction l with
  | nil => exact .refl _
  | cons p l ih =>
    rw [place]
    split
    · exact .refl _
    · exact (ih.cons p).trans (.swap _ _ _)

/-- What registering a module does, if it is not refused. -/
theorem insert_eq_ok (h : r.insert m = .ok r') :
    m.signature.validate = .ok () ∧ r.clash? m.signature = none ∧
      r' = { modules := place m.signature.id m r.modules
             names := (m.signature.name, m.signature.id) :: r.names } := by
  unfold insert at h
  split at h
  · cases h
  · rename_i hvalid
    split at h
    · cases h
    · rename_i hclash
      cases h
      exact ⟨hvalid, hclash, rfl⟩

namespace Indexed

theorem empty : Indexed {} where
  keyed := by simp
  nodup := List.nodup_nil
  named := by simp

theorem module?_eq_some (h : r.Indexed) : r.module? id = some m ↔ (id, m) ∈ r.modules :=
  lookup_eq_some_iff_mem h.nodup

/-- A name that leads to no module is not there. -/
theorem lookup_names_eq_none (h : r.Indexed) (hclash : r.clash? s = none) :
    r.names.lookup s.name = none := by
  rw [clash?, Option.or_eq_none_iff] at hclash
  cases hn : r.names.lookup s.name with
  | none => rfl
  | some id =>
    obtain ⟨m, hm, -⟩ := (h.named s.name id).1 hn
    rw [hn, Option.bind_some, h.module?_eq_some.2 hm] at hclash
    cases hclash.2

theorem insert (h : r.Indexed) (hi : r.insert m = .ok r') : r'.Indexed := by
  obtain ⟨-, hclash, rfl⟩ := insert_eq_ok hi
  have hfresh := h.lookup_names_eq_none hclash
  refine ⟨fun p hp => ?_, ?_, fun name id => ?_⟩
  · rcases mem_place.1 hp with rfl | hp
    · rfl
    · exact h.keyed p hp
  · have hnew : m.signature.id ∉ r.modules.map Prod.fst := by
      intro hmem
      obtain ⟨⟨id, other⟩, hp, rfl⟩ := List.mem_map.1 hmem
      rw [clash?, h.module?_eq_some.2 hp] at hclash
      cases hclash
    exact ((place_perm _ m r.modules).map Prod.fst).nodup_iff.2 (List.nodup_cons.2 ⟨hnew, h.nodup⟩)
  · rw [List.lookup_cons]
    by_cases hname : name = m.signature.name
    · subst hname
      have hold : ¬∃ other, (id, other) ∈ r.modules ∧ other.signature.name = m.signature.name := by
        simp [← h.named, hfresh]
      simp only [beq_self_eq_true, Option.some.injEq, mem_place, Prod.mk.injEq]
      constructor
      · rintro rfl
        exact ⟨m, .inl ⟨rfl, rfl⟩, rfl⟩
      · rintro ⟨other, ⟨rfl, -⟩ | hmem, hother⟩
        · rfl
        · exact absurd ⟨other, hmem, hother⟩ hold
    · have hne : (name == m.signature.name) = false := by simpa using hname
      simp only [hne, h.named, mem_place, Prod.mk.injEq]
      constructor
      · rintro ⟨other, hmem, hother⟩
        exact ⟨other, .inr hmem, hother⟩
      · rintro ⟨other, ⟨-, rfl⟩ | hmem, hother⟩
        · exact absurd hother.symm hname
        · exact ⟨other, hmem, hother⟩

theorem lookup_eq_some (h : r.Indexed) :
    r.lookup id = some s ↔ s ∈ r.signatures ∧ s.id = id := by
  rw [lookup, Option.map_eq_some_iff, signatures, List.mem_map]
  constructor
  · rintro ⟨m, hm, rfl⟩
    have hmem := h.module?_eq_some.1 hm
    exact ⟨⟨(id, m), hmem, rfl⟩, h.keyed _ hmem⟩
  · rintro ⟨⟨⟨key, m⟩, hmem, rfl⟩, rfl⟩
    obtain rfl : m.signature.id = key := h.keyed _ hmem
    exact ⟨m, h.module?_eq_some.2 hmem, rfl⟩

theorem lookupName_eq_some (h : r.Indexed) :
    r.lookupName name = some s ↔ s ∈ r.signatures ∧ s.name = name := by
  rw [lookupName, Option.bind_eq_some_iff]
  constructor
  · rintro ⟨id, hn, hs⟩
    obtain ⟨m, hmem, hm⟩ := (h.named name id).1 hn
    rw [lookup, h.module?_eq_some.2 hmem, Option.map_some, Option.some.injEq] at hs
    obtain rfl := hs
    exact ⟨List.mem_map.2 ⟨_, hmem, rfl⟩, hm⟩
  · rintro ⟨hs, rfl⟩
    refine ⟨s.id, ?_, h.lookup_eq_some.2 ⟨hs, rfl⟩⟩
    obtain ⟨⟨key, m⟩, hmem, rfl⟩ := List.mem_map.1 hs
    obtain rfl : m.signature.id = key := h.keyed _ hmem
    exact (h.named _ _).2 ⟨m, hmem, rfl⟩

end Indexed

theorem Reached.indexed (hr : r.Reached) : r.Indexed := by
  induction hr with
  | empty => exact .empty
  | insert _ hi ih => exact ih.insert hi

end Registry

end SignalGraph
