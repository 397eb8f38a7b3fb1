import SignalGraph.Proofs.Loading

/-!
# What references mean

A reference is to an output by its number if it is the name of an entry, a point and a number
(`Reference.Indexes`). Any other reference is a name as a whole, and means the first output
(`Reference.Means`). The loader divides a reference at its last point and then decides; that it
finds the same is `Loader.target_eq`, and what port it finds is `Loader.resolve_eq_ok`.
-/

namespace SignalGraph

namespace Reference

/-- Decimal digits of a number of 64 bits. A plus sign may stand before them. -/
def Numbers (cs : List Char) (slot : Nat) : Prop :=
  ∃ ds, (cs = ds ∨ cs = '+' :: ds) ∧ ds ≠ [] ∧ (∀ c ∈ ds, c.isDigit = true) ∧
    slot = Numeral.ofDigits ds ∧ slot < Numeral.bound 64

/-- A reference to an output by its number, where these names are known. -/
def Indexes (names : List String) (reference base : String) (slot : Nat) : Prop :=
  ∃ after, reference.toList = base.toList ++ '.' :: after ∧ base ∈ names ∧ Numbers after slot

/-- The entry and the output that a reference means, where these names are known. -/
def Means (names : List String) (reference base : String) (slot : Nat) : Prop :=
  Indexes names reference base slot ∨
    (∀ base slot, ¬ Indexes names reference base slot) ∧ base = reference ∧ slot = 0

variable {cs base after : List Char} {names : List String} {reference name : String} {slot : Nat}

theorem Numbers.point_notMem (h : Numbers cs slot) : '.' ∉ cs := by
  obtain ⟨ds, hcs, -, hdigits, -⟩ := h
  have hds : '.' ∉ ds := fun hmem => by
    have hdigit := hdigits '.' hmem
    revert hdigit
    decide
  rcases hcs with rfl | rfl
  · exact hds
  · rw [List.mem_cons, not_or]
    exact ⟨by decide, hds⟩

theorem slot?_eq_some : slot? cs = some slot ↔ Numbers cs slot := by
  have hread (ds : List Char) : (if ds.isEmpty || !ds.all Char.isDigit then none
      else if Numeral.ofDigits ds < Numeral.bound 64 then some (Numeral.ofDigits ds) else none) =
        some slot ↔ ds ≠ [] ∧ (∀ c ∈ ds, c.isDigit = true) ∧ slot = Numeral.ofDigits ds ∧
          slot < Numeral.bound 64 := by
    have hguard : (ds.isEmpty || !ds.all Char.isDigit) = true ↔
        ¬ (ds ≠ [] ∧ ∀ c ∈ ds, c.isDigit = true) := by
      rw [Bool.or_eq_true, List.isEmpty_iff, Bool.not_eq_true', Bool.eq_false_iff, Ne,
        List.all_eq_true]
      tauto
    by_cases hds : ds ≠ [] ∧ ∀ c ∈ ds, c.isDigit = true
    · rw [if_neg (mt hguard.1 (not_not.2 hds)), ite_eq_iff]
      simp only [reduceCtorEq, and_false, or_false, Option.some.injEq]
      constructor
      · rintro ⟨hlt, rfl⟩
        exact ⟨hds.1, hds.2, rfl, hlt⟩
      · rintro ⟨-, -, rfl, hlt⟩
        exact ⟨hlt, rfl⟩
    · rw [if_pos (hguard.2 hds)]
      simp only [reduceCtorEq, false_iff]
      exact fun h => hds ⟨h.1, h.2.1⟩
  unfold slot?
  simp only
  split
  · rename_i rest
    rw [hread]
    constructor
    · intro h
      exact ⟨rest, .inr rfl, h⟩
    · rintro ⟨ds, rfl | hds, hne, hdigits, h⟩
      · exact absurd (hdigits '+' List.mem_cons_self) (by decide)
      · obtain rfl := (List.cons.inj hds).2
        exact ⟨hne, hdigits, h⟩
  · rename_i hplus
    rw [hread]
    constructor
    · intro h
      exact ⟨cs, .inl rfl, h⟩
    · rintro ⟨ds, rfl | rfl, h⟩
      · exact h
      · exact absurd rfl (hplus ds)

theorem split?_append (base : List Char) (h : '.' ∉ after) :
    split? (base ++ '.' :: after) = some (base, after) := by
  have hback : ∀ c ∈ after.reverse, decide (c ≠ '.') = true := by
    intro c hc
    rw [decide_eq_true_eq]
    rintro rfl
    exact h (List.mem_reverse.1 hc)
  have hreverse : (base ++ '.' :: after).reverse = after.reverse ++ '.' :: base.reverse := by simp
  simp only [split?, hreverse, List.dropWhile_append_of_pos hback,
    List.takeWhile_append_of_pos hback]
  simp

/-- A reference without a point cannot be divided. -/
theorem split?_of_notMem (h : '.' ∉ cs) : split? cs = none := by
  have hback : cs.reverse.dropWhile (· ≠ '.') = [] := by
    refine List.dropWhile_eq_nil_iff.2 fun c hc => ?_
    rw [decide_eq_true_eq]
    rintro rfl
    exact h (List.mem_reverse.1 hc)
  simp only [split?, hback]

theorem split?_eq_some :
    split? cs = some (base, after) ↔ cs = base ++ '.' :: after ∧ '.' ∉ after := by
  constructor
  · intro h
    by_cases hmem : '.' ∈ cs
    · obtain ⟨back, rest, hcs, hback⟩ := List.eq_append_cons_of_mem (List.mem_reverse.2 hmem)
      have hsplit : cs = rest.reverse ++ '.' :: back.reverse := by
        rw [← List.reverse_reverse cs, hcs]
        simp
      have hafter : '.' ∉ back.reverse := fun hm => hback (List.mem_reverse.1 hm)
      rw [hsplit, split?_append _ hafter] at h
      cases h
      exact ⟨hsplit, hafter⟩
    · rw [split?_of_notMem hmem] at h
      cases h
  · rintro ⟨rfl, h⟩
    exact split?_append base h

/-- There is one way to divide a reference. -/
theorem indexes_iff (h : split? reference.toList = some (base, after)) :
    Indexes names reference name slot ↔
      name = String.ofList base ∧ name ∈ names ∧ slot? after = some slot := by
  constructor
  · rintro ⟨rest, hsplit, hname, hnumber⟩
    have h' := split?_eq_some.2 ⟨hsplit, hnumber.point_notMem⟩
    rw [h, Option.some.injEq, Prod.mk.injEq] at h'
    obtain ⟨rfl, rfl⟩ := h'
    exact ⟨String.ofList_toList.symm, hname, slot?_eq_some.2 hnumber⟩
  · rintro ⟨rfl, hname, hslot⟩
    refine ⟨after, ?_, hname, slot?_eq_some.1 hslot⟩
    rw [String.toList_ofList]
    exact (split?_eq_some.1 h).1

theorem not_indexes (h : split? reference.toList = none) : ¬ Indexes names reference name slot := by
  rintro ⟨rest, hsplit, -, hnumber⟩
  rw [split?_eq_some.2 ⟨hsplit, hnumber.point_notMem⟩] at h
  cases h

end Reference

namespace Loader

open Reference

variable {l : Loader} {reference base node : String} {slot : Nat}

theorem isSome_lookup {name : String} :
    (l.names.lookup name).isSome = true ↔ name ∈ l.names.map Prod.fst := by
  constructor
  · intro h
    obtain ⟨id, hid⟩ := Option.isSome_iff_exists.1 h
    obtain ⟨before, after, hnames, -⟩ := List.lookup_eq_some_iff.1 hid
    simp [hnames]
  · intro h
    by_contra hnone
    rw [Option.not_isSome_iff_eq_none, List.lookup_eq_none_iff] at hnone
    obtain ⟨p, hp, rfl⟩ := List.mem_map.1 h
    simpa using hnone p hp

/-- The loader finds what a reference means. -/
theorem target_eq :
    l.target reference = (base, slot) ↔ Means (l.names.map Prod.fst) reference base slot := by
  have hwhole (h : ∀ base slot, ¬ Indexes (l.names.map Prod.fst) reference base slot) :
      (reference, 0) = (base, slot) ↔ Means (l.names.map Prod.fst) reference base slot := by
    rw [Means, or_iff_right (h base slot), Prod.mk.injEq]
    constructor
    · rintro ⟨rfl, rfl⟩
      exact ⟨h, rfl, rfl⟩
    · rintro ⟨-, rfl, rfl⟩
      exact ⟨rfl, rfl⟩
  unfold target
  cases hsplit : split? reference.toList with
  | none => exact hwhole fun _ _ => not_indexes hsplit
  | some p =>
    obtain ⟨before, after⟩ := p
    by_cases hname : String.ofList before ∈ l.names.map Prod.fst
    · simp only [isSome_lookup.2 hname, if_true]
      cases hslot : slot? after with
      | none =>
        refine hwhole fun name k hk => ?_
        rw [indexes_iff hsplit, hslot] at hk
        cases hk.2.2
      | some k =>
        have hindexes : Indexes (l.names.map Prod.fst) reference (String.ofList before) k :=
          (indexes_iff hsplit).2 ⟨rfl, hname, hslot⟩
        simp only [Prod.mk.injEq]
        constructor
        · rintro ⟨rfl, rfl⟩
          exact .inl hindexes
        · rintro (h | ⟨h, -⟩)
          · obtain ⟨rfl, -, hk⟩ := (indexes_iff hsplit).1 h
            exact ⟨rfl, Option.some.inj (hslot.symm.trans hk)⟩
          · exact absurd hindexes (h _ _)
    · simp only [mt isSome_lookup.1 hname]
      refine hwhole fun name k hk => ?_
      obtain ⟨rfl, h, -⟩ := (indexes_iff hsplit).1 hk
      exact hname h

/-- The port that a reference means: an output of the node that its entry has given a name. -/
theorem resolve_eq_ok {o : OutputId} :
    (l.resolve node reference).run = .ok (.ok o) ↔
      ∃ base slot id maker, Means (l.names.map Prod.fst) reference base slot ∧
        l.names.lookup base = some id ∧ l.graph.node? id = some maker ∧
        maker.outputs[slot]? = some o := by
  have htarget : Means (l.names.map Prod.fst) reference (l.target reference).1
      (l.target reference).2 := target_eq.1 rfl
  unfold resolve
  simp only
  constructor
  · intro h
    split at h
    · cases h
    · rename_i id hid
      simp only [Outcome.bind_eq_ok, Outcome.lift_eq_ok, Graph.node_eq_ok] at h
      obtain ⟨maker, hmaker, h⟩ := h
      split at h
      · rename_i o' ho
        cases h
        exact ⟨_, _, id, maker, htarget, hid, hmaker, ho⟩
      · cases h
  · rintro ⟨base, slot, id, maker, hmeans, hid, hmaker, ho⟩
    rw [← target_eq] at hmeans
    simp only [hmeans, hid, Outcome.bind_eq_ok, Outcome.lift_eq_ok, Graph.node_eq_ok]
    refine ⟨maker, hmaker, ?_⟩
    rw [ho]
    rfl

theorem resolveAll_eq_ok {references : List String} {ports : List OutputId} :
    (l.resolveAll node references).run = .ok (.ok ports) ↔
      List.Forall₂ (fun r o => (l.resolve node r).run = .ok (.ok o)) references ports := by
  induction references generalizing ports with
  | nil =>
    rw [List.forall₂_nil_left_iff]
    constructor
    · intro h
      cases h
      rfl
    · rintro rfl
      rfl
  | cons reference rest ih =>
    simp only [resolveAll, Outcome.bind_eq_ok]
    constructor
    · rintro ⟨o, ho, os, hos, h⟩
      cases h
      exact .cons ho (ih.1 hos)
    · rintro (_ | ⟨ho, hos⟩)
      exact ⟨_, ho, _, ih.2 hos, rfl⟩

theorem resolveFields_eq_ok {fields : List (String × String)} {ports : List (String × OutputId)}
    (h : (l.resolveFields node fields).run = .ok (.ok ports)) :
    ports.map Prod.fst = fields.map Prod.fst ∧
      (l.resolveAll node (fields.map Prod.snd)).run = .ok (.ok (ports.map Prod.snd)) := by
  induction fields generalizing ports with
  | nil =>
    cases h
    exact ⟨rfl, rfl⟩
  | cons field rest ih =>
    obtain ⟨name, reference⟩ := field
    simp only [resolveFields, Outcome.bind_eq_ok] at h
    obtain ⟨o, ho, os, hos, h⟩ := h
    cases h
    obtain ⟨hnames, hports⟩ := ih hos
    refine ⟨by simp [hnames], ?_⟩
    rw [resolveAll_eq_ok] at hports ⊢
    exact .cons ho hports

end Loader

end SignalGraph
