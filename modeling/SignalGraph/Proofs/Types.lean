import SignalGraph.Proofs.Calls

/-!
# Types of ports

Types are made in many places: for channels and literals, for arrays, and for the outputs of calls.
Each of them passes the check of `DataType.make` (`DataType.Sound`): rates are positive, and strings
and structs are constants. A graph all of whose ports have such types is `Typed`; links do not
matter for it, so only new nodes can break it.
-/

namespace SignalGraph

namespace Word

theorem add_eq_ok {a b c : Nat} : add a b = .ok c ↔ a + b < limit ∧ c = a + b := by
  unfold add
  split_ifs with h
  · simp [h, eq_comm]
  · simp [h]

theorem mul_eq_ok {a b c : Nat} : mul a b = .ok c ↔ a * b < limit ∧ c = a * b := by
  unfold mul
  split_ifs with h
  · simp [h, eq_comm]
  · simp [h]

end Word

namespace DataType

/-- The parts of the type do not contradict each other. -/
def Sound (t : DataType) : Prop :=
  make t.primitive t.factor t.isArray = .ok t

theorem sound_iff {t : DataType} :
    t.Sound ↔ t.factor ≠ some 0 ∧ (t.primitive = none → t.factor = none ∧ t.isArray = false) ∧
      (t.primitive = some .string → t.factor = none) := by
  obtain ⟨p, f, a⟩ := t
  unfold Sound make
  by_cases hf : f = some 0
  · simp [hf]
  · cases p with
    | none => by_cases hn : f = none <;> simp [hf, hn]
    | some p => by_cases hp : p = .string <;> by_cases hn : f = none <;> simp [hf, hn, hp]

theorem sound_of_make {p : Option Primitive} {f : Option Nat} {a : Bool} {t : DataType}
    (h : make p f a = .ok t) : t.Sound := by
  have ht : t = ⟨p, f, a⟩ := by
    unfold make at h
    split_ifs at h
    exact (Except.ok.inj h).symm
  subst ht
  exact h

theorem sound_constant (p : Primitive) : (constant p).Sound := by
  simp [sound_iff, constant]

theorem sound_struct : struct.Sound := by
  simp [sound_iff, struct]

theorem varying_eq_ok {p : Primitive} {u : Nat} {t : DataType} :
    varying p u = .ok t ↔ u ≠ 0 ∧ p ≠ .string ∧ t = ⟨some p, some u, false⟩ := by
  unfold varying
  split_ifs with hu hp
  · simp [hu]
  · simp [hp]
  · simp [hu, hp, eq_comm]

theorem toArray_eq_ok {t t' : DataType} :
    t.toArray = .ok t' ↔ t.primitive ≠ none ∧ t' = { t with isArray := true } := by
  unfold toArray
  split_ifs with hs
  · simp only [isStruct, Option.isNone_iff_eq_none] at hs
    simp [hs]
  · simp only [isStruct, Option.isNone_iff_eq_none] at hs
    simp [hs, eq_comm]

theorem sound_varying {p : Primitive} {u : Nat} {t : DataType} (h : varying p u = .ok t) :
    t.Sound := by
  obtain ⟨hu, hp, rfl⟩ := varying_eq_ok.1 h
  simp [sound_iff, hu, hp]

theorem sound_toArray {t t' : DataType} (ht : t.Sound) (h : t.toArray = .ok t') : t'.Sound := by
  obtain ⟨hs, rfl⟩ := toArray_eq_ok.1 h
  rw [sound_iff] at ht ⊢
  exact ⟨ht.1, fun hp => absurd hp hs, ht.2.2⟩

theorem Sound.factor_pos {t : DataType} (h : t.Sound) {u : Nat} (hu : t.factor = some u) :
    0 < u := by
  rcases Nat.eq_zero_or_pos u with rfl | hpos
  · exact absurd hu (sound_iff.1 h).1
  · exact hpos

end DataType

theorem CallPlan.fixes_eq_true {p : CallPlan} {m : Mutability} :
    p.fixes m = true ↔ m = .constant ∨ m = .dependent ∧ p.dependentConstant = true := by
  cases m <;> simp [fixes]

theorem CallPlan.fixes_eq_false {p : CallPlan} {m : Mutability} :
    p.fixes m = false ↔ m = .varying ∨ m = .dependent ∧ p.dependentConstant = false := by
  cases m <;> simp [fixes]

namespace Call

/-- The type and the latency that an output of a call gets. A dependent output is constant in calls
whose dependent arguments all are. -/
structure Result (p : CallPlan) (factor latency : Nat) (t : ParameterType) (r : DataType × Nat) :
    Prop where
  sound : r.1.Sound
  primitive : r.1.primitive = some t.primitive
  isArray : r.1.isArray = t.isArray
  constant : t.mutability = .constant ∨
    t.mutability = .dependent ∧ p.dependentConstant = true → r.1.factor = none ∧ r.2 = 0
  varying : t.mutability = .varying ∨ t.mutability = .dependent ∧ p.dependentConstant = false →
    r.1.factor = some (t.factor * factor) ∧ r.2 = latency * t.factor

/-- Outputs are made as single values, and then become arrays if they are declared so. -/
theorem Result.declared {p : CallPlan} {factor latency : Nat} {t : ParameterType}
    {type : DataType} {late : Nat} {r : DataType × Nat}
    (hs : Result p factor latency { t with isArray := false } (type, late))
    (h : (if t.isArray = true then do return (← type.toArray, late) else pure (type, late)) =
      (.ok r : Except Fault (DataType × Nat))) : Result p factor latency t r := by
  split at h
  · rename_i ha
    obtain ⟨type', ht, h⟩ := bind_eq_ok.1 h
    cases h
    refine ⟨DataType.sound_toArray hs.sound ht, ?_, ?_, ?_, ?_⟩
    all_goals obtain ⟨-, rfl⟩ := DataType.toArray_eq_ok.1 ht
    · exact hs.primitive
    · exact ha.symm
    · exact hs.constant
    · exact hs.varying
  · rename_i ha
    cases h
    exact ⟨hs.sound, hs.primitive, hs.isArray.trans (Bool.eq_false_iff.2 ha).symm, hs.constant,
      hs.varying⟩

theorem result_eq_ok {p : CallPlan} {factor latency : Nat} {t : ParameterType}
    {r : DataType × Nat} (h : result p factor latency t = .ok r) :
    Result p factor latency t r := by
  cases hfix : p.fixes t.mutability with
  | true =>
    have hs : Result p factor latency { t with isArray := false } (.constant t.primitive, 0) := by
      refine ⟨DataType.sound_constant _, rfl, rfl, fun _ => ⟨rfl, rfl⟩, fun hvaries => ?_⟩
      cases hfix.symm.trans (CallPlan.fixes_eq_false.2 hvaries)
    refine hs.declared ?_
    rw [← h, result, if_pos hfix]
    split <;> simp
  | false =>
    have hbind : ∃ rate, Word.mul t.factor factor = .ok rate ∧
        ∃ type, DataType.varying t.primitive rate = .ok type ∧
        ∃ late, Word.mul latency t.factor = .ok late ∧
          (if t.isArray = true then do return (← type.toArray, late) else pure (type, late)) =
            (.ok r : Except Fault (DataType × Nat)) := by
      unfold result at h
      split at h <;> simpa [hfix, bind_eq_ok, *] using h
    obtain ⟨rate, hrate, type, ht, late, hlate, h⟩ := hbind
    obtain ⟨-, rfl⟩ := Word.mul_eq_ok.1 hrate
    obtain ⟨-, rfl⟩ := Word.mul_eq_ok.1 hlate
    refine Result.declared ⟨DataType.sound_varying ht, ?_, ?_, fun hconstant => ?_, fun _ => ?_⟩ h
    all_goals obtain ⟨-, -, rfl⟩ := DataType.varying_eq_ok.1 ht
    · rfl
    · rfl
    · cases hfix.symm.trans (CallPlan.fixes_eq_true.2 hconstant)
    · exact ⟨rfl, rfl⟩

theorem result_of_results {p : CallPlan} {factor latency : Nat} {l : List (Parameter × Nat)}
    {rs : List (DataType × Nat)} (h : results p factor latency l = .ok rs) :
    ∀ r ∈ rs, ∃ q ∈ l, Result p factor latency q.1.type r := by
  induction l generalizing rs with
  | nil =>
    cases h
    simp
  | cons q l ih =>
    simp only [results, bind_eq_ok, pure_eq_ok] at h
    obtain ⟨first, hfirst, rest, hrest, h⟩ := h
    cases h
    refine List.forall_mem_cons.2 ⟨⟨q, List.mem_cons_self, result_eq_ok hfirst⟩, fun r hr => ?_⟩
    obtain ⟨q', hq', hr'⟩ := ih hrest r hr
    exact ⟨q', List.mem_cons_of_mem q hq', hr'⟩

end Call

theorem Graph.sound_of_arrayType {element : Primitive} {factor : Option Nat} {t : DataType}
    (h : arrayType element factor = .ok t) : t.Sound := by
  cases factor with
  | none => exact DataType.sound_toArray (DataType.sound_constant element) h
  | some u =>
    obtain ⟨t₁, ht, h⟩ := bind_eq_ok.1 h
    exact DataType.sound_toArray (DataType.sound_varying ht) h

namespace Graph

/-- Every port has a sound type. -/
def Typed (g : Graph) : Prop :=
  ∀ o port, g.bare? o = some port → port.type.Sound

namespace Typed

variable {g g' : Graph}

theorem output? (h : g.Typed) {o : OutputId} {port : OutputPort} (ho : g.output? o = some port) :
    port.type.Sound :=
  h o port.bare (bare?_eq_some.2 ⟨port, ho, rfl⟩)

theorem empty : Typed {} := by
  intro o port h
  cases h

theorem rewired (h : g.Typed) (hr : Rewired g g') : g'.Typed := by
  intro o port ho
  exact h o port (hr.bare? o ▸ ho)

theorem pruned (h : g.Typed) (hp : Pruned g g') : g'.Typed :=
  fun o port ho => h o port (hp.bare? ho)

theorem same (h : g.Typed) (hs : Same g g') : g'.Typed := by
  intro o port ho
  exact h o port (hs.bare? o ▸ ho)

theorem inserted {kind : Kind} {location : Option Location} {sources : List OutputId}
    {results : List (DataType × Nat)} (h : g.Typed)
    (hi : Inserted g kind location sources results g') (hs : ∀ r ∈ results, r.1.Sound) :
    g'.Typed := by
  intro o port ho
  rw [hi.bare?] at ho
  split at ho
  · exact h o port ho
  · obtain ⟨r, hr, rfl⟩ := Option.map_eq_some_iff.1 ho
    exact hs r (List.mem_of_getElem? hr)

end Typed

/-! ## Arrays -/

/-- What the elements `l` add to what is known of the elements before them. -/
structure Gathers (g : Graph) (element : Primitive) (e : Elements) (l : List OutputId)
    (e' : Elements) : Prop where
  live {o : OutputId} : o ∈ l → ∃ port, g.output? o = some port ∧
    port.type.primitive = some element ∧ port.type.isArray = false
  varying {o : OutputId} {port : OutputPort} {u : Nat} : o ∈ l → g.output? o = some port →
    port.type.factor = some u → e'.factor = some u ∧ port.latency ≤ e'.latency
  keeps {u : Nat} : e.factor = some u → e'.factor = some u
  le : e.latency ≤ e'.latency
  constant : e'.factor = none → e'.latency = 0
  /-- The latency is that of an element, or it was there before. -/
  attained {u : Nat} : e'.factor = some u → e.factor = some u ∧ e'.latency = e.latency ∨
    ∃ o ∈ l, ∃ port, g.output? o = some port ∧ port.type.factor = some u ∧
      port.latency = e'.latency

theorem Elements.add_eq_ok {e e' : Elements} {element : Primitive} {k : Nat} {port : OutputPort}
    (h : e.add element k port = .ok e') :
    (port.type.primitive = some element ∧ port.type.isArray = false) ∧
      (port.type.factor = none ∧ e' = e ∨ ∃ u, port.type.factor = some u ∧
        (e.factor = none ∨ e.factor = some u) ∧ e' = ⟨some u, max e.latency port.latency⟩) := by
  unfold Elements.add at h
  split_ifs at h with htype
  refine ⟨by simpa [not_or] using htype, ?_⟩
  split at h
  · rename_i hf
    cases h
    exact .inl ⟨hf, rfl⟩
  · rename_i u f hu hf
    split_ifs at h with hne
    cases h
    exact .inr ⟨u, hu, .inr (hf.trans (congrArg some (not_not.1 hne))), rfl⟩
  · rename_i u hu hf
    cases h
    exact .inr ⟨u, hu, .inl hf, rfl⟩

theorem Gathers.cons {g : Graph} {element : Primitive} {o : OutputId} {l : List OutputId}
    {e e₁ e' : Elements} {k : Nat} {port : OutputPort} (he : e.factor = none → e.latency = 0)
    (hp : g.output? o = some port) (hadd : e.add element k port = .ok e₁)
    (h : Gathers g element e₁ l e') : Gathers g element e (o :: l) e' := by
  obtain ⟨htype, hadd⟩ := Elements.add_eq_ok hadd
  have hlive {x : OutputId} (hx : x ∈ o :: l) : ∃ port, g.output? x = some port ∧
      port.type.primitive = some element ∧ port.type.isArray = false := by
    rcases List.mem_cons.1 hx with rfl | hx
    · exact ⟨port, hp, htype⟩
    · exact h.live hx
  have hlater {u : Nat} (hx : ∃ x ∈ l, ∃ q, g.output? x = some q ∧ q.type.factor = some u ∧
      q.latency = e'.latency) : ∃ x ∈ o :: l, ∃ q, g.output? x = some q ∧
      q.type.factor = some u ∧ q.latency = e'.latency :=
    hx.imp fun x hx => ⟨List.mem_cons_of_mem o hx.1, hx.2⟩
  rcases hadd with ⟨hconst, rfl⟩ | ⟨u, hu, hef, rfl⟩
  · -- A constant goes with any elements.
    refine ⟨hlive, fun {x q u} hx hq hu => ?_, h.keeps, h.le, h.constant, fun hu => ?_⟩
    · rcases List.mem_cons.1 hx with rfl | hx
      · obtain rfl := Option.some.inj (hp.symm.trans hq)
        rw [hconst] at hu
        cases hu
      · exact h.varying hx hq hu
    · exact (h.attained hu).imp_right hlater
  · have hfac : e'.factor = some u := h.keeps rfl
    have hle : max e.latency port.latency ≤ e'.latency := h.le
    refine ⟨hlive, fun {x q v} hx hq hv => ?_, fun {v} hv => ?_, le_trans (le_max_left _ _) hle,
      h.constant, fun {v} hv => ?_⟩
    · rcases List.mem_cons.1 hx with rfl | hx
      · obtain rfl := Option.some.inj (hp.symm.trans hq)
        exact ⟨hfac.trans (hu.symm.trans hv), le_trans (le_max_right _ _) hle⟩
      · exact h.varying hx hq hv
    · rcases hef with hef | hef
      · rw [hef] at hv
        cases hv
      · exact hfac.trans (hef.symm.trans hv)
    · rcases h.attained hv with ⟨huv, hmax⟩ | hx
      · rw [hmax]
        by_cases hl : e.latency ≤ port.latency
        · exact .inr ⟨o, List.mem_cons_self, port, hp, hu.trans huv, (max_eq_right hl).symm⟩
        · -- What is later than the element has a rate already.
          refine .inl ⟨(hef.resolve_left fun hn => ?_).trans huv, max_eq_left (le_of_not_ge hl)⟩
          have h0 := he hn
          omega
      · exact .inr (hlater hx)

theorem gathers_of_elementsFrom {g : Graph} {element : Primitive} {l : List OutputId}
    {e e' : Elements} (k : Nat) (he : e.factor = none → e.latency = 0)
    (h : (g.elementsFrom element e (l.zipIdx k)).run = .ok (.ok e')) :
    Gathers g element e l e' := by
  induction l generalizing e k with
  | nil =>
    cases h
    exact ⟨nofun, nofun, id, le_rfl, he, fun hu => .inl ⟨hu, rfl⟩⟩
  | cons o l ih =>
    rw [List.zipIdx_cons] at h
    simp only [elementsFrom, Outcome.bind_eq_ok, Outcome.lift_eq_ok, output_eq_ok] at h
    obtain ⟨port, hp, h⟩ := h
    cases hadd : e.add element k port with
    | error err =>
      rw [hadd] at h
      cases h
    | ok e₁ =>
      rw [hadd] at h
      refine Gathers.cons he hp hadd (ih (k + 1) (fun hn => ?_) h)
      rcases (Elements.add_eq_ok hadd).2 with ⟨-, rfl⟩ | ⟨u, -, -, rfl⟩
      · exact he hn
      · cases hn

/-- The type and the latency of an array: its variable elements have its rate, and the latest of
them its latency. -/
structure ArrayOf (g : Graph) (element : Primitive) (elements : List OutputId)
    (r : DataType × Nat) : Prop where
  sound : r.1.Sound
  primitive : r.1.primitive = some element
  isArray : r.1.isArray = true
  live {o : OutputId} : o ∈ elements → ∃ port, g.output? o = some port ∧
    port.type.primitive = some element ∧ port.type.isArray = false
  varying {o : OutputId} {port : OutputPort} {u : Nat} : o ∈ elements →
    g.output? o = some port → port.type.factor = some u →
      r.1.factor = some u ∧ port.latency ≤ r.2
  constant : r.1.factor = none → r.2 = 0
  attained {u : Nat} : r.1.factor = some u → ∃ o ∈ elements, ∃ port, g.output? o = some port ∧
    port.type.factor = some u ∧ port.latency = r.2

theorem factor_of_arrayType {element : Primitive} {factor : Option Nat} {t : DataType}
    (h : arrayType element factor = .ok t) : t = ⟨some element, factor, true⟩ := by
  cases factor with
  | none =>
    obtain ⟨-, rfl⟩ := DataType.toArray_eq_ok.1 h
    rfl
  | some u =>
    obtain ⟨t₁, ht, h⟩ := bind_eq_ok.1 h
    obtain ⟨-, -, rfl⟩ := DataType.varying_eq_ok.1 ht
    obtain ⟨-, rfl⟩ := DataType.toArray_eq_ok.1 h
    rfl

theorem arrayOf_of_arrayResult {g : Graph} {element : Primitive} {elements : List OutputId}
    {r : DataType × Nat} (h : (g.arrayResult element elements).run = .ok (.ok r)) :
    ArrayOf g element elements r := by
  simp only [arrayResult, Outcome.bind_eq_ok, Outcome.lift_eq_ok] at h
  obtain ⟨e, he, type, ht, h⟩ := h
  cases h
  have hg := gathers_of_elementsFrom 0 (fun _ => rfl) he
  have hs := sound_of_arrayType ht
  obtain rfl := factor_of_arrayType ht
  refine ⟨hs, rfl, rfl, hg.live, hg.varying, hg.constant, fun hu => ?_⟩
  exact (hg.attained hu).resolve_left fun h => nomatch h.1

end Graph

end SignalGraph
