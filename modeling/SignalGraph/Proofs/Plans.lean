import SignalGraph.Proofs.Alike
import SignalGraph.Proofs.Types

/-!
# What a plan says of its arguments

A call can be planned exactly if its arguments are accepted for its parameters and the ports that
bring in latencies all have the same latency at the rate of the call (`plan_iff`). A plan is
unique, and it stays as it is while a graph grows (`Planned.grown`).
-/

namespace SignalGraph

open SignalGraph.Graph

namespace Call

variable {g g' : Graph} {module : String} {factor index : Nat}

/-! ## Types of arguments -/

/-- A value of type `found` can be an argument for a parameter. -/
structure Accepts (declared : ParameterType) (factor : Nat) (found : DataType) : Prop where
  primitive : found.primitive = some declared.primitive
  isArray : found.isArray = declared.isArray
  varying {u : Nat} : found.factor = some u → declared.mutability ≠ .constant ∧
    declared.factor * factor < Word.limit ∧ u = declared.factor * factor

theorem checkArgument_eq_ok {declared : ParameterType} {found : DataType} :
    (checkArgument module factor index declared found).run = .ok (.ok ()) ↔
      Accepts declared factor found := by
  simp only [checkArgument]
  split
  · rename_i htype
    refine ⟨nofun, fun h => ?_⟩
    exact absurd htype (by simp [h.primitive, h.isArray])
  · rename_i htype
    rw [not_or, not_not, not_not] at htype
    split
    · rename_i hf
      exact ⟨fun _ => ⟨htype.1, htype.2, by simp [hf]⟩, fun _ => rfl⟩
    · rename_i u hf
      split
      · rename_i hconst
        exact ⟨nofun, fun h => absurd hconst (h.varying hf).1⟩
      · rename_i hconst
        simp only [Outcome.bind_eq_ok, Outcome.lift_eq_ok, Word.mul_eq_ok]
        constructor
        · rintro ⟨expected, ⟨hlt, rfl⟩, h⟩
          split at h
          · cases h
          · rename_i hu
            refine ⟨htype.1, htype.2, fun {v} hv => ?_⟩
            obtain rfl : u = v := Option.some.inj (hf.symm.trans hv)
            exact ⟨hconst, hlt, not_not.1 hu⟩
        · intro h
          obtain ⟨-, hlt, hu⟩ := h.varying hf
          refine ⟨_, ⟨hlt, rfl⟩, ?_⟩
          rw [if_neg (not_not.2 hu)]
          rfl

/-- Whether all dependent arguments among these are constants. -/
def dependentOn (g : Graph) (pairs : List (Parameter × OutputId)) : Bool :=
  pairs.all fun q => q.1.type.mutability ≠ .dependent ||
    (g.output? q.2).any fun port => port.type.isConstant

theorem checkArguments_eq_ok {pairs : List (Parameter × OutputId)} {b : Bool} (k : Nat) :
    (checkArguments g module factor (pairs.zipIdx k)).run = .ok (.ok b) ↔
      (∀ q ∈ pairs, ∃ port, g.output? q.2 = some port ∧ Accepts q.1.type factor port.type) ∧
        b = dependentOn g pairs := by
  induction pairs generalizing b k with
  | nil =>
    simp only [List.zipIdx_nil, checkArguments, dependentOn, List.not_mem_nil, false_implies,
      implies_true, true_and, List.all_nil]
    exact ⟨fun h => by cases h; rfl, fun h => by rw [h]; rfl⟩
  | cons q pairs ih =>
    simp only [List.zipIdx_cons, checkArguments, Outcome.bind_eq_ok, Outcome.lift_eq_ok,
      output_eq_ok, List.forall_mem_cons]
    constructor
    · rintro ⟨port, hp, ⟨⟩, hcheck, others, hrest, h⟩
      obtain ⟨hall, rfl⟩ := (ih (k + 1)).1 hrest
      cases h
      refine ⟨⟨⟨port, hp, checkArgument_eq_ok.1 hcheck⟩, hall⟩, ?_⟩
      simp [dependentOn, hp, Bool.and_comm]
    · rintro ⟨⟨⟨port, hp, haccepts⟩, hall⟩, rfl⟩
      refine ⟨port, hp, (), checkArgument_eq_ok.2 haccepts, _, (ih (k + 1)).2 ⟨hall, rfl⟩, ?_⟩
      simp [dependentOn, hp, Bool.and_comm]

/-! ## Latencies -/

/-- The latency of a port is `latency` in samples at the rate of a call. -/
def Aligned (factor latency : Nat) (port : OutputPort) : Prop :=
  ∃ k, 0 < k ∧ port.type.factor.getD factor = k * factor ∧ port.latency = latency * k

/-- A port has one latency at the rate of a call. -/
theorem Aligned.unique {port : OutputPort} {a a' : Nat} (hf : 0 < factor)
    (h : Aligned factor a port) (h' : Aligned factor a' port) : a = a' := by
  obtain ⟨k, hk, hrate, hlat⟩ := h
  obtain ⟨k', -, hrate', hlat'⟩ := h'
  obtain rfl : k = k' := Nat.eq_of_mul_eq_mul_right hf (hrate.symm.trans hrate')
  exact Nat.eq_of_mul_eq_mul_right hk (hlat.symm.trans hlat')

theorem toCallRate_eq_some {latency rate aligned : Nat} (hf : 0 < factor) :
    toCallRate latency rate factor = .ok (some aligned) ↔
      ∃ k, 0 < k ∧ rate = k * factor ∧ latency = aligned * k := by
  simp only [toCallRate, Word.rem, Word.div, if_neg (Nat.ne_of_gt hf), ok_bind]
  constructor
  · intro h
    split at h
    · cases h
    · rename_i hmod
      have hrate : factor ∣ rate := Nat.dvd_of_mod_eq_zero (not_not.1 hmod)
      by_cases hr : rate / factor = 0
      · simp [hr] at h
      · simp only [if_neg hr, ok_bind] at h
        split at h
        · cases h
        · rename_i hrem
          cases h
          have hlat : rate / factor ∣ latency := Nat.dvd_of_mod_eq_zero (not_not.1 hrem)
          exact ⟨rate / factor, Nat.pos_of_ne_zero hr, (Nat.div_mul_cancel hrate).symm,
            (Nat.div_mul_cancel hlat).symm⟩
  · rintro ⟨k, hk, rfl, rfl⟩
    simp [Nat.mul_div_cancel k hf, Nat.mul_div_cancel aligned hk, Nat.ne_of_gt hk]

theorem alignPort_eq_ok {common : Option Nat} {o : OutputId} {aligned : Nat} (hf : 0 < factor) :
    (alignPort g module factor index common o).run = .ok (.ok aligned) ↔
      (∃ port, g.output? o = some port ∧ Aligned factor aligned port) ∧
        (common = none ∨ common = some aligned) := by
  simp only [alignPort, Outcome.bind_eq_ok, Outcome.lift_eq_ok, output_eq_ok]
  constructor
  · rintro ⟨port, hp, rate, hrate, h⟩
    cases rate with
    | none => cases h
    | some a =>
      have ha := (toCallRate_eq_some hf).1 hrate
      cases common with
      | none =>
        cases h
        exact ⟨⟨port, hp, ha⟩, .inl rfl⟩
      | some first =>
        simp only at h
        split at h
        · rename_i he
          cases h
          exact ⟨⟨port, hp, he ▸ ha⟩, .inr rfl⟩
        · cases h
  · rintro ⟨⟨port, hp, ha⟩, hc⟩
    refine ⟨port, hp, some aligned, (toCallRate_eq_some hf).2 ha, ?_⟩
    rcases hc with rfl | rfl
    · rfl
    · simp only [if_true]
      rfl

/-- All these ports have the latency `common'`, if there are any, and so had those before them. -/
structure Agree (g : Graph) (factor : Nat) (common : Option Nat) (l : List OutputId)
    (common' : Option Nat) : Prop where
  aligned : ∀ o ∈ l, ∃ port a, g.output? o = some port ∧ Aligned factor a port ∧ common' = some a
  start : common' = common ∨ common = none ∧ l ≠ []

theorem alignPorts_eq_ok {common common' : Option Nat} {l : List OutputId} (hf : 0 < factor) :
    (alignPorts g module factor index common l).run = .ok (.ok common') ↔
      Agree g factor common l common' := by
  induction l generalizing common with
  | nil =>
    rw [alignPorts]
    constructor
    · intro h
      cases h
      exact ⟨List.forall_mem_nil _, .inl rfl⟩
    · rintro ⟨-, rfl | ⟨-, hne⟩⟩
      · rfl
      · exact absurd rfl hne
  | cons o l ih =>
    simp only [alignPorts, Outcome.bind_eq_ok, alignPort_eq_ok hf, ih]
    constructor
    · rintro ⟨a, ⟨⟨port, hp, ha⟩, hc⟩, hrest⟩
      have hcommon : common' = some a := hrest.start.resolve_right (by simp)
      refine ⟨List.forall_mem_cons.2 ⟨⟨port, a, hp, ha, hcommon⟩, hrest.aligned⟩, ?_⟩
      rcases hc with rfl | rfl
      · exact .inr ⟨rfl, List.cons_ne_nil o l⟩
      · exact .inl hcommon
    · intro h
      obtain ⟨⟨port, a, hp, ha, rfl⟩, hrest⟩ := List.forall_mem_cons.1 h.aligned
      refine ⟨a, ⟨⟨port, hp, ha⟩, ?_⟩, hrest, .inl rfl⟩
      exact h.start.symm.imp And.left Eq.symm

theorem agree_append {common common' : Option Nat} {l l' : List OutputId} :
    Agree g factor common (l ++ l') common' ↔
      ∃ middle, Agree g factor common l middle ∧ Agree g factor middle l' common' := by
  constructor
  · intro h
    by_cases hl : l = []
    · subst hl
      exact ⟨common, ⟨nofun, .inl rfl⟩, h⟩
    · exact ⟨common', ⟨fun o ho => h.aligned o (List.mem_append_left _ ho),
        h.start.imp_right fun hs => ⟨hs.1, hl⟩⟩,
        fun o ho => h.aligned o (List.mem_append_right _ ho), .inl rfl⟩
  · rintro ⟨middle, h, h'⟩
    have hstart : common' = common ∨ common = none ∧ l ++ l' ≠ [] := by
      rcases h'.start with rfl | ⟨rfl, hne⟩
      · exact h.start.imp_right fun hs => ⟨hs.1, by simp [hs.2]⟩
      · rcases h.start with rfl | ⟨hc, -⟩
        · exact .inr ⟨rfl, by simp [hne]⟩
        · exact .inr ⟨hc, by simp [hne]⟩
    refine ⟨fun o ho => ?_, hstart⟩
    rcases List.mem_append.1 ho with ho | ho
    · obtain ⟨port, a, hp, ha, rfl⟩ := h.aligned o ho
      exact ⟨port, a, hp, ha, h'.start.resolve_right nofun⟩
    · exact h'.aligned o ho

/-- The ports whose latencies an argument brings in, if it is there. -/
def late (g : Graph) (a : OutputId) : List OutputId :=
  (latePorts g a).toOption.getD []

theorem late_eq {a : OutputId} {l : List OutputId} (h : latePorts g a = .ok l) : late g a = l := by
  rw [late, h]
  rfl

theorem alignArguments_eq_ok {common common' : Option Nat} {arguments : List OutputId} (k : Nat)
    (hf : 0 < factor) :
    (alignArguments g module factor common (arguments.zipIdx k)).run = .ok (.ok common') ↔
      (∀ a ∈ arguments, ∃ l, latePorts g a = .ok l) ∧
        Agree g factor common (arguments.flatMap (late g)) common' := by
  induction arguments generalizing common k with
  | nil =>
    rw [List.zipIdx_nil, alignArguments]
    constructor
    · intro h
      cases h
      exact ⟨List.forall_mem_nil _, List.forall_mem_nil _, .inl rfl⟩
    · rintro ⟨-, -, rfl | ⟨-, hne⟩⟩
      · rfl
      · exact absurd rfl hne
  | cons a arguments ih =>
    simp only [List.zipIdx_cons, alignArguments, Outcome.bind_eq_ok, Outcome.lift_eq_ok,
      alignPorts_eq_ok hf, ih, List.forall_mem_cons, List.flatMap_cons, agree_append]
    constructor
    · rintro ⟨l, hl, middle, hfirst, hlive, hrest⟩
      exact ⟨⟨⟨l, hl⟩, hlive⟩, middle, late_eq hl ▸ hfirst, hrest⟩
    · rintro ⟨⟨⟨l, hl⟩, hlive⟩, middle, hfirst, hrest⟩
      exact ⟨l, hl, middle, late_eq hl ▸ hfirst, hlive, hrest⟩

/-! ## Plans -/

/-- The arguments fit the parameters, and `p` is the plan for them. -/
structure Planned (g : Graph) (s : Signature) (factor : Nat) (arguments : List OutputId)
    (p : CallPlan) : Prop where
  positive : 0 < factor
  arity : arguments.length = s.inputs.length
  accepts : ∀ q ∈ (s.inputs.map Prod.fst).zip arguments, ∃ port, g.output? q.2 = some port ∧
    Accepts q.1.type factor port.type
  dependent : p.dependentConstant = dependentOn g ((s.inputs.map Prod.fst).zip arguments)
  live : ∀ a ∈ arguments, ∃ l, latePorts g a = .ok l
  aligned : ∀ a ∈ arguments, ∀ o ∈ late g a, ∃ port, g.output? o = some port ∧
    Aligned factor p.inputLatency port
  /-- Where no latency comes in, there is none. -/
  quiet : (∀ a ∈ arguments, late g a = []) → p.inputLatency = 0

theorem pos_of_plan {s : Signature} {arguments : List OutputId} {p : CallPlan}
    (h : (plan g s factor arguments).run = .ok (.ok p)) : 0 < factor := by
  refine Nat.pos_of_ne_zero fun hf => ?_
  simp only [plan, hf, if_true] at h
  obtain ⟨-, h, -⟩ := Outcome.bind_eq_ok.1 h
  cases h

/-- A call can be planned exactly if its arguments fit, and the plan says how. -/
theorem plan_iff {s : Signature} {arguments : List OutputId} {p : CallPlan} :
    (plan g s factor arguments).run = .ok (.ok p) ↔ Planned g s factor arguments p := by
  have hopen (hf : 0 < factor) (hlen : arguments.length = s.inputs.length) :
      (plan g s factor arguments).run = .ok (.ok p) ↔
        (∀ q ∈ (s.inputs.map Prod.fst).zip arguments, ∃ port, g.output? q.2 = some port ∧
          Accepts q.1.type factor port.type) ∧
        p.dependentConstant = dependentOn g ((s.inputs.map Prod.fst).zip arguments) ∧
        (∀ a ∈ arguments, ∃ l, latePorts g a = .ok l) ∧
        ∃ common, Agree g factor none (arguments.flatMap (late g)) common ∧
          p.inputLatency = common.getD 0 := by
    simp only [plan, Nat.ne_of_gt hf, hlen, if_false, ne_eq, not_true_eq_false,
      Outcome.bind_eq_ok, checkArguments_eq_ok, alignArguments_eq_ok 0 hf]
    constructor
    · rintro ⟨dependent, ⟨haccepts, rfl⟩, common, ⟨hlive, hagree⟩, h⟩
      cases h
      exact ⟨haccepts, rfl, hlive, common, hagree, rfl⟩
    · rintro ⟨haccepts, hdep, hlive, common, hagree, hlat⟩
      refine ⟨_, ⟨haccepts, rfl⟩, common, ⟨hlive, hagree⟩, ?_⟩
      rw [← hdep, ← hlat]
      rfl
  constructor
  · intro h
    have hf := pos_of_plan h
    have hlen := length_of_plan h
    obtain ⟨haccepts, hdep, hlive, common, hagree, hlat⟩ := (hopen hf hlen).1 h
    refine ⟨hf, hlen, haccepts, hdep, hlive, fun a ha o ho => ?_, fun hnone => ?_⟩
    · obtain ⟨port, a', hp, ha', rfl⟩ := hagree.aligned o (List.mem_flatMap.2 ⟨a, ha, ho⟩)
      exact ⟨port, hp, hlat ▸ ha'⟩
    · have hempty : arguments.flatMap (late g) = [] := List.flatMap_eq_nil_iff.2 hnone
      rw [hlat, hagree.start.resolve_right fun h => h.2 hempty]
      rfl
  · intro h
    refine (hopen h.positive h.arity).2 ⟨h.accepts, h.dependent, h.live, ?_⟩
    by_cases hempty : arguments.flatMap (late g) = []
    · refine ⟨none, ⟨by simp [hempty], .inl rfl⟩, ?_⟩
      exact h.quiet (List.flatMap_eq_nil_iff.1 hempty)
    · refine ⟨some p.inputLatency, ⟨fun o ho => ?_, .inr ⟨rfl, hempty⟩⟩, rfl⟩
      obtain ⟨a, ha, ho⟩ := List.mem_flatMap.1 ho
      obtain ⟨port, hp, hal⟩ := h.aligned a ha o ho
      exact ⟨port, _, hp, hal, rfl⟩

/-- A call that is ready was planned, and its hook ran for it. -/
theorem planned_of_ready {env : Environment} {id : ModuleId} {arguments : List OutputId}
    {location : Option Location} {made : Made Ready} {c : Ready}
    (h : ready env g id factor arguments location = .ok made) (hc : made.result = .ok c) :
    Planned g c.signature factor arguments c.plan ∧ ∃ run, made.run = some run ∧
      run.signature = c.signature ∧ run.context.factor = factor ∧
      run.prepared.latency = c.hookLatency := by
  obtain ⟨m, run, -, hrun, hprepared⟩ := prepared_of_ready h hc
  obtain ⟨constant, shown, rfl, -⟩ := askPrepare_eq_ok hprepared.asked
  rw [hprepared.signature, hprepared.latency]
  exact ⟨plan_iff.1 hprepared.planned, _, hrun, rfl, rfl, rfl⟩

/-- The outputs of a call that vary are as late as the call. -/
theorem Result.aligned {p : CallPlan} {latency : Nat} {t : ParameterType} {port : OutputPort}
    (h : Result p factor latency t (port.type, port.latency))
    (hv : port.type.isConstant = false) : Aligned factor latency port := by
  cases hfix : p.fixes t.mutability with
  | true =>
    have hnone : port.type.factor = none := (h.constant (CallPlan.fixes_eq_true.1 hfix)).1
    simp [DataType.isConstant, hnone] at hv
  | false =>
    obtain ⟨hrate, hlat⟩ := h.varying (CallPlan.fixes_eq_false.1 hfix)
    refine ⟨t.factor, ?_, by rw [hrate, Option.getD_some], hlat⟩
    exact Nat.pos_of_mul_pos_right (h.sound.factor_pos hrate)

end Call

end SignalGraph
