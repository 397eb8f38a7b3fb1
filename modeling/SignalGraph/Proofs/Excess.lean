import SignalGraph.Proofs.Plans

/-!
# Numbers that calls outgrow

The rates and latencies of a call are products and sums, and each of them has to fit into 32 bits.
For each function on the way to a call there is an exact condition, in natural numbers, under which
it faults:

* an argument is checked against the product of two rates, if nothing before it was refused
  (`checkArgument_eq_error`, `RatesExceed`);
* latencies are only divided, so aligning them does not fault (`alignArguments_answers`);
* the latency of the arguments and that of the hook are added, and for each output that varies there
  are two products (`Ready.insert_eq_error`).

Together they say when building a call faults (`build_eq_error`).
-/

namespace SignalGraph

open SignalGraph.Graph

namespace Word

variable {a b : Nat} {fault : Fault}

theorem add_eq_error : add a b = .error fault ↔ fault = .addOverflow ∧ limit ≤ a + b := by
  unfold add
  split_ifs with h
  · simp [h]
  · simp [Nat.le_of_not_lt h, eq_comm]

theorem mul_eq_error : mul a b = .error fault ↔ fault = .mulOverflow ∧ limit ≤ a * b := by
  unfold mul
  split_ifs with h
  · simp [h]
  · simp [Nat.le_of_not_lt h, eq_comm]

end Word

/-! ## Rates of arguments -/

namespace Call

variable {g : Graph} {module : String} {factor callFactor index : Nat} {fault : Fault}

/-- An argument fits its parameter but perhaps for its rate, and the rate that it should have does
not fit into 32 bits. -/
structure RateExceeds (declared : ParameterType) (factor : Nat) (found : DataType) : Prop where
  primitive : found.primitive = some declared.primitive
  isArray : found.isArray = declared.isArray
  varies : found.isConstant = false
  mutability : declared.mutability ≠ .constant
  exceeds : Word.limit ≤ declared.factor * factor

theorem checkArgument_eq_error {declared : ParameterType} {found : DataType} :
    (checkArgument module factor index declared found).run = .error fault ↔
      fault = .mulOverflow ∧ RateExceeds declared factor found := by
  simp only [checkArgument]
  split
  · rename_i htype
    refine iff_of_false (by simp) fun h => ?_
    simp [h.2.primitive, h.2.isArray] at htype
  · rename_i htype
    rw [not_or, not_not, not_not] at htype
    split
    · rename_i hf
      refine iff_of_false (by simp) fun h => ?_
      simpa [DataType.isConstant, hf] using h.2.varies
    · rename_i u hf
      have hvaries : found.isConstant = false := by simp [DataType.isConstant, hf]
      split
      · rename_i hconst
        exact iff_of_false (by simp) fun h => h.2.mutability hconst
      · rename_i hconst
        rw [Outcome.bind_eq_error, Outcome.lift_eq_error, Word.mul_eq_error]
        constructor
        · rintro (⟨rfl, hle⟩ | ⟨expected, -, h⟩)
          · exact ⟨rfl, htype.1, htype.2, hvaries, hconst, hle⟩
          · split at h
            · cases h
            · cases h
        · rintro ⟨rfl, h⟩
          exact .inl ⟨rfl, h.exceeds⟩

/-- The arguments up to some place are accepted, and the one there exceeds. -/
inductive RatesExceed (g : Graph) (factor : Nat) : List (Parameter × OutputId) → Prop where
  | here {parameter : Parameter} {a : OutputId} {port : OutputPort}
    {rest : List (Parameter × OutputId)} (live : g.output? a = some port)
    (exceeds : RateExceeds parameter.type factor port.type) :
    RatesExceed g factor ((parameter, a) :: rest)
  | later {parameter : Parameter} {a : OutputId} {port : OutputPort}
    {rest : List (Parameter × OutputId)} (live : g.output? a = some port)
    (accepts : Accepts parameter.type factor port.type) (later : RatesExceed g factor rest) :
    RatesExceed g factor ((parameter, a) :: rest)

theorem checkArguments_eq_error {pairs : List (Parameter × OutputId)} (k : Nat)
    (hlive : ∀ q ∈ pairs, ∃ port, g.output? q.2 = some port) :
    (checkArguments g module factor (pairs.zipIdx k)).run = .error fault ↔
      fault = .mulOverflow ∧ RatesExceed g factor pairs := by
  induction pairs generalizing k with
  | nil => exact iff_of_false (by simp [checkArguments]) fun h => by cases h.2
  | cons q pairs ih =>
    obtain ⟨parameter, a⟩ := q
    obtain ⟨⟨port, hp⟩, hlive⟩ := List.forall_mem_cons.1 hlive
    simp only [List.zipIdx_cons, checkArguments, output_eq_ok.2 hp, Outcome.lift_ok_bind,
      Outcome.bind_eq_error, checkArgument_eq_error, ih (k + 1) hlive]
    constructor
    · rintro (⟨rfl, h⟩ | ⟨u, hu, ⟨rfl, h⟩ | ⟨others, -, h⟩⟩)
      · exact ⟨rfl, .here hp h⟩
      · exact ⟨rfl, .later hp (checkArgument_eq_ok.1 hu) h⟩
      · cases h
    · rintro ⟨rfl, h⟩
      cases h with
      | here live exceeds =>
        cases hp.symm.trans live
        exact .inl ⟨rfl, exceeds⟩
      | later live accepts later =>
        cases hp.symm.trans live
        exact .inr ⟨(), checkArgument_eq_ok.2 accepts, .inl ⟨rfl, later⟩⟩

/-! ## Latencies of arguments -/

/-- A port of this rate and this latency can be brought to the rate of a call, or it is found that
it cannot. -/
theorem toCallRate_answers (latency : Nat) (hf : 0 < factor) (hc : 0 < callFactor) :
    ∃ r, toCallRate latency factor callFactor = .ok r := by
  have hc' : callFactor ≠ 0 := Nat.ne_of_gt hc
  simp only [toCallRate, Word.rem, Word.div, if_neg hc', ok_bind]
  split
  · exact ⟨_, rfl⟩
  · rename_i hmod
    -- The rate is a multiple of the rate of the call, and not zero.
    have hratio : factor / callFactor ≠ 0 := by
      intro h0
      rw [Nat.div_eq_zero_iff_lt hc] at h0
      rw [Nat.mod_eq_of_lt h0] at hmod
      omega
    simp only [if_neg hratio, ok_bind]
    split
    · exact ⟨_, rfl⟩
    · exact ⟨_, rfl⟩

section Align

variable (ht : g.Typed) (hf : 0 < callFactor)

include ht hf

theorem alignPort_answers {common : Option Nat} {o : OutputId}
    (ho : ∃ port, g.output? o = some port) :
    ∃ r, (alignPort g module callFactor index common o).run = .ok r := by
  obtain ⟨port, hp⟩ := ho
  have hpos : 0 < port.type.factor.getD callFactor := by
    cases hu : port.type.factor with
    | none => exact hf
    | some u => exact (ht.output? hp).factor_pos hu
  obtain ⟨aligned, hal⟩ := toCallRate_answers port.latency hpos hf
  simp only [alignPort, output_eq_ok.2 hp, hal, Outcome.lift_ok_bind]
  split
  · exact ⟨_, rfl⟩
  · split
    · exact ⟨_, rfl⟩
    · split
      · exact ⟨_, rfl⟩
      · exact ⟨_, rfl⟩

theorem alignPorts_answers {l : List OutputId} (common : Option Nat)
    (hl : ∀ o ∈ l, ∃ port, g.output? o = some port) :
    ∃ r, (alignPorts g module callFactor index common l).run = .ok r := by
  induction l generalizing common with
  | nil => exact ⟨_, rfl⟩
  | cons o l ih =>
    obtain ⟨ho, hl⟩ := List.forall_mem_cons.1 hl
    exact Outcome.bind_answers (alignPort_answers ht hf ho) fun aligned _ => ih (some aligned) hl

/-- Latencies can be compared, whether or not they agree. -/
theorem alignArguments_answers (hg : g.Coherent) {l : List (OutputId × Nat)} (common : Option Nat)
    (hl : ∀ q ∈ l, ∃ port, g.output? q.1 = some port) :
    ∃ r, (alignArguments g module callFactor common l).run = .ok r := by
  induction l generalizing common with
  | nil => exact ⟨_, rfl⟩
  | cons q l ih =>
    obtain ⟨argument, index⟩ := q
    obtain ⟨⟨port, hp⟩, hl⟩ := List.forall_mem_cons.1 hl
    obtain ⟨ports, hports, hlive⟩ := hg.latePorts_live hp
    simp only [alignArguments, hports, Outcome.lift_ok_bind]
    exact Outcome.bind_answers (alignPorts_answers ht hf common hlive) fun common _ =>
      ih common hl

end Align

/-! ## Plans -/

/-- A call with a rate, with one argument for each in parameter, can be planned or is refused,
unless a rate exceeds. -/
theorem plan_eq_error {s : Signature} {arguments : List OutputId} (hg : g.Coherent) (ht : g.Typed)
    (hf : 0 < factor) (hlen : arguments.length = s.inputs.length)
    (hl : ∀ o ∈ arguments, ∃ port, g.output? o = some port) :
    (plan g s factor arguments).run = .error fault ↔
      fault = .mulOverflow ∧ RatesExceed g factor ((s.inputs.map Prod.fst).zip arguments) := by
  obtain ⟨r, hr⟩ : ∃ r, (alignArguments g s.name factor none arguments.zipIdx).run = .ok r :=
    alignArguments_answers ht hf hg none fun q hq => hl q.1 (List.fst_mem_of_mem_zipIdx hq)
  simp only [plan, Nat.ne_of_gt hf, hlen, if_false, ne_eq, not_true_eq_false]
  rw [Outcome.bind_eq_error,
    checkArguments_eq_error 0 fun q hq => hl q.2 (List.of_mem_zip hq).2]
  refine or_iff_left ?_
  rintro ⟨dependent, -, h⟩
  rcases Outcome.bind_eq_error.1 h with h | ⟨common, -, h⟩
  · cases hr.symm.trans h
  · cases h

/-! ## Outputs -/

/-- The rate or the latency of an output that varies does not fit into 32 bits. -/
structure ResultExceeds (p : CallPlan) (factor latency : Nat) (t : ParameterType) : Prop where
  varies : t.mutability = .varying ∨ t.mutability = .dependent ∧ p.dependentConstant = false
  exceeds : Word.limit ≤ t.factor * factor ∨ Word.limit ≤ latency * t.factor

/-- The rate of an output is positive, and a string that comes out is a constant. -/
theorem result_eq_error {p : CallPlan} {latency : Nat} {t : ParameterType} (hf : 0 < factor)
    (ht : t.factor ≠ 0) (hs : t.primitive = .string → t.mutability = .constant) :
    result p factor latency t = .error fault ↔
      fault = .mulOverflow ∧ ResultExceeds p factor latency t := by
  have harray (type : DataType) (late : Nat) (hp : type.primitive ≠ none) :
      (if t.isArray = true then do return (← type.toArray, late) else pure (type, late)) ≠
        (.error fault : Except Fault (DataType × Nat)) := by
    have harray := DataType.toArray_eq_ok.2 ⟨hp, rfl⟩
    split
    · simp [harray]
    · simp
  cases hfix : p.fixes t.mutability with
  | true =>
    refine iff_of_false (fun h => ?_) fun h => ?_
    · refine harray (.constant t.primitive) 0 (by simp [DataType.constant]) ?_
      rw [← h, result, if_pos hfix]
      split <;> rfl
    · cases hfix.symm.trans (CallPlan.fixes_eq_false.2 h.2.varies)
  | false =>
    have hvarying {rate : Nat} (hr : Word.mul t.factor factor = .ok rate) :
        DataType.varying t.primitive rate = .ok ⟨some t.primitive, some rate, false⟩ := by
      obtain ⟨-, rfl⟩ := Word.mul_eq_ok.1 hr
      refine DataType.varying_eq_ok.2 ⟨Nat.mul_ne_zero ht (Nat.ne_of_gt hf), fun h => ?_, rfl⟩
      simp [hs h, CallPlan.fixes] at hfix
    have hopen : result p factor latency t = .error fault ↔
        Word.mul t.factor factor = .error fault ∨ ∃ rate, Word.mul t.factor factor = .ok rate ∧
          (DataType.varying t.primitive rate = .error fault ∨
            ∃ type, DataType.varying t.primitive rate = .ok type ∧
              (Word.mul latency t.factor = .error fault ∨
                ∃ late, Word.mul latency t.factor = .ok late ∧
                  (if t.isArray = true then do return (← type.toArray, late)
                    else pure (type, late)) =
                      (.error fault : Except Fault (DataType × Nat)))) := by
      unfold result
      split <;> simp [bind_eq_error, *]
    rw [hopen]
    constructor
    · rintro (h | ⟨rate, hr, h | ⟨type, hvar, h | ⟨late, -, h⟩⟩⟩)
      · obtain ⟨rfl, hle⟩ := Word.mul_eq_error.1 h
        exact ⟨rfl, CallPlan.fixes_eq_false.1 hfix, .inl hle⟩
      · cases (hvarying hr).symm.trans h
      · obtain ⟨rfl, hle⟩ := Word.mul_eq_error.1 h
        exact ⟨rfl, CallPlan.fixes_eq_false.1 hfix, .inr hle⟩
      · cases (hvarying hr).symm.trans hvar
        exact absurd h (harray _ late (by simp))
    · rintro ⟨rfl, -, hle⟩
      by_cases hrate : t.factor * factor < Word.limit
      · have hr := Word.mul_eq_ok.2 ⟨hrate, rfl⟩
        have hlate := hle.resolve_left (Nat.not_le.2 hrate)
        exact .inr ⟨_, hr, .inr ⟨_, hvarying hr, .inl (Word.mul_eq_error.2 ⟨rfl, hlate⟩)⟩⟩
      · exact .inl (Word.mul_eq_error.2 ⟨rfl, Nat.le_of_not_lt hrate⟩)

theorem results_eq_error {p : CallPlan} {latency : Nat} {l : List (Parameter × Nat)}
    (hf : 0 < factor) (hl : ∀ q ∈ l, q.1.type.factor ≠ 0 ∧
      (q.1.type.primitive = .string → q.1.type.mutability = .constant)) :
    results p factor latency l = .error fault ↔
      fault = .mulOverflow ∧ ∃ q ∈ l, ResultExceeds p factor latency q.1.type := by
  induction l with
  | nil => simp [results]
  | cons q l ih =>
    obtain ⟨⟨hfac, hstr⟩, hl⟩ := List.forall_mem_cons.1 hl
    simp only [results, bind_eq_error, result_eq_error hf hfac hstr, ih hl, pure_eq_ok,
      reduceCtorEq, and_false, exists_false, or_false, List.exists_mem_cons_iff]
    constructor
    · rintro (⟨rfl, h⟩ | ⟨r, -, rfl, h⟩)
      · exact ⟨rfl, .inl h⟩
      · exact ⟨rfl, .inr h⟩
    · rintro ⟨rfl, h⟩
      -- The first output need not exceed, and then there is a result for it.
      cases hfirst : result p factor latency q.1.type with
      | error fault => exact .inl ⟨rfl, ((result_eq_error hf hfac hstr).1 hfirst).2⟩
      | ok r =>
        refine .inr ⟨r, rfl, rfl, h.resolve_left fun h => ?_⟩
        cases hfirst.symm.trans ((result_eq_error hf hfac hstr).2 ⟨rfl, h⟩)

end Call

namespace Signature

theorem checkParameters_eq_ok {l : List (Parameter × Nat)} (h : checkParameters l = .ok ()) :
    ∀ q ∈ l, q.1.type.factor ≠ 0 ∧
      (q.1.isInput = false → q.1.type.primitive = .string → q.1.type.mutability = .constant) := by
  induction l with
  | nil => simp
  | cons q l ih =>
    obtain ⟨p, index⟩ := q
    simp only [checkParameters] at h
    obtain ⟨u, hp, h⟩ := bind_eq_ok.1 h
    refine List.forall_mem_cons.2 ⟨?_, ih h⟩
    unfold checkParameter at hp
    split_ifs at hp with hf hs
    refine ⟨hf, fun hin hstr => ?_⟩
    by_contra hmut
    exact hs ⟨by simpa using hin, hstr, hmut⟩

/-- What the check says of the out parameters. -/
theorem outputs_of_validate {s : Signature} (h : s.validate = .ok ()) :
    ∀ q ∈ s.outputs, q.1.type.factor ≠ 0 ∧
      (q.1.type.primitive = .string → q.1.type.mutability = .constant) := by
  simp only [validate] at h
  split at h
  · cases h
  · obtain ⟨u, hp, -⟩ := bind_eq_ok.1 h
    intro q hq
    obtain ⟨hmem, hout⟩ := List.mem_filter.1 hq
    obtain ⟨hf, hs⟩ := checkParameters_eq_ok hp q hmem
    exact ⟨hf, hs (by simpa using hout)⟩

end Signature

/-! ## Calls -/

namespace Call

variable {env : Environment} {g : Graph} {m : Module} {module : ModuleId} {factor : Nat}
  {arguments : List OutputId} {location : Option Location} {fault : Fault}

/-- A call that is ready outgrows 32 bits when it is inserted. -/
inductive Ready.Exceeds (c : Ready) (factor : Nat) : Fault → Prop where
  | latency (exceeds : Word.limit ≤ c.plan.inputLatency + c.hookLatency) :
    Exceeds c factor .addOverflow
  | result {q : Parameter × Nat} (fits : c.plan.inputLatency + c.hookLatency < Word.limit)
    (mem : q ∈ c.signature.outputs)
    (exceeds : ResultExceeds c.plan factor (c.plan.inputLatency + c.hookLatency) q.1.type) :
    Exceeds c factor .mulOverflow

theorem Ready.insert_eq_error {c : Ready} (hg : g.Coherent) (hf : 0 < factor)
    (hs : c.signature.validate = .ok ())
    (hl : ∀ o ∈ arguments, ∃ port, g.output? o = some port) :
    c.insert g factor arguments location = .error fault ↔ c.Exceeds factor fault := by
  have hinsert (latency : Nat) (results : List (DataType × Nat)) :
      g.insert (.call c.signature factor latency) location arguments results ≠ .error fault := by
    obtain ⟨g', hi, -⟩ := insert_spec hg (.call c.signature factor latency) location results hl
    simp [hi]
  simp only [Ready.insert, bind_eq_error, Word.add_eq_error, Word.add_eq_ok,
    results_eq_error hf (Signature.outputs_of_validate hs), hinsert, and_false, exists_false,
    or_false]
  constructor
  · rintro (⟨rfl, hle⟩ | ⟨latency, ⟨hlt, rfl⟩, rfl, q, hq, h⟩)
    · exact .latency hle
    · exact .result hlt hq h
  · intro h
    cases h with
    | latency exceeds => exact .inl ⟨rfl, exceeds⟩
    | result fits mem exceeds => exact .inr ⟨_, ⟨fits, rfl⟩, rfl, _, mem, exceeds⟩

theorem Ready.Exceeds.isOverflow {c : Ready} (h : c.Exceeds factor fault) :
    fault.isOverflow = true := by
  cases h with
  | latency => rfl
  | result => rfl

/-- A call outgrows 32 bits: while its arguments are checked, or when it is inserted after it was
planned and its hook reported no error. -/
inductive Overflows (env : Environment) (g : Graph) (m : Module) (factor : Nat)
    (arguments : List OutputId) (location : Option Location) : Fault → Prop where
  | rate (exceed : RatesExceed g factor ((m.signature.inputs.map Prod.fst).zip arguments)) :
    Overflows env g m factor arguments location .mulOverflow
  | insertion {p : CallPlan} {run : Preparation} {fault : Fault}
    (planned : Planned g m.signature factor arguments p)
    (prepared : run = prepare env.settings g m p factor arguments location)
    (quiet : Diagnostic.errorCount run.prepared.diagnostics = 0)
    (exceeds : Ready.Exceeds ⟨m.signature, p, run.prepared.latency⟩ factor fault) :
    Overflows env g m factor arguments location fault

theorem Overflows.isOverflow (h : Overflows env g m factor arguments location fault) :
    fault.isOverflow = true := by
  cases h with
  | rate => rfl
  | insertion _ _ _ exceeds => exact exceeds.isOverflow

section Build

variable (hm : env.registry.module? module = some m) (hg : g.Coherent) (ht : g.Typed)
  (hf : 0 < factor) (hlen : arguments.length = m.signature.inputs.length)
  (hl : ∀ o ∈ arguments, ∃ port, g.output? o = some port)

include hm hg ht hf hlen hl

theorem ready_eq_error : ready env g module factor arguments location = .error fault ↔
    fault = .mulOverflow ∧
      RatesExceed g factor ((m.signature.inputs.map Prod.fst).zip arguments) := by
  rw [← plan_eq_error hg ht hf hlen hl]
  simp only [ready, hm, bind_eq_error]
  refine or_iff_left ?_
  rintro ⟨r, -, h⟩
  cases r with
  | error e => cases h
  | ok p =>
    simp only [hg.askPrepare_eq hl, ok_bind] at h
    split at h
    · cases h
    · cases h

/-- Building a call of a registered module on live arguments faults just if it overflows. -/
theorem build_eq_error (hr : env.registry.Reached) :
    build env g module factor arguments location = .error fault ↔
      Overflows env g m factor arguments location fault := by
  have hs := (hr.of_module? hm).2
  simp only [build, ready, hm, bind_assoc, hg.askPrepare_eq hl, ok_bind]
  rw [bind_eq_error, plan_eq_error hg ht hf hlen hl]
  constructor
  · rintro (⟨rfl, h⟩ | ⟨r, hplan, h⟩)
    · exact .rate h
    · cases r with
      | error e => cases h
      | ok p =>
        dsimp only at h
        split at h
        · cases h
        · rename_i herrors
          rw [pure_eq_ok, ok_bind] at h
          rcases bind_eq_error.1 h with h | ⟨placed, -, h⟩
          · exact .insertion (plan_iff.1 hplan) rfl (Nat.eq_zero_of_not_pos herrors)
              ((Ready.insert_eq_error hg hf hs hl).1 h)
          · cases h
  · intro h
    cases h with
    | rate exceed => exact .inl ⟨rfl, exceed⟩
    | @insertion p run fault planned prepared quiet exceeds =>
      subst prepared
      have hinsert : Ready.insert _ g factor arguments location = .error fault :=
        (Ready.insert_eq_error hg hf hs hl).2 exceeds
      refine .inr ⟨.ok p, plan_iff.2 planned, ?_⟩
      dsimp only
      rw [if_neg (Nat.not_lt.2 (Nat.le_of_eq quiet))]
      simp only [pure_eq_ok, ok_bind, hinsert, error_bind]

end Build

end Call

end SignalGraph
