import Mathlib
import SignalGraph.Fault

/-!
# Answers and faults

What a computation did that came to an answer: `bind_eq_ok` for one that can fault, and
`Outcome.bind_eq_ok` for one that can also refuse. Both give the answers of the parts. If it faulted
instead, a part did, after those before it came to answers (`bind_eq_error`,
`Outcome.bind_eq_error`).

Where no element of a list faults, going through the list does not either (`mapM_ok`, `allM_ok`,
`filterMapM_ok`).
-/

namespace SignalGraph

variable {ε α β : Type}

theorem bind_eq_ok {x : Except ε α} {f : α → Except ε β} {b : β} :
    x >>= f = .ok b ↔ ∃ a, x = .ok a ∧ f a = .ok b := by
  cases x with
  | error e => simp [bind, Except.bind]
  | ok a => simp [bind, Except.bind]

theorem bind_eq_error {x : Except ε α} {f : α → Except ε β} {e : ε} :
    x >>= f = .error e ↔ x = .error e ∨ ∃ a, x = .ok a ∧ f a = .error e := by
  cases x with
  | error e => simp [bind, Except.bind]
  | ok a => simp [bind, Except.bind]

@[simp] theorem ok_bind {a : α} {f : α → Except ε β} : (Except.ok a >>= f) = f a := rfl

@[simp] theorem error_bind {e : ε} {f : α → Except ε β} : (Except.error e >>= f) = .error e := rfl

@[simp] theorem throw_eq_error {e : ε} : (throw e : Except ε α) = .error e := rfl

@[simp] theorem pure_eq_ok {a : α} : (pure a : Except ε α) = .ok a := rfl

theorem map_eq_ok {x : Except ε α} {f : α → β} {b : β} :
    x.map f = .ok b ↔ ∃ a, x = .ok a ∧ f a = b := by
  cases x with
  | error e => simp [Except.map]
  | ok a => simp [Except.map]

/-! ## Lists -/

/-- Every element has an answer, which a partial function gives too. -/
theorem mapM_ok_filterMap {l : List α} {f : α → Except ε β} {q : α → Option β}
    (h : ∀ a ∈ l, ∃ b, f a = .ok b ∧ q a = some b) : l.mapM f = .ok (l.filterMap q) := by
  induction l with
  | nil => rfl
  | cons a l ih =>
    obtain ⟨⟨b, hf, hq⟩, hl⟩ := List.forall_mem_cons.1 h
    rw [List.mapM_cons, hf, ok_bind, ih hl, ok_bind, List.filterMap_cons_some hq]
    rfl

theorem mapM_ok {l : List α} {f : α → Except ε β} {q : α → β} (h : ∀ a ∈ l, f a = .ok (q a)) :
    l.mapM f = .ok (l.map q) := by
  rw [mapM_ok_filterMap (q := fun a => some (q a)) fun a ha => ⟨q a, h a ha, rfl⟩,
    List.filterMap_eq_map']

/-- What is known of every answer, of all answers. -/
theorem map_of_mapM {γ : Type} {l : List α} {r : List β} {f : α → Except ε β} {k : β → γ}
    {q : α → γ} (hf : ∀ a b, f a = .ok b → k b = q a) (h : l.mapM f = .ok r) :
    r.map k = l.map q := by
  induction l generalizing r with
  | nil =>
    cases h
    rfl
  | cons a l ih =>
    rw [List.mapM_cons] at h
    obtain ⟨b, hb, h⟩ := bind_eq_ok.1 h
    obtain ⟨bs, hbs, h⟩ := bind_eq_ok.1 h
    cases h
    rw [List.map_cons, List.map_cons, hf a b hb, ih hbs]

theorem filterMapM_ok {l : List α} {f : α → Except ε (Option β)} {q : α → Option β}
    (h : ∀ a ∈ l, f a = .ok (q a)) : l.filterMapM f = .ok (l.filterMap q) := by
  induction l with
  | nil => rfl
  | cons a l ih =>
    obtain ⟨ha, hl⟩ := List.forall_mem_cons.1 h
    rw [List.filterMapM_cons, ha, ok_bind, List.filterMap_cons]
    cases q a with
    | none => exact ih hl
    | some b => simp only [ih hl, ok_bind, pure_eq_ok]

theorem filterMapM_congr {l : List α} {f f' : α → Except ε (Option β)}
    (h : ∀ a ∈ l, f a = f' a) : l.filterMapM f = l.filterMapM f' := by
  induction l with
  | nil => rfl
  | cons a l ih =>
    obtain ⟨ha, hl⟩ := List.forall_mem_cons.1 h
    rw [List.filterMapM_cons, List.filterMapM_cons, ha, ih hl]

theorem allM_ok {l : List α} {f : α → Except ε Bool} {q : α → Bool}
    (h : ∀ a ∈ l, f a = .ok (q a)) : l.allM f = .ok (l.all q) := by
  induction l with
  | nil => rfl
  | cons a l ih =>
    obtain ⟨ha, hl⟩ := List.forall_mem_cons.1 h
    rw [List.allM_cons, ha, ok_bind, List.all_cons]
    cases q a with
    | false => rfl
    | true => exact ih hl

/-! ## Answers that may be none -/

@[simp] theorem optionT_lift_ok_bind {a : α} {f : α → OptionT (Except ε) β} :
    ((liftM (Except.ok a : Except ε α) : OptionT (Except ε) α) >>= f) = f a := rfl

theorem optionT_bind_ok {x : OptionT (Except ε) α} {f : α → OptionT (Except ε) β} {a? : Option α}
    {q : α → Option β} (hx : x.run = .ok a?) (hf : ∀ a, a? = some a → (f a).run = .ok (q a)) :
    (x >>= f).run = .ok (a?.bind q) := by
  rw [OptionT.run_bind, hx]
  cases a? with
  | none => rfl
  | some a => exact hf a rfl

theorem optionT_mapM_ok {l : List α} {f : α → OptionT (Except ε) β} {q : α → Option β}
    (h : ∀ a ∈ l, (f a).run = .ok (q a)) : (l.mapM f).run = .ok (l.mapM q) := by
  induction l with
  | nil => rfl
  | cons a l ih =>
    obtain ⟨ha, hl⟩ := List.forall_mem_cons.1 h
    rw [List.mapM_cons, List.mapM_cons]
    exact optionT_bind_ok ha fun _ _ => optionT_bind_ok (ih hl) fun _ _ => rfl

namespace Outcome

@[simp] theorem lift_ok_bind {a : α} {f : α → Outcome ε β} :
    ((liftM (Except.ok a : Except Fault α) : Outcome ε α) >>= f) = f a := rfl

theorem bind_eq_ok {x : Outcome ε α} {f : α → Outcome ε β} {b : β} :
    (x >>= f).run = .ok (.ok b) ↔ ∃ a, x.run = .ok (.ok a) ∧ (f a).run = .ok (.ok b) := by
  simp only [ExceptT.run_bind, SignalGraph.bind_eq_ok]
  constructor
  · rintro ⟨a | a, hx, hf⟩
    · simp at hf
    · exact ⟨a, hx, hf⟩
  · rintro ⟨a, hx, hf⟩
    exact ⟨.ok a, hx, hf⟩

theorem bind_eq_error {x : Outcome ε α} {f : α → Outcome ε β} {fault : Fault} :
    (x >>= f).run = .error fault ↔
      x.run = .error fault ∨ ∃ a, x.run = .ok (.ok a) ∧ (f a).run = .error fault := by
  simp only [ExceptT.run_bind, SignalGraph.bind_eq_error]
  refine or_congr_right ⟨?_, ?_⟩
  · rintro ⟨a | a, hx, hf⟩
    · simp at hf
    · exact ⟨a, hx, hf⟩
  · rintro ⟨a, hx, hf⟩
    exact ⟨.ok a, hx, hf⟩

theorem bind_answers {x : Outcome ε α} {f : α → Outcome ε β} (hx : ∃ r, x.run = .ok r)
    (hf : ∀ a, x.run = .ok (.ok a) → ∃ r, (f a).run = .ok r) : ∃ r, (x >>= f).run = .ok r := by
  obtain ⟨e | a, hr⟩ := hx
  · exact ⟨.error e, by simp [ExceptT.run_bind, hr]⟩
  · obtain ⟨r, hfa⟩ := hf a hr
    exact ⟨r, by simp [ExceptT.run_bind, hr, hfa]⟩

theorem lift_eq_ok {x : Except Fault α} {a : α} :
    (liftM x : Outcome ε α).run = .ok (.ok a) ↔ x = .ok a := by
  cases x with
  | error e =>
    simp [liftM, monadLift, MonadLift.monadLift, ExceptT.lift, Functor.map, Except.map, ExceptT.run,
      ExceptT.mk]
  | ok a =>
    simp [liftM, monadLift, MonadLift.monadLift, ExceptT.lift, Functor.map, Except.map, ExceptT.run,
      ExceptT.mk]

theorem lift_answers {x : Except Fault α} (h : ∃ a, x = .ok a) :
    ∃ r, (liftM x : Outcome ε α).run = .ok r := by
  obtain ⟨a, ha⟩ := h
  exact ⟨.ok a, lift_eq_ok.2 ha⟩

theorem lift_eq_error {x : Except Fault α} {fault : Fault} :
    (liftM x : Outcome ε α).run = .error fault ↔ x = .error fault := by
  cases x with
  | error e =>
    simp [liftM, monadLift, MonadLift.monadLift, ExceptT.lift, Functor.map, Except.map, ExceptT.run,
      ExceptT.mk]
  | ok a =>
    simp [liftM, monadLift, MonadLift.monadLift, ExceptT.lift, Functor.map, Except.map, ExceptT.run,
      ExceptT.mk]

end Outcome

end SignalGraph
