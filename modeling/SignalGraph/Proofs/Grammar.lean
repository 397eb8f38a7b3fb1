import SignalGraph.Proofs.Matching
import SignalGraph.Proofs.Precedence

/-!
# The grammar of rules

What a rule may look like, said without counting: `Shaped` says where each part of a pattern may
stand, and `Resolved` that a reference is to a slot that was bound before it. The check counts slots
while it goes through a pattern; that both agree is `check_iff`, by induction on the pattern, with
the listed children of a call as a list of their own (`checkChildren_iff`).

A list of rules makes a rule set exactly if the names are different and every rule is in the grammar
(`RuleSet.make_accepts_iff`).
-/

namespace SignalGraph

/-- How many slots these parts of a pattern bind: one for each wildcard of an input pattern. -/
def Side.binds (side : Side) (l : List Pattern) : Nat :=
  match side with
  | .input => l.countP Pattern.isWildcard
  | .output => 0

namespace Pattern

/-- What the children of a call list: one child for each parameter or, in an input pattern, children
for some of the first parameters and a mark that ends the list. -/
def Extent (side : Side) (s : Signature) (listed children : List Pattern) : Prop :=
  listed.length = s.parameters.length ∧ children = listed ∨
    side = .input ∧ listed.length ≤ s.parameters.length ∧ children = listed ++ [.ellipsis]

/-- A pattern that may stand where a value is, but for the slots it refers to. -/
inductive Shaped (registry : Registry) (side : Side) : Pattern → Prop where
  /-- A call of a registered module at a positive rate, of which an out parameter is followed. That
  parameter alone is marked, other out parameters have plain wildcards, and in parameters values. -/
  | call {module : ModuleId} {factor place : Nat} {children listed : List Pattern} {s : Signature}
    (lookup : registry.lookup module = some s) (factor_pos : 0 < factor)
    (out : ∃ p : Parameter, s.parameters[place]? = some p ∧ p.isInput = false)
    (extent : Extent side s listed children)
    (marked : ∀ i : Nat, listed[i]? = some .result ↔ i = place)
    (siblings : ∀ (i : Nat) (c : Pattern) (p : Parameter), i ≠ place → listed[i]? = some c →
      s.parameters[i]? = some p → p.isInput = false → c = .wildcard false)
    (arguments : ∀ (i : Nat) (c : Pattern) (p : Parameter), listed[i]? = some c →
      s.parameters[i]? = some p → p.isInput = true → Shaped registry side c) :
    Shaped registry side (.call module factor place children)
  | literal (value : Literal) : Shaped registry side (.literal value)
  | array {elements : List Pattern} (nonempty : side = .output → elements ≠ [])
    (values : ∀ e ∈ elements, Shaped registry side e) : Shaped registry side (.array elements)
  | wildcard (constant : Bool) (input : side = .input) : Shaped registry side (.wildcard constant)
  | slot (index : Nat) : Shaped registry side (.slot index)

/-- Every reference among these parts is to one of `bound` slots, or to a slot that parts before it
bind. -/
def Resolved (side : Side) (bound : Nat) (l : List Pattern) : Prop :=
  ∀ before k after, l = before ++ .slot k :: after → k < bound + side.binds before

end Pattern

/-- A rule that the grammar allows. References of the input pattern are to wildcards before them,
those of the alternatives to any wildcard of the input pattern. -/
structure Rule.Grammatical (registry : Registry) (r : Rule) : Prop where
  root : r.input.isCall = true
  alternatives : r.outputs ≠ []
  input : r.input.Shaped registry .input
  input_slots (before : List Pattern) (k : Nat) (after : List Pattern)
    (h : r.input.parts = before ++ .slot k :: after) : k < before.countP Pattern.isWildcard
  outputs (p : Pattern) (hp : p ∈ r.outputs) : p.Shaped registry .output
  output_slots (p : Pattern) (hp : p ∈ r.outputs) (k : Nat) (hk : .slot k ∈ p.parts) :
    k < r.input.slotCount

/-! ## Slots -/

namespace Pattern

variable {registry : Registry} {side : Side} {bound bound' : Nat} {l l' : List Pattern}

@[simp] theorem binds_nil (side : Side) : side.binds [] = 0 := by
  cases side <;> rfl

theorem binds_append (side : Side) (l l' : List Pattern) :
    side.binds (l ++ l') = side.binds l + side.binds l' := by
  cases side <;> simp [Side.binds]

theorem binds_cons {p : Pattern} (hp : p.isWildcard = false) :
    side.binds (p :: l) = side.binds l := by
  cases side <;> simp [Side.binds, hp]

theorem binds_wildcard (constant : Bool) :
    side.binds [.wildcard constant] = if side = .input then 1 else 0 := by
  cases side <;> rfl

@[simp] theorem resolved_nil : Resolved side bound [] := by
  intro before k after h
  simp at h

theorem resolved_append :
    Resolved side bound (l ++ l') ↔
      Resolved side bound l ∧ Resolved side (bound + side.binds l) l' := by
  constructor
  · intro h
    refine ⟨fun before k after hl => h before k (after ++ l') (by simp [hl]), ?_⟩
    intro before k after hl
    have hk := h (l ++ before) k after (by simp [hl])
    rwa [binds_append, ← Nat.add_assoc] at hk
  · rintro ⟨h, h'⟩ before k after hl
    obtain ⟨mid, rfl, hl'⟩ | ⟨mid, rfl, hl'⟩ := List.append_eq_append_iff.1 hl
    · have hk := h' mid k after hl'
      rwa [Nat.add_assoc, ← binds_append] at hk
    · cases mid with
      | nil =>
        have hk := h' [] k after hl'.symm
        simpa using hk
      | cons p mid =>
        rw [List.cons_append, List.cons.injEq] at hl'
        obtain ⟨rfl, -⟩ := hl'
        exact h before k mid rfl

theorem resolved_singleton {p : Pattern} (hp : ∀ k, p ≠ .slot k) : Resolved side bound [p] := by
  intro before k after h
  obtain ⟨rfl, h⟩ | ⟨rest, rfl, h⟩ := List.cons_eq_append_iff.1 h
  · exact absurd (List.cons.inj h).1 (hp k)
  · simp at h

/-- A part that is neither a reference nor a wildcard does not matter. -/
theorem resolved_cons {p : Pattern} (hp : ∀ k, p ≠ .slot k) (hw : p.isWildcard = false) :
    Resolved side bound (p :: l) ↔ Resolved side bound l := by
  rw [← List.singleton_append, resolved_append, and_iff_right (resolved_singleton hp),
    binds_cons hw, binds_nil, Nat.add_zero]

theorem resolved_slot {k : Nat} : Resolved side bound [.slot k] ↔ k < bound := by
  constructor
  · intro h
    simpa using h [] k [] rfl
  · intro hk before j after h
    obtain ⟨rfl, h⟩ | ⟨rest, -, h⟩ := List.cons_eq_append_iff.1 h
    · obtain ⟨⟨rfl⟩, -⟩ := List.cons.inj h
      simpa using hk
    · simp at h

theorem resolved_output :
    Resolved .output bound l ↔ ∀ k, .slot k ∈ l → k < bound := by
  constructor
  · intro h k hk
    obtain ⟨before, after, rfl⟩ := List.mem_iff_append.1 hk
    exact h before k after rfl
  · rintro h before k after rfl
    exact h k (by simp)

theorem partsAll_append (l l' : List Pattern) : partsAll (l ++ l') = partsAll l ++ partsAll l' := by
  induction l with
  | nil => rfl
  | cons p l ih => simp [partsAll, ih]

/-! ## The head of a call -/

/-- The children that are listed: those before the first mark that ends the list. -/
def front (children : List Pattern) : List Pattern :=
  children.takeWhile fun c => !c.isEllipsis

theorem front_cons {c : Pattern} {cs : List Pattern} (h : c.isEllipsis = false) :
    front (c :: cs) = c :: front cs := by
  simp [front, h]

theorem front_eq_nil {c : Pattern} {cs : List Pattern} (h : c.isEllipsis = true) :
    front (c :: cs) = [] := by
  simp [front, h]

theorem length_front (children : List Pattern) : (front children).length = listed children := by
  induction children with
  | nil => rfl
  | cons c children ih =>
    cases hc : c.isEllipsis with
    | true => simp [front_eq_nil hc, listed, List.findIdx?_cons, hc]
    | false =>
      rw [front_cons hc, List.length_cons, ih]
      simp only [listed, List.findIdx?_cons, hc, Bool.false_eq_true, if_false, List.length_cons]
      cases children.findIdx? isEllipsis <;> rfl

theorem front_cases (children : List Pattern) :
    front children = children ∨ ∃ rest, children = front children ++ .ellipsis :: rest := by
  induction children with
  | nil => exact .inl rfl
  | cons c children ih =>
    cases hc : c.isEllipsis with
    | true =>
      have he : c = .ellipsis := by cases c <;> simp_all [isEllipsis]
      exact .inr ⟨children, by rw [front_eq_nil hc, he, List.nil_append]⟩
    | false =>
      rw [front_cons hc]
      rcases ih with ih | ⟨rest, ih⟩
      · exact .inl (by rw [ih])
      · exact .inr ⟨rest, by rw [List.cons_append, ← ih]⟩

theorem Extent.front_eq {s : Signature} {children : List Pattern} (h : Extent side s l children)
    (hl : ∀ c ∈ l, c.isEllipsis = false) : front children = l := by
  have htake : ∀ c ∈ l, (!c.isEllipsis) = true := fun c hc => by simp [hl c hc]
  rcases h with ⟨-, rfl⟩ | ⟨-, -, rfl⟩
  · exact List.takeWhile_eq_self_iff.2 htake
  · rw [front, List.takeWhile_append_of_pos htake]
    simp [isEllipsis]

theorem Extent.length_le {s : Signature} {children : List Pattern} (h : Extent side s l children) :
    l.length ≤ s.parameters.length := by
  rcases h with ⟨hlen, -⟩ | ⟨-, hlen, -⟩
  · exact hlen.le
  · exact hlen

theorem extent_front {s : Signature} {children : List Pattern} :
    Extent side s (front children) children ↔
      if listed children < children.length then
        side = .input ∧ listed children + 1 = children.length ∧
          listed children ≤ s.parameters.length
      else children.length = s.parameters.length := by
  rw [← length_front, Extent]
  rcases front_cases children with h | ⟨rest, h⟩
  · simp [h]
  · have hlen := congrArg List.length h
    rw [List.length_append, List.length_cons] at hlen
    have hne : children ≠ front children := fun he => by
      have hsame := congrArg List.length he
      omega
    have hrest : children = front children ++ [.ellipsis] ↔
        (front children).length + 1 = children.length := by
      constructor
      · intro he
        simpa using (congrArg List.length he).symm
      · intro he
        have hnil : rest = [] := List.length_eq_zero_iff.1 (by omega)
        rw [hnil] at h
        exact h
    rw [if_pos (by omega), hrest]
    tauto

/-- The head of a call passes if its module, its rate and its result are right, and its children are
listed as far as they have to. -/
theorem checkHead_iff {module : ModuleId} {factor place : Nat} {children : List Pattern}
    {s : Signature} :
    checkHead registry side module factor place children = .ok s ↔
      registry.lookup module = some s ∧ 0 < factor ∧
        (∃ p : Parameter, s.parameters[place]? = some p ∧ p.isInput = false) ∧
        Extent side s (front children) children ∧ place < (front children).length := by
  rw [extent_front, length_front]
  unfold checkHead
  cases registry.lookup module with
  | none => simp
  | some s' =>
    by_cases hf : factor = 0
    · simp [hf]
    · cases hp : s'.parameters[place]? with
      | none =>
        simp only [hf, if_false, hp, throw_eq_error, error_bind, reduceCtorEq, Option.some.injEq,
          false_iff]
        rintro ⟨rfl, -, ⟨p, hp', -⟩, -⟩
        cases hp.symm.trans hp'
      | some p =>
        by_cases hin : p.isInput = true
        · simp only [hf, if_false, hp, hin, if_true, throw_eq_error, error_bind, reduceCtorEq,
            Option.some.injEq, false_iff]
          rintro ⟨rfl, -, ⟨p', hp', hout⟩, -⟩
          obtain rfl := Option.some.inj (hp.symm.trans hp')
          cases hin.symm.trans hout
        · have hlisted : (children.findIdx? isEllipsis).getD children.length = listed children :=
            rfl
          have hout : ∃ p : Parameter, s'.parameters[place]? = some p ∧ p.isInput = false :=
            ⟨p, hp, Bool.eq_false_iff.2 hin⟩
          have hguard (fits : Bool) : ((if (!fits) = true then
              .error (.childCount s'.name s'.parameters.length children.length)
              else if listed children ≤ place then .error (.misplacedResult s'.name place)
              else .ok s' : Except PatternError Signature) = .ok s) ↔
                s' = s ∧ fits = true ∧ place < listed children := by
            by_cases hplace : listed children ≤ place
            · cases fits <;> simp [hplace]
            · cases fits <;> simp [hplace, Nat.lt_of_not_le hplace]
          simp only [hf, if_false, hp, hin, Option.some.injEq, throw_eq_error, error_bind, hlisted,
            Bool.false_eq_true, pure_eq_ok, hguard]
          constructor
          · rintro ⟨rfl, hfits, hplace⟩
            refine ⟨rfl, Nat.pos_of_ne_zero hf, hout, ?_, hplace⟩
            split at hfits <;> simp_all
          · rintro ⟨rfl, -, -, hfits, hplace⟩
            refine ⟨rfl, ?_, hplace⟩
            split at hfits <;> simp_all

/-! ## Children and elements -/

/-- A listed child at its place: the mark at the parameter that is followed, a value at an in
parameter, and a plain wildcard at another out parameter. -/
def Child (registry : Registry) (side : Side) (s : Signature) (place i : Nat) (c : Pattern) :
    Prop :=
  if i = place then c = .result
  else if (s.parameters[i]?).any Parameter.isInput then c.Shaped registry side
  else c = .wildcard false

variable {s : Signature} {place index : Nat} {c : Pattern} {cs : List Pattern}

theorem Child.not_ellipsis (h : Child registry side s place index c) : c.isEllipsis = false := by
  unfold Child at h
  split at h
  · rw [h]
    rfl
  · split at h
    · cases h <;> rfl
    · rw [h]
      rfl

/-- The children that a call lists are right if each is at its place, and they reach the parameter
that is followed. -/
theorem child_iff {listed : List Pattern} (hlen : listed.length ≤ s.parameters.length)
    (hout : ∃ p : Parameter, s.parameters[place]? = some p ∧ p.isInput = false) :
    (place < listed.length ∧
        ∀ i c, listed[i]? = some c → Child registry side s place i c) ↔
      (∀ i : Nat, listed[i]? = some .result ↔ i = place) ∧
      (∀ (i : Nat) (c : Pattern) (p : Parameter), i ≠ place → listed[i]? = some c →
        s.parameters[i]? = some p → p.isInput = false → c = .wildcard false) ∧
      ∀ (i : Nat) (c : Pattern) (p : Parameter), listed[i]? = some c →
        s.parameters[i]? = some p → p.isInput = true → c.Shaped registry side := by
  constructor
  · rintro ⟨hplace, hchild⟩
    refine ⟨fun i => ⟨fun hi => ?_, ?_⟩, fun i c p hne hi hp hin => ?_, fun i c p hi hp hin => ?_⟩
    · by_contra hne
      have hc := hchild i _ hi
      rw [Child, if_neg hne] at hc
      split at hc <;> cases hc
    · rintro rfl
      have hc := hchild i _ (List.getElem?_eq_getElem hplace)
      rw [Child, if_pos rfl] at hc
      rw [List.getElem?_eq_getElem hplace, hc]
    · have hc := hchild i c hi
      rwa [Child, if_neg hne, if_neg (by simp [hp, hin])] at hc
    · have hne : i ≠ place := by
        rintro rfl
        obtain ⟨p', hp', hout⟩ := hout
        obtain rfl := Option.some.inj (hp.symm.trans hp')
        cases hin.symm.trans hout
      have hc := hchild i c hi
      rwa [Child, if_neg hne, if_pos (by simp [hp, hin])] at hc
  · rintro ⟨hmark, hsib, harg⟩
    refine ⟨(List.getElem?_eq_some_iff.1 ((hmark place).2 rfl)).1, fun i c hi => ?_⟩
    have hlt : i < s.parameters.length :=
      Nat.lt_of_lt_of_le (List.getElem?_eq_some_iff.1 hi).1 hlen
    have hp := List.getElem?_eq_getElem hlt
    unfold Child
    split
    · rename_i he
      exact Option.some.inj (hi.symm.trans ((hmark i).2 he))
    · rename_i hne
      split
      · rename_i hin
        exact harg i c _ hi hp (by simpa [hp] using hin)
      · rename_i hin
        exact hsib i c _ hne hi hp (by simpa [hp] using hin)

theorem shaped_call_iff {module : ModuleId} {factor : Nat} {children : List Pattern} :
    Shaped registry side (.call module factor place children) ↔
      ∃ s, checkHead registry side module factor place children = .ok s ∧
        ∀ i c, (front children)[i]? = some c → Child registry side s place i c := by
  constructor
  · rintro (@⟨_, _, _, _, listed, s, hl, hf, hout, hext, hmark, hsib, harg⟩)
    obtain ⟨hplace, hchild⟩ := (child_iff hext.length_le hout).2 ⟨hmark, hsib, harg⟩
    have hfront : front children = listed := by
      refine hext.front_eq fun c hc => ?_
      obtain ⟨i, hi⟩ := List.mem_iff_getElem?.1 hc
      exact (hchild i c hi).not_ellipsis
    refine ⟨s, checkHead_iff.2 ⟨hl, hf, hout, ?_⟩, ?_⟩
    · rw [hfront]
      exact ⟨hext, hplace⟩
    · rw [hfront]
      exact hchild
  · rintro ⟨s, hhead, hchild⟩
    obtain ⟨hl, hf, hout, hext, hplace⟩ := checkHead_iff.1 hhead
    obtain ⟨hmark, hsib, harg⟩ := (child_iff hext.length_le hout).1 ⟨hplace, hchild⟩
    exact .call hl hf hout hext hmark hsib harg

/-- What the check of a listed child comes to. -/
theorem checkChildren_cons_iff (he : c.isEllipsis = false) :
    checkChildren registry side s place index bound (c :: cs) = .ok bound' ↔
      if index = place then
        c = .result ∧ checkChildren registry side s place (index + 1) bound cs = .ok bound'
      else if (s.parameters[index]?).any Parameter.isInput then
        ∃ bound₁, check registry side bound c = .ok bound₁ ∧
          checkChildren registry side s place (index + 1) bound₁ cs = .ok bound'
      else c = .wildcard false ∧
        checkChildren registry side s place (index + 1) (bound + side.binds [c]) cs
          = .ok bound' := by
  constructor
  · intro h
    have hbinds : (if side = .input then bound + 1 else bound) =
        bound + side.binds [.wildcard false] := by
      cases side <;> rfl
    rcases checkChildren_cons h with ⟨he', -⟩ | ⟨-, ⟨hi, hr, hcs⟩ | ⟨hi, hin, hc⟩ |
      ⟨hi, hin, hw, hcs⟩⟩
    · cases he.symm.trans he'
    · rw [if_pos hi]
      exact ⟨hr, hcs⟩
    · rw [if_neg hi, if_pos hin]
      exact hc
    · rw [if_neg hi, if_neg hin]
      rw [hbinds, ← hw] at hcs
      exact ⟨hw, hcs⟩
  · intro h
    split at h
    · rename_i hi
      obtain ⟨rfl, hcs⟩ := h
      simpa [checkChildren, isEllipsis, isResult, hi] using hi ▸ hcs
    · rename_i hi
      split at h
      · rename_i hin
        obtain ⟨bound₁, hc, hcs⟩ := h
        have hr : c.isResult = false := by
          cases c with
          | result => cases hc
          | _ => rfl
        simp [checkChildren, he, hr, hi, hin, hc, hcs]
      · rename_i hin
        obtain ⟨rfl, hcs⟩ := h
        cases side <;> simpa [checkChildren, isEllipsis, isResult, hi, hin, Side.binds, isWildcard]
          using hcs

/-- The children at their places, one by one. -/
theorem forall_child_cons {P : Nat → Pattern → Prop} :
    (∀ i c', (c :: cs)[i]? = some c' → P (index + i) c') ↔
      P index c ∧ ∀ i c', cs[i]? = some c' → P (index + 1 + i) c' := by
  constructor
  · intro h
    refine ⟨h 0 c rfl, fun i c' hi => ?_⟩
    have hc := h (i + 1) c' hi
    rwa [Nat.add_comm i 1, ← Nat.add_assoc] at hc
  · rintro ⟨hc, hcs⟩ i c' hi
    cases i with
    | zero =>
      obtain rfl := Option.some.inj hi
      exact hc
    | succ i =>
      have hc' := hcs i c' hi
      rwa [Nat.add_assoc, Nat.add_comm 1 i] at hc'

/-- A mark at the end of the list binds nothing. -/
theorem Extent.binds_eq {children listed : List Pattern} (h : Extent side s listed children) :
    side.binds (partsAll children) = side.binds (partsAll listed) := by
  rcases h with ⟨-, rfl⟩ | ⟨-, -, rfl⟩
  · rfl
  · have hmark : partsAll [.ellipsis] = [.ellipsis] := rfl
    rw [partsAll_append, hmark, binds_append, binds_cons rfl, binds_nil, Nat.add_zero]

theorem Extent.resolved_iff {children listed : List Pattern} (h : Extent side s listed children) :
    Resolved side bound (partsAll children) ↔ Resolved side bound (partsAll listed) := by
  rcases h with ⟨-, rfl⟩ | ⟨-, -, rfl⟩
  · rfl
  · have hmark : partsAll [.ellipsis] = [.ellipsis] := rfl
    rw [partsAll_append, hmark, resolved_append]
    exact and_iff_left (resolved_singleton (by simp))

mutual
/-- The check of a pattern accepts the patterns of the grammar, and counts the slots they bind. -/
theorem check_iff : (p : Pattern) → (bound bound' : Nat) →
    (check registry side bound p = .ok bound' ↔
      p.Shaped registry side ∧ Resolved side bound p.parts ∧ bound' = bound + side.binds p.parts)
  | .call module factor place children, bound, bound' => by
    rw [check, bind_eq_ok, shaped_call_iff, parts, resolved_cons (by simp) rfl, binds_cons rfl]
    constructor
    · rintro ⟨s, hhead, hcs⟩
      obtain ⟨-, -, -, hext, -⟩ := checkHead_iff.1 hhead
      obtain ⟨hchild, hslots, hbound⟩ := (checkChildren_iff children 0 bound bound').1 hcs
      simp only [Nat.zero_add] at hchild
      exact ⟨⟨s, hhead, hchild⟩, hext.resolved_iff.2 hslots, by rw [hbound, hext.binds_eq]⟩
    · rintro ⟨⟨s, hhead, hchild⟩, hslots, hbound⟩
      obtain ⟨-, -, -, hext, -⟩ := checkHead_iff.1 hhead
      refine ⟨s, hhead, (checkChildren_iff children 0 bound bound').2
        ⟨?_, hext.resolved_iff.1 hslots, by rw [hbound, hext.binds_eq]⟩⟩
      simpa only [Nat.zero_add] using hchild
  | .literal value, bound, bound' => by
    have hparts : parts (.literal value) = [.literal value] := rfl
    rw [check, hparts, binds_cons rfl, binds_nil, Nat.add_zero, Except.ok.injEq, eq_comm]
    exact ⟨fun h => ⟨.literal value, resolved_singleton (by simp), h⟩, fun h => h.2.2⟩
  | .array elements, bound, bound' => by
    rw [check, parts, resolved_cons (by simp) rfl, binds_cons rfl]
    have helements := checkElements_iff elements bound bound'
    split
    · rename_i hempty
      simp only [reduceCtorEq, false_iff]
      rintro ⟨⟨⟩, -⟩
      rename_i hne _
      exact hne hempty.1 (List.isEmpty_iff.1 hempty.2)
    · rename_i hempty
      rw [helements]
      constructor
      · rintro ⟨hshaped, h⟩
        refine ⟨.array (fun hside hnil => hempty ⟨hside, by simp [hnil]⟩) hshaped, h⟩
      · rintro ⟨⟨⟩, h⟩
        rename_i _ hshaped
        exact ⟨hshaped, h⟩
  | .wildcard constant, bound, bound' => by
    have hparts : parts (.wildcard constant) = [.wildcard constant] := rfl
    rw [hparts, binds_wildcard]
    cases side with
    | input =>
      simp only [check, Except.ok.injEq, if_true, eq_comm (a := bound + 1)]
      exact ⟨fun h => ⟨.wildcard constant rfl, resolved_singleton (by simp), h⟩, fun h => h.2.2⟩
    | output =>
      simp only [check, reduceCtorEq, false_iff]
      rintro ⟨⟨⟩, -⟩
      contradiction
  | .slot index, bound, bound' => by
    have hparts : parts (.slot index) = [.slot index] := rfl
    rw [check, hparts, binds_cons rfl, binds_nil, Nat.add_zero, resolved_slot]
    split
    · rename_i hindex
      rw [Except.ok.injEq, eq_comm]
      exact ⟨fun h => ⟨.slot index, hindex, h⟩, fun h => h.2.2⟩
    · rename_i hindex
      simp [hindex]
  | .result, bound, bound' => by
    simp only [check, reduceCtorEq, false_iff]
    rintro ⟨⟨⟩, -⟩
  | .ellipsis, bound, bound' => by
    simp only [check, reduceCtorEq, false_iff]
    rintro ⟨⟨⟩, -⟩

theorem checkChildren_iff {s : Signature} {place : Nat} : (cs : List Pattern) →
    (index bound bound' : Nat) →
    (checkChildren registry side s place index bound cs = .ok bound' ↔
      (∀ i c, (front cs)[i]? = some c → Child registry side s place (index + i) c) ∧
        Resolved side bound (partsAll (front cs)) ∧
        bound' = bound + side.binds (partsAll (front cs)))
  | [], index, bound, bound' => by
    simp [checkChildren, front, partsAll, eq_comm]
  | c :: cs, index, bound, bound' => by
    cases he : c.isEllipsis with
    | true => simp [checkChildren, he, front_eq_nil he, partsAll, eq_comm]
    | false =>
      rw [checkChildren_cons_iff he, front_cons he, forall_child_cons, Child, partsAll,
        resolved_append, binds_append, ← Nat.add_assoc]
      split
      · rw [checkChildren_iff cs]
        have hmark : side.binds (parts .result) = 0 := by cases side <;> rfl
        constructor
        · rintro ⟨rfl, hchild, hslots, hbound⟩
          rw [hmark, Nat.add_zero]
          exact ⟨⟨rfl, hchild⟩, ⟨resolved_singleton (by simp), hslots⟩, hbound⟩
        · rintro ⟨⟨rfl, hchild⟩, ⟨-, hslots⟩, hbound⟩
          rw [hmark, Nat.add_zero] at hslots hbound
          exact ⟨rfl, hchild, hslots, hbound⟩
      · split
        · simp only [check_iff c, checkChildren_iff cs]
          constructor
          · rintro ⟨bound₁, ⟨hshaped, hslots, rfl⟩, hchild, hslots', hbound⟩
            exact ⟨⟨hshaped, hchild⟩, ⟨hslots, hslots'⟩, hbound⟩
          · rintro ⟨⟨hshaped, hchild⟩, ⟨hslots, hslots'⟩, hbound⟩
            exact ⟨_, ⟨hshaped, hslots, rfl⟩, hchild, hslots', hbound⟩
        · rw [checkChildren_iff cs]
          constructor
          · rintro ⟨rfl, hchild, hslots, hbound⟩
            exact ⟨⟨rfl, hchild⟩, ⟨resolved_singleton (by simp), hslots⟩, hbound⟩
          · rintro ⟨⟨rfl, hchild⟩, ⟨-, hslots⟩, hbound⟩
            exact ⟨rfl, hchild, hslots, hbound⟩

theorem checkElements_iff : (es : List Pattern) → (bound bound' : Nat) →
    (checkElements registry side bound es = .ok bound' ↔
      (∀ e ∈ es, e.Shaped registry side) ∧ Resolved side bound (partsAll es) ∧
        bound' = bound + side.binds (partsAll es))
  | [], bound, bound' => by
    simp [checkElements, partsAll, eq_comm]
  | e :: es, bound, bound' => by
    rw [partsAll, resolved_append, binds_append, ← Nat.add_assoc, List.forall_mem_cons]
    constructor
    · intro h
      obtain ⟨bound₁, he, hes⟩ := checkElements_cons h
      obtain ⟨hshaped, hslots, rfl⟩ := (check_iff e bound bound₁).1 he
      obtain ⟨hshaped', hslots', hbound⟩ := (checkElements_iff es _ bound').1 hes
      exact ⟨⟨hshaped, hshaped'⟩, ⟨hslots, hslots'⟩, hbound⟩
    · rintro ⟨⟨hshaped, hshaped'⟩, ⟨hslots, hslots'⟩, hbound⟩
      have he := (check_iff e bound _).2 ⟨hshaped, hslots, rfl⟩
      have hes := (checkElements_iff es _ bound').2 ⟨hshaped', hslots', hbound⟩
      simp only [checkElements, he, hes]
end

end Pattern

/-! ## Rules -/

namespace Rule

variable {registry : Registry}

theorem checkOutputs_iff {bound : Nat} {l : List Pattern} :
    checkOutputs registry bound l = .ok () ↔
      ∀ p ∈ l, ∃ bound', p.check registry .output bound = .ok bound' := by
  refine ⟨checkOutputs_eq_ok, fun h => ?_⟩
  induction l with
  | nil => rfl
  | cons p l ih =>
    obtain ⟨⟨bound', hp⟩, hl⟩ := List.forall_mem_cons.1 h
    rw [checkOutputs, hp]
    exact ih hl

theorem checkPatterns_iff {r : Rule} :
    r.checkPatterns registry = .ok () ↔
      ∃ bound, r.input.check registry .input 0 = .ok bound ∧
        ∀ p ∈ r.outputs, ∃ bound', p.check registry .output bound = .ok bound' := by
  simp only [checkPatterns, bind_eq_ok, checkOutputs_iff]

/-- A rule passes its check if it is in the grammar. -/
theorem check_iff_grammatical {r : Rule} : r.check registry = .ok () ↔ r.Grammatical registry := by
  have hcheck : r.check registry = .ok () ↔
      r.input.isCall = true ∧ r.outputs ≠ [] ∧ r.checkPatterns registry = .ok () := by
    rw [check]
    cases hcall : r.input.isCall with
    | false => simp
    | true =>
      by_cases hempty : r.outputs = []
      · simp [hempty]
      · cases r.checkPatterns registry <;> simp [hempty, Except.mapError]
  have hslots : r.input.slotCount = 0 + Side.binds .input r.input.parts := by
    rw [Nat.zero_add, Pattern.slotCount, ← List.countP_eq_length_filter]
    rfl
  rw [hcheck, checkPatterns_iff]
  simp only [Pattern.check_iff, Pattern.resolved_output]
  constructor
  · rintro ⟨hroot, hne, bound, ⟨hin, hres, rfl⟩, hout⟩
    refine ⟨hroot, hne, hin, fun before k after h => ?_, fun p hp => ?_, fun p hp k hk => ?_⟩
    · have hk := hres before k after h
      rwa [Nat.zero_add] at hk
    · obtain ⟨_, hshaped, -⟩ := hout p hp
      exact hshaped
    · obtain ⟨_, -, hk', -⟩ := hout p hp
      rw [hslots]
      exact hk' k hk
  · intro h
    refine ⟨h.root, h.alternatives, _, ⟨h.input, fun before k after he => ?_, rfl⟩, fun p hp => ?_⟩
    · rw [Nat.zero_add]
      exact h.input_slots before k after he
    · exact ⟨_, h.outputs p hp, fun k hk => hslots ▸ h.output_slots p hp k hk, rfl⟩

end Rule

/-- Rules make a rule set exactly if no two have the same name and each is in the grammar. -/
theorem RuleSet.make_accepts_iff (registry : Registry) (l : List Rule) :
    (∃ s, make registry l = .ok s) ↔
      (l.map Rule.name).Nodup ∧ ∀ r ∈ l, r.Grammatical registry := by
  have hmake : (∃ s, make registry l = .ok s) ↔ Rule.checkAll registry [] l = .ok () := by
    simp only [make, bind_eq_ok, pure_eq_ok]
    constructor
    · rintro ⟨s, u, hu, -⟩
      exact hu
    · intro h
      exact ⟨_, (), h, rfl⟩
  simp only [hmake, Rule.checkAll_iff, Rule.check_iff_grammatical, List.not_mem_nil,
    not_false_eq_true, implies_true, true_and]
  exact and_comm

end SignalGraph
