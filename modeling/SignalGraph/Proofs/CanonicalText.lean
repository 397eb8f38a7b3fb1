import SignalGraph.Registry
import SignalGraph.Rule.Set
import SignalGraph.Proofs.NumberText
import SignalGraph.Proofs.Reading

/-!
# Canonical texts

The canonical text of a registry lists its signatures, and the canonical text of a rule set its
rules. Both are JSON that reads back (`Json.compact_inj`), so equal texts come from equal JSON. Of a
signature, JSON keeps everything (`Signature.toJson_inj`). Of a rule it keeps everything but
constants that JSON has no number for, which are all written as null (`Rule.toJson_inj`). So
registries with the same canonical text have the same signatures, and rule sets with the same
canonical text have the same rules if one of them has finite constants only.
-/

namespace SignalGraph

/-! ## Values that read back -/

namespace Json

theorem everyLeaf_array {ok : Json → Bool} {items : List Json} :
    (array items).everyLeaf ok = true ↔ ∀ v ∈ items, v.everyLeaf ok = true := by
  rw [everyLeaf]
  induction items with
  | nil => simp [everyItem]
  | cons item items ih => simp [everyItem, ih]

theorem everyLeaf_object {ok : Json → Bool} {members : List (String × Json)} :
    (object members).everyLeaf ok = true ↔ ∀ m ∈ members, m.2.everyLeaf ok = true := by
  rw [everyLeaf]
  induction members with
  | nil => simp [everyMember]
  | cons m members ih => simp [everyMember, ih]

@[simp] theorem faithful_array {items : List Json} :
    (array items).Faithful ↔ ∀ v ∈ items, v.Faithful :=
  everyLeaf_array

@[simp] theorem faithful_object {members : List (String × Json)} :
    (object members).Faithful ↔ ∀ m ∈ members, m.2.Faithful :=
  everyLeaf_object

@[simp] theorem faithful_string (text : String) : (string text).Faithful := rfl

@[simp] theorem faithful_bool (b : Bool) : (bool b).Faithful := rfl

@[simp] theorem faithful_null : null.Faithful := rfl

theorem faithful_number {text : String} {n : Numeral}
    (hword : ∀ c ∈ text.toList, Token.isWord c = true) (h : Numeral.ofString? text = some n) :
    (number text).Faithful := by
  rw [Faithful, everyLeaf, faithfulLeaf, Bool.and_eq_true, List.all_eq_true, h]
  · exact ⟨hword, rfl⟩
  all_goals simp

end Json

namespace Numeral

theorem isWhole_toDigits (n : ℕ) : isWhole (Nat.toDigits 10 n) = true := by
  rcases n.eq_zero_or_pos with rfl | hn
  · rfl
  · obtain ⟨c, cs, hcs, hc⟩ := toDigits_eq_cons hn
    rw [hcs]
    exact isWhole_cons hc cs

theorem unsigned?_toDigits (negative : Bool) (n : ℕ) :
    unsigned? negative (Nat.toDigits 10 n) = some ⟨negative, n, 0, true⟩ := by
  have htake : (Nat.toDigits 10 n).takeWhile Char.isDigit = Nat.toDigits 10 n :=
    List.takeWhile_eq_self_iff.2 (isDigit_toDigits n)
  have hdrop : (Nat.toDigits 10 n).dropWhile Char.isDigit = [] :=
    List.dropWhile_eq_nil_iff.2 (isDigit_toDigits n)
  simp [unsigned?, htake, hdrop, isWhole_toDigits]

end Numeral

namespace Json

open Numeral Layout

theorem toList_nat (n : ℕ) : n.repr.toList = Nat.toDigits 10 n := by
  rw [Nat.repr_eq_ofList_toDigits, String.toList_ofList]

theorem ofString?_nat (n : ℕ) : ofString? n.repr = some ⟨false, n, 0, true⟩ := by
  rw [ofString?, toList_nat]
  exact ofChars?_of_unsigned? (unsigned?_toDigits false n)

theorem toList_negSucc (n : ℕ) : (Int.negSucc n).repr.toList = '-' :: Nat.toDigits 10 (n + 1) := by
  have h : (Int.negSucc n).repr = "-" ++ (n + 1).repr := rfl
  rw [h, String.toList_append, toList_nat]
  rfl

theorem ofString?_int (i : ℤ) :
    ofString? i.repr = some ⟨decide (i < 0), i.natAbs, 0, true⟩ := by
  cases i with
  | ofNat n => exact ofString?_nat n
  | negSucc n =>
    rw [ofString?, toList_negSucc, decide_eq_true (Int.negSucc_lt_zero n)]
    exact unsigned?_toDigits true (n + 1)

@[simp] theorem faithful_nat (n : ℕ) : (number n.repr).Faithful := by
  refine faithful_number ?_ (ofString?_nat n)
  rw [toList_nat]
  exact fun c hc => isWord_of_isDigit (isDigit_toDigits n c hc)

@[simp] theorem faithful_int (i : ℤ) : (number i.repr).Faithful := by
  cases i with
  | ofNat n => exact faithful_nat n
  | negSucc n =>
    refine faithful_number ?_ (ofString?_int _)
    rw [toList_negSucc]
    rintro c (_ | ⟨_, hc⟩)
    · decide
    · exact isWord_of_isDigit (isDigit_toDigits _ c hc)

end Json

theorem ModuleId.toNat_lt (id : ModuleId) : id.toNat < 16 ^ 32 :=
  id.bits.isLt

theorem ModuleId.toString_inj {a b : ModuleId} (h : toString a = toString b) : a = b := by
  have hdigits : Hex.fixed 32 a.toNat = Hex.fixed 32 b.toNat := String.ofList_injective h
  have hnat := (Hex.fixed_inj a.toNat_lt b.toNat_lt).1 hdigits
  exact congrArg ModuleId.mk (BitVec.eq_of_toNat_eq hnat)

/-! ## Literals -/

namespace Literal

/-- A literal that JSON has a value for. Infinities, and what is no number, are written as null. -/
def Storable (value : Literal) : Prop :=
  value.payload ≠ .null

theorem stored_eq_number {layout : Layout} {f : Format} {bits : ℕ}
    (h : stored layout f bits ≠ .null) : ∃ m e, f.magnitude (f.unsigned bits) = .finite m e ∧
      stored layout f bits = .number (layout.write f bits) := by
  unfold stored at h ⊢
  split at h
  · rename_i m e hm
    exact ⟨m, e, hm, rfl⟩
  · exact absurd rfl h

theorem stored_inj {layout : Layout} {f : Format} {bits bits' : ℕ} (hplus : layout.plus = "+")
    (hf : 2 ≤ f.precision) (hf' : f.precision ≤ 53) (hbits : bits < 2 * f.signBit)
    (hbits' : bits' < 2 * f.signBit) (hne : stored layout f bits ≠ .null)
    (h : stored layout f bits = stored layout f bits') : bits = bits' := by
  obtain ⟨m, e, hm, htext⟩ := stored_eq_number hne
  obtain ⟨m', e', hm', htext'⟩ := stored_eq_number (h ▸ hne)
  rw [htext, htext', Json.number.injEq] at h
  exact Layout.write_inj hplus hf hf' hbits hbits' hm hm' h

theorem toJson_inj {a b : Literal} (ha : a.Storable) (h : a.toJson = b.toJson) : a = b := by
  simp only [toJson, Json.object.injEq, List.cons.injEq, Prod.mk.injEq, and_true] at h
  obtain ⟨hname, hpayload⟩ := h
  cases a with
  | float bits =>
    cases b with
    | float bits' =>
      have hbits := stored_inj rfl (by decide) (by decide) bits.toNat_lt bits'.toNat_lt ha hpayload
      rw [UInt32.toNat_inj.1 hbits]
    | _ => simp [primitive, Primitive.name] at hname
  | double bits =>
    cases b with
    | double bits' =>
      have hbits := stored_inj rfl (by decide) (by decide) bits.toNat_lt bits'.toNat_lt ha hpayload
      rw [UInt64.toNat_inj.1 hbits]
    | _ => simp [primitive, Primitive.name] at hname
  | int value =>
    cases b with
    | int value' =>
      have htext : toString value.toInt = toString value'.toInt := by simpa [payload] using hpayload
      rw [Int32.toInt_inj.1 (Int.repr_inj.1 htext)]
    | _ => simp [primitive, Primitive.name] at hname
  | bool value =>
    cases b with
    | bool value' => simpa [payload] using hpayload
    | _ => simp [primitive, Primitive.name] at hname
  | string text =>
    cases b with
    | string text' => simpa [payload] using hpayload
    | _ => simp [primitive, Primitive.name] at hname

theorem faithful_stored {layout : Layout} {f : Format} (hplus : layout.plus = "+")
    (hf : f.precision ≤ 53) (bits : ℕ) : (stored layout f bits).Faithful := by
  unfold stored
  split
  · rename_i m e hm
    obtain ⟨n, hn, -⟩ := Layout.ofString?_write hplus hf hm
    exact Json.faithful_number (Layout.isWord_write hplus hm) hn
  · exact Json.faithful_null

@[simp] theorem faithful_toJson (value : Literal) : value.toJson.Faithful := by
  cases value with
  | float bits => simpa [toJson, payload] using faithful_stored rfl (by decide) bits.toNat
  | double bits => simpa [toJson, payload] using faithful_stored rfl (by decide) bits.toNat
  | _ => simp [toJson, payload]

end Literal

/-! ## Patterns and rules -/

namespace Pattern

/-- A pattern whose constants JSON has values for. -/
def Storable (p : Pattern) : Prop :=
  ∀ value, .literal value ∈ p.parts → value.Storable

mutual
theorem toJson_inj : (p q : Pattern) → p.Storable → p.toJson = q.toJson → p = q
  | .call m factor place children, q, hp, h => by
    cases q with
    | call m' factor' place' children' =>
      simp only [toJson, Json.object.injEq, List.cons.injEq, Prod.mk.injEq, Json.string.injEq,
        Json.number.injEq, Json.array.injEq, true_and, and_true] at h
      obtain ⟨hm, hf, hr, hc⟩ := h
      rw [ModuleId.toString_inj hm, Nat.repr_inj.1 hf, Nat.repr_inj.1 hr,
        toJsonAll_inj children children' (fun v hv => hp v (by simp [parts, hv])) hc]
    | _ => simp [toJson] at h
  | .literal value, q, hp, h => by
    cases q with
    | literal value' =>
      rw [Literal.toJson_inj (hp value (by simp [parts])) (by simpa [toJson] using h)]
    | _ => simp [toJson] at h
  | .array elements, q, hp, h => by
    cases q with
    | array elements' =>
      rw [toJsonAll_inj elements elements' (fun v hv => hp v (by simp [parts, hv]))
        (by simpa [toJson] using h)]
    | _ => simp [toJson] at h
  | .wildcard constant, q, _, h => by
    cases q with
    | wildcard constant' =>
      obtain rfl : constant = constant' := by simpa [toJson] using h
      rfl
    | _ => simp [toJson] at h
  | .slot index, q, _, h => by
    cases q with
    | slot index' =>
      have htext : toString index = toString index' := by simpa [toJson] using h
      rw [Nat.repr_inj.1 htext]
    | _ => simp [toJson] at h
  | .result, q, _, h => by
    cases q with
    | result => rfl
    | _ => simp [toJson] at h
  | .ellipsis, q, _, h => by
    cases q with
    | ellipsis => rfl
    | _ => simp [toJson] at h

theorem toJsonAll_inj : (ps qs : List Pattern) →
    (∀ value, .literal value ∈ partsAll ps → value.Storable) → toJsonAll ps = toJsonAll qs → ps = qs
  | [], [], _, _ => rfl
  | [], _ :: _, _, h => by simp [toJsonAll] at h
  | _ :: _, [], _, h => by simp [toJsonAll] at h
  | p :: ps, q :: qs, hp, h => by
    rw [toJsonAll, toJsonAll, List.cons.injEq] at h
    rw [toJson_inj p q (fun v hv => hp v (by simp [partsAll, hv])) h.1,
      toJsonAll_inj ps qs (fun v hv => hp v (by simp [partsAll, hv])) h.2]
end

mutual
theorem faithful_toJson : (p : Pattern) → p.toJson.Faithful
  | .call m factor place children => by simpa [toJson] using faithful_toJsonAll children
  | .literal value => by simp [toJson]
  | .array elements => by simpa [toJson] using faithful_toJsonAll elements
  | .wildcard constant => by simp [toJson]
  | .slot index => by simp [toJson]
  | .result => by simp [toJson]
  | .ellipsis => by simp [toJson]

theorem faithful_toJsonAll : (ps : List Pattern) → ∀ v ∈ toJsonAll ps, v.Faithful
  | [] => by simp [toJsonAll]
  | p :: ps => by
    simpa [toJsonAll, faithful_toJson p] using faithful_toJsonAll ps
end

end Pattern

/-- Values with the same JSON are the same, if that is so of each of one list. -/
theorem map_toJson_inj {α : Type} {f : α → Json} {l l' : List α}
    (hf : ∀ a ∈ l, ∀ b, f a = f b → a = b) (h : l.map f = l'.map f) : l = l' := by
  induction l generalizing l' with
  | nil => exact (List.map_eq_nil_iff.1 h.symm).symm
  | cons a l ih =>
    cases l' with
    | nil => cases h
    | cons b l' =>
      rw [List.map_cons, List.map_cons, List.cons.injEq] at h
      rw [hf a List.mem_cons_self b h.1, ih (fun a ha => hf a (List.mem_cons_of_mem _ ha)) h.2]

namespace Rule

/-- A rule whose constants JSON has values for. -/
structure Storable (r : Rule) : Prop where
  input : r.input.Storable
  outputs (p : Pattern) (hp : p ∈ r.outputs) : p.Storable

theorem toJson_inj {r r' : Rule} (hr : r.Storable) (h : r.toJson = r'.toJson) : r = r' := by
  obtain ⟨name, input, outputs⟩ := r
  obtain ⟨name', input', outputs'⟩ := r'
  simp only [toJson, Json.object.injEq, List.cons.injEq, Prod.mk.injEq, Json.string.injEq,
    Json.array.injEq, true_and, and_true] at h
  obtain ⟨rfl, hi, ho⟩ := h
  have houtputs : outputs = outputs' :=
    map_toJson_inj (fun p hp q => Pattern.toJson_inj p q (hr.outputs p hp)) ho
  rw [Pattern.toJson_inj input input' hr.input hi, houtputs]

theorem faithful_listToJson (l : List Rule) : (listToJson l).Faithful := by
  simp [listToJson, toJson, Pattern.faithful_toJson]

end Rule

/-- The canonical text of rules with finite constants tells which rules they are. -/
theorem RuleSet.rules_of_canonical {rules rules' : RuleSet} (hs : ∀ r ∈ rules.rules, r.Storable)
    (h : rules.canonical = rules'.canonical) : rules.rules = rules'.rules := by
  have hjson := Json.compact_inj (Rule.faithful_listToJson _) (Rule.faithful_listToJson _) h
  exact map_toJson_inj (fun r hr r' => Rule.toJson_inj (hs r hr)) (Json.array.inj hjson)

/-! ## Signatures -/

theorem Parameter.toJson_inj {p q : Parameter} (h : p.toJson = q.toJson) : p = q := by
  obtain ⟨name, direction, mutability, primitive, factor, isArray⟩ := p
  obtain ⟨name', direction', mutability', primitive', factor', isArray'⟩ := q
  simp only [toJson, ParameterType.members, Json.object.injEq, List.cons_append, List.nil_append,
    List.cons.injEq, Prod.mk.injEq, Json.string.injEq, Json.number.injEq, Json.bool.injEq,
    true_and, and_true] at h
  obtain ⟨rfl, hd, hm, hp, hf, rfl⟩ := h
  have hdirection : direction = direction' := by
    cases direction <;> cases direction' <;> simp_all [Direction.name]
  have hmutability : mutability = mutability' := by
    cases mutability <;> cases mutability' <;> simp_all [Mutability.name]
  have hprimitive : primitive = primitive' := by
    cases primitive <;> cases primitive' <;> simp_all [Primitive.name]
  rw [hdirection, hmutability, hprimitive, Nat.repr_inj.1 hf]

namespace Signature

theorem toJson_inj {s s' : Signature} (h : s.toJson = s'.toJson) : s = s' := by
  obtain ⟨id, name, parameters, returnParameter, sideEffects⟩ := s
  obtain ⟨id', name', parameters', returnParameter', sideEffects'⟩ := s'
  simp only [toJson, Json.object.injEq, List.cons.injEq, Prod.mk.injEq, Json.string.injEq,
    Json.array.injEq, Json.bool.injEq, true_and, and_true] at h
  obtain ⟨hid, rfl, hp, hr, rfl⟩ := h
  have hreturn : returnParameter = returnParameter' := by
    cases returnParameter <;> cases returnParameter' <;> simp_all [Nat.repr_inj]
  rw [ModuleId.toString_inj hid, map_toJson_inj (fun p _ q => Parameter.toJson_inj) hp, hreturn]

theorem faithful_toJson (s : Signature) : s.toJson.Faithful := by
  cases hr : s.returnParameter <;> simp [toJson, hr, Parameter.toJson, ParameterType.members]

end Signature

/-- The canonical text of a registry tells which signatures it has. -/
theorem Registry.signatures_of_canonical {r r' : Registry} (h : r.canonical = r'.canonical) :
    r.signatures = r'.signatures := by
  have hfaithful (r : Registry) : (Json.array (r.signatures.map Signature.toJson)).Faithful := by
    simp [Signature.faithful_toJson]
  have hjson := Json.compact_inj (hfaithful r) (hfaithful r') h
  exact map_toJson_inj (fun s _ s' => Signature.toJson_inj) (Json.array.inj hjson)

end SignalGraph
