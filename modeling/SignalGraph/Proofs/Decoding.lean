import SignalGraph.Proofs.ModuleText
import SignalGraph.Proofs.Rounding

/-!
# Patterns that are written and read again

What a text can hold as a pattern (`Pattern.Held`): its numbers fit their types, and it is not
nested too deep. Every pattern that was read is such a pattern (`held_of_ofJson?`), however it was
spelled, because what is written for it is nested no deeper than what it was read from.

Of these patterns, reading takes what was written to the same pattern if the constants can be
written (`Held.ofJson?_toJson`), and to no pattern if not (`Held.storable`). Of the constants that
were read, only infinite ones cannot be written. The text of a double reads back always, and the
text of a single almost always (`Literal.SingleReadsBack`).
-/

namespace SignalGraph

/-! ## Numbers -/

namespace Json

open Numeral

theorem nat?_number {bits n : ℕ} (hbits : bits ≤ 64) (hn : n < bound bits) :
    nat? bits (.number n.repr) = some n := by
  have hle : n < bound 64 := hn.trans_le (Nat.pow_le_pow_right (by decide) hbits)
  have hn' : (n : ℤ) < (bound bits : ℕ) := by exact_mod_cast hn
  simp [nat?, int?, numeral?, ofString?_nat, integer?, hle, hn']

theorem int?_number (value : Int32) :
    int? (-2147483648) 2147483648 (.number value.toInt.repr) = some value.toInt := by
  have hlow : -2147483648 ≤ value.toInt := value.le_toInt
  have hhigh : value.toInt < 2147483648 := value.toInt_lt
  have hinteger : integer? ⟨decide (value.toInt < 0), value.toInt.natAbs, 0, true⟩ =
      some value.toInt := by
    have h63 : value.toInt.natAbs ≤ bound 63 := by
      have h : bound 63 = 9223372036854775808 := by decide
      omega
    have h64 : value.toInt.natAbs < bound 64 := by
      have h : bound 64 = 18446744073709551616 := by decide
      omega
    rcases lt_or_ge value.toInt 0 with hneg | hpos
    · have hne : value.toInt ≠ 0 := by omega
      have habs : -|value.toInt| = value.toInt := by rw [abs_of_neg hneg, neg_neg]
      simp [integer?, hneg, h63, hne, habs]
    · have habs : |value.toInt| = value.toInt := abs_of_nonneg hpos
      simp [integer?, Int.not_lt.2 hpos, h64, habs]
  simp [int?, numeral?, ofString?_int, hinteger, hlow, hhigh]

theorem nat?_lt {bits n : ℕ} {v : Json} (h : v.nat? bits = some n) : n < bound bits := by
  obtain ⟨i, hi, rfl⟩ := Option.map_eq_some_iff.1 h
  obtain ⟨m, -, hm⟩ := Option.bind_eq_some_iff.1 hi
  obtain ⟨j, -, hj⟩ := Option.bind_eq_some_iff.1 hm
  split at hj
  · rename_i hrange
    cases hj
    omega
  · cases hj

/-- A numeral without fraction and exponent that is not too large can be held. -/
theorem readable_number {text : String} {n : Numeral} (hn : ofString? text = some n)
    (hexp : n.exponent = 0) (hlt : n.digits < bound 64) :
    (number text).everyLeaf readableLeaf = true := by
  have hworth : n.worth ≤ 2 ^ 128 := by
    have hle : n.digits ≤ 2 ^ 128 :=
      hlt.le.trans (Nat.pow_le_pow_right (by decide) (by decide : 64 ≤ 128))
    rw [worth, hexp, zpow_zero, mul_one]
    exact_mod_cast hle
  obtain ⟨bits, hbits⟩ := double?_of_le hworth
  simp [everyLeaf, readableLeaf, hn, hbits]

end Json

/-! ## Literals -/

namespace Literal

/-- The text of a single reads as that single. It is read by way of doubles, so that for few of them
this is false. -/
def SingleReadsBack (bits : UInt32) : Prop :=
  (Numeral.ofString? (storedSingle.write .single bits.toNat)).bind Numeral.single? =
    some bits.toNat

instance (bits : UInt32) : Decidable (SingleReadsBack bits) :=
  inferInstanceAs (Decidable (_ = _))

example : SingleReadsBack 0x3dcccccd ∧ ¬ SingleReadsBack 0x15ae43fd := by decide +kernel

variable {value w : Literal} {v : Json}

theorem ofJson?_toJson_eq (value : Literal) :
    ofJson? value.toJson = ofPayload? value.primitive value.payload := by
  cases value <;> rfl

theorem ofJson?_toJson (hs : value.Storable)
    (hread : ∀ bits, value = .float bits → SingleReadsBack bits) :
    ofJson? value.toJson = some value := by
  rw [ofJson?_toJson_eq]
  cases value with
  | float bits =>
    obtain ⟨m, e, -, htext⟩ := stored_eq_number hs
    have h := hread bits rfl
    rw [SingleReadsBack] at h
    rw [primitive, payload, htext, ofPayload?, Json.numeral?, h, Option.map_some,
      UInt32.ofNat_toNat]
  | double bits =>
    obtain ⟨m, e, hm, htext⟩ := stored_eq_number hs
    have hplus : storedDouble.plus = "+" := rfl
    have h := Numeral.double?_write hplus bits.toNat_lt hm
    rw [primitive, payload, htext, ofPayload?, Json.numeral?, h, Option.map_some,
      UInt64.ofNat_toNat]
  | int value =>
    simp [primitive, payload, ofPayload?, Json.int?_number]
  | bool value => rfl
  | string text => rfl

/-- Null is no literal. -/
theorem storable_of_ofJson? (h : ofJson? value.toJson = some w) : value.Storable := by
  intro hnull
  rw [ofJson?_toJson_eq, hnull] at h
  cases hp : value.primitive <;> rw [hp] at h <;> cases h

theorem stored_ne_null {layout : Layout} {f : Format} {bits m : ℕ} {e : ℤ}
    (h : f.magnitude (f.unsigned bits) = .finite m e) : stored layout f bits ≠ .null := by
  simp [stored, h]

/-- A literal that was read is an infinity or can be written. -/
theorem storable_of_read (h : ofJson? v = some value) (hinf : value.isInfinite = false) :
    value.Storable := by
  unfold ofJson? at h
  split at h
  · obtain ⟨p, -, hp⟩ := Option.bind_eq_some_iff.1 h
    cases p with
    | float =>
      obtain ⟨bits, hbits, rfl⟩ := Option.map_eq_some_iff.1 hp
      obtain ⟨n, -, hn⟩ := Option.bind_eq_some_iff.1 hbits
      obtain ⟨negative, p, rfl, hle⟩ := Numeral.single?_le hn
      have hlt : p < Format.single.signBit := hle.trans_lt (by decide)
      have hbits : (UInt32.ofNat (Format.single.withSign negative p)).toNat =
          Format.single.withSign negative p :=
        UInt32.toNat_ofNat_of_lt' (Format.withSign_lt negative hlt)
      have hfinite : p < Format.single.infinity := by
        refine lt_of_le_of_ne hle ?_
        rintro rfl
        rw [isInfinite, hbits, Format.unsigned_withSign negative hlt,
          Format.magnitude_infinity] at hinf
        cases hinf
      obtain ⟨m, e, hm⟩ := Format.finite_of_lt_infinity hfinite
      refine stored_ne_null (m := m) (e := e) ?_
      rwa [hbits, Format.unsigned_withSign negative hlt]
    | double =>
      obtain ⟨bits, hbits, rfl⟩ := Option.map_eq_some_iff.1 hp
      obtain ⟨n, -, hn⟩ := Option.bind_eq_some_iff.1 hbits
      obtain ⟨negative, p, rfl, hfinite⟩ := Numeral.double?_lt hn
      have hlt : p < Format.double.signBit := hfinite.trans (by decide)
      have hbits : (UInt64.ofNat (Format.double.withSign negative p)).toNat =
          Format.double.withSign negative p :=
        UInt64.toNat_ofNat_of_lt' (Format.withSign_lt negative hlt)
      obtain ⟨m, e, hm⟩ := Format.finite_of_lt_infinity hfinite
      refine stored_ne_null (m := m) (e := e) ?_
      rwa [hbits, Format.unsigned_withSign negative hlt]
    | int =>
      obtain ⟨i, -, rfl⟩ := Option.map_eq_some_iff.1 hp
      simp [Storable, payload]
    | bool =>
      obtain ⟨b, -, rfl⟩ := Option.map_eq_some_iff.1 hp
      simp [Storable, payload]
    | string =>
      obtain ⟨text, -, rfl⟩ := Option.map_eq_some_iff.1 hp
      simp [Storable, payload]
  · cases h

theorem not_isInfinite (hs : value.Storable) : value.isInfinite = false := by
  cases value with
  | float bits =>
    obtain ⟨m, e, hm, -⟩ := stored_eq_number hs
    rw [isInfinite, hm]
    rfl
  | double bits =>
    obtain ⟨m, e, hm, -⟩ := stored_eq_number hs
    rw [isInfinite, hm]
    rfl
  | _ => rfl

theorem readable_toJson (hs : value.Storable) :
    value.toJson.everyLeaf Json.readableLeaf = true := by
  rw [toJson, Json.everyLeaf_object]
  simp only [List.mem_singleton, forall_eq]
  cases value with
  | float bits =>
    obtain ⟨m, e, hm, htext⟩ := stored_eq_number hs
    have hplus : storedSingle.plus = "+" := rfl
    obtain ⟨b, hb⟩ := Numeral.double?_write_single hplus hm
    rw [payload, htext]
    simp [Json.everyLeaf, Json.readableLeaf, hb]
  | double bits =>
    obtain ⟨m, e, hm, htext⟩ := stored_eq_number hs
    have hplus : storedDouble.plus = "+" := rfl
    have hb := Numeral.double?_write hplus bits.toNat_lt hm
    rw [payload, htext]
    simp [Json.everyLeaf, Json.readableLeaf, hb]
  | int value =>
    have hlow : -2147483648 ≤ value.toInt := value.le_toInt
    have hhigh : value.toInt < 2147483648 := value.toInt_lt
    have h64 : Numeral.bound 64 = 18446744073709551616 := by decide
    refine Json.readable_number (Json.ofString?_int _) rfl ?_
    simp only [h64]
    omega
  | bool value => rfl
  | string text => rfl

end Literal

/-! ## Decoding -/

section

variable {α β : Type} {f : α → Option β} {a : α} {l : List α} {l' : List β}

theorem mapM_cons_eq_some :
    (a :: l).mapM f = some l' ↔ ∃ b bs, f a = some b ∧ l.mapM f = some bs ∧ l' = b :: bs := by
  rw [List.mapM_cons]
  simp only [Option.bind_eq_bind, Option.bind_eq_some_iff, Option.pure_def, Option.some.injEq]
  constructor
  · rintro ⟨b, hb, bs, hbs, rfl⟩
    exact ⟨b, bs, hb, hbs, rfl⟩
  · rintro ⟨b, bs, hb, hbs, rfl⟩
    exact ⟨b, hb, bs, hbs, rfl⟩

theorem exists_of_mapM {b : β} (h : l.mapM f = some l') (hb : b ∈ l') : ∃ a ∈ l, f a = some b := by
  induction l generalizing l' with
  | nil =>
    obtain rfl : l' = [] := by simpa using h.symm
    cases hb
  | cons a l ih =>
    obtain ⟨c, cs, hc, hcs, rfl⟩ := mapM_cons_eq_some.1 h
    rcases List.mem_cons.1 hb with rfl | hb
    · exact ⟨a, List.mem_cons_self, hc⟩
    · obtain ⟨x, hx, hxb⟩ := ih hcs hb
      exact ⟨x, List.mem_cons_of_mem a hx, hxb⟩

theorem mapM_map_eq_some {g : β → α} {bs : List β} (h : ∀ b ∈ bs, f (g b) = some b) :
    (bs.map g).mapM f = some bs := by
  induction bs with
  | nil => rfl
  | cons b bs ih =>
    obtain ⟨hb, hbs⟩ := List.forall_mem_cons.1 h
    exact mapM_cons_eq_some.2 ⟨b, bs, hb, ih hbs, rfl⟩

theorem exists_of_mapM_map {γ : Type} {g : γ → α} {cs : List γ} {c : γ}
    (h : (cs.map g).mapM f = some l') (hc : c ∈ cs) : ∃ b, f (g c) = some b := by
  induction cs generalizing l' with
  | nil => cases hc
  | cons d cs ih =>
    obtain ⟨b, bs, hb, hbs, -⟩ := mapM_cons_eq_some.1 h
    rcases List.mem_cons.1 hc with rfl | hc
    · exact ⟨b, hb⟩
    · exact ih hbs hc

end

namespace Json

variable {v w kind fields : Json}

theorem heightItems_le {items : List Json} {k : ℕ} :
    heightItems items ≤ k ↔ ∀ v ∈ items, v.height ≤ k := by
  induction items with
  | nil => simp [heightItems]
  | cons item items ih => simp [heightItems, ih]

theorem heightMembers_le {members : List (String × Json)} {k : ℕ} :
    heightMembers members ≤ k ↔ ∀ m ∈ members, m.2.height ≤ k := by
  induction members with
  | nil => simp [heightMembers]
  | cons m members ih => simp [heightMembers, ih]

theorem height_of_tagged? (h : v.tagged? = some (kind, fields)) : fields.height ≤ v.height := by
  unfold tagged? at h
  split at h
  · rename_i members
    split at h
    · cases h
      exact Nat.succ_le_succ (heightMembers_le.2 fun m hm =>
        heightMembers_le.1 le_rfl m (List.mem_of_mem_filter hm))
    · cases h
  · cases h
    exact Nat.succ_le_succ (Nat.le_max_right _ _)
  · cases h

/-- A field of a record lies deeper than the record. -/
theorem height_of_record? {strict : Bool} {names : List String} {name : String} {r : Record}
    (h : v.record? strict names = some r) (hw : r.get? name = some w) : w.height < v.height := by
  obtain ⟨before, after, hfields, -⟩ := List.lookup_eq_some_iff.1 hw
  have hmem : (name, w) ∈ r.fields := by simp [hfields]
  unfold record? at h
  split at h
  · rename_i members
    unfold Record.ofMembers? at h
    simp only at h
    split at h
    · cases h
      exact Nat.lt_succ_of_le (heightMembers_le.1 le_rfl _ (List.mem_of_mem_filter hmem))
    · cases h
  · rename_i items
    unfold Record.ofItems? at h
    split at h
    · cases h
      exact Nat.lt_succ_of_le (heightItems_le.1 le_rfl _ (List.of_mem_zip hmem).2)
    · cases h
  · cases h

end Json

namespace Pattern

open Json

/-- The numbers of a part of a pattern fit their types, and a constant is a number or infinite. -/
def InRange : Pattern → Prop
  | .call _ factor place _ => factor < Numeral.bound 32 ∧ place < Numeral.bound 64
  | .slot index => index < Numeral.bound 64
  | .literal value => value.isInfinite = false → value.Storable
  | _ => True

theorem toJsonAll_eq (ps : List Pattern) : toJsonAll ps = ps.map toJson := by
  induction ps with
  | nil => rfl
  | cons p ps ih => rw [toJsonAll, ih, List.map_cons]

theorem mem_partsAll {q : Pattern} {ps : List Pattern} :
    q ∈ partsAll ps ↔ ∃ p ∈ ps, q ∈ p.parts := by
  induction ps with
  | nil => simp [partsAll]
  | cons p ps ih => simp [partsAll, ih]

variable {h outer : ℕ} {manner : Manner}

/-- Reading what was written begins with its kind and leaves the other members. -/
theorem decode_object {text : String} {shape : Shape} {members : List (String × Json)}
    (hkind : Shape.named.lookup text = some shape) (hmembers : ∀ m ∈ members, m.1 ≠ "kind") :
    decode (h + 1) manner (.object (("kind", .string text) :: members)) =
      ofFields? (decode h .held) shape (.object members) := by
  have hfound : members.filter (fun m => m.1 == "kind") = [] :=
    List.filter_eq_nil_iff.2 fun m hm => by simpa using hmembers m hm
  have hrest : members.filter (fun m => m.1 != "kind") = members :=
    List.filter_eq_self.2 fun m hm => by simpa using hmembers m hm
  simp [decode, tagged?, tag?, hfound, hrest, hkind]

theorem decode_call {m : ModuleId} {factor place : ℕ} {children : List Pattern}
    (hf : factor < Numeral.bound 32) (hp : place < Numeral.bound 64) :
    decode (h + 1) manner (toJson (.call m factor place children)) =
      ((children.map toJson).mapM (decode h .held)).map (.call m factor place) := by
  have hfactor := nat?_number (by decide) hf
  have hplace := nat?_number (by decide) hp
  have hkind : Shape.named.lookup "native_module_call" = some .call := rfl
  rw [toJson, decode_object hkind (by simp)]
  simp [ofFields?, record?, Record.ofMembers?, Record.required, Record.get?, List.lookup_cons,
    string?, ModuleId.ofString?_toString, hfactor, hplace, list?, toJsonAll_eq,
    Option.map_eq_bind, Function.comp_def]

theorem decode_array {elements : List Pattern} :
    decode (h + 1) manner (toJson (.array elements)) =
      ((elements.map toJson).mapM (decode h .held)).map .array := by
  have hkind : Shape.named.lookup "array" = some .array := rfl
  rw [toJson, decode_object hkind (by simp)]
  simp [ofFields?, record?, Record.ofMembers?, Record.required, Record.get?, list?, toJsonAll_eq,
    Option.map_eq_bind, Function.comp_def]

theorem decode_literal {value : Literal} :
    decode (h + 1) manner (toJson (.literal value)) =
      (Literal.ofJson? value.toJson).map .literal := by
  have hkind : Shape.named.lookup "constant" = some .literal := rfl
  rw [toJson, decode_object hkind (by simp)]
  simp [ofFields?, record?, Record.ofMembers?, Record.required, Record.get?, Option.map_eq_bind]

theorem decode_wildcard {constant : Bool} :
    decode (h + 1) manner (toJson (.wildcard constant)) = some (.wildcard constant) := by
  have hkind : Shape.named.lookup "input" = some .wildcard := rfl
  rw [toJson, decode_object hkind (by simp)]
  simp [ofFields?, record?, Record.ofMembers?, Record.withDefault, Record.get?, bool?]

theorem decode_slot {index : ℕ} (hi : index < Numeral.bound 64) :
    decode (h + 1) manner (toJson (.slot index)) = some (.slot index) := by
  have hindex := nat?_number (by decide) hi
  have hkind : Shape.named.lookup "input_reference" = some .slot := rfl
  rw [toJson, decode_object hkind (by simp)]
  simp [ofFields?, record?, Record.ofMembers?, Record.required, Record.get?, hindex]

theorem decode_result : decode (h + 1) manner (toJson .result) = some .result := by
  have hkind : Shape.named.lookup "output" = some .result := rfl
  rw [toJson, decode_object hkind (by simp)]
  rfl

theorem decode_ellipsis : decode (h + 1) manner (toJson .ellipsis) = some .ellipsis := by
  have hkind : Shape.named.lookup "end_of_list" = some .ellipsis := rfl
  rw [toJson, decode_object hkind (by simp)]
  rfl

theorem height_toJson_pos (p : Pattern) : 0 < p.toJson.height := by
  cases p <;> exact Nat.succ_pos _

theorem height_toJson_call (m : ModuleId) (factor place : ℕ) (children : List Pattern) :
    (toJson (.call m factor place children)).height = heightItems (children.map toJson) + 2 := by
  simp [toJson, height, heightMembers, toJsonAll_eq]

theorem height_toJson_array (elements : List Pattern) :
    (toJson (.array elements)).height = heightItems (elements.map toJson) + 2 := by
  simp [toJson, height, heightMembers, toJsonAll_eq]

theorem height_toJson_literal (value : Literal) : (toJson (.literal value)).height = 2 := by
  have hstored (layout : Layout) (f : Format) (bits : ℕ) :
      (Literal.stored layout f bits).height = 0 := by
    unfold Literal.stored
    split <;> rfl
  have hpayload : value.payload.height = 0 := by
    cases value with
    | float bits => exact hstored _ _ _
    | double bits => exact hstored _ _ _
    | _ => rfl
  simp [toJson, Literal.toJson, height, heightMembers, hpayload]

mutual
/-- A pattern that was written reads back, if its constants do. -/
theorem decode_toJson : (p : Pattern) → (h : ℕ) → (manner : Manner) → (∀ q ∈ p.parts, q.InRange) →
    (∀ value, .literal value ∈ p.parts → Literal.ofJson? value.toJson = some value) →
    p.toJson.height ≤ h + 1 → decode (h + 1) manner p.toJson = some p
  | .call m factor place children, h, manner, hrange, hread, hh => by
    obtain ⟨hf, hp⟩ : (Pattern.call m factor place children).InRange := hrange _ (by simp [parts])
    rw [height_toJson_call] at hh
    rw [decode_call hf hp, decodeAll_toJson children h (fun q hq => hrange q (by simp [parts, hq]))
      (fun value hv => hread value (by simp [parts, hv])) (by omega), Option.map_some]
  | .array elements, h, manner, hrange, hread, hh => by
    rw [height_toJson_array] at hh
    rw [decode_array, decodeAll_toJson elements h (fun q hq => hrange q (by simp [parts, hq]))
      (fun value hv => hread value (by simp [parts, hv])) (by omega), Option.map_some]
  | .literal value, h, manner, _, hread, _ => by
    rw [decode_literal, hread value (by simp [parts]), Option.map_some]
  | .wildcard constant, h, manner, _, _, _ => decode_wildcard
  | .slot index, h, manner, hrange, _, _ => decode_slot (hrange (.slot index) (by simp [parts]))
  | .result, h, manner, _, _, _ => decode_result
  | .ellipsis, h, manner, _, _, _ => decode_ellipsis

theorem decodeAll_toJson : (ps : List Pattern) → (h : ℕ) → (∀ q ∈ partsAll ps, q.InRange) →
    (∀ value, .literal value ∈ partsAll ps → Literal.ofJson? value.toJson = some value) →
    heightItems (ps.map toJson) ≤ h → (ps.map toJson).mapM (decode h .held) = some ps
  | [], _, _, _, _ => rfl
  | p :: ps, h, hrange, hread, hh => by
    rw [List.map_cons, heightItems, Nat.max_le] at hh
    obtain ⟨k, rfl⟩ : ∃ k, h = k + 1 := ⟨h - 1, by have := p.height_toJson_pos; omega⟩
    rw [List.map_cons, List.mapM_cons,
      decode_toJson p k .held (fun q hq => hrange q (by simp [partsAll, hq]))
        (fun value hv => hread value (by simp [partsAll, hv])) hh.1,
      decodeAll_toJson ps (k + 1) (fun q hq => hrange q (by simp [partsAll, hq]))
        (fun value hv => hread value (by simp [partsAll, hv])) hh.2]
    rfl
end

mutual
/-- A pattern that reads back as any pattern has only constants that JSON has values for. -/
theorem storable_of_decode : (p : Pattern) → ∀ (h : ℕ) (manner : Manner) (q : Pattern),
    (∀ q ∈ p.parts, q.InRange) → decode (h + 1) manner p.toJson = some q → p.Storable
  | .call m factor place children => by
    intro h manner q hrange hd
    obtain ⟨hf, hp⟩ : (Pattern.call m factor place children).InRange := hrange _ (by simp [parts])
    rw [decode_call hf hp] at hd
    obtain ⟨qs, hqs, -⟩ := Option.map_eq_some_iff.1 hd
    have hall :=
      storableAll_of_decode children h qs (fun q hq => hrange q (by simp [parts, hq])) hqs
    intro value hv
    exact hall value (by simpa [parts] using hv)
  | .array elements => by
    intro h manner q hrange hd
    rw [decode_array] at hd
    obtain ⟨qs, hqs, -⟩ := Option.map_eq_some_iff.1 hd
    have hall :=
      storableAll_of_decode elements h qs (fun q hq => hrange q (by simp [parts, hq])) hqs
    intro value hv
    exact hall value (by simpa [parts] using hv)
  | .literal value => by
    intro h manner q _ hd
    rw [decode_literal] at hd
    obtain ⟨w, hw, -⟩ := Option.map_eq_some_iff.1 hd
    intro value' hv
    obtain rfl : value' = value := by simpa [parts] using hv
    exact Literal.storable_of_ofJson? hw
  | .wildcard _ => fun _ _ _ _ _ value hv => by simp [parts] at hv
  | .slot _ => fun _ _ _ _ _ value hv => by simp [parts] at hv
  | .result => fun _ _ _ _ _ value hv => by simp [parts] at hv
  | .ellipsis => fun _ _ _ _ _ value hv => by simp [parts] at hv

theorem storableAll_of_decode : (ps : List Pattern) → ∀ (h : ℕ) (qs : List Pattern),
    (∀ q ∈ partsAll ps, q.InRange) → (ps.map toJson).mapM (decode h .held) = some qs →
    ∀ value, .literal value ∈ partsAll ps → value.Storable
  | [] => fun _ _ _ _ value hv => by simp [partsAll] at hv
  | p :: ps => by
    intro h qs hrange hd value hv
    obtain ⟨q, qs, hp, hps, -⟩ := mapM_cons_eq_some.1 hd
    rw [partsAll, List.mem_append] at hv
    rcases hv with hv | hv
    · cases h with
      | zero => cases hp
      | succ h =>
        exact storable_of_decode p h .held q (fun q hq => hrange q (by simp [partsAll, hq])) hp
          value hv
    · exact storableAll_of_decode ps h qs (fun q hq => hrange q (by simp [partsAll, hq])) hps
        value hv
end

/-- What is read fits its types, and is nested no deeper than the value it is read from. -/
def FromValue (v : Json) (p : Pattern) : Prop :=
  (∀ q ∈ p.parts, q.InRange) ∧ p.toJson.height ≤ v.height

/-- The parts in a list that is a field of a record. -/
theorem fromValue_list {part? : Json → Option Pattern} {v w : Json} {ps : List Pattern}
    (hpart : ∀ v p, part? v = some p → FromValue v p) (hw : w.height < v.height)
    (hps : list? part? w = some ps) :
    (∀ q ∈ partsAll ps, q.InRange) ∧ heightItems (ps.map toJson) + 2 ≤ v.height := by
  unfold list? at hps
  split at hps
  · rename_i items
    refine ⟨fun q hq => ?_, ?_⟩
    · obtain ⟨p, hp, hq⟩ := mem_partsAll.1 hq
      obtain ⟨item, -, hitem⟩ := exists_of_mapM hps hp
      exact (hpart item p hitem).1 q hq
    · have hitems : heightItems (ps.map toJson) ≤ heightItems items := by
        refine heightItems_le.2 fun v hv => ?_
        obtain ⟨p, hp, rfl⟩ := List.mem_map.1 hv
        obtain ⟨item, hmem, hitem⟩ := exists_of_mapM hps hp
        exact (hpart item p hitem).2.trans (heightItems_le.1 le_rfl item hmem)
      rw [height] at hw
      omega
  · cases hps

theorem fromValue_leaf {v : Json} {p : Pattern} (hparts : p.parts = [p]) (hrange : p.InRange)
    (hheight : p.toJson.height ≤ v.height) : FromValue v p := by
  refine ⟨?_, hheight⟩
  rw [hparts]
  simpa using hrange

/-- A record is not flat. -/
theorem height_pos_of_record? {v : Json} {strict : Bool} {names : List String} {r : Record}
    (h : v.record? strict names = some r) : 0 < v.height := by
  cases v with
  | array items => exact Nat.succ_pos _
  | object members => exact Nat.succ_pos _
  | _ => cases h

theorem fromValue_ofFields? {part? : Json → Option Pattern} {shape : Shape} {v : Json}
    {p : Pattern} (hpart : ∀ v p, part? v = some p → FromValue v p)
    (h : ofFields? part? shape v = some p) : FromValue v p := by
  cases shape <;> simp only [ofFields?, Option.bind_eq_bind, Option.bind_eq_some_iff,
    Option.pure_def, Option.some.injEq, Record.required] at h
  case call =>
    obtain ⟨r, hr, m, -, factor, ⟨w, -, hf⟩, place, ⟨w', -, hp⟩, children, ⟨w'', hw, hcs⟩, rfl⟩ := h
    obtain ⟨hrange, hle⟩ := fromValue_list hpart (height_of_record? hr hw) hcs
    refine ⟨?_, (height_toJson_call m factor place children).trans_le hle⟩
    rw [parts, List.forall_mem_cons]
    exact ⟨⟨nat?_lt hf, nat?_lt hp⟩, hrange⟩
  case literal =>
    obtain ⟨r, hr, value, ⟨w, hw, hvalue⟩, rfl⟩ := h
    have hlt := height_of_record? hr hw
    have hpos : 0 < w.height := by
      cases w with
      | object members => exact Nat.succ_pos _
      | _ => cases hvalue
    have hheight := height_toJson_literal value
    exact fromValue_leaf rfl (fun hinf => Literal.storable_of_read hvalue hinf) (by omega)
  case array =>
    obtain ⟨r, hr, elements, ⟨w, hw, hes⟩, rfl⟩ := h
    obtain ⟨hrange, hle⟩ := fromValue_list hpart (height_of_record? hr hw) hes
    refine ⟨?_, (height_toJson_array elements).trans_le hle⟩
    rw [parts, List.forall_mem_cons]
    exact ⟨trivial, hrange⟩
  case wildcard =>
    obtain ⟨r, hr, constant, -, rfl⟩ := h
    exact fromValue_leaf rfl trivial (height_pos_of_record? hr)
  case slot =>
    obtain ⟨r, hr, index, ⟨w, -, hi⟩, rfl⟩ := h
    exact fromValue_leaf rfl (nat?_lt hi) (height_pos_of_record? hr)
  case result =>
    obtain ⟨r, hr, rfl⟩ := h
    exact fromValue_leaf rfl trivial (height_pos_of_record? hr)
  case ellipsis =>
    obtain ⟨r, hr, rfl⟩ := h
    exact fromValue_leaf rfl trivial (height_pos_of_record? hr)

theorem fromValue_decode {v : Json} {p : Pattern} (hd : decode h manner v = some p) :
    FromValue v p := by
  induction h generalizing manner v p with
  | zero => cases hd
  | succ h ih =>
    rw [decode] at hd
    simp only [Option.bind_eq_bind, Option.bind_eq_some_iff, Prod.exists] at hd
    obtain ⟨kind, fields, htag, shape, -, hfields⟩ := hd
    obtain ⟨hrange, hle⟩ := fromValue_ofFields? (fun v p => ih) hfields
    exact ⟨hrange, hle.trans (height_of_tagged? htag)⟩

mutual
theorem readable_toJson : (p : Pattern) → (∀ q ∈ p.parts, q.InRange) → p.Storable →
    p.toJson.everyLeaf readableLeaf = true
  | .call m factor place children, hrange, hs => by
    obtain ⟨hf, hp⟩ : (Pattern.call m factor place children).InRange := hrange _ (by simp [parts])
    have hf64 : factor < Numeral.bound 64 := hf.trans (by decide)
    have hall := readableAll_toJson children (fun q hq => hrange q (by simp [parts, hq]))
      (fun value hv => hs value (by simp [parts, hv]))
    rw [toJson, everyLeaf_object]
    simp only [List.forall_mem_cons, List.not_mem_nil, false_implies, implies_true, and_true]
    exact ⟨rfl, rfl, readable_number (ofString?_nat factor) rfl hf64,
      readable_number (ofString?_nat place) rfl hp, everyLeaf_array.2 hall⟩
  | .array elements, hrange, hs => by
    have hall := readableAll_toJson elements (fun q hq => hrange q (by simp [parts, hq]))
      (fun value hv => hs value (by simp [parts, hv]))
    rw [toJson, everyLeaf_object]
    simp only [List.forall_mem_cons, List.not_mem_nil, false_implies, implies_true, and_true]
    exact ⟨rfl, everyLeaf_array.2 hall⟩
  | .literal value, _, hs => by
    rw [toJson, everyLeaf_object]
    simp only [List.forall_mem_cons, List.not_mem_nil, false_implies, implies_true, and_true]
    exact ⟨rfl, Literal.readable_toJson (hs value (by simp [parts]))⟩
  | .wildcard constant, _, _ => rfl
  | .slot index, hrange, _ => by
    have hi : (Pattern.slot index).InRange := hrange _ (by simp [parts])
    rw [toJson, everyLeaf_object]
    simp only [List.forall_mem_cons, List.not_mem_nil, false_implies, implies_true, and_true]
    exact ⟨rfl, readable_number (ofString?_nat index) rfl hi⟩
  | .result, _, _ => rfl
  | .ellipsis, _, _ => rfl

theorem readableAll_toJson : (ps : List Pattern) → (∀ q ∈ partsAll ps, q.InRange) →
    (∀ value, .literal value ∈ partsAll ps → value.Storable) →
    ∀ v ∈ toJsonAll ps, v.everyLeaf readableLeaf = true
  | [], _, _ => by simp [toJsonAll]
  | p :: ps, hrange, hs => by
    rw [toJsonAll, List.forall_mem_cons]
    exact ⟨readable_toJson p (fun q hq => hrange q (by simp [partsAll, hq]))
        (fun value hv => hs value (by simp [partsAll, hv])),
      readableAll_toJson ps (fun q hq => hrange q (by simp [partsAll, hq]))
        (fun value hv => hs value (by simp [partsAll, hv]))⟩
end

/-! ## Patterns inside a text -/

/-- A pattern that a text can hold inside so many arrays and objects. -/
def Held (outer : ℕ) (p : Pattern) : Prop :=
  (∀ q ∈ p.parts, q.InRange) ∧ outer + p.toJson.height ≤ deepest

variable {p q : Pattern}

theorem held_of_ofJson? {v : Json} (h : ofJson? outer v = some p) : p.Held outer := by
  unfold ofJson? at h
  split at h
  · rename_i hhold
    obtain ⟨hrange, hheight⟩ := fromValue_decode h
    rw [holdable, Bool.and_eq_true, decide_eq_true_eq] at hhold
    exact ⟨hrange, (Nat.add_le_add_left hheight outer).trans hhold.1⟩
  · cases h

theorem Held.ofJson?_toJson (hp : p.Held outer) (hs : p.Storable)
    (hread : ∀ bits, .literal (.float bits) ∈ p.parts → Literal.SingleReadsBack bits) :
    ofJson? outer p.toJson = some p := by
  obtain ⟨hrange, hheight⟩ := hp
  have hhold : p.toJson.holdable outer = true := by
    rw [holdable, Bool.and_eq_true, decide_eq_true_eq]
    exact ⟨hheight, readable_toJson p hrange hs⟩
  obtain ⟨k, hk⟩ : ∃ k, p.toJson.height = k + 1 := ⟨_, (Nat.succ_pred p.height_toJson_pos.ne').symm⟩
  rw [ofJson?, if_pos hhold, hk]
  refine decode_toJson p k .direct hrange (fun value hv => ?_) hk.le
  refine Literal.ofJson?_toJson (hs value hv) ?_
  rintro bits rfl
  exact hread bits hv

theorem Held.storable (hp : p.Held outer) (h : ofJson? outer p.toJson = some q) : p.Storable := by
  unfold ofJson? at h
  split at h
  · obtain ⟨k, hk⟩ : ∃ k, p.toJson.height = k + 1 :=
      ⟨_, (Nat.succ_pred p.height_toJson_pos.ne').symm⟩
    rw [hk] at h
    exact storable_of_decode p k .direct q hp.1 h
  · cases h

end Pattern

end SignalGraph
