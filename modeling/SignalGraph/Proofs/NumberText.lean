import SignalGraph.Json.Numeral
import SignalGraph.Json.Token
import SignalGraph.Decimal.Layout
import SignalGraph.Proofs.Decimals

/-!
# Number texts read back

However a decimal is laid out, its text is a numeral of the same worth (`reads_decimal`). So the
text of a finite number is a numeral with its sign and with the worth of its shortest decimal
(`ofString?_write`), and numbers with the same text are the same (`write_inj`).
-/

namespace SignalGraph

/-! ## Runs of digits -/

namespace Numeral

/-- What a numeral is worth without its sign. -/
def worth (n : Numeral) : ℚ :=
  n.digits * 10 ^ n.exponent

theorem ofDigits_eq (ds : List Char) : ofDigits ds = Nat.ofDigitChars 10 ds 0 :=
  rfl

@[simp] theorem ofDigits_toDigits (n : ℕ) : ofDigits (Nat.toDigits 10 n) = n :=
  Nat.ofDigitChars_toDigits (by decide) (by decide)

theorem ofDigits_append_zeros (ds : List Char) (k : ℕ) :
    ofDigits (ds ++ List.replicate k '0') = 10 ^ k * ofDigits ds := by
  rw [ofDigits_eq, Nat.ofDigitChars_append, Nat.ofDigitChars_replicate_zero, ofDigits_eq]

theorem ofDigits_zeros_append (ds : List Char) (k : ℕ) :
    ofDigits (List.replicate k '0' ++ ds) = ofDigits ds := by
  rw [ofDigits_eq, Nat.ofDigitChars_append, Nat.ofDigitChars_replicate_zero, Nat.mul_zero,
    ofDigits_eq]

/-- The digits of a positive number begin with another digit than zero. -/
theorem toDigits_eq_cons {n : ℕ} (hn : 0 < n) :
    ∃ c cs, Nat.toDigits 10 n = c :: cs ∧ c ≠ '0' := by
  induction n using Nat.strong_induction_on with
  | _ n ih =>
    by_cases hlt : n < 10
    · refine ⟨n.digitChar, [], Nat.toDigits_of_lt_base hlt, ?_⟩
      interval_cases n <;> decide
    · obtain ⟨c, cs, hcs, hc⟩ := ih (n / 10) (by omega) (by omega)
      refine ⟨c, cs ++ [(n % 10).digitChar], ?_, hc⟩
      rw [Nat.toDigits_of_base_le (by decide) (by omega), hcs, List.cons_append]

theorem isWhole_cons {c : Char} (hc : c ≠ '0') (cs : List Char) : isWhole (c :: cs) = true := by
  unfold isWhole
  split <;> simp_all

section

variable (negative : Bool) (whole fraction rest : List Char)
  (hwhole : ∀ c ∈ whole, c.isDigit = true) (his : isWhole whole = true)

include hwhole his

theorem unsigned?_fraction (hfraction : ∀ c ∈ fraction, c.isDigit = true) (hne : fraction ≠ [])
    (hrest : rest.takeWhile Char.isDigit = []) :
    unsigned? negative (whole ++ '.' :: (fraction ++ rest)) = (exponent? rest).map fun e =>
      ⟨negative, ofDigits (whole ++ fraction), e - fraction.length, false⟩ := by
  have htake : (whole ++ '.' :: (fraction ++ rest)).takeWhile Char.isDigit = whole := by
    rw [List.takeWhile_append_of_pos hwhole, List.takeWhile_cons_of_neg (by decide),
      List.append_nil]
  have hdrop : (whole ++ '.' :: (fraction ++ rest)).dropWhile Char.isDigit =
      '.' :: (fraction ++ rest) := by
    rw [List.dropWhile_append_of_pos hwhole, List.dropWhile_cons_of_neg (by decide)]
  have htake' : (fraction ++ rest).takeWhile Char.isDigit = fraction := by
    rw [List.takeWhile_append_of_pos hfraction, hrest, List.append_nil]
  have hdrop' : (fraction ++ rest).dropWhile Char.isDigit = rest := by
    have h := List.takeWhile_append_dropWhile (p := Char.isDigit) (l := fraction ++ rest)
    rw [htake'] at h
    exact List.append_cancel_left h
  simp [unsigned?, htake, hdrop, his, htake', hdrop', hne]

theorem unsigned?_exponent :
    unsigned? negative (whole ++ 'e' :: rest) = (exponent? ('e' :: rest)).map fun e =>
      ⟨negative, ofDigits whole, e, false⟩ := by
  have htake : (whole ++ 'e' :: rest).takeWhile Char.isDigit = whole := by
    rw [List.takeWhile_append_of_pos hwhole, List.takeWhile_cons_of_neg (by decide),
      List.append_nil]
  have hdrop : (whole ++ 'e' :: rest).dropWhile Char.isDigit = 'e' :: rest := by
    rw [List.dropWhile_append_of_pos hwhole, List.dropWhile_cons_of_neg (by decide)]
  simp [unsigned?, htake, hdrop, his]

end

theorem isDigit_toDigits (n : ℕ) : ∀ c ∈ Nat.toDigits 10 n, c.isDigit = true :=
  fun _ hc => Nat.isDigit_of_mem_toDigits (by decide) (by decide) hc

theorem isDigit_zeros (k : ℕ) : ∀ c ∈ List.replicate k '0', c.isDigit = true := by
  intro c hc
  rw [List.eq_of_mem_replicate hc]
  rfl

/-- An exponent is written with its sign. -/
theorem exponent?_toDigits (e : ℤ) :
    exponent? ('e' :: ((if 0 ≤ e then "+" else "-").toList ++ Nat.toDigits 10 e.natAbs)) =
      some e := by
  have hall : (Nat.toDigits 10 e.natAbs).all Char.isDigit = true :=
    List.all_eq_true.2 (isDigit_toDigits _)
  have hne : (Nat.toDigits 10 e.natAbs).isEmpty = false := by
    simp [Nat.toDigits_ne_nil]
  split
  · rename_i he
    simp [exponent?, hall, hne, abs_of_nonneg he]
  · rename_i he
    simp [exponent?, hall, hne, abs_of_neg (not_le.1 he)]

theorem ofChars?_of_unsigned? {cs : List Char} {n : Numeral} (h : unsigned? false cs = some n) :
    ofChars? cs = some n := by
  unfold ofChars?
  split
  · cases h
  · exact h

end Numeral

/-! ## Layouts -/

namespace Layout

open Numeral

/-- A text that is a numeral of this worth. -/
def Reads (negative : Bool) (cs : List Char) (x : ℚ) : Prop :=
  ∃ n, unsigned? negative cs = some n ∧ n.negative = negative ∧ n.worth = x

section

variable (negative : Bool) (whole fraction : List Char)
  (hwhole : ∀ c ∈ whole, c.isDigit = true) (his : isWhole whole = true)

include hwhole his

theorem reads_exponent (e : ℤ) :
    Reads negative
      (whole ++ 'e' :: ((if 0 ≤ e then "+" else "-").toList ++ Nat.toDigits 10 e.natAbs))
      (ofDigits whole * 10 ^ e) := by
  refine ⟨⟨negative, ofDigits whole, e, false⟩, ?_, rfl, rfl⟩
  rw [unsigned?_exponent negative whole _ hwhole his, exponent?_toDigits]
  rfl

variable (hfraction : ∀ c ∈ fraction, c.isDigit = true) (hne : fraction ≠ [])

include hfraction hne

theorem reads_point : Reads negative (whole ++ '.' :: fraction)
    (ofDigits (whole ++ fraction) * 10 ^ (-fraction.length : ℤ)) := by
  refine ⟨⟨negative, ofDigits (whole ++ fraction), -fraction.length, false⟩, ?_, rfl, rfl⟩
  have h := unsigned?_fraction negative whole fraction [] hwhole his hfraction hne rfl
  simpa [exponent?] using h

theorem reads_point_exponent (e : ℤ) :
    Reads negative (whole ++ '.' :: (fraction ++
        'e' :: ((if 0 ≤ e then "+" else "-").toList ++ Nat.toDigits 10 e.natAbs)))
      (ofDigits (whole ++ fraction) * 10 ^ (e - fraction.length)) := by
  refine ⟨⟨negative, ofDigits (whole ++ fraction), e - fraction.length, false⟩, ?_, rfl, rfl⟩
  rw [unsigned?_fraction negative whole fraction _ hwhole his hfraction hne
    (List.takeWhile_cons_of_neg (by decide)), exponent?_toDigits]
  rfl

end

section

variable {digits cs : List Char} {c : Char} (hcs : digits = c :: cs) (hc : c ≠ '0')
  (hdigits : ∀ c ∈ digits, c.isDigit = true)

include hcs hc hdigits

/-- Digits with a point at its place. -/
theorem reads_plain (negative : Bool) (exponent : ℤ) :
    Reads negative (plain digits exponent)
      (ofDigits digits * 10 ^ (exponent + 1 - digits.length)) := by
  unfold plain
  split
  · -- The point is before all digits.
    obtain ⟨k, hk⟩ : ∃ k, (-exponent).toNat - 1 = k := ⟨_, rfl⟩
    have hfraction : ∀ c ∈ List.replicate k '0' ++ digits, c.isDigit = true :=
      List.forall_mem_append.2 ⟨isDigit_zeros k, hdigits⟩
    have hread := reads_point negative ['0'] _ (by simp) rfl hfraction (by simp [hcs])
    have hvalue : ofDigits (['0'] ++ (List.replicate k '0' ++ digits)) = ofDigits digits :=
      ofDigits_zeros_append digits (k + 1)
    have hexp : -((List.replicate k '0' ++ digits).length : ℤ) = exponent + 1 - digits.length := by
      rw [List.length_append, List.length_replicate]
      omega
    rw [hvalue, hexp] at hread
    simpa [hk] using hread
  · rename_i hpos
    obtain ⟨w, rfl⟩ := Int.eq_ofNat_of_zero_le (not_lt.1 hpos)
    simp only [Int.toNat_natCast]
    by_cases hlong : digits.length ≤ w + 1
    · -- The point is after all digits.
      obtain ⟨k, hk⟩ : ∃ k, w + 1 = digits.length + k := ⟨w + 1 - digits.length, by omega⟩
      have hwhole : ∀ c ∈ digits ++ List.replicate k '0', c.isDigit = true :=
        List.forall_mem_append.2 ⟨hdigits, isDigit_zeros k⟩
      have hread := reads_point negative _ ['0'] hwhole (by simp [hcs, isWhole_cons hc]) (by simp)
        (by simp)
      have hvalue : ofDigits (digits ++ List.replicate k '0' ++ ['0']) =
          10 ^ (k + 1) * ofDigits digits := by
        rw [← ofDigits_append_zeros, List.replicate_succ', List.append_assoc]
      have hexp : (w : ℤ) + 1 - digits.length = k := by omega
      have htake : (digits ++ List.replicate k '0').take (digits.length + k) =
          digits ++ List.replicate k '0' :=
        List.take_of_length_le (by simp)
      have hworth : ((10 ^ (k + 1) * ofDigits digits : ℕ) : ℚ) * 10 ^ (-['0'].length : ℤ) =
          ofDigits digits * 10 ^ (k : ℤ) := by
        simp only [List.length_singleton, Nat.cast_one, zpow_neg_one, zpow_natCast]
        push_cast
        ring
      rw [hvalue, hworth] at hread
      rw [hk, Nat.add_sub_cancel_left, htake, List.drop_of_length_le (Nat.le_add_right _ _), hexp]
      exact hread
    · -- The point is between two digits.
      have hne : digits.drop (w + 1) ≠ [] := by
        rw [Ne, List.drop_eq_nil_iff]
        exact hlong
      have hwhole : isWhole (digits.take (w + 1)) = true := by
        rw [hcs, List.take_succ_cons]
        exact isWhole_cons hc _
      have hread := reads_point negative (digits.take (w + 1)) (digits.drop (w + 1))
        (fun d hd => hdigits d (List.mem_of_mem_take hd)) hwhole
        (fun d hd => hdigits d (List.mem_of_mem_drop hd)) hne
      have hexp : -((digits.drop (w + 1)).length : ℤ) = w + 1 - digits.length := by
        rw [List.length_drop]
        omega
      have hpad : w + 1 - digits.length = 0 := by omega
      rw [List.take_append_drop, hexp] at hread
      simpa [hpad, hne] using hread

/-- One digit, the others after a point, and an exponent. -/
theorem reads_scientific {layout : Layout} (hplus : layout.plus = "+") (negative : Bool)
    (exponent : ℤ) :
    Reads negative (layout.scientific digits exponent)
      (ofDigits digits * 10 ^ (exponent + 1 - digits.length)) := by
  have hone : ∀ d ∈ [c], d.isDigit = true := by simp [hdigits c (by simp [hcs])]
  have hrest : ∀ d ∈ cs, d.isDigit = true := fun d hd => hdigits d (by simp [hcs, hd])
  rw [scientific, hplus, hcs]
  simp only [List.drop_one, List.tail_cons, List.take_succ_cons, List.take_zero]
  split
  · rename_i hempty
    obtain rfl : cs = [] := by simpa using hempty
    simpa using reads_exponent negative [c] hone (isWhole_cons hc []) exponent
  · rename_i hne
    have hread := reads_point_exponent negative [c] cs hone (isWhole_cons hc []) hrest
      (by simpa using hne) exponent
    have hexp : exponent - cs.length = exponent + 1 - (c :: cs).length := by
      rw [List.length_cons]
      omega
    rw [hexp] at hread
    simpa using hread

end

/-- However it is laid out, a decimal reads as what it is worth. -/
theorem reads_decimal {layout : Layout} {d : Decimal} (hplus : layout.plus = "+")
    (hd : 0 < d.digits) (negative : Bool) : Reads negative (layout.decimal d) d.toRat := by
  obtain ⟨c, cs, hcs, hc⟩ := toDigits_eq_cons hd
  have hdigits := isDigit_toDigits d.digits
  have hworth (exponent : ℤ)
      (h : exponent = d.exponent + (Nat.toDigits 10 d.digits).length - 1) :
      (ofDigits (Nat.toDigits 10 d.digits) : ℚ) *
        10 ^ (exponent + 1 - (Nat.toDigits 10 d.digits).length) = d.toRat := by
    rw [ofDigits_toDigits, Decimal.toRat, h]
    congr 2
    ring
  rw [decimal]
  split
  · rw [← hworth _ rfl]
    exact reads_plain hcs hc hdigits negative _
  · rw [← hworth _ rfl]
    exact reads_scientific hcs hc hdigits hplus negative _

/-! ## Numbers -/

variable {layout : Layout} {f : Format} {bits bits' p q : ℕ}

/-- What the text of a pattern is worth. -/
def worth (layout : Layout) (f : Format) (p : ℕ) : ℚ :=
  if p = 0 then 0 else (Decimal.shortest f layout.tie (f.significand p) (f.scale p)).toRat

theorem worth_pos (hf : f.precision ≤ 53) (hp : 0 < p) : 0 < layout.worth f p := by
  have hdigits : (0 : ℚ) < (Decimal.shortest f layout.tie (f.significand p) (f.scale p)).digits :=
    Nat.cast_pos.2 (Decimal.shortest_pos hf hp layout.tie)
  rw [worth, if_neg hp.ne', Decimal.toRat]
  positivity

theorem worth_inj (hf : 2 ≤ f.precision) (hf' : f.precision ≤ 53)
    (h : layout.worth f p = layout.worth f q) : p = q := by
  rcases p.eq_zero_or_pos with rfl | hp <;> rcases q.eq_zero_or_pos with rfl | hq
  · rfl
  · exact absurd h.symm (worth_pos hf' hq).ne'
  · exact absurd h (worth_pos hf' hp).ne'
  · rw [worth, worth, if_neg hp.ne', if_neg hq.ne'] at h
    exact Decimal.shortest_inj hf hf' hp hq h

/-- The text of a number after its sign. -/
def body (layout : Layout) (f : Format) (p : ℕ) : List Char :=
  if p = 0 then ['0', '.', '0']
  else layout.decimal (Decimal.shortest f layout.tie (f.significand p) (f.scale p))

theorem reads_body (hplus : layout.plus = "+") (hf : f.precision ≤ 53) (negative : Bool) (p : ℕ) :
    Reads negative (layout.body f p) (layout.worth f p) := by
  rw [body, worth]
  split
  · have hread := reads_point negative ['0'] ['0'] (by simp) rfl (by simp) (by simp)
    have hzero : ofDigits (['0'] ++ ['0']) = 0 := rfl
    rwa [hzero, Nat.cast_zero, zero_mul] at hread
  · rename_i hp
    exact reads_decimal hplus (Decimal.shortest_pos hf (Nat.pos_of_ne_zero hp) _) negative

theorem toList_write {m : ℕ} {e : ℤ} (h : f.magnitude (f.unsigned bits) = .finite m e) :
    (layout.write f bits).toList =
      (if f.isNegative bits then ['-'] else []) ++ layout.body f (f.unsigned bits) := by
  obtain ⟨rfl, rfl⟩ := Format.magnitude_eq_finite h
  have hzero : f.significand (f.unsigned bits) = 0 ↔ f.unsigned bits = 0 :=
    Format.significand_eq_zero
  simp only [write, h, body, String.toList_append, hzero]
  split <;> split <;> simp

/-- The text of a finite number is a numeral with its sign. -/
theorem ofString?_write {m : ℕ} {e : ℤ} (hplus : layout.plus = "+") (hf : f.precision ≤ 53)
    (h : f.magnitude (f.unsigned bits) = .finite m e) :
    ∃ n, ofString? (layout.write f bits) = some n ∧ n.negative = f.isNegative bits ∧
      n.worth = layout.worth f (f.unsigned bits) := by
  obtain ⟨n, hn, hsign, hworth⟩ := reads_body hplus hf (f.isNegative bits) (f.unsigned bits)
  refine ⟨n, ?_, hsign, hworth⟩
  rw [ofString?, toList_write h]
  cases hneg : f.isNegative bits with
  | false =>
    rw [hneg] at hn
    exact ofChars?_of_unsigned? hn
  | true =>
    rw [hneg] at hn
    exact hn

/-- Finite numbers with the same text are the same. -/
theorem write_inj {m m' : ℕ} {e e' : ℤ} (hplus : layout.plus = "+") (hf : 2 ≤ f.precision)
    (hf' : f.precision ≤ 53) (hbits : bits < 2 * f.signBit) (hbits' : bits' < 2 * f.signBit)
    (hm : f.magnitude (f.unsigned bits) = .finite m e)
    (hm' : f.magnitude (f.unsigned bits') = .finite m' e')
    (h : layout.write f bits = layout.write f bits') : bits = bits' := by
  obtain ⟨n, hn, hsign, hworth⟩ := ofString?_write hplus hf' hm
  obtain ⟨n', hn', hsign', hworth'⟩ := ofString?_write hplus hf' hm'
  obtain rfl : n = n' := Option.some.inj (hn.symm.trans (h ▸ hn'))
  calc
    bits = f.withSign (f.isNegative bits) (f.unsigned bits) :=
      (Format.withSign_unsigned hbits).symm
    _ = f.withSign (f.isNegative bits') (f.unsigned bits') := by
      rw [← hsign, hsign', worth_inj hf hf' (hworth.symm.trans hworth')]
    _ = bits' := Format.withSign_unsigned hbits'

/-! ## The characters of a number text -/

open Json.Token

theorem isWord_of_isDigit {c : Char} (h : c.isDigit = true) : isWord c = true := by
  simp [isWord, Char.isAlphanum, h]

theorem isWord_plain {digits : List Char} (hdigits : ∀ c ∈ digits, isWord c = true)
    (exponent : ℤ) : ∀ c ∈ plain digits exponent, isWord c = true := by
  intro c hc
  have hzero : isWord '0' = true := by decide
  have hpoint : isWord '.' = true := by decide
  have hdrop (n : ℕ) (h : c ∈ digits.drop n) : isWord c = true := hdigits c (List.mem_of_mem_drop h)
  have htake (k n : ℕ) (h : c ∈ (digits ++ List.replicate k '0').take n) : isWord c = true := by
    rcases List.mem_append.1 (List.mem_of_mem_take h) with h | h
    · exact hdigits c h
    · exact isWord_of_isDigit (isDigit_zeros k c h)
  unfold plain at hc
  grind

theorem isWord_scientific {digits : List Char} (hplus : layout.plus = "+")
    (hdigits : ∀ c ∈ digits, isWord c = true) (exponent : ℤ) :
    ∀ c ∈ layout.scientific digits exponent, isWord c = true := by
  intro c hc
  rw [scientific, hplus] at hc
  simp only [List.mem_append, List.mem_cons] at hc
  rcases hc with (hc | hc) | rfl | hc | hc
  · exact hdigits c (List.mem_of_mem_take hc)
  · split at hc
    · cases hc
    · rcases List.mem_cons.1 hc with rfl | hc
      · decide
      · exact hdigits c (List.mem_of_mem_drop hc)
  · decide
  · split at hc
    · obtain rfl : c = '+' := by simpa using hc
      decide
    · obtain rfl : c = '-' := by simpa using hc
      decide
  · exact isWord_of_isDigit (isDigit_toDigits _ c hc)

theorem isWord_decimal (hplus : layout.plus = "+") (d : Decimal) :
    ∀ c ∈ layout.decimal d, isWord c = true := by
  have hdigits : ∀ c ∈ Nat.toDigits 10 d.digits, isWord c = true :=
    fun c hc => isWord_of_isDigit (isDigit_toDigits _ c hc)
  rw [decimal]
  split
  · exact isWord_plain hdigits _
  · exact isWord_scientific hplus hdigits _

theorem isWord_write {m : ℕ} {e : ℤ} (hplus : layout.plus = "+")
    (h : f.magnitude (f.unsigned bits) = .finite m e) :
    ∀ c ∈ (layout.write f bits).toList, isWord c = true := by
  intro c hc
  rw [toList_write h] at hc
  rcases List.mem_append.1 hc with hc | hc
  · split at hc
    · obtain rfl : c = '-' := by simpa using hc
      decide
    · cases hc
  · unfold body at hc
    split at hc
    · simp only [List.mem_cons, List.not_mem_nil, or_false] at hc
      rcases hc with rfl | rfl | rfl <;> decide
    · exact isWord_decimal hplus _ c hc

end Layout

end SignalGraph
