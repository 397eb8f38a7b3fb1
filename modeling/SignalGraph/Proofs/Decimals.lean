import SignalGraph.Decimal.Shortest
import SignalGraph.Proofs.Outcome

/-!
# Shortest decimals tell numbers apart

The numbers of a format, in ascending order, are those of the patterns `0, 1, 2, …`
(`Format.value_strictMono`). The interval of a number goes from halfway to the one before to halfway
to the one after, and its ends belong to it if its significand is even. Neighbours are not both
even, so intervals of different numbers have nothing in common (`eq_of_mem`).

The shortest decimal of a number lies in its interval (`shortest_mem`): on the grid of seventeen
digits, the nearer neighbour of the number always does. So numbers with the same shortest decimal
are the same (`shortest_inj`).
-/

namespace SignalGraph

/-! ## Binary numbers -/

namespace Format

variable {f : Format} {p q : ℕ}

theorem implicit_pos (f : Format) : 0 < f.implicit :=
  Nat.two_pow_pos _

theorem withSign_unsigned {bits : ℕ} (h : bits < 2 * f.signBit) :
    f.withSign (f.isNegative bits) (f.unsigned bits) = bits := by
  rw [withSign, isNegative, unsigned]
  simp only [decide_eq_true_eq]
  split
  · rename_i hneg
    rw [Nat.mod_eq_sub_mod hneg, Nat.mod_eq_of_lt (by omega)]
    omega
  · rename_i hpos
    exact Nat.mod_eq_of_lt (by omega)

/-- The significand of a pattern. -/
def significand (f : Format) (p : ℕ) : ℕ :=
  if p / f.implicit = 0 then p % f.implicit else p % f.implicit + f.implicit

/-- The exponent of a pattern. -/
def scale (f : Format) (p : ℕ) : ℤ :=
  f.lowest + (p / f.implicit - 1 : ℕ)

/-- The number of a pattern. Patterns go on where the format ends, so there is a number after every
number. -/
def value (f : Format) (p : ℕ) : ℚ :=
  f.significand p * 2 ^ f.scale p

theorem magnitude_eq_finite {m : ℕ} {e : ℤ} (h : f.magnitude p = .finite m e) :
    m = f.significand p ∧ e = f.scale p := by
  unfold magnitude at h
  simp only at h
  split at h
  · split at h <;> cases h
  · split at h
    · rename_i hzero
      cases h
      exact ⟨by simp [significand, hzero], by simp [scale, hzero]⟩
    · rename_i hpos
      cases h
      exact ⟨by simp [significand, hpos], rfl⟩

section

variable {k r : ℕ} (hr : r < f.implicit)

include hr

theorem significand_mul_add :
    f.significand (f.implicit * k + r) = if k = 0 then r else r + f.implicit := by
  rw [significand, Nat.mul_add_div f.implicit_pos, Nat.div_eq_of_lt hr, Nat.mul_add_mod,
    Nat.mod_eq_of_lt hr, Nat.add_zero]

theorem scale_mul_add : f.scale (f.implicit * k + r) = f.lowest + (k - 1 : ℕ) := by
  rw [scale, Nat.mul_add_div f.implicit_pos, Nat.div_eq_of_lt hr, Nat.add_zero]

end

/-- A pattern by its field and its fraction. -/
theorem exists_mul_add (f : Format) (p : ℕ) : ∃ k r, r < f.implicit ∧ p = f.implicit * k + r :=
  ⟨p / f.implicit, p % f.implicit, Nat.mod_lt p f.implicit_pos, (Nat.div_add_mod p _).symm⟩

/-- From a number to the next it is one unit of its last place. -/
theorem value_succ (f : Format) (p : ℕ) : f.value (p + 1) = f.value p + 2 ^ f.scale p := by
  obtain ⟨k, r, hr, rfl⟩ := f.exists_mul_add p
  have hpos := f.implicit_pos
  rw [value, value, significand_mul_add hr, scale_mul_add hr]
  by_cases hlast : r + 1 = f.implicit
  · -- The next number has the next field.
    have hnext : f.implicit * k + r + 1 = f.implicit * (k + 1) + 0 := by
      rw [← hlast]
      ring
    rw [hnext, significand_mul_add hpos, scale_mul_add hpos, ← hlast]
    cases k with
    | zero => norm_num [add_mul]
    | succ j =>
      have hpow : (2 : ℚ) ^ (f.lowest + ((j + 1 : ℕ) : ℤ)) = 2 ^ (f.lowest + (j : ℤ)) * 2 := by
        rw [← zpow_add_one₀ two_ne_zero, Nat.cast_succ, add_assoc]
      simp only [Nat.add_one_ne_zero, if_false, Nat.add_sub_cancel, hpow]
      push_cast
      ring
  · rw [Nat.add_assoc, significand_mul_add (by omega), scale_mul_add (by omega)]
    split
    · push_cast
      ring
    · push_cast
      ring

theorem value_strictMono (f : Format) : StrictMono f.value := by
  refine strictMono_nat_of_lt_succ fun p => ?_
  rw [value_succ]
  have hpos : (0 : ℚ) < 2 ^ f.scale p := by positivity
  linarith

theorem significand_pos (hp : 0 < p) : 0 < f.significand p := by
  obtain ⟨k, r, hr, rfl⟩ := f.exists_mul_add p
  rw [significand_mul_add hr]
  split
  · rename_i hk
    simpa [hk] using hp
  · exact Nat.add_pos_right r f.implicit_pos

theorem significand_eq_zero : f.significand p = 0 ↔ p = 0 := by
  refine ⟨fun h => ?_, ?_⟩
  · by_contra hp
    exact (significand_pos (Nat.pos_of_ne_zero hp)).ne' h
  · rintro rfl
    simp [significand]

theorem significand_lt (f : Format) (p : ℕ) : f.significand p < 2 * f.implicit := by
  obtain ⟨k, r, hr, rfl⟩ := f.exists_mul_add p
  rw [significand_mul_add hr]
  split <;> omega

/-- A number is even if its pattern is. -/
theorem significand_mod_two (hf : 2 ≤ f.precision) : f.significand p % 2 = p % 2 := by
  have heven : f.implicit % 2 = 0 := by
    obtain ⟨n, hn⟩ : ∃ n, f.precision - 1 = n + 1 := ⟨f.precision - 2, by omega⟩
    simp [implicit, hn, Nat.pow_succ]
  obtain ⟨k, r, hr, rfl⟩ := f.exists_mul_add p
  rw [significand_mul_add hr]
  have hk : f.implicit * k % 2 = 0 := by simp [Nat.mul_mod, heven]
  split <;> omega

/-- The number before one with the first significand of its exponent has the exponent before. -/
theorem scale_eq (f : Format) (p : ℕ) : f.scale p =
    if f.significand (p + 1) = f.implicit ∧ f.lowest < f.scale (p + 1) then f.scale (p + 1) - 1
    else f.scale (p + 1) := by
  obtain ⟨k, r, hr, rfl⟩ := f.exists_mul_add p
  have hpos := f.implicit_pos
  by_cases hlast : r + 1 = f.implicit
  · have hnext : f.implicit * k + r + 1 = f.implicit * (k + 1) + 0 := by
      rw [← hlast]
      ring
    rw [hnext, significand_mul_add hpos, scale_mul_add hpos, scale_mul_add hr]
    simp only [Nat.add_one_ne_zero, if_false]
    split <;> omega
  · have hr' : r + 1 < f.implicit := by omega
    rw [Nat.add_assoc, significand_mul_add hr', scale_mul_add hr', scale_mul_add hr, if_neg]
    rintro ⟨hsig, hlow⟩
    split at hsig <;> omega

end Format

/-! ## Decimals and intervals -/

namespace Decimal

def toRat (d : Decimal) : ℚ :=
  d.digits * 10 ^ d.exponent

namespace Interval

variable {i : Interval}

def lower (i : Interval) : ℚ :=
  i.low / i.den

def upper (i : Interval) : ℚ :=
  i.high / i.den

/-- Whether a number lies in the interval. -/
def Mem (i : Interval) (x : ℚ) : Prop :=
  if i.closed then i.lower ≤ x ∧ x ≤ i.upper else i.lower < x ∧ x < i.upper

theorem Mem.of_lt {x : ℚ} (hl : i.lower < x) (hu : x < i.upper) : i.Mem x := by
  unfold Mem
  split
  · exact ⟨hl.le, hu.le⟩
  · exact ⟨hl, hu⟩

theorem Mem.le {x : ℚ} (h : i.Mem x) : i.lower ≤ x ∧ x ≤ i.upper := by
  unfold Mem at h
  split at h
  · exact h
  · exact ⟨h.1.le, h.2.le⟩

end Interval

/-- A power as a quotient of natural numbers. -/
theorem zpow_eq_div {b : ℕ} (hb : b ≠ 0) (e : ℤ) :
    (b : ℚ) ^ e = (b ^ e.toNat : ℕ) / (b ^ (-e).toNat : ℕ) := by
  have hb' : (b : ℚ) ≠ 0 := Nat.cast_ne_zero.2 hb
  rcases Int.le_total 0 e with he | he
  · obtain ⟨n, rfl⟩ := Int.eq_ofNat_of_zero_le he
    simp
  · obtain ⟨n, hn⟩ := Int.eq_ofNat_of_zero_le (Int.neg_nonneg.2 he)
    obtain rfl : e = -n := by omega
    simp

theorem toRat_eq_div (d : Decimal) :
    d.toRat = (d.digits * 10 ^ d.exponent.toNat : ℕ) / (10 ^ (-d.exponent).toNat : ℕ) := by
  have h := zpow_eq_div (b := 10) (by decide) d.exponent
  rw [toRat, Nat.cast_mul, ← mul_div_assoc', ← h]
  norm_num

namespace Interval

variable {i : Interval}

theorem contains_iff (hden : 0 < i.den) (d : Decimal) : i.contains d = true ↔ i.Mem d.toRat := by
  have hdown : 0 < 10 ^ (-d.exponent).toNat := Nat.pow_pos (by decide)
  have hden' : (0 : ℚ) < i.den := Nat.cast_pos.2 hden
  have hdown' : (0 : ℚ) < (10 ^ (-d.exponent).toNat : ℕ) := Nat.cast_pos.2 hdown
  unfold contains Mem lower upper
  rw [toRat_eq_div]
  simp only [div_le_div_iff₀ hden' hdown', div_le_div_iff₀ hdown' hden',
    div_lt_div_iff₀ hden' hdown', div_lt_div_iff₀ hdown' hden', ← Nat.cast_mul, Nat.cast_le,
    Nat.cast_lt]
  split <;> simp

end Interval

/-! ## The interval of a number -/

section

variable (f : Format) (m : ℕ) (e : ℤ)

/-- An interval in quarters of a unit of the last place. -/
theorem interval_eq : ∃ s d : ℕ, 0 < d ∧ (s : ℚ) / d = 2 ^ e / 4 ∧
    interval f m e =
      { low := (4 * m - if m = f.implicit ∧ f.lowest < e then 1 else 2) * s
        value := 4 * m * s
        high := (4 * m + 2) * s
        den := d
        closed := m % 2 = 0 } := by
  refine ⟨_, _, ?_, ?_, rfl⟩
  · split
    · exact Nat.one_pos
    · exact Nat.two_pow_pos _
  · have hpow := zpow_eq_div (b := 2) (by decide) (e - 2)
    have hquarter : (2 : ℚ) ^ e / 4 = 2 ^ (e - 2) := by
      rw [zpow_sub₀ two_ne_zero]
      norm_num
    rw [Nat.cast_ofNat] at hpow
    rw [hquarter, hpow, neg_sub]
    split
    · have hzero : (2 - e).toNat = 0 := by omega
      rw [hzero, pow_zero, Nat.pow_eq]
    · have hzero : (e - 2).toNat = 0 := by omega
      rw [hzero, pow_zero, Nat.pow_eq]

theorem den_interval_pos : 0 < (interval f m e).den := by
  obtain ⟨s, d, hd, -, h⟩ := interval_eq f m e
  rw [h]
  exact hd

theorem value_interval : ((interval f m e).value : ℚ) / (interval f m e).den = m * 2 ^ e := by
  obtain ⟨s, d, -, hs, h⟩ := interval_eq f m e
  rw [h]
  push_cast
  rw [mul_div_assoc, hs]
  ring

theorem upper_interval : (interval f m e).upper = m * 2 ^ e + 2 ^ e / 2 := by
  obtain ⟨s, d, -, hs, h⟩ := interval_eq f m e
  rw [Interval.upper, h]
  push_cast
  rw [mul_div_assoc, hs]
  ring

theorem lower_interval (hm : 0 < m) : (interval f m e).lower =
    m * 2 ^ e - if m = f.implicit ∧ f.lowest < e then 2 ^ e / 4 else 2 ^ e / 2 := by
  obtain ⟨s, d, -, hs, h⟩ := interval_eq f m e
  rw [Interval.lower, h]
  split
  · rw [Nat.cast_mul, mul_div_assoc, hs, Nat.cast_sub (by omega)]
    push_cast
    ring
  · rw [Nat.cast_mul, mul_div_assoc, hs, Nat.cast_sub (by omega)]
    push_cast
    ring

end

/-- The interval of the number of a pattern. -/
def intervalOf (f : Format) (p : ℕ) : Interval :=
  interval f (f.significand p) (f.scale p)

variable {f : Format} {p q : ℕ} {x : ℚ}

/-- The interval of a number ends halfway to the next. -/
theorem upper_intervalOf (f : Format) (p : ℕ) :
    (intervalOf f p).upper = (f.value p + f.value (p + 1)) / 2 := by
  rw [intervalOf, upper_interval, f.value_succ, Format.value]
  ring

/-- The interval of a number begins halfway from the one before. -/
theorem lower_intervalOf (f : Format) (p : ℕ) :
    (intervalOf f (p + 1)).lower = (f.value p + f.value (p + 1)) / 2 := by
  have hlower : (intervalOf f (p + 1)).lower = f.value (p + 1) - 2 ^ f.scale p / 2 := by
    rw [intervalOf, lower_interval _ _ _ (Format.significand_pos p.succ_pos), f.scale_eq p,
      Format.value]
    split
    · rw [zpow_sub_one₀ two_ne_zero]
      ring
    · rfl
  rw [hlower, f.value_succ]
  ring

theorem closed_intervalOf (hf : 2 ≤ f.precision) (p : ℕ) :
    (intervalOf f p).closed = decide (p % 2 = 0) := by
  rw [← Format.significand_mod_two (f := f) hf]
  rfl

/-- Different numbers have nothing in common. -/
theorem not_mem_of_lt (hf : 2 ≤ f.precision) (h : p < q) (hp : (intervalOf f p).Mem x)
    (hq : (intervalOf f q).Mem x) : False := by
  obtain ⟨r, rfl⟩ : ∃ r, q = r + 1 := ⟨q - 1, by omega⟩
  have hpr : p ≤ r := Nat.le_of_lt_succ h
  have hval : f.value p ≤ f.value r := f.value_strictMono.monotone hpr
  have hval' : f.value (p + 1) ≤ f.value (r + 1) :=
    f.value_strictMono.monotone (Nat.succ_le_succ hpr)
  have hupper := hp.le.2
  have hlower := hq.le.1
  rw [upper_intervalOf] at hupper
  rw [lower_intervalOf] at hlower
  -- Both ends are at the same place, so one number follows the other.
  obtain rfl : p = r := f.value_strictMono.injective (by linarith)
  have hend : x = (f.value p + f.value (p + 1)) / 2 := by linarith
  unfold Interval.Mem at hp hq
  rw [closed_intervalOf hf] at hp hq
  rw [upper_intervalOf] at hp
  rw [lower_intervalOf] at hq
  rcases Nat.mod_two_eq_zero_or_one p with heven | hodd
  · have hodd : (p + 1) % 2 ≠ 0 := by omega
    rw [if_neg (by simpa using hodd)] at hq
    exact hq.1.ne' hend
  · rw [if_neg (by simp [hodd])] at hp
    exact hp.2.ne hend

theorem eq_of_mem (hf : 2 ≤ f.precision) (hp : (intervalOf f p).Mem x)
    (hq : (intervalOf f q).Mem x) : p = q := by
  rcases Nat.lt_trichotomy p q with h | h | h
  · exact (not_mem_of_lt hf h hp hq).elim
  · exact h
  · exact (not_mem_of_lt hf h hq hp).elim

/-! ## The grid -/

theorem digitCount_pos {n : ℕ} (hn : 0 < n) : 0 < digitCount n := by
  rw [digitCount, if_neg hn.ne']
  exact Nat.length_toDigits_pos

theorem digitCount_le_iff {n k : ℕ} (hk : 0 < k) : digitCount n ≤ k ↔ n < 10 ^ k := by
  by_cases hn : n = 0
  · simp [digitCount, hn]
  · rw [digitCount, if_neg hn, Nat.length_toDigits_le_iff (by decide) hk]

theorem ten_pow_le {n : ℕ} (hn : 0 < n) : 10 ^ (digitCount n - 1) ≤ n := by
  have hpos := digitCount_pos hn
  by_cases hone : digitCount n = 1
  · rw [hone]
    exact hn
  · have hlt : ¬ digitCount n ≤ digitCount n - 1 := by omega
    rw [digitCount_le_iff (by omega)] at hlt
    exact Nat.le_of_not_lt hlt

theorem lt_ten_pow {n : ℕ} (hn : 0 < n) : n < 10 ^ digitCount n :=
  (digitCount_le_iff (digitCount_pos hn)).1 le_rfl

/-- The power of ten below a quotient is not above it. -/
theorem floorLog_le {num den : ℕ} (hnum : 0 < num) (hden : 0 < den) :
    (10 : ℚ) ^ floorLog num den ≤ num / den := by
  rw [floorLog]
  split
  · rename_i hle
    have hq : 0 < num / den := Nat.div_pos hle hden
    have hexp : (digitCount (num / den) : ℤ) - 1 = (digitCount (num / den) - 1 : ℕ) := by
      have := digitCount_pos hq
      omega
    rw [hexp, zpow_natCast]
    calc (10 : ℚ) ^ (digitCount (num / den) - 1) ≤ (num / den : ℕ) := by
          exact_mod_cast ten_pow_le hq
      _ ≤ num / den := Nat.cast_div_le
  · rename_i hlt
    have hq : 0 < (den - 1) / num := Nat.div_pos (by omega) hnum
    have hbound : den ≤ num * 10 ^ digitCount ((den - 1) / num) := by
      have h := (Nat.div_lt_iff_lt_mul hnum).1 (lt_ten_pow hq)
      rw [Nat.mul_comm] at h
      omega
    rw [zpow_neg, zpow_natCast, inv_eq_one_div,
      div_le_div_iff₀ (by positivity) (by exact_mod_cast hden)]
    have hcast : (den : ℚ) ≤ num * 10 ^ digitCount ((den - 1) / num) := by exact_mod_cast hbound
    linarith

namespace Interval

variable {i : Interval} {tie : Tie} {leading : ℤ} {count : ℕ} {d : Decimal}

/-- The neighbour below the number of an interval, on the grid of an exponent. -/
def below (i : Interval) (exponent : ℤ) : Decimal :=
  ⟨i.value * Nat.pow 10 (-exponent).toNat / (i.den * Nat.pow 10 exponent.toNat), exponent⟩

/-- The neighbour above. -/
def above (i : Interval) (exponent : ℤ) : Decimal :=
  ⟨(i.below exponent).digits + 1, exponent⟩

theorem toRat_above (i : Interval) (exponent : ℤ) :
    (i.above exponent).toRat = (i.below exponent).toRat + 10 ^ exponent := by
  simp only [toRat, above, below]
  push_cast
  ring

/-- A number lies between its neighbours. -/
theorem between (hden : 0 < i.den) (exponent : ℤ) :
    (i.below exponent).toRat ≤ i.value / i.den ∧
      (i.value / i.den : ℚ) < (i.above exponent).toRat := by
  have hgrid : (0 : ℚ) < 10 ^ exponent := by positivity
  obtain ⟨num, hnum⟩ : ∃ num, i.value * Nat.pow 10 (-exponent).toNat = num := ⟨_, rfl⟩
  obtain ⟨den, hdeneq⟩ : ∃ den, i.den * Nat.pow 10 exponent.toNat = den := ⟨_, rfl⟩
  have hdenpos : 0 < den := hdeneq ▸ Nat.mul_pos hden (Nat.pow_pos (by decide))
  have hdenpos' : (0 : ℚ) < den := Nat.cast_pos.2 hdenpos
  -- The number is `num / den` steps of the grid.
  have hsteps : (i.value / i.den : ℚ) = num / den * 10 ^ exponent := by
    have hpow := zpow_eq_div (b := 10) (by decide) exponent
    rw [Nat.cast_ofNat] at hpow
    have hi : (i.den : ℚ) ≠ 0 := Nat.cast_ne_zero.2 hden.ne'
    rw [← hnum, ← hdeneq, hpow, Nat.pow_eq, Nat.pow_eq, Nat.cast_mul, Nat.cast_mul]
    field_simp
  have hle : ((num / den : ℕ) : ℚ) ≤ num / den := Nat.cast_div_le
  have hlt : (num / den : ℚ) < (num / den : ℕ) + 1 := by
    rw [div_lt_iff₀ hdenpos', mul_comm]
    exact_mod_cast Nat.lt_mul_div_succ num hdenpos
  simp only [toRat, above, below, hnum, hdeneq, hsteps]
  push_cast
  exact ⟨mul_le_mul_of_nonneg_right hle hgrid.le, mul_lt_mul_of_pos_right hlt hgrid⟩

/-- A neighbour is in the interval if the ends are more than half a step of the grid away. -/
theorem contains_neighbour (hden : 0 < i.den) (exponent : ℤ)
    (hlower : i.lower < i.value / i.den - 10 ^ exponent / 2)
    (hupper : i.value / i.den + 10 ^ exponent / 2 < i.upper) :
    i.contains (i.below exponent) = true ∨ i.contains (i.above exponent) = true := by
  obtain ⟨hbelow, habove⟩ := between hden exponent
  have hstep := i.toRat_above exponent
  rw [contains_iff hden, contains_iff hden]
  by_cases hnear : (i.value / i.den : ℚ) - (i.below exponent).toRat ≤ 10 ^ exponent / 2
  · exact .inl (.of_lt (by linarith) (by linarith))
  · exact .inr (.of_lt (by linarith) (by linarith))

theorem contains_of_onGrid (h : i.onGrid tie leading count = some d) : i.contains d = true := by
  unfold onGrid at h
  simp only at h
  split at h
  · rename_i hb ha
    split at h
    · cases h
      exact hb
    · cases h
      exact ha
  · rename_i hb ha
    cases h
    exact hb
  · rename_i hb ha
    cases h
    exact ha
  · cases h

theorem exists_onGrid (tie : Tie)
    (h : i.contains (i.below (leading + 1 - count)) = true ∨
      i.contains (i.above (leading + 1 - count)) = true) :
    ∃ d, i.onGrid tie leading count = some d := by
  unfold onGrid
  simp only
  split
  · split
    · exact ⟨_, rfl⟩
    · exact ⟨_, rfl⟩
  · exact ⟨_, rfl⟩
  · exact ⟨_, rfl⟩
  · rename_i hb ha
    exact (h.elim (fun h => by cases h.symm.trans hb) fun h => by cases h.symm.trans ha)

end Interval

theorem value_pos (f : Format) (hp : 0 < p) : 0 < f.value p := by
  have hm : (0 : ℚ) < f.significand p := Nat.cast_pos.2 (Format.significand_pos hp)
  exact mul_pos hm (by positivity)

/-- The first digit of a number is worth no more than the number. -/
theorem leading_le (f : Format) (hp : 0 < p) :
    (10 : ℚ) ^ floorLog (intervalOf f p).value (intervalOf f p).den ≤ f.value p := by
  have hden : 0 < (intervalOf f p).den := den_interval_pos _ _ _
  have hvalue : ((intervalOf f p).value : ℚ) / (intervalOf f p).den = f.value p :=
    value_interval _ _ _
  have hnum : 0 < (intervalOf f p).value := by
    rw [Nat.pos_iff_ne_zero]
    intro hzero
    rw [hzero, Nat.cast_zero, zero_div] at hvalue
    exact (value_pos f hp).ne hvalue
  rw [← hvalue]
  exact floorLog_le hnum hden

/-- On a grid of seventeen digits, a neighbour of a number is in its interval. -/
theorem exists_onGrid_seventeen (hf : f.precision ≤ 53) (hp : 0 < p) (tie : Tie) :
    ∃ d, (intervalOf f p).onGrid tie
      (floorLog (intervalOf f p).value (intervalOf f p).den) 17 = some d := by
  have hm : 0 < f.significand p := Format.significand_pos hp
  have hden : 0 < (intervalOf f p).den := den_interval_pos _ _ _
  have hvalue : ((intervalOf f p).value : ℚ) / (intervalOf f p).den = f.value p :=
    value_interval _ _ _
  have hunit : (0 : ℚ) < 2 ^ f.scale p := by positivity
  have himplicit : (f.implicit : ℚ) ≤ 2 ^ 52 := by
    exact_mod_cast Nat.pow_le_pow_right (by decide : 0 < 2) (by omega : f.precision - 1 ≤ 52)
  have hlt : (f.significand p : ℚ) < 2 * f.implicit := by exact_mod_cast f.significand_lt p
  -- A step of the grid is at most so much of the number.
  have hleading := leading_le f hp
  generalize floorLog (intervalOf f p).value (intervalOf f p).den = leading at hleading
  have hstep : (10 : ℚ) ^ (leading + 1 - (17 : ℕ)) ≤ f.significand p * 2 ^ f.scale p / 10 ^ 16 := by
    have hexp : leading + 1 - (17 : ℕ) = leading - (16 : ℕ) := by
      push_cast
      ring
    rw [hexp, zpow_sub₀ (by norm_num), zpow_natCast]
    exact div_le_div_of_nonneg_right hleading (by positivity)
  refine Interval.exists_onGrid tie (Interval.contains_neighbour hden _ ?_ ?_)
  · rw [hvalue, intervalOf, lower_interval _ _ _ hm, Format.value]
    split
    · rename_i hfirst
      rw [hfirst.1] at hstep ⊢
      nlinarith
    · nlinarith
  · rw [hvalue, intervalOf, upper_interval, Format.value]
    nlinarith

/-! ## Shortest decimals -/

theorem toRat_dropZeros (n : ℕ) (d : Decimal) : (dropZeros n d).toRat = d.toRat := by
  induction n generalizing d with
  | zero => rfl
  | succ n ih =>
    rw [dropZeros]
    split
    · rename_i hzero
      have hdigits : (d.digits : ℚ) = (d.digits / 10 : ℕ) * 10 := by
        exact_mod_cast (Nat.div_mul_cancel (Nat.dvd_of_mod_eq_zero hzero)).symm
      rw [ih, toRat, toRat, hdigits, zpow_add_one₀ (by norm_num)]
      ring
    · rfl

/-- The shortest decimal of a number is in its interval. -/
theorem shortest_mem (hf : f.precision ≤ 53) (hp : 0 < p) (tie : Tie) :
    (intervalOf f p).Mem (shortest f tie (f.significand p) (f.scale p)).toRat := by
  have hden : 0 < (intervalOf f p).den := den_interval_pos _ _ _
  obtain ⟨d, hd⟩ := exists_onGrid_seventeen hf hp tie
  have hfound : ((List.range 17).findSome? fun n => (intervalOf f p).onGrid tie
      (floorLog (intervalOf f p).value (intervalOf f p).den) (n + 1)).isSome = true :=
    List.findSome?_isSome_iff.2 ⟨16, by simp, by simp [hd]⟩
  obtain ⟨d', hd'⟩ := Option.isSome_iff_exists.1 hfound
  obtain ⟨n, -, hn⟩ := List.exists_of_findSome?_eq_some hd'
  rw [shortest, toRat_dropZeros, ← intervalOf, hd', Option.getD_some]
  exact (Interval.contains_iff hden d').1 (Interval.contains_of_onGrid hn)

theorem lower_pos (f : Format) (hp : 0 < p) : 0 < (intervalOf f p).lower := by
  obtain ⟨r, rfl⟩ : ∃ r, p = r + 1 := ⟨p - 1, by omega⟩
  have hnonneg : 0 ≤ f.value r := mul_nonneg (Nat.cast_nonneg _) (by positivity)
  have hpos := value_pos f hp
  rw [lower_intervalOf]
  linarith

theorem shortest_pos (hf : f.precision ≤ 53) (hp : 0 < p) (tie : Tie) :
    0 < (shortest f tie (f.significand p) (f.scale p)).digits := by
  have hpos := (lower_pos f hp).trans_le (shortest_mem hf hp tie).le.1
  rw [Nat.pos_iff_ne_zero]
  intro hzero
  rw [toRat, hzero, Nat.cast_zero, zero_mul] at hpos
  exact lt_irrefl _ hpos

/-- Numbers with the same shortest decimal are the same. -/
theorem shortest_inj {tie : Tie} (hf : 2 ≤ f.precision) (hf' : f.precision ≤ 53) (hp : 0 < p)
    (hq : 0 < q) (h : (shortest f tie (f.significand p) (f.scale p)).toRat =
      (shortest f tie (f.significand q) (f.scale q)).toRat) : p = q :=
  eq_of_mem hf (shortest_mem hf' hp tie) (h ▸ shortest_mem hf' hq tie)

end Decimal

end SignalGraph
