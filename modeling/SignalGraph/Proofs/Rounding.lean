import SignalGraph.Proofs.NumberText

/-!
# Reading the number nearest to a numeral

A quotient is rounded to the number of the format in whose interval it lies (`round_rounds`), and a
numeral is read as that number (`nearest_rounds`). Intervals have nothing in common, so the
text of a finite double reads as that double (`double?_write`). Singles are read by way of doubles,
so that rounding twice may give another single; but their texts are not too large for a double
(`double?_write_single`).
-/

namespace SignalGraph

open Decimal

namespace Format

variable {f : Format} {num den k m p q : ℕ} {x y : ℚ}

/-! ## Quotients -/

/-- A natural number is nearest to `y`, and even if another one is as near. -/
def Near (m : ℕ) (y : ℚ) : Prop :=
  |y - m| ≤ 1 / 2 ∧ (|y - m| = 1 / 2 → m % 2 = 0)

theorem near_divEven (num : ℕ) (hden : 0 < den) : Near (divEven num den) (num / den) := by
  have hden' : (0 : ℚ) < den := Nat.cast_pos.2 hden
  have hsplit : (num : ℚ) / den = (num / den : ℕ) + (num % den : ℕ) / den := by
    rw [eq_comm, ← mul_right_inj' hden'.ne', mul_add, mul_div_cancel₀ _ hden'.ne',
      mul_div_cancel₀ _ hden'.ne']
    exact_mod_cast Nat.div_add_mod num den
  have hnonneg : (0 : ℚ) ≤ (num % den : ℕ) / den := by positivity
  have hlt : ((num % den : ℕ) : ℚ) / den < 1 := by
    rw [div_lt_one hden']
    exact_mod_cast Nat.mod_lt num hden
  rw [hsplit]
  unfold divEven
  simp only
  split
  · rename_i hdown
    have hhalf : ((num % den : ℕ) : ℚ) / den < 1 / 2 := by
      rw [div_lt_div_iff₀ hden' two_pos, one_mul, mul_comm]
      exact_mod_cast hdown
    rw [Near, add_sub_cancel_left, abs_of_nonneg hnonneg]
    exact ⟨hhalf.le, fun h => absurd h hhalf.ne⟩
  · rename_i hdown
    split
    · rename_i hup
      have hhalf : 1 / 2 < ((num % den : ℕ) : ℚ) / den := by
        rw [div_lt_div_iff₀ two_pos hden', one_mul, mul_comm]
        exact_mod_cast hup
      have habs :
          |((num / den : ℕ) : ℚ) + (num % den : ℕ) / den - (num / den + 1 : ℕ)| < 1 / 2 := by
        rw [abs_lt]
        push_cast
        constructor <;> linarith
      exact ⟨habs.le, fun h => absurd h habs.ne⟩
    · rename_i hup
      have htie : ((num % den : ℕ) : ℚ) / den = 1 / 2 := by
        rw [div_eq_div_iff hden'.ne' two_ne_zero, one_mul, mul_comm]
        exact_mod_cast (by omega : 2 * (num % den) = den)
      rw [htie]
      rcases Nat.mod_two_eq_zero_or_one (num / den) with heven | hodd
      · rw [Near, heven, Nat.add_zero, add_sub_cancel_left]
        exact ⟨by norm_num, fun _ => heven⟩
      · rw [Near, hodd]
        push_cast
        refine ⟨?_, fun _ => by omega⟩
        rw [add_sub_add_left_eq_sub]
        norm_num

theorem Near.le (h : Near m y) : (m : ℚ) - 1 / 2 ≤ y ∧ y ≤ m + 1 / 2 := by
  obtain ⟨hl, hu⟩ := abs_le.1 h.1
  constructor <;> linarith

theorem Near.lt (h : Near m y) (hm : m % 2 = 1) : (m : ℚ) - 1 / 2 < y ∧ y < m + 1 / 2 := by
  have hne : |y - m| ≠ 1 / 2 := fun he => by
    have heven := h.2 he
    omega
  obtain ⟨hl, hu⟩ := abs_lt.1 (lt_of_le_of_ne h.1 hne)
  constructor <;> linarith

theorem Near.le_of_lt {n : ℕ} (h : Near m y) (hy : y < n) : m ≤ n := by
  have hlt : (m : ℚ) < n + 1 := by linarith [h.le.1]
  exact Nat.le_of_lt_succ (by exact_mod_cast hlt)

theorem Near.le_of_le {n : ℕ} (h : Near m y) (hy : n ≤ y) : n ≤ m := by
  have hlt : (n : ℚ) < m + 1 := by linarith [h.le.2]
  exact Nat.le_of_lt_succ (by exact_mod_cast hlt)

/-- The difference of the logarithms is the logarithm of the quotient, or one more. -/
theorem log2_sub_log2 (hnum : 0 < num) (hden : 0 < den) :
    (2 : ℚ) ^ ((num.log2 : ℤ) - den.log2 - 1) ≤ num / den ∧
      (num : ℚ) / den < 2 ^ ((num.log2 : ℤ) - den.log2 + 1) := by
  have hden' : (0 : ℚ) < den := Nat.cast_pos.2 hden
  have hlown : (2 : ℚ) ^ (num.log2 : ℤ) ≤ num := by
    exact_mod_cast Nat.log2_self_le hnum.ne'
  have hhighn : (num : ℚ) < 2 ^ ((num.log2 : ℤ) + 1) := by
    exact_mod_cast Nat.lt_log2_self
  have hlowd : (2 : ℚ) ^ (den.log2 : ℤ) ≤ den := by
    exact_mod_cast Nat.log2_self_le hden.ne'
  have hhighd : (den : ℚ) < 2 ^ ((den.log2 : ℤ) + 1) := by
    exact_mod_cast Nat.lt_log2_self
  constructor
  · rw [le_div_iff₀ hden']
    calc (2 : ℚ) ^ ((num.log2 : ℤ) - den.log2 - 1) * den
        ≤ 2 ^ ((num.log2 : ℤ) - den.log2 - 1) * 2 ^ ((den.log2 : ℤ) + 1) := by gcongr
      _ = 2 ^ (num.log2 : ℤ) := by
        rw [← zpow_add₀ two_ne_zero]
        congr 1
        ring
      _ ≤ num := hlown
  · rw [div_lt_iff₀ hden']
    calc (num : ℚ) < 2 ^ ((num.log2 : ℤ) + 1) := hhighn
      _ = 2 ^ ((num.log2 : ℤ) - den.log2 + 1) * 2 ^ (den.log2 : ℤ) := by
        rw [← zpow_add₀ two_ne_zero]
        congr 1
        ring
      _ ≤ 2 ^ ((num.log2 : ℤ) - den.log2 + 1) * den := by gcongr

/-- A power of two is compared with a quotient on the side where its exponent is positive. -/
theorem fits_iff (num : ℕ) (hden : 0 < den) (e : ℤ) :
    (if 0 ≤ e then decide (den * Nat.pow 2 e.toNat ≤ num)
      else decide (den ≤ num * Nat.pow 2 (-e).toNat)) = true ↔ (2 : ℚ) ^ e ≤ num / den := by
  have hden' : (0 : ℚ) < den := Nat.cast_pos.2 hden
  have hpow := zpow_eq_div (b := 2) (by decide) e
  rw [Nat.cast_ofNat] at hpow
  rw [hpow, div_le_div_iff₀ (by positivity) hden']
  split
  · rename_i he
    have hzero : (-e).toNat = 0 := by omega
    rw [decide_eq_true_eq, hzero, pow_zero, Nat.cast_one, mul_one, Nat.mul_comm]
    exact_mod_cast Iff.rfl
  · rename_i he
    have hzero : e.toNat = 0 := by omega
    rw [decide_eq_true_eq, hzero, pow_zero, Nat.cast_one, one_mul]
    exact_mod_cast Iff.rfl

/-- A quotient lies between the power of two at its logarithm and the next. -/
theorem floorLog_spec (hnum : 0 < num) (hden : 0 < den) :
    (2 : ℚ) ^ floorLog num den ≤ num / den ∧ (num : ℚ) / den < 2 ^ (floorLog num den + 1) := by
  obtain ⟨hlow, hhigh⟩ := log2_sub_log2 hnum hden
  have hfits := fits_iff num hden ((num.log2 : ℤ) - den.log2)
  unfold floorLog
  simp only
  by_cases h : (2 : ℚ) ^ ((num.log2 : ℤ) - den.log2) ≤ num / den
  · rw [if_pos (hfits.2 h)]
    exact ⟨h, hhigh⟩
  · rw [if_neg (mt hfits.1 h), sub_add_cancel]
    exact ⟨hlow, not_le.1 h⟩

/-! ## Numbers on a grid -/

/-- From the grid of an exponent up to twice the first normal significand, numbers have the pattern
that the rounded significand is added to. -/
theorem value_grid (hm : m ≤ 2 * f.implicit) (hk : k = 0 ∨ f.implicit ≤ m) :
    f.value (f.implicit * k + m) = m * 2 ^ (f.lowest + k) := by
  have hpos := f.implicit_pos
  rcases Nat.lt_or_ge m f.implicit with hlt | hge
  · obtain rfl : k = 0 := hk.resolve_right (Nat.not_le.2 hlt)
    rw [value, significand_mul_add hlt, scale_mul_add hlt, if_pos rfl]
  · rcases Nat.lt_or_ge m (2 * f.implicit) with hlt | hge'
    · have hsplit : f.implicit * k + m = f.implicit * (k + 1) + (m - f.implicit) := by
        rw [Nat.mul_succ]
        omega
      have hr : m - f.implicit < f.implicit := by omega
      rw [hsplit, value, significand_mul_add hr, scale_mul_add hr, if_neg (Nat.succ_ne_zero k),
        Nat.sub_add_cancel hge, Nat.add_sub_cancel]
    · obtain rfl : m = 2 * f.implicit := by omega
      have hsplit : f.implicit * k + 2 * f.implicit = f.implicit * (k + 2) + 0 := by ring
      rw [hsplit, value, significand_mul_add hpos, scale_mul_add hpos, if_neg (by omega),
        Nat.zero_add, Nat.add_sub_assoc (by decide)]
      push_cast
      rw [← add_assoc, zpow_add_one₀ two_ne_zero]
      ring

theorem implicit_even (hf : 2 ≤ f.precision) : f.implicit % 2 = 0 := by
  obtain ⟨n, hn⟩ : ∃ n, f.precision - 1 = n + 1 := ⟨f.precision - 2, by omega⟩
  simp [implicit, hn, Nat.pow_succ]

theorem le_upper (hm : m ≤ 2 * f.implicit) (hk : k = 0 ∨ f.implicit ≤ m) :
    (m + 1 / 2) * 2 ^ (f.lowest + k) ≤ (intervalOf f (f.implicit * k + m)).upper := by
  have hpos := f.implicit_pos
  have hunit : (0 : ℚ) < 2 ^ (f.lowest + k : ℤ) := by positivity
  have hnext : ((m : ℚ) + 1) * 2 ^ (f.lowest + k) ≤ f.value (f.implicit * k + m + 1) := by
    rcases Nat.lt_or_ge m (2 * f.implicit) with hlt | hge
    · rw [Nat.add_assoc, value_grid hlt (hk.imp_right Nat.le_succ_of_le)]
      push_cast
      rfl
    · -- The next number is on the next grid.
      obtain rfl : m = 2 * f.implicit := by omega
      have hsplit : f.implicit * k + 2 * f.implicit + 1 =
          f.implicit * (k + 1) + (f.implicit + 1) := by ring
      rw [hsplit, value_grid (by omega) (.inr (Nat.le_succ _))]
      push_cast
      rw [← add_assoc, zpow_add_one₀ two_ne_zero]
      nlinarith
  rw [upper_intervalOf, value_grid hm hk]
  linarith

theorem lower_le (hm : m ≤ 2 * f.implicit) (hk : k = 0 ∨ f.implicit ≤ m)
    (hfirst : k = 0 ∨ m ≠ f.implicit) (hp : 0 < f.implicit * k + m) :
    (intervalOf f (f.implicit * k + m)).lower ≤ (m - 1 / 2) * 2 ^ (f.lowest + k) := by
  have hmpos : 0 < m := by
    rcases hk with rfl | hk
    · simpa using hp
    · exact f.implicit_pos.trans_le hk
  obtain ⟨n, rfl⟩ : ∃ n, m = n + 1 := ⟨m - 1, by omega⟩
  have hk' : k = 0 ∨ f.implicit ≤ n := by omega
  rw [← Nat.add_assoc, lower_intervalOf, Nat.add_assoc, value_grid hm hk,
    value_grid (by omega) hk']
  push_cast
  linarith

/-- What is rounded to a significand on the grid of an exponent lies in the interval of that
number, unless the significand is too small for the exponent. -/
theorem mem_of_near (hf : 2 ≤ f.precision) (hx : 0 < x) (hm : m ≤ 2 * f.implicit)
    (hk : k = 0 ∨ f.implicit * 2 ^ (f.lowest + k) ≤ x) (hnear : Near m (x / 2 ^ (f.lowest + k))) :
    (intervalOf f (f.implicit * k + m)).Mem x := by
  have hunit : (0 : ℚ) < 2 ^ (f.lowest + k : ℤ) := by positivity
  have hx' : x = x / 2 ^ (f.lowest + k) * 2 ^ (f.lowest + k) := (div_mul_cancel₀ x hunit.ne').symm
  have hkm : k = 0 ∨ f.implicit ≤ m :=
    hk.imp_right fun hle => hnear.le_of_le ((le_div_iff₀ hunit).2 hle)
  have hupper := le_upper hm hkm
  have hparity : (f.implicit * k + m) % 2 = m % 2 := by
    have hi := implicit_even hf
    rw [Nat.add_mod, Nat.mul_mod, hi]
    simp
  unfold Interval.Mem
  rw [closed_intervalOf hf, hparity]
  rcases (f.implicit * k + m).eq_zero_or_pos with hzero | hp
  · have hlower : (intervalOf f (f.implicit * k + m)).lower = 0 := by
      obtain ⟨s, d, -, -, h⟩ := interval_eq f 0 (f.scale 0)
      have hsig : f.significand 0 = 0 := significand_eq_zero.2 rfl
      rw [hzero, intervalOf, hsig, h, Interval.lower]
      simp
    have hm0 : m = 0 := by omega
    rw [if_pos (by simp [hm0]), hlower]
    refine ⟨hx.le, le_trans ?_ hupper⟩
    rw [hx']
    exact mul_le_mul_of_nonneg_right hnear.le.2 hunit.le
  · by_cases hfirst : k = 0 ∨ m ≠ f.implicit
    · have hlower := lower_le hm hkm hfirst hp
      rcases Nat.mod_two_eq_zero_or_one m with heven | hodd
      · rw [if_pos (by simpa using heven)]
        refine ⟨hlower.trans ?_, le_trans ?_ hupper⟩ <;> rw [hx']
        · exact mul_le_mul_of_nonneg_right hnear.le.1 hunit.le
        · exact mul_le_mul_of_nonneg_right hnear.le.2 hunit.le
      · rw [if_neg (by simp [hodd])]
        refine ⟨hlower.trans_lt ?_, lt_of_lt_of_le ?_ hupper⟩ <;> rw [hx']
        · exact mul_lt_mul_of_pos_right (hnear.lt hodd).1 hunit
        · exact mul_lt_mul_of_pos_right (hnear.lt hodd).2 hunit
    · -- The number before is on a finer grid, but the quotient is not below the number.
      push Not at hfirst
      obtain ⟨hk0, rfl⟩ := hfirst
      have hle := hk.resolve_left hk0
      have hlower : (intervalOf f (f.implicit * k + f.implicit)).lower < x := by
        obtain ⟨n, hn⟩ : ∃ n, f.implicit * k + f.implicit = n + 1 :=
          ⟨_, (Nat.succ_pred hp.ne').symm⟩
        have hvalue := value_grid (f := f) (k := k) (by omega) hkm
        have hlt := f.value_strictMono (Nat.lt_succ_self n)
        rw [hn] at hvalue
        rw [hn, lower_intervalOf]
        linarith
      have heven := implicit_even hf
      rw [if_pos (by simpa using heven)]
      refine ⟨hlower.le, le_trans ?_ hupper⟩
      rw [hx']
      exact mul_le_mul_of_nonneg_right hnear.le.2 hunit.le

/-- A significand for an exponent is nearest to the quotient on the grid of that exponent. -/
theorem near_scaled (num : ℕ) (hden : 0 < den) (e : ℤ) :
    Near (if 0 ≤ e then divEven num (den * Nat.pow 2 e.toNat)
      else divEven (num * Nat.pow 2 (-e).toNat) den) (num / den / 2 ^ e) := by
  have hpow := zpow_eq_div (b := 2) (by decide) e
  rw [Nat.cast_ofNat] at hpow
  rw [hpow]
  split
  · rename_i he
    have hzero : (-e).toNat = 0 := by omega
    have hnear := near_divEven num (Nat.mul_pos hden (Nat.two_pow_pos e.toNat))
    rw [Nat.cast_mul, ← div_div] at hnear
    rwa [hzero, pow_zero, Nat.cast_one, div_one]
  · rename_i he
    have hzero : e.toNat = 0 := by omega
    have hnear := near_divEven (num * 2 ^ (-e).toNat) hden
    rw [Nat.cast_mul, mul_div_right_comm] at hnear
    rwa [hzero, pow_zero, Nat.cast_one, one_div, div_inv_eq_mul]

/-- A positive number is rounded to this pattern: the one in whose interval it lies, or infinity if
that comes before. -/
def Rounds (f : Format) (x : ℚ) (p : ℕ) : Prop :=
  ∃ q, p = min f.infinity q ∧ (intervalOf f q).Mem x

/-- Rounding goes to the nearest number. -/
theorem round_rounds (hf : 2 ≤ f.precision) (hnum : 0 < num) (hden : 0 < den) :
    f.Rounds (num / den) (f.round num den) := by
  obtain ⟨hlow, hhigh⟩ := floorLog_spec hnum hden
  have hx : (0 : ℚ) < num / den := div_pos (Nat.cast_pos.2 hnum) (Nat.cast_pos.2 hden)
  have himplicit : (f.implicit : ℚ) = 2 ^ ((f.precision - 1 : ℕ) : ℤ) := by
    rw [implicit, Nat.pow_eq, zpow_natCast]
    push_cast
    rfl
  obtain ⟨k, hk⟩ : ∃ k : ℕ,
      max f.lowest (floorLog num den - (f.precision - 1 : ℕ)) = f.lowest + k :=
    ⟨(max f.lowest (floorLog num den - (f.precision - 1 : ℕ)) - f.lowest).toNat, by omega⟩
  have hunit : (0 : ℚ) < 2 ^ (f.lowest + k : ℤ) := by positivity
  have hnear := near_scaled num hden (f.lowest + k)
  have hround : f.round num den = min f.infinity (f.implicit * k +
      if 0 ≤ f.lowest + k then divEven num (den * Nat.pow 2 (f.lowest + k : ℤ).toNat)
      else divEven (num * Nat.pow 2 (-(f.lowest + k) : ℤ).toNat) den) := by
    unfold round
    simp only [if_neg hnum.ne', hk, add_sub_cancel_left, Int.toNat_natCast, Nat.mul_comm k]
  refine ⟨_, hround, mem_of_near hf hx ?_ ?_ hnear⟩
  · -- The quotient is below twice the first significand with the implicit bit.
    refine hnear.le_of_lt ?_
    rw [div_lt_iff₀ hunit, Nat.cast_mul, himplicit, Nat.cast_ofNat, ← zpow_one_add₀ two_ne_zero,
      ← zpow_add₀ two_ne_zero]
    exact hhigh.trans_le (zpow_le_zpow_right₀ one_le_two (by omega))
  · rcases Nat.eq_zero_or_pos k with hk0 | hkpos
    · exact .inl hk0
    · refine .inr (le_trans ?_ hlow)
      rw [himplicit, ← zpow_add₀ two_ne_zero]
      exact zpow_le_zpow_right₀ one_le_two (by omega)

theorem Rounds.eq_of_mem (hf : 2 ≤ f.precision) (h : f.Rounds x p) (hq : (intervalOf f q).Mem x)
    (hlt : q < f.infinity) : p = q := by
  obtain ⟨r, rfl, hr⟩ := h
  obtain rfl := Decimal.eq_of_mem hf hr hq
  exact Nat.min_eq_right hlt.le

/-- What is not above some number of the format is not rounded to infinity. -/
theorem Rounds.lt_infinity (h : f.Rounds x p) (hx : x ≤ f.value q) (hq : q < f.infinity) :
    p < f.infinity := by
  obtain ⟨r, rfl, hr⟩ := h
  refine min_lt_of_right_lt (Nat.lt_of_not_le fun hle => ?_)
  obtain ⟨n, rfl⟩ : ∃ n, r = n + 1 := ⟨r - 1, by omega⟩
  have hlower := hr.le.1
  have hqn : f.value q ≤ f.value n := f.value_strictMono.monotone (by omega)
  have hlt := f.value_strictMono (Nat.lt_succ_self n)
  rw [lower_intervalOf] at hlower
  linarith

end Format

/-! ## Signs and infinities -/

namespace Format

variable {f : Format} {p : ℕ}

theorem unsigned_withSign (negative : Bool) (hp : p < f.signBit) :
    f.unsigned (f.withSign negative p) = p := by
  rw [unsigned, withSign]
  split
  · rw [Nat.add_mod_left, Nat.mod_eq_of_lt hp]
  · exact Nat.mod_eq_of_lt hp

theorem lt_infinity_of_finite {m : ℕ} {e : ℤ} (h : f.magnitude p = .finite m e) :
    p < f.infinity := by
  unfold magnitude at h
  simp only at h
  split at h
  · split at h <;> cases h
  · rename_i hfield
    exact (Nat.div_lt_iff_lt_mul f.implicit_pos).1 (Nat.lt_of_not_le hfield)

theorem finite_of_lt_infinity (h : p < f.infinity) : ∃ m e, f.magnitude p = .finite m e := by
  have hfield : ¬ f.top ≤ p / f.implicit :=
    Nat.not_le.2 ((Nat.div_lt_iff_lt_mul f.implicit_pos).2 h)
  unfold magnitude
  simp only [hfield, if_false]
  split
  · exact ⟨_, _, rfl⟩
  · exact ⟨_, _, rfl⟩

theorem magnitude_infinity (f : Format) : f.magnitude f.infinity = .infinite := by
  simp [magnitude, infinity, Nat.mul_div_cancel _ f.implicit_pos]

theorem withSign_lt (negative : Bool) (hp : p < f.signBit) :
    f.withSign negative p < 2 * f.signBit := by
  rw [withSign]
  split <;> omega

theorem round_le_infinity (f : Format) (num den : ℕ) : f.round num den ≤ f.infinity := by
  unfold round
  split
  · exact Nat.zero_le _
  · exact Nat.min_le_left _ _

end Format

/-! ## Numerals -/

namespace Numeral

open Format

variable {n : Numeral}

theorem worth_eq_div (n : Numeral) :
    n.worth = (n.digits * 10 ^ n.exponent.toNat : ℕ) / (10 ^ (-n.exponent).toNat : ℕ) :=
  toRat_eq_div ⟨n.digits, n.exponent⟩

/-- A numeral lies between the powers of ten that its size says. -/
theorem worth_bounds (hn : 0 < n.digits) :
    (10 : ℚ) ^ ((digitCount n.digits : ℤ) + n.exponent - 1) ≤ n.worth ∧
      n.worth < 10 ^ ((digitCount n.digits : ℤ) + n.exponent) := by
  have hcount : (digitCount n.digits : ℤ) - 1 = (digitCount n.digits - 1 : ℕ) := by
    have := digitCount_pos hn
    omega
  have hunit : (0 : ℚ) < 10 ^ n.exponent := by positivity
  have hlow : (10 : ℚ) ^ ((digitCount n.digits : ℤ) - 1) ≤ n.digits := by
    rw [hcount, zpow_natCast]
    exact_mod_cast ten_pow_le hn
  have hhigh : (n.digits : ℚ) < 10 ^ (digitCount n.digits : ℤ) := by
    exact_mod_cast lt_ten_pow hn
  constructor
  · rw [add_sub_right_comm, zpow_add₀ (by norm_num), worth]
    exact mul_le_mul_of_nonneg_right hlow hunit.le
  · rw [zpow_add₀ (by norm_num), worth]
    exact mul_lt_mul_of_pos_right hhigh hunit

/-- The doubles lie within the sizes that are rounded. -/
theorem two_pow_lt : (2 : ℚ) ^ 1075 < 10 ^ 400 := by
  have height : ((2 : ℚ) ^ 3) ^ 400 < 10 ^ 400 :=
    pow_lt_pow_left₀ (by norm_num) (by norm_num) (by decide)
  rw [← pow_mul] at height
  exact (pow_le_pow_right₀ one_le_two (by decide)).trans_lt height

/-- Where the doubles end. -/
theorem value_infinity : Format.double.value Format.double.infinity = 2 ^ 1024 := by
  have hgrid := value_grid (f := .double) (k := 2046) (m := Format.double.implicit)
    (Nat.le_mul_of_pos_left _ two_pos) (.inr le_rfl)
  have hpattern : Format.double.implicit * 2046 + Format.double.implicit =
      Format.double.infinity := rfl
  have himplicit : (Format.double.implicit : ℚ) = 2 ^ 52 := by
    norm_num [implicit, Format.double]
  have hscale : Format.double.lowest + (2046 : ℕ) = (972 : ℕ) := rfl
  rw [hpattern, himplicit, hscale, zpow_natCast, ← pow_add] at hgrid
  exact hgrid

/-- Where the doubles begin. -/
theorem lower_double {p : ℕ} (hp : 0 < p) : (2 ^ 1075 : ℚ)⁻¹ ≤ (intervalOf .double p).lower := by
  obtain ⟨q, rfl⟩ : ∃ q, p = q + 1 := ⟨p - 1, by omega⟩
  have hfirst := value_grid (f := .double) (k := 0) (m := 1) (by decide) (.inl rfl)
  have hle : Format.double.value 1 ≤ Format.double.value (q + 1) :=
    Format.double.value_strictMono.monotone (by omega)
  have hnonneg : 0 ≤ Format.double.value q := mul_nonneg (Nat.cast_nonneg _) (by positivity)
  have hlowest : (Format.double.lowest + (0 : ℕ) : ℤ) = -(1074 : ℕ) := rfl
  have hhalf : (2 ^ 1075 : ℚ)⁻¹ = (2 ^ 1074)⁻¹ / 2 := by rw [pow_succ, mul_inv, div_eq_mul_inv]
  rw [Nat.mul_zero, Nat.zero_add, hlowest, Nat.cast_one, one_mul, zpow_neg, zpow_natCast] at hfirst
  rw [lower_intervalOf, hhalf]
  generalize ((2 : ℚ) ^ 1074)⁻¹ = a at hfirst
  linarith

/-- A numeral is read as the double it is rounded to, with its sign. Where its size decides alone,
rounding would give the same. -/
theorem nearest_rounds (hn : 0 < n.digits) :
    ∃ p, nearest .double n = Format.double.withSign n.negative p ∧
      Format.double.Rounds n.worth p := by
  obtain ⟨hlow, hhigh⟩ := worth_bounds hn
  have hrounds : Format.double.Rounds n.worth
      (if 0 ≤ n.exponent then Format.double.round (n.digits * Nat.pow 10 n.exponent.toNat) 1
        else Format.double.round n.digits (Nat.pow 10 (-n.exponent).toNat)) := by
    have h := round_rounds (f := .double) (by decide)
      (Nat.mul_pos hn (Nat.pow_pos (n := n.exponent.toNat) (by decide : 0 < 10)))
      (Nat.pow_pos (n := (-n.exponent).toNat) (by decide : 0 < 10))
    rw [← worth_eq_div] at h
    split
    · rename_i he
      have hzero : (-n.exponent).toNat = 0 := by omega
      rwa [hzero, pow_zero] at h
    · rename_i he
      have hzero : n.exponent.toNat = 0 := by omega
      rwa [hzero, pow_zero, Nat.mul_one] at h
  refine ⟨_, rfl, ?_⟩
  split
  · rename_i h
    have hsize := h.resolve_left hn.ne'
    obtain ⟨q, -, hq⟩ := hrounds
    have hzero : q = 0 := by
      by_contra hne
      have hlower := (lower_double (Nat.pos_of_ne_zero hne)).trans hq.le.1
      have hsmall : (10 : ℚ) ^ ((digitCount n.digits : ℤ) + n.exponent) ≤ 10 ^ (-400 : ℤ) :=
        zpow_le_zpow_right₀ (by norm_num) hsize.le
      have hten : (10 : ℚ) ^ (-400 : ℤ) < (2 ^ 1075)⁻¹ := by
        have hexp : (-400 : ℤ) = -(400 : ℕ) := rfl
        rw [hexp, zpow_neg, zpow_natCast]
        exact inv_strictAnti₀ (by positivity) two_pow_lt
      exact absurd (hlower.trans_lt (hhigh.trans_le hsmall)) hten.not_gt
    exact ⟨0, rfl, hzero ▸ hq⟩
  · split
    · rename_i hsize
      obtain ⟨q, -, hq⟩ := hrounds
      have hle : Format.double.infinity ≤ q := by
        by_contra hlt
        have hupper := hq.le.2
        have hinf := value_infinity
        have hq₁ : Format.double.value q ≤ Format.double.value Format.double.infinity :=
          Format.double.value_strictMono.monotone (by omega)
        have hq₂ : Format.double.value (q + 1) ≤ Format.double.value Format.double.infinity :=
          Format.double.value_strictMono.monotone (by omega)
        have hlarge : (10 : ℚ) ^ ((400 : ℕ) : ℤ) ≤
            10 ^ ((digitCount n.digits : ℤ) + n.exponent - 1) :=
          zpow_le_zpow_right₀ (by norm_num) (Int.le_sub_one_of_lt hsize)
        have htwo : (2 : ℚ) ^ 1024 < 10 ^ 400 :=
          (pow_le_pow_right₀ one_le_two (by decide)).trans_lt two_pow_lt
        rw [zpow_natCast] at hlarge
        rw [upper_intervalOf] at hupper
        generalize (2 : ℚ) ^ 1024 = a at *
        generalize (10 : ℚ) ^ 400 = b at *
        linarith
      exact ⟨q, (Nat.min_eq_left hle).symm, hq⟩
    · exact hrounds

theorem nearest_zero (hn : n.digits = 0) :
    nearest .double n = Format.double.withSign n.negative 0 := by
  simp [nearest, hn]

theorem worth_eq_zero : n.worth = 0 ↔ n.digits = 0 := by
  have hunit : (10 : ℚ) ^ n.exponent ≠ 0 := zpow_ne_zero _ (by norm_num)
  rw [worth, mul_eq_zero, or_iff_left hunit, Nat.cast_eq_zero]

/-- The text of a finite double reads as that double. -/
theorem double?_write {layout : Layout} {bits m : ℕ} {e : ℤ} (hplus : layout.plus = "+")
    (hbits : bits < 2 * Format.double.signBit)
    (h : Format.double.magnitude (Format.double.unsigned bits) = .finite m e) :
    (ofString? (layout.write .double bits)).bind double? = some bits := by
  obtain ⟨n, hn, hsign, hworth⟩ := Layout.ofString?_write hplus (by decide) h
  have hlt := lt_infinity_of_finite h
  have hnearest : nearest .double n = bits := by
    rcases (Format.double.unsigned bits).eq_zero_or_pos with hzero | hp
    · rw [hzero, Layout.worth, if_pos rfl] at hworth
      rw [nearest_zero (worth_eq_zero.1 hworth), hsign, ← hzero, withSign_unsigned hbits]
    · have hmem := shortest_mem (f := .double) (by decide) hp layout.tie
      rw [Layout.worth, if_neg hp.ne'] at hworth
      rw [← hworth] at hmem
      have hdigits : 0 < n.digits := by
        rw [Nat.pos_iff_ne_zero, Ne, ← worth_eq_zero]
        exact ((lower_pos _ hp).trans_le hmem.le.1).ne'
      obtain ⟨p, hp', hrounds⟩ := nearest_rounds hdigits
      rw [hp', hrounds.eq_of_mem (by decide) hmem hlt, hsign, withSign_unsigned hbits]
  rw [hn, Option.bind_some, double?, hnearest]
  exact if_pos hlt

/-- What is not above the singles is not too large for a double. -/
theorem double?_of_le (h : n.worth ≤ 2 ^ 128) : ∃ bits, n.double? = some bits := by
  refine ⟨nearest .double n, if_pos ?_⟩
  rcases n.digits.eq_zero_or_pos with hzero | hn
  · rw [nearest_zero hzero, unsigned_withSign _ (by decide)]
    decide
  · obtain ⟨p, hp, hrounds⟩ := nearest_rounds hn
    have hgrid := value_grid (f := .double) (k := 1150) (m := Format.double.implicit)
      (Nat.le_mul_of_pos_left _ two_pos) (.inr le_rfl)
    have hvalue : (Format.double.implicit : ℚ) * 2 ^ (Format.double.lowest + (1150 : ℕ)) =
        2 ^ 128 := by
      norm_num [implicit, Format.double]
    have hlt : p < Format.double.infinity :=
      hrounds.lt_infinity (h.trans (hgrid.trans hvalue).ge) (by decide)
    rw [hp, unsigned_withSign _ (hlt.trans (by decide))]
    exact hlt

/-- The text of a finite single is not too large for a double. -/
theorem double?_write_single {layout : Layout} {bits m : ℕ} {e : ℤ} (hplus : layout.plus = "+")
    (h : Format.single.magnitude (Format.single.unsigned bits) = .finite m e) :
    ∃ b, (ofString? (layout.write .single bits)).bind double? = some b := by
  obtain ⟨n, hn, -, hworth⟩ := Layout.ofString?_write hplus (by decide) h
  rw [hn, Option.bind_some]
  refine double?_of_le ?_
  rw [hworth, Layout.worth]
  split
  · positivity
  · rename_i hp
    have hupper := (shortest_mem (f := .single) (by decide) (Nat.pos_of_ne_zero hp) layout.tie).le.2
    have hlt := lt_infinity_of_finite h
    have hgrid := value_grid (f := .single) (k := 254) (m := Format.single.implicit)
      (Nat.le_mul_of_pos_left _ two_pos) (.inr le_rfl)
    have hvalue : (Format.single.implicit : ℚ) * 2 ^ (Format.single.lowest + (254 : ℕ)) =
        2 ^ 128 := by
      norm_num [implicit, Format.single]
    have hinfinity : Format.single.value Format.single.infinity = 2 ^ 128 := hgrid.trans hvalue
    have hle₁ := Format.single.value_strictMono.monotone hlt.le
    have hle₂ := Format.single.value_strictMono.monotone (Nat.succ_le_of_lt hlt)
    rw [upper_intervalOf] at hupper
    linarith

theorem nearest_le (f : Format) (n : Numeral) :
    ∃ p, nearest f n = f.withSign n.negative p ∧ p ≤ f.infinity := by
  refine ⟨_, rfl, ?_⟩
  split
  · exact Nat.zero_le _
  · split
    · exact Nat.le_refl _
    · split <;> exact round_le_infinity _ _ _

/-- What is read as a double is finite. -/
theorem double?_lt {bits : ℕ} (h : n.double? = some bits) :
    ∃ negative p, bits = Format.double.withSign negative p ∧ p < Format.double.infinity := by
  obtain ⟨p, hp, hle⟩ := nearest_le .double n
  have hunsigned := unsigned_withSign (f := .double) n.negative (hle.trans_lt (by decide))
  rw [double?, hp] at h
  simp only [hunsigned] at h
  split at h
  · rename_i hlt
    exact ⟨n.negative, p, (Option.some.inj h).symm, hlt⟩
  · cases h

/-- What is read as a single is finite or infinite. -/
theorem single?_le {bits : ℕ} (h : n.single? = some bits) :
    ∃ negative p, bits = Format.single.withSign negative p ∧ p ≤ Format.single.infinity := by
  unfold single? at h
  split at h
  · cases h
    exact ⟨_, _, rfl, round_le_infinity _ _ _⟩
  · obtain ⟨b, hb, rfl⟩ := Option.map_eq_some_iff.1 h
    obtain ⟨negative, p, rfl, hlt⟩ := double?_lt hb
    obtain ⟨m, e, hm⟩ := finite_of_lt_infinity hlt
    have hunsigned := unsigned_withSign (f := .double) negative (hlt.trans (by decide))
    refine ⟨_, _, rfl, ?_⟩
    simp only [hunsigned, hm]
    split <;> exact round_le_infinity _ _ _

end Numeral

end SignalGraph
