/-
ScriptMachine.Proofs.Numbers.Rounding — rounding to significant digits.
-/
import Mathlib.Algebra.Order.Field.Power
import Mathlib.Algebra.Order.Round
import Mathlib.Data.Int.Log
import Mathlib.Data.Rat.Floor
import Mathlib.Tactic.FieldSimp
import Mathlib.Tactic.Positivity
import ScriptMachine.Number.Decimal

namespace ScriptMachine.Number

/-! ## §1 Integers -/

variable {x : ℚ}

def nearestEven (x : ℚ) : ℤ :=
  if Int.fract x = 1 / 2 ∧ Even ⌊x⌋ then ⌊x⌋ else round x

def IsNearestEven (x : ℚ) (n : ℤ) : Prop := |x - n| < 1 / 2 ∨ |x - n| = 1 / 2 ∧ Even n

namespace IsNearestEven

variable {x : ℚ} {m n : ℤ} {r : ℚ}

theorem le_half (h : IsNearestEven x n) : |x - n| ≤ 1 / 2 :=
  h.elim le_of_lt fun h => h.1.le

theorem le (hm : IsNearestEven x m) (hn : IsNearestEven x n) : n ≤ m := by
  by_contra hlt
  have hstep : (m : ℚ) + 1 ≤ n := by exact_mod_cast not_le.mp hlt
  obtain ⟨_, hu⟩ := abs_le.mp hm.le_half
  obtain ⟨hl, _⟩ := abs_le.mp hn.le_half
  -- Both are then at the distance 1/2, so both are even, and they are neighbours.
  have hxm : x - m = 1 / 2 := by linarith
  have hxn : x - n = -(1 / 2) := by linarith
  have hm' : Even m := by
    rcases hm with hm | hm
    · rw [hxm, abs_of_pos (by norm_num)] at hm
      exact absurd hm (lt_irrefl _)
    · exact hm.2
  have hn' : Even n := by
    rcases hn with hn | hn
    · rw [hxn, abs_neg, abs_of_pos (by norm_num)] at hn
      exact absurd hn (lt_irrefl _)
    · exact hn.2
  have hnext : n = m + 1 := by
    have : (n : ℚ) = m + 1 := by linarith
    exact_mod_cast this
  rw [hnext, Int.even_add_one] at hn'
  exact hn' hm'

theorem unique (hm : IsNearestEven x m) (hn : IsNearestEven x n) : m = n :=
  le_antisymm (hn.le hm) (hm.le hn)

theorem below (h0 : 0 ≤ r) (h : r < 1 / 2) (n : ℤ) : IsNearestEven (n + r) n := by
  left
  rw [add_sub_cancel_left, abs_of_nonneg h0]
  exact h

theorem above (h : 1 / 2 < r) (h1 : r < 1) (n : ℤ) : IsNearestEven (n + r) (n + 1) := by
  left
  rw [abs_lt]
  push_cast
  constructor <;> linarith

theorem half_even (h : Even n) : IsNearestEven (n + 1 / 2) n := by
  right
  rw [add_sub_cancel_left]
  exact ⟨abs_of_pos (by norm_num), h⟩

theorem half_odd (h : ¬Even n) : IsNearestEven (n + 1 / 2) (n + 1) := by
  have hd : (n : ℚ) + 1 / 2 - ((n + 1 : ℤ) : ℚ) = -(1 / 2) := by
    push_cast
    ring
  right
  rw [hd, abs_neg, Int.even_add_one]
  exact ⟨abs_of_pos (by norm_num), h⟩

theorem neg (h : IsNearestEven x n) : IsNearestEven (-x) (-n) := by
  have habs : |-x - ((-n : ℤ) : ℚ)| = |x - n| := by
    rw [Int.cast_neg, ← abs_neg]
    congr 1
    ring
  unfold IsNearestEven
  rw [habs, even_neg]
  exact h

end IsNearestEven

theorem isNearestEven_nearestEven (x : ℚ) : IsNearestEven x (nearestEven x) := by
  have hx := Int.floor_add_fract x
  unfold nearestEven
  split
  · next h =>
    rw [h.1] at hx
    nth_rewrite 1 [← hx]
    exact .half_even h.2
  · next h =>
    rcases (abs_sub_round x).lt_or_eq with hlt | heq
    · exact .inl hlt
    · have hf : Int.fract x = 1 / 2 := by
        rw [abs_sub_round_eq_min] at heq
        rcases min_choice (Int.fract x) (1 - Int.fract x) with hmin | hmin <;> linarith
      have hr : round x = ⌊x⌋ + 1 := by
        rw [round_eq, Int.floor_eq_iff]
        push_cast
        constructor <;> linarith
      rw [hf] at hx
      rw [hr]
      nth_rewrite 1 [← hx]
      exact .half_odd fun he => h ⟨hf, he⟩

theorem nearestEven_eq_iff {n : ℤ} : nearestEven x = n ↔ IsNearestEven x n :=
  ⟨fun h => h ▸ isNearestEven_nearestEven x, (isNearestEven_nearestEven x).unique⟩

theorem nearestEven_neg (x : ℚ) : nearestEven (-x) = -nearestEven x :=
  nearestEven_eq_iff.mpr (isNearestEven_nearestEven x).neg

theorem le_nearestEven {n : ℤ} (h : (n : ℚ) ≤ x) : n ≤ nearestEven x := by
  obtain ⟨_, hu⟩ := abs_le.mp (isNearestEven_nearestEven x).le_half
  have : (n : ℚ) < nearestEven x + 1 := by linarith
  exact Int.lt_add_one_iff.mp (by exact_mod_cast this)

theorem nearestEven_le {n : ℤ} (h : x ≤ n) : nearestEven x ≤ n := by
  have := le_nearestEven (x := -x) (n := -n) (by push_cast; linarith)
  rw [nearestEven_neg] at this
  omega

theorem nearestEven_div_ten {v : ℚ} {n : ℕ} (hlt : v < 10 ^ (n + 1))
    (hc : nearestEven v = 10 ^ (n + 1)) : nearestEven (v / 10) = 10 ^ n := by
  obtain ⟨hlow, _⟩ := abs_le.mp (nearestEven_eq_iff.mp hc).le_half
  push_cast at hlow
  rw [nearestEven_eq_iff]
  left
  rw [abs_lt]
  push_cast
  rw [pow_succ] at *
  constructor <;> linarith

theorem roundDiv_eq_nearestEven (num : ℕ) {den : ℕ} (hden : 0 < den) :
    (roundDiv num den : ℤ) = nearestEven (num / den) := by
  have hpos : (0 : ℚ) < den := by exact_mod_cast hden
  have hdiv : (num : ℚ) / den = (num / den : ℕ) + ((num % den : ℕ) : ℚ) / den := by
    have hs : (num : ℚ) = den * (num / den : ℕ) + (num % den : ℕ) := by
      exact_mod_cast (Nat.div_add_mod num den).symm
    field_simp
    linarith
  have hrem0 : (0 : ℚ) ≤ ((num % den : ℕ) : ℚ) / den := by positivity
  have hrem1 : ((num % den : ℕ) : ℚ) / den < 1 := by
    rw [div_lt_one hpos]
    exact_mod_cast Nat.mod_lt num hden
  have hlow : ((num % den : ℕ) : ℚ) / den < 1 / 2 ↔ 2 * (num % den) < den := by
    rw [div_lt_div_iff₀ hpos two_pos, one_mul, mul_comm]
    exact_mod_cast Iff.rfl
  have hh : 1 / 2 < ((num % den : ℕ) : ℚ) / den ↔ den < 2 * (num % den) := by
    rw [div_lt_div_iff₀ two_pos hpos, one_mul, mul_comm]
    exact_mod_cast Iff.rfl
  rw [eq_comm, nearestEven_eq_iff, hdiv, ← Int.cast_natCast (num / den)]
  unfold roundDiv
  dsimp only
  split
  · next hr => exact .below hrem0 (hlow.mpr hr) _
  · next hr =>
    split
    · next hr' => exact .above (hh.mpr hr') hrem1 _
    · next hr' =>
      have hhalf : ((num % den : ℕ) : ℚ) / den = 1 / 2 :=
        le_antisymm (not_lt.mp (hh.not.mpr hr')) (not_lt.mp (hlow.not.mpr hr))
      rw [hhalf]
      split
      · next he => exact .half_even (by exact_mod_cast Nat.even_iff.mpr he)
      · next hodd => exact .half_odd (by exact_mod_cast Nat.even_iff.not.mpr hodd)

/-! ## §2 Fractions -/

theorem digitCountWithin_eq {fuel n : ℕ} (h : n < 10 ^ (fuel + 1)) :
    digitCountWithin fuel n = Nat.log 10 n + 1 := by
  induction fuel generalizing n with
  | zero => rw [digitCountWithin, Nat.log_of_lt (by simpa using h)]
  | succ fuel ih =>
    rw [digitCountWithin]
    split
    · next hlt => rw [Nat.log_of_lt hlt]
    · next hge =>
      have hdiv : n / 10 < 10 ^ (fuel + 1) := by
        rw [Nat.div_lt_iff_lt_mul (by norm_num), ← pow_succ]
        exact h
      rw [ih hdiv, Nat.log_of_one_lt_of_le (by norm_num) (not_lt.mp hge)]

theorem digitCount_eq (n : ℕ) : digitCount n = Nat.log 10 n + 1 := by
  refine digitCountWithin_eq ?_
  calc n < 2 ^ (n.log2 + 1) := Nat.lt_log2_self
    _ ≤ 10 ^ (n.log2 + 1) := Nat.pow_le_pow_left (by norm_num) _
    _ ≤ 10 ^ (n.log2 + 1 + 1) := Nat.pow_le_pow_right (by norm_num) (Nat.le_succ _)

namespace Fraction

def value (x : Fraction) : ℚ := x.num / x.den

structure Positive (x : Fraction) : Prop where
  num : 0 < x.num
  den : 0 < x.den

variable {x : Fraction}

theorem Positive.value_pos (hx : x.Positive) : 0 < x.value :=
  div_pos (by exact_mod_cast hx.num) (by exact_mod_cast hx.den)

theorem Positive.scale (hx : x.Positive) (k : ℤ) : (x.scale k).Positive := by
  unfold Fraction.scale
  split
  · exact ⟨Nat.mul_pos hx.num (Nat.pow_pos (by norm_num)), hx.den⟩
  · exact ⟨hx.num, Nat.mul_pos hx.den (Nat.pow_pos (by norm_num))⟩

theorem value_scale (x : Fraction) (k : ℤ) : (x.scale k).value = x.value * 10 ^ k := by
  unfold scale value
  split
  · next hk =>
    obtain ⟨n, rfl⟩ := Int.eq_ofNat_of_zero_le hk
    simp only [Int.toNat_natCast, Nat.pow_eq, zpow_natCast]
    push_cast
    ring
  · next hk =>
    obtain ⟨n, hn⟩ := Int.eq_ofNat_of_zero_le (show 0 ≤ -k by omega)
    obtain rfl : k = -n := by omega
    simp only [neg_neg, Int.toNat_natCast, Nat.pow_eq, zpow_neg, zpow_natCast]
    push_cast
    field_simp

theorem Positive.ofBinary {m : ℕ} (hm : 0 < m) (q : ℤ) : (ofBinary m q).Positive := by
  unfold Fraction.ofBinary
  split
  · exact ⟨Nat.mul_pos hm (Nat.pow_pos (by norm_num)), Nat.one_pos⟩
  · exact ⟨hm, Nat.pow_pos (by norm_num)⟩

theorem value_ofBinary (m : ℕ) (q : ℤ) : (ofBinary m q).value = m * 2 ^ q := by
  unfold ofBinary value
  split
  · next hq =>
    obtain ⟨n, rfl⟩ := Int.eq_ofNat_of_zero_le hq
    simp
  · next hq =>
    obtain ⟨n, hn⟩ := Int.eq_ofNat_of_zero_le (show 0 ≤ -q by omega)
    obtain rfl : q = -n := by omega
    simp [div_eq_mul_inv]

theorem log_eq_of_le_lt {v : ℚ} {e : ℤ} (hlow : (10 : ℚ) ^ e ≤ v) (hh : v < 10 ^ (e + 1)) :
    Int.log 10 v = e := by
  have hv : 0 < v := lt_of_lt_of_le (by positivity) hlow
  have hle : e ≤ Int.log 10 v := (Int.zpow_le_iff_le_log (by norm_num) hv).mp
    (by exact_mod_cast hlow)
  have hlt : Int.log 10 v < e + 1 :=
    (Int.lt_zpow_iff_log_lt (by norm_num) hv).mp (by exact_mod_cast hh)
  omega

theorem Positive.value_bounds (hx : x.Positive) :
    (10 : ℚ) ^ ((Nat.log 10 x.num : ℤ) - Nat.log 10 x.den - 1) ≤ x.value ∧
      x.value < 10 ^ ((Nat.log 10 x.num : ℤ) - Nat.log 10 x.den + 1) := by
  have hden : (0 : ℚ) < x.den := by exact_mod_cast hx.den
  have hnumLow : (10 : ℚ) ^ (Nat.log 10 x.num : ℤ) ≤ x.num := by
    exact_mod_cast Nat.pow_log_le_self 10 hx.num.ne'
  have hnumHigh : (x.num : ℚ) < 10 ^ ((Nat.log 10 x.num : ℤ) + 1) := by
    exact_mod_cast Nat.lt_pow_succ_log_self (by norm_num) x.num
  have hdenLow : (10 : ℚ) ^ (Nat.log 10 x.den : ℤ) ≤ x.den := by
    exact_mod_cast Nat.pow_log_le_self 10 hx.den.ne'
  have hdenHigh : (x.den : ℚ) < 10 ^ ((Nat.log 10 x.den : ℤ) + 1) := by
    exact_mod_cast Nat.lt_pow_succ_log_self (by norm_num) x.den
  generalize (Nat.log 10 x.num : ℤ) = a at *
  generalize (Nat.log 10 x.den : ℤ) = d at *
  constructor
  · rw [value, le_div_iff₀ hden]
    calc (10 : ℚ) ^ (a - d - 1) * x.den
        ≤ 10 ^ (a - d - 1) * 10 ^ (d + 1) := by gcongr
      _ = 10 ^ a := by rw [← zpow_add₀ (by norm_num)]; congr 1; ring
      _ ≤ x.num := hnumLow
  · rw [value, div_lt_iff₀ hden]
    calc (x.num : ℚ) < 10 ^ (a + 1) := hnumHigh
      _ = 10 ^ (a - d + 1) * 10 ^ d := by rw [← zpow_add₀ (by norm_num)]; congr 1; ring
      _ ≤ 10 ^ (a - d + 1) * x.den := by gcongr

theorem exponent_eq_log (hx : x.Positive) : x.exponent = Int.log 10 x.value := by
  obtain ⟨hlow, hh⟩ := hx.value_bounds
  have hcnt : (digitCount x.num : ℤ) - digitCount x.den =
      (Nat.log 10 x.num : ℤ) - Nat.log 10 x.den := by
    rw [digitCount_eq, digitCount_eq]
    push_cast
    ring
  unfold exponent
  rw [hcnt]
  generalize (Nat.log 10 x.num : ℤ) - Nat.log 10 x.den = e at *
  have ht : (x.scale (-e)).den ≤ (x.scale (-e)).num ↔ (10 : ℚ) ^ e ≤ x.value := by
    have hden : (0 : ℚ) < (x.scale (-e)).den := by exact_mod_cast (hx.scale (-e)).den
    have hval := x.value_scale (-e)
    rw [value, zpow_neg, ← div_eq_mul_inv] at hval
    rw [← one_le_div (by positivity : (0 : ℚ) < 10 ^ e), ← hval, one_le_div hden]
    exact Nat.cast_le.symm
  dsimp only
  split
  · next h => exact (log_eq_of_le_lt (ht.mp h) hh).symm
  · next h =>
    refine (log_eq_of_le_lt hlow ?_).symm
    rw [sub_add_cancel]
    exact not_le.mp (ht.not.mp h)

end Fraction

/-! ## §3 Digits -/

/-- `v` rounded to `count` significant digits. -/
def significant (count : ℕ) (v : ℚ) : ℚ :=
  let unit : ℚ := 10 ^ (Int.log 10 |v| + 1 - count)
  nearestEven (v / unit) * unit

theorem significant_neg (count : ℕ) (v : ℚ) : significant count (-v) = -significant count v := by
  simp only [significant, abs_neg, neg_div, nearestEven_neg]
  push_cast
  ring

namespace Fraction

variable {x : Fraction} {count : ℕ} (hx : x.Positive)

include hx

theorem cast_roundDiv (k : ℤ) :
    (roundDiv (x.scale k).num (x.scale k).den : ℤ) = nearestEven (x.scale k).value :=
  roundDiv_eq_nearestEven _ (hx.scale k).den

theorem Positive.units_bounds (count : ℕ) :
    (10 : ℚ) ^ ((count : ℤ) - 1) ≤ (x.scale (count - 1 - x.exponent)).value ∧
      (x.scale (count - 1 - x.exponent)).value < 10 ^ (count : ℤ) := by
  have hv := hx.value_pos
  have hlow : (10 : ℚ) ^ x.exponent ≤ x.value := by
    rw [exponent_eq_log hx]
    exact_mod_cast Int.zpow_log_le_self (b := 10) (by norm_num) hv
  have hh : x.value < 10 ^ (x.exponent + 1) := by
    rw [exponent_eq_log hx]
    exact_mod_cast Int.lt_zpow_succ_log_self (b := 10) (by norm_num) x.value
  rw [value_scale]
  generalize x.exponent = e at *
  constructor
  · calc (10 : ℚ) ^ ((count : ℤ) - 1) = 10 ^ e * 10 ^ ((count : ℤ) - 1 - e) := by
          rw [← zpow_add₀ (by norm_num)]; congr 1; ring
      _ ≤ x.value * 10 ^ ((count : ℤ) - 1 - e) := by gcongr
  · calc x.value * 10 ^ ((count : ℤ) - 1 - e)
        < 10 ^ (e + 1) * 10 ^ ((count : ℤ) - 1 - e) := by gcongr
      _ = 10 ^ (count : ℤ) := by rw [← zpow_add₀ (by norm_num)]; congr 1; ring

theorem Positive.roundDiv_bounds (hcnt : 0 < count) :
    10 ^ (count - 1) ≤ roundDiv (x.scale (count - 1 - x.exponent)).num
        (x.scale (count - 1 - x.exponent)).den ∧
      roundDiv (x.scale (count - 1 - x.exponent)).num
        (x.scale (count - 1 - x.exponent)).den ≤ 10 ^ count := by
  obtain ⟨hlow, hh⟩ := hx.units_bounds count
  have hr := cast_roundDiv hx (count - 1 - x.exponent)
  generalize x.scale (count - 1 - x.exponent) = y at *
  rw [show (count : ℤ) - 1 = (count - 1 : ℕ) by omega] at hlow
  constructor
  · have := le_nearestEven (n := (10 ^ (count - 1) : ℕ)) (by exact_mod_cast hlow)
    rw [← hr] at this
    exact_mod_cast this
  · have := nearestEven_le (n := (10 ^ count : ℕ)) (by exact_mod_cast hh.le)
    rw [← hr] at this
    exact_mod_cast this

theorem significant_value (count : ℕ) :
    significant count x.value = roundDiv (x.scale (count - 1 - x.exponent)).num
      (x.scale (count - 1 - x.exponent)).den * 10 ^ (x.exponent + 1 - count) := by
  have hu : x.value / 10 ^ (x.exponent + 1 - count) = (x.scale (count - 1 - x.exponent)).value := by
    rw [value_scale, div_eq_mul_inv, ← zpow_neg]
    congr 2
    ring
  rw [significant, abs_of_pos hx.value_pos, ← exponent_eq_log hx, hu, ← cast_roundDiv hx,
    Int.cast_natCast]

theorem round_spec (hcnt : 0 < count) : significant count x.value =
        (x.round count).digits * 10 ^ ((x.round count).exponent + 1 - count) ∧
      10 ^ (count - 1) ≤ (x.round count).digits ∧ (x.round count).digits < 10 ^ count := by
  obtain ⟨hlow, hh⟩ := hx.roundDiv_bounds hcnt
  rw [significant_value hx]
  unfold round
  dsimp only
  split
  · next hc =>
    rw [hc]
    refine ⟨?_, le_rfl, Nat.pow_lt_pow_right (by norm_num) (by omega)⟩
    have hp : (count : ℤ) = (count - 1 : ℕ) + 1 := by omega
    simp only [Nat.pow_eq, Nat.cast_pow, Nat.cast_ofNat, ← zpow_natCast]
    rw [← zpow_add₀ (by norm_num), ← zpow_add₀ (by norm_num)]
    congr 1
    omega
  · next hc => exact ⟨rfl, hlow, lt_of_le_of_ne hh hc⟩

/-! ## §4 Places -/

theorem roundDiv_scale (hcnt : 0 < count) :
    roundDiv (x.scale (count - 1 - (x.round count).exponent)).num
      (x.scale (count - 1 - (x.round count).exponent)).den = (x.round count).digits := by
  obtain ⟨places, rfl⟩ : ∃ places, count = places + 1 := ⟨count - 1, by omega⟩
  unfold round
  dsimp only
  split
  · next hc =>
    -- The exponent went up by one, so the units are ten times as large.
    have hu : (x.scale ((places + 1 : ℕ) - 1 - (x.exponent + 1))).value =
        (x.scale ((places + 1 : ℕ) - 1 - x.exponent)).value / 10 := by
      rw [value_scale, value_scale, mul_div_assoc]
      congr 1
      rw [eq_div_iff (by norm_num), ← zpow_add_one₀ (by norm_num)]
      congr 1
      ring
    have hr := cast_roundDiv hx ((places + 1 : ℕ) - 1 - x.exponent)
    rw [hc] at hr
    have hten := nearestEven_div_ten (hx.units_bounds (places + 1)).2 (by exact_mod_cast hr.symm)
    rw [← hu, ← cast_roundDiv hx] at hten
    exact_mod_cast hten
  · rfl

end Fraction

end ScriptMachine.Number
