/-
ScriptMachine.Proofs.Numbers.Printing — printed numbers are rounded correctly.
-/
import ScriptMachine.Proofs.Encoding
import ScriptMachine.Proofs.Numbers.Numerals
import ScriptMachine.Proofs.Numbers.Rounding

namespace ScriptMachine.Number

/-! ## §1 Doubles -/

section

open Float.Model

/-- The rational number that a finite double is, and 0 for the others. -/
def value (b : UInt64) : ℚ :=
  match UnpackedFloat.unpack .binary64 b.toBitVec with
  | .finite sign mantissa exponent _ => sign.apply mantissa * 2 ^ exponent
  | _ => 0

theorem toNat_unpackExponent (b : UInt64) :
    (@UnpackedFloat.unpackExponent .binary64 b.toBitVec).toNat = exponentField b := by
  simp only [UnpackedFloat.unpackExponent, BitVec.toNat_cast, BitVec.extractLsb_toNat,
    UInt64.toNat_toBitVec, Nat.shiftRight_eq_div_pow, exponentField, magnitude, UInt64.toNat_mod,
    UInt64.reduceToNat]
  omega

theorem toNat_unpackMantissa (b : UInt64) :
    (@UnpackedFloat.unpackMantissa .binary64 b.toBitVec).toNat = fractionField b := by
  simp only [UnpackedFloat.unpackMantissa, BitVec.toNat_cast, BitVec.extractLsb_toNat,
    UInt64.toNat_toBitVec, Nat.shiftRight_eq_div_pow, fractionField, magnitude, UInt64.toNat_mod,
    UInt64.reduceToNat]
  omega

theorem isNegative_iff (b : UInt64) : isNegative b = true ↔ b.toNat / 0x8000000000000000 = 1 := by
  rw [isNegative, beq_iff_eq, ← UInt64.toNat_inj]
  simp [Nat.shiftRight_eq_div_pow]

theorem apply_unpackSign (b : UInt64) (n : ℤ) :
    (UnpackedFloat.Sign.ofBitVec (@UnpackedFloat.unpackSign .binary64 b.toBitVec)).apply n =
      if isNegative b then -n else n := by
  have hlt := b.toNat_lt
  have hs : (@UnpackedFloat.unpackSign .binary64 b.toBitVec).toNat =
      b.toNat / 0x8000000000000000 := by
    delta UnpackedFloat.unpackSign
    simp only [BitVec.toNat_cast, BitVec.extractLsb_toNat,
      UInt64.toNat_toBitVec, Nat.shiftRight_eq_div_pow]
    omega
  have hz : @UnpackedFloat.unpackSign .binary64 b.toBitVec = 0#1 ↔ ¬isNegative b = true := by
    rw [isNegative_iff, ← BitVec.toNat_inj, hs, BitVec.toNat_ofNat]
    omega
  unfold UnpackedFloat.Sign.ofBitVec
  by_cases hneg : isNegative b = true
  · rw [if_neg (hz.not.mpr (not_not.mpr hneg)), if_pos hneg]
    rfl
  · rw [if_pos (hz.mpr hneg), if_neg hneg]
    rfl

theorem value_eq_zero_of_full {b : UInt64} (hb : exponentField b = 0x7FF) : value b = 0 := by
  have hf : @UnpackedFloat.unpackExponent .binary64 b.toBitVec = -1#11 := by
    rw [← BitVec.toNat_inj, toNat_unpackExponent, hb]
    rfl
  unfold value UnpackedFloat.unpack
  dsimp only
  rw [if_pos hf]
  by_cases he : @UnpackedFloat.unpackMantissa .binary64 b.toBitVec = 0#52
  · rw [if_pos he]
  · rw [if_neg he]

theorem value_of_finite {b : UInt64} (hb : exponentField b ≠ 0x7FF) :
    value b = ((if isNegative b then -(significand b : ℤ) else significand b : ℤ) : ℚ) *
      2 ^ exponent b := by
  have hf : ¬@UnpackedFloat.unpackExponent .binary64 b.toBitVec = -1#11 := by
    rw [← BitVec.toNat_inj, toNat_unpackExponent]
    exact hb
  unfold value UnpackedFloat.unpack
  dsimp only
  rw [if_neg hf]
  by_cases hz : exponentField b = 0
  · have hvec : @UnpackedFloat.unpackExponent .binary64 b.toBitVec = 0#11 := by
      rw [← BitVec.toNat_inj, toNat_unpackExponent, hz]
      rfl
    rw [if_pos hvec, significand, if_pos hz, exponent, if_pos hz]
    by_cases he : @UnpackedFloat.unpackMantissa .binary64 b.toBitVec = 0#52
    · have hfrac : fractionField b = 0 := by
        rw [← toNat_unpackMantissa, he]
        rfl
      rw [dif_pos he, hfrac]
      simp
    · rw [dif_neg he]
      simp only [apply_unpackSign, toNat_unpackMantissa, toNat_unpackExponent, hz]
      rfl
  · have hvec : ¬@UnpackedFloat.unpackExponent .binary64 b.toBitVec = 0#11 := by
      rw [← BitVec.toNat_inj, toNat_unpackExponent]
      exact hz
    rw [if_neg hvec, significand, if_neg hz, exponent, if_neg hz]
    have himp : (1#1).toNat <<< 52 ||| fractionField b = 0x10000000000000 + fractionField b := by
      have hlt : fractionField b < 2 ^ 52 := Nat.mod_lt _ (by norm_num)
      rw [Nat.shiftLeft_eq]
      exact (Nat.two_pow_add_eq_or_of_lt hlt 1).symm
    simp only [apply_unpackSign, toNat_unpackExponent, BitVec.toNat_append, toNat_unpackMantissa,
      himp]
    rfl

end

variable {b : UInt64}

theorem value_ne_zero_iff : value b ≠ 0 ↔ exponentField b ≠ 0x7FF ∧ significand b ≠ 0 := by
  by_cases hb : exponentField b = 0x7FF
  · simp [hb, value_eq_zero_of_full hb]
  · have hp : (2 : ℚ) ^ exponent b ≠ 0 := by positivity
    rw [value_of_finite hb]
    split <;> simp [hb, hp]

theorem magnitudeText_eq (hb : value b ≠ 0) :
    magnitudeText b = (Fraction.ofBinary (significand b) (exponent b)).general := by
  obtain ⟨hf, hsig⟩ := value_ne_zero_iff.mp hb
  have hnan : ¬isNaN b = true := fun h => hf ((isNaN_iff_fields b).mp h).1
  have hinf : ¬isInfinite b = true := by
    rw [isInfinite, beq_iff_eq]
    intro h
    rw [exponentField, h] at hf
    exact hf rfl
  have hz : ¬isZero b = true := by
    rw [isZero, beq_iff_eq]
    intro h
    rw [significand, exponentField, fractionField, h] at hsig
    exact hsig rfl
  rw [magnitudeText, if_neg hnan, if_neg hinf, if_neg hz]

theorem value_eq_signed (hb : value b ≠ 0) :
    value b = if isNegative b then -(Fraction.ofBinary (significand b) (exponent b)).value
      else (Fraction.ofBinary (significand b) (exponent b)).value := by
  rw [value_of_finite (value_ne_zero_iff.mp hb).1, Fraction.value_ofBinary]
  split <;> simp

theorem positive_of_value_ne_zero (hb : value b ≠ 0) :
    (Fraction.ofBinary (significand b) (exponent b)).Positive :=
  .ofBinary (Nat.pos_of_ne_zero (value_ne_zero_iff.mp hb).2) _

/-! ## §2 Strings -/

namespace Digits

def ofNat (n : ℕ) : Digits :=
  ⟨digitsOf n, fun _ => Nat.isDigit_of_mem_toDigits (by decide) (by decide)⟩

def padded (count n : ℕ) : Digits where
  chars := List.replicate (count - (digitsOf n).length) '0' ++ digitsOf n
  isDigit c hc := by
    rcases List.mem_append.mp hc with hc | hc
    · rw [List.eq_of_mem_replicate hc]
      decide
    · exact (ofNat n).isDigit c hc

theorem chars_padded (count n : ℕ) : (padded count n).chars =
    List.replicate (count - (digitsOf n).length) '0' ++ digitsOf n := rfl

theorem ofDigitChars_padded (count n : ℕ) :
    Nat.ofDigitChars 10 (padded count n).chars 0 = n := by
  rw [chars_padded, Nat.ofDigitChars_append, Nat.ofDigitChars_replicate_zero, Nat.mul_zero]
  exact Nat.ofDigitChars_ten_toDigits

theorem length_padded (count n : ℕ) :
    (padded count n).chars.length = max count (digitsOf n).length := by
  rw [chars_padded, List.length_append, List.length_replicate]
  omega

def take (k : ℕ) (ds : Digits) : Digits :=
  ⟨ds.chars.take k, fun c hc => ds.isDigit c (List.mem_of_mem_take hc)⟩

def drop (k : ℕ) (ds : Digits) : Digits :=
  ⟨ds.chars.drop k, fun c hc => ds.isDigit c (List.mem_of_mem_drop hc)⟩

theorem take_append_drop (k : ℕ) (ds : Digits) :
    (ds.take k).chars ++ (ds.drop k).chars = ds.chars :=
  List.take_append_drop k ds.chars

end Digits

theorem length_digitsOf {n k : ℕ} (hlow : 10 ^ k ≤ n) (hh : n < 10 ^ (k + 1)) :
    (digitsOf n).length = k + 1 := by
  have hle : (digitsOf n).length ≤ k + 1 :=
    (Nat.length_toDigits_le_iff (by norm_num) k.succ_pos).mpr hh
  have hgt : k < (digitsOf n).length := by
    rcases Nat.eq_zero_or_pos k with rfl | hk
    · exact Nat.length_toDigits_pos
    · exact not_le.mp ((Nat.length_toDigits_le_iff (by norm_num) hk).not.mpr (not_lt.mpr hlow))
  omega

theorem head?_digitsOf {n : ℕ} (hn : n ≠ 0) : (digitsOf n).head? ≠ some '0' := by
  induction n using Nat.strong_induction_on with
  | h n ih =>
    rcases Nat.lt_or_ge n 10 with hlt | hge
    · rw [digitsOf, Nat.toDigits_of_lt_base hlt]
      simpa using hn
    · rw [digitsOf, Nat.toDigits_of_base_le (by norm_num) hge,
        List.head?_append_of_ne_nil _ Nat.toDigits_ne_nil]
      exact ih (n / 10) (by omega) (by omega)

/-! ## §3 Texts -/

namespace Decimal

structure Full (d : Decimal) : Prop where
  low : 10 ^ 5 ≤ d.digits
  high : d.digits < 10 ^ 6

def value (d : Decimal) : ℚ := d.digits * 10 ^ (d.exponent - 5)

def scientific (negative : Bool) (d : Decimal) : Numeral :=
  .ofDigits negative ((Digits.ofNat d.digits).take 1) ((Digits.ofNat d.digits).drop 1).trim
    (some (decide (d.exponent < 0), .padded 2 d.exponent.natAbs))

def positional (negative : Bool) (places : ℕ) (d : Decimal) : Numeral :=
  let ds := Digits.padded (places + 1) d.digits
  .ofDigits negative (ds.take (ds.chars.length - places))
    (ds.drop (ds.chars.length - places)).trim none

variable {d : Decimal} (negative : Bool)

theorem Full.length_digitsOf (hd : d.Full) : (digitsOf d.digits).length = 6 :=
  Number.length_digitsOf hd.low hd.high

theorem Full.value_bounds (hd : d.Full) :
    (10 : ℚ) ^ d.exponent ≤ d.value ∧ d.value < 10 ^ (d.exponent + 1) := by
  have hlow : (10 : ℚ) ^ (5 : ℤ) ≤ d.digits := by exact_mod_cast hd.low
  have hh : (d.digits : ℚ) < 10 ^ (6 : ℤ) := by exact_mod_cast hd.high
  rw [value]
  constructor
  · calc (10 : ℚ) ^ d.exponent = 10 ^ (5 : ℤ) * 10 ^ (d.exponent - 5) := by
          rw [← zpow_add₀ (by norm_num)]; congr 1; ring
      _ ≤ d.digits * 10 ^ (d.exponent - 5) := by gcongr
  · calc (d.digits : ℚ) * 10 ^ (d.exponent - 5)
        < 10 ^ (6 : ℤ) * 10 ^ (d.exponent - 5) := by gcongr
      _ = 10 ^ (d.exponent + 1) := by rw [← zpow_add₀ (by norm_num)]; congr 1; ring

/-! ### Scientific notation -/

theorem power_exponent (e : ℤ) :
    Numeral.power (some (decide (e < 0), .padded 2 e.natAbs)) = e := by
  simp only [Numeral.power, Digits.ofDigitChars_padded, decide_eq_true_eq]
  split <;> omega

theorem size_scientific (hd : d.Full) : (d.scientific negative).size = d.value := by
  have hlen : (((Digits.ofNat d.digits).drop 1).chars.length : ℤ) = 5 := by
    show (((digitsOf d.digits).drop 1).length : ℤ) = 5
    rw [List.length_drop, hd.length_digitsOf]
    rfl
  have hdig : Nat.ofDigitChars 10 (Digits.ofNat d.digits).chars 0 = d.digits :=
    Nat.ofDigitChars_ten_toDigits
  rw [scientific, Numeral.size_trim, Numeral.size_ofDigits, Digits.take_append_drop, hdig,
    hlen, power_exponent, value]

theorem scientific_scientific (hd : d.Full) : (d.scientific negative).Scientific d.exponent := by
  refine ⟨?_, power_exponent d.exponent, _, rfl, ?_⟩
  · show ((digitsOf d.digits).take 1).length = 1
    rw [List.length_take, hd.length_digitsOf]
    rfl
  · rw [Digits.length_padded]
    exact le_max_left _ _

theorem magnitude_scientific : (d.scientific negative).magnitude =
    trimFraction (withPoint ((digitsOf d.digits).take 1) ((digitsOf d.digits).drop 1)) ++
      'e' :: exponentText d.exponent := by
  have ht := trimFraction_withPoint ((Digits.ofNat d.digits).take 1)
    ((Digits.ofNat d.digits).drop 1)
  have hexp : Numeral.powerText (some (decide (d.exponent < 0), .padded 2 d.exponent.natAbs)) =
      'e' :: exponentText d.exponent := by
    simp only [Numeral.powerText, exponentText, Digits.padded, decide_eq_true_eq]
  rw [scientific, Numeral.magnitude_ofDigits, hexp]
  exact congrArg (· ++ 'e' :: exponentText d.exponent) ht.symm

/-! ### Positional notation -/

theorem size_positional (places : ℕ) :
    (d.positional negative places).size = d.digits * 10 ^ (-(places : ℤ)) := by
  have hlen := Digits.length_padded (places + 1) d.digits
  have hd : ((Digits.padded (places + 1) d.digits).drop
      ((Digits.padded (places + 1) d.digits).chars.length - places)).chars.length = places := by
    rw [Digits.drop, List.length_drop]
    omega
  rw [positional, Numeral.size_trim, Numeral.size_ofDigits, Digits.take_append_drop,
    Digits.ofDigitChars_padded, hd, Numeral.power, zero_sub]

theorem positional_positional (hd : d.Full) (places : ℕ) :
    (d.positional negative places).Positional := by
  have hlen := Digits.length_padded (places + 1) d.digits
  rw [hd.length_digitsOf] at hlen
  have hw : (d.positional negative places).whole.chars.length =
      (Digits.padded (places + 1) d.digits).chars.length - places := by
    show (List.take _ _).length = _
    rw [List.length_take]
    omega
  refine ⟨rfl, List.ne_nil_of_length_pos (by omega), fun hz => ?_⟩
  rcases Nat.lt_or_ge places 5 with hlt | hge
  · -- There are no zeros before the digits of the number, of which the first is none.
    have hpad : (Digits.padded (places + 1) d.digits).chars = digitsOf d.digits := by
      rw [Digits.chars_padded, hd.length_digitsOf, Nat.sub_eq_zero_of_le (by omega)]
      rfl
    have hnum : d.digits ≠ 0 := (Nat.lt_of_lt_of_le (by norm_num) hd.low).ne'
    have hh : (d.positional negative places).whole.chars.head? = (digitsOf d.digits).head? := by
      show (List.take _ _).head? = _
      rw [List.head?_take, if_neg (by omega), hpad]
    exact absurd (hh.symm.trans hz) (head?_digitsOf hnum)
  · omega

theorem magnitude_positional (places : ℕ) {x : Fraction}
    (hd : roundDiv (x.scale places).num (x.scale places).den = d.digits) :
    (d.positional negative places).magnitude = trimFraction (x.fixed places) := by
  rw [positional, Numeral.magnitude_ofDigits, Numeral.powerText, List.append_nil,
    Fraction.fixed, hd]
  exact (trimFraction_withPoint _ _).symm

end Decimal

namespace Fraction

variable {x : Fraction}

theorem full_round (hx : x.Positive) : (x.round printedDigits).Full := by
  obtain ⟨_, hlow, hh⟩ := x.round_spec hx (show 0 < printedDigits by decide)
  exact ⟨hlow, hh⟩

theorem value_round (hx : x.Positive) : (x.round printedDigits).value = significant 6 x.value := by
  obtain ⟨hval, _⟩ := x.round_spec hx (show 0 < printedDigits by decide)
  rw [Decimal.value, show significant 6 x.value = _ from hval, printedDigits]
  congr 2
  push_cast
  ring

theorem general_eq (x : Fraction) :
    x.general =
      if (x.round printedDigits).exponent < -4 ∨ 6 ≤ (x.round printedDigits).exponent then
        trimFraction (withPoint ((digitsOf (x.round printedDigits).digits).take 1)
          ((digitsOf (x.round printedDigits).digits).drop 1)) ++
          'e' :: exponentText (x.round printedDigits).exponent
      else trimFraction (x.fixed (5 - (x.round printedDigits).exponent).toNat) := by
  show (if (decide ((x.round printedDigits).exponent < -4) ||
    decide (6 ≤ (x.round printedDigits).exponent)) = true then _ else _) = _
  simp only [Bool.or_eq_true, decide_eq_true_eq]
  rfl

theorem Positive.exists_numeral (hx : x.Positive) (negative : Bool) :
    ∃ n : Numeral, n.negative = negative ∧ n.magnitude = x.general ∧
      n.size = significant 6 x.value ∧ n.Trimmed ∧
      if (x.round printedDigits).exponent < -4 ∨ 6 ≤ (x.round printedDigits).exponent then
        n.Scientific (x.round printedDigits).exponent
      else n.Positional := by
  have hf := full_round hx
  have hval := value_round hx
  have ha := x.roundDiv_scale hx (show 0 < printedDigits by decide)
  rw [general_eq]
  generalize x.round printedDigits = d at *
  split
  · exact ⟨d.scientific negative, rfl, d.magnitude_scientific negative,
      (d.size_scientific negative hf).trans hval, Numeral.trimmed_trim _ _ _ _,
      d.scientific_scientific negative hf⟩
  · next he =>
    have hpla : (((5 - d.exponent).toNat : ℕ) : ℤ) = 5 - d.exponent := by omega
    have ha' : roundDiv (x.scale ((5 - d.exponent).toNat : ℕ)).num
        (x.scale ((5 - d.exponent).toNat : ℕ)).den = d.digits := by
      rw [hpla]
      exact ha
    refine ⟨d.positional negative (5 - d.exponent).toNat, rfl,
      d.magnitude_positional negative _ ha', ?_, Numeral.trimmed_trim _ _ _ _,
      d.positional_positional negative hf _⟩
    rw [← hval, Decimal.size_positional, hpla, Decimal.value, neg_sub]

end Fraction

/-! ## §4 Printing -/

theorem value_neg_iff (hb : value b ≠ 0) : value b < 0 ↔ isNegative b = true := by
  have hpos := (positive_of_value_ne_zero hb).value_pos
  rw [value_eq_signed hb]
  split
  · next h => simp [h, hpos]
  · next h => simp [h, hpos.le]

theorem significant_value_eq (hb : value b ≠ 0) (count : ℕ) :
    significant count (value b) =
      if isNegative b then
        -significant count (Fraction.ofBinary (significand b) (exponent b)).value
      else significant count (Fraction.ofBinary (significand b) (exponent b)).value := by
  rw [value_eq_signed hb]
  split
  · exact significant_neg _ _
  · rfl

/-- **Printed numbers are rounded correctly.** For every finite double other than the zeros
there is one way to read the text. The numeral denotes the double rounded to six significant
digits. It is in scientific notation exactly if the exponent `e` of the rounded number is below
-4 or at least 6, and in positional notation otherwise; it has the sign of the double, and no
zero at the end of its fraction. -/
theorem general_correct (b : UInt64) (hb : value b ≠ 0) :
    ∃ e : ℤ, (10 : ℚ) ^ e ≤ |significant 6 (value b)| ∧ |significant 6 (value b)| < 10 ^ (e + 1) ∧
      ((general b).toList.head? = some '-' ↔ value b < 0) ∧
      (∃ n : Numeral, n.text = (general b).toList) ∧
      ∀ n : Numeral, n.text = (general b).toList →
        n.value = significant 6 (value b) ∧ n.Trimmed ∧
        if e < -4 ∨ 6 ≤ e then n.Scientific e else n.Positional := by
  have hx := positive_of_value_ne_zero hb
  obtain ⟨n, hneg, hmag, hs, htri, hf⟩ := hx.exists_numeral (isNegative b)
  have ht : n.text = (general b).toList := by
    rw [general, String.toList_ofList, Numeral.text, hneg, hmag, signed, magnitudeText_eq hb]
  have hval : n.value = significant 6 (value b) := by
    rw [Numeral.value, hneg, hs, significant_value_eq hb]
  have hbou := (Fraction.full_round hx).value_bounds
  rw [Fraction.value_round hx] at hbou
  have habs : |significant 6 (value b)| =
      significant 6 (Fraction.ofBinary (significand b) (exponent b)).value := by
    have hpos := lt_of_lt_of_le (by positivity) hbou.1
    rw [significant_value_eq hb]
    split
    · rw [abs_neg, abs_of_pos hpos]
    · rw [abs_of_pos hpos]
  refine ⟨_, habs ▸ hbou.1, habs ▸ hbou.2, ?_, ⟨n, ht⟩, fun n' hn' => ?_⟩
  · rw [← ht, Numeral.head?_text, hneg, value_neg_iff hb]
  · obtain rfl := Numeral.text_injective (hn'.trans ht.symm)
    exact ⟨hval, htri, hf⟩

/-- The number half a unit below a million. Rounding makes it a million, and with seven digits
before the point that is no longer positional. -/
theorem general_correct_carry :
    value 0x412E847F00000000 ≠ 0 ∧ (general 0x412E847F00000000).toList = "1e+06".toList ∧
      ∃ e : ℤ, (10 : ℚ) ^ e ≤ |significant 6 (value 0x412E847F00000000)| ∧
        |significant 6 (value 0x412E847F00000000)| < 10 ^ (e + 1) ∧
        ((general 0x412E847F00000000).toList.head? = some '-' ↔ value 0x412E847F00000000 < 0) ∧
        (∃ n : Numeral, n.text = (general 0x412E847F00000000).toList) ∧
        ∀ n : Numeral, n.text = (general 0x412E847F00000000).toList →
          n.value = significant 6 (value 0x412E847F00000000) ∧ n.Trimmed ∧
          if e < -4 ∨ 6 ≤ e then n.Scientific e else n.Positional :=
  have hval : value 0x412E847F00000000 ≠ 0 := value_ne_zero_iff.mpr (by decide)
  ⟨hval, by decide +kernel, general_correct _ hval⟩

end ScriptMachine.Number
