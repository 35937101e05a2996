/-
ScriptMachine.Proofs.Numbers.Numerals — decimal notation, and what it denotes.
-/
import Mathlib.Algebra.Order.Field.Power
import Mathlib.Data.List.DropRight
import Mathlib.Data.Rat.Floor
import Mathlib.Tactic.FieldSimp
import ScriptMachine.Number.Decimal

namespace ScriptMachine.Number

/-! ## §1 Digits -/

variable {c : Char}

@[ext]
structure Digits where
  chars : List Char
  isDigit : ∀ c ∈ chars, c.isDigit = true

def NoDigit (text : List Char) : Prop := ∀ c ∈ text.head?, c.isDigit = false

namespace Digits

variable {rest : List Char}

theorem not_mem (ds : Digits) (hc : c.isDigit = false) : c ∉ ds.chars := by
  intro hmem
  rw [ds.isDigit c hmem] at hc
  cases hc

theorem takeWhile_append (ds : Digits) (hr : NoDigit rest) :
    (ds.chars ++ rest).takeWhile Char.isDigit = ds.chars := by
  rw [List.takeWhile_append_of_pos ds.isDigit]
  cases rest with
  | nil => simp
  | cons c rest => simp [hr c rfl]

theorem append_inj {ds ds' : Digits} {rest' : List Char} (hr : NoDigit rest)
    (hr' : NoDigit rest') (h : ds.chars ++ rest = ds'.chars ++ rest') :
    ds = ds' ∧ rest = rest' := by
  have hds : ds.chars = ds'.chars := by
    rw [← ds.takeWhile_append hr, h, ds'.takeWhile_append hr']
  rw [hds] at h
  exact ⟨Digits.ext hds, List.append_cancel_left h⟩

end Digits

/-! ## §2 Numerals -/

@[ext]
structure Numeral where
  negative : Bool
  whole : Digits
  fraction : Option Digits
  exponent : Option (Bool × Digits)

namespace Numeral

variable {e e' : Option (Bool × Digits)}

def pointText : Option Digits → List Char
  | none => []
  | some ds => '.' :: ds.chars

def powerText : Option (Bool × Digits) → List Char
  | none => []
  | some (negative, ds) => 'e' :: (if negative then '-' else '+') :: ds.chars

def power : Option (Bool × Digits) → ℤ
  | none => 0
  | some (negative, ds) =>
    if negative then -Nat.ofDigitChars 10 ds.chars 0 else Nat.ofDigitChars 10 ds.chars 0

variable (n : Numeral)

def magnitude : List Char :=
  n.whole.chars ++ (pointText n.fraction ++ powerText n.exponent)

/-- The notation. -/
def text : List Char := if n.negative then '-' :: n.magnitude else n.magnitude

def places : List Char :=
  match n.fraction with
  | none => []
  | some ds => ds.chars

def size : ℚ :=
  Nat.ofDigitChars 10 (n.whole.chars ++ n.places) 0 * 10 ^ (power n.exponent - n.places.length)

/-- The number it denotes. -/
def value : ℚ := if n.negative then -n.size else n.size

/-- Scientific notation: one digit before the point, and `e` as the exponent, in at least
two digits. -/
def Scientific (e : ℤ) : Prop :=
  n.whole.chars.length = 1 ∧ power n.exponent = e ∧
    ∃ ds, n.exponent = some (decide (e < 0), ds) ∧ 2 ≤ ds.chars.length

/-- Positional notation: no exponent, and before the point no zero that could be left out. -/
def Positional : Prop :=
  n.exponent = none ∧ n.whole.chars ≠ [] ∧
    (n.whole.chars.head? = some '0' → n.whole.chars.length = 1)

/-- If there is a point, a digit other than zero stands at the end of those after it. -/
def Trimmed : Prop := ∀ ds, n.fraction = some ds → ∃ c, ds.chars.getLast? = some c ∧ c ≠ '0'

theorem noDigit_powerText (e : Option (Bool × Digits)) : NoDigit (powerText e) := by
  cases e <;> simp [NoDigit, powerText]

theorem noDigit_tail (f : Option Digits) (e : Option (Bool × Digits)) :
    NoDigit (pointText f ++ powerText e) := by
  cases f with
  | none => exact noDigit_powerText e
  | some ds => simp [NoDigit, pointText]

theorem powerText_inj (h : powerText e = powerText e') : e = e' := by
  match e, e' with
  | none, none => rfl
  | none, some _ | some _, none => cases h
  | some (negative, ds), some (negative', ds') =>
    simp only [powerText, List.cons.injEq, true_and] at h
    obtain ⟨hs, hds⟩ := h
    have hneg : negative = negative' := by
      cases negative <;> cases negative' <;> simp at hs ⊢
    rw [hneg, Digits.ext hds]

theorem pointText_inj {f f' : Option Digits}
    (h : pointText f ++ powerText e = pointText f' ++ powerText e') : f = f' ∧ e = e' := by
  match f, f' with
  | none, none => exact ⟨rfl, powerText_inj h⟩
  | some ds, some ds' =>
    obtain ⟨hds, he⟩ := Digits.append_inj (noDigit_powerText e) (noDigit_powerText e')
      (List.cons.inj h).2
    exact ⟨congrArg some hds, powerText_inj he⟩
  | none, some ds' => cases e <;> simp [pointText, powerText] at h
  | some ds, none => cases e' <;> simp [pointText, powerText] at h

theorem magnitude_inj {n n' : Numeral} (h : n.magnitude = n'.magnitude) :
    n.whole = n'.whole ∧ n.fraction = n'.fraction ∧ n.exponent = n'.exponent := by
  obtain ⟨hw, ht⟩ := Digits.append_inj (noDigit_tail _ _) (noDigit_tail _ _) h
  exact ⟨hw, pointText_inj ht⟩

theorem head?_magnitude : n.magnitude.head? ≠ some '-' := by
  intro h
  unfold magnitude at h
  cases hw : n.whole.chars with
  | cons c rest =>
    simp only [hw, List.cons_append, List.head?_cons, Option.some.injEq] at h
    exact n.whole.not_mem (show ('-' : Char).isDigit = false by decide) (by simp [hw, h])
  | nil =>
    rw [hw, List.nil_append] at h
    match hf : n.fraction, he : n.exponent with
    | some _, _ | none, some _ => simp [hf, he, pointText, powerText] at h
    | none, none => simp [hf, he, pointText, powerText] at h

theorem head?_text : n.text.head? = some '-' ↔ n.negative = true := by
  unfold text
  split
  · next h => simp [h]
  · next h => simp [h, n.head?_magnitude]

theorem text_injective : Function.Injective text := by
  intro n n' h
  have hneg : n.negative = n'.negative := by
    rw [Bool.eq_iff_iff, ← head?_text, h, head?_text]
  have hmag : n.magnitude = n'.magnitude := by
    unfold text at h
    rw [hneg] at h
    split at h
    · exact (List.cons.inj h).2
    · exact h
  obtain ⟨hw, hf, hexp⟩ := magnitude_inj hmag
  exact Numeral.ext hneg hw hf hexp

end Numeral

/-! ## §3 Trimming -/

theorem trimEnd_concat_of_ne {d : Char} (text : List Char) (hd : d ≠ c) :
    trimEnd c (text ++ [d]) = text ++ [d] :=
  List.rdropWhile_concat_neg _ _ _ (by simpa using hd)

theorem trimEnd_append_replicate (c : Char) (text : List Char) (k : ℕ) :
    trimEnd c (text ++ List.replicate k c) = trimEnd c text := by
  induction k with
  | zero => simp
  | succ k ih =>
    rw [List.replicate_succ', ← List.append_assoc, ← ih]
    exact List.rdropWhile_concat_pos _ _ _ (by simp)

theorem trimEnd_cases (c : Char) (text : List Char) :
    (∃ k, text = List.replicate k c ∧ trimEnd c text = []) ∨
      ∃ init d k, text = init ++ [d] ++ List.replicate k c ∧ d ≠ c ∧
        trimEnd c text = init ++ [d] := by
  induction text using List.reverseRecOn with
  | nil => exact .inl ⟨0, rfl, rfl⟩
  | append_singleton text x ih =>
    by_cases hx : x = c
    · subst hx
      have ht := trimEnd_append_replicate x text 1
      rcases ih with ⟨k, heq, hnil⟩ | ⟨init, d, k, heq, hd, hi⟩
      · exact .inl ⟨k + 1, by rw [heq, List.replicate_succ'], ht.trans hnil⟩
      · refine .inr ⟨init, d, k + 1, ?_, hd, ht.trans hi⟩
        rw [List.replicate_succ', ← List.append_assoc, ← heq]
    · exact .inr ⟨text, x, 0, by simp, hx, trimEnd_concat_of_ne text hx⟩

theorem trimEnd_of_not_mem {text : List Char} (h : c ∉ text) : trimEnd c text = text := by
  refine List.rdropWhile_eq_self_iff.mpr fun hne hl => h ?_
  rw [← beq_iff_eq.mp hl]
  exact List.getLast_mem hne

theorem withPoint_of_ne_nil (whole : List Char) {places : List Char} (h : places ≠ []) :
    withPoint whole places = whole ++ '.' :: places := by
  rw [withPoint, if_neg (by simpa using h)]

theorem trimFraction_withPoint (whole places : Digits) :
    trimFraction (withPoint whole.chars places.chars) =
      withPoint whole.chars (stripZeros places.chars) := by
  have hp : '.' ∉ whole.chars := whole.not_mem (by decide)
  rcases trimEnd_cases '0' places.chars with ⟨k, heq, ht⟩ | ⟨init, d, k, heq, hd, ht⟩
  · rw [stripZeros, ht]
    cases k with
    | zero =>
      rw [heq]
      simp [withPoint, trimFraction, hp]
    | succ k =>
      have hz : whole.chars ++ '.' :: List.replicate (k + 1) '0' =
          whole.chars ++ ['.'] ++ List.replicate (k + 1) '0' := by simp
      have hdrop := trimEnd_append_replicate '.' whole.chars 1
      rw [heq, withPoint_of_ne_nil _ (by simp), trimFraction, if_pos (by simp), stripZeros, hz,
        trimEnd_append_replicate, trimEnd_concat_of_ne _ (by decide)]
      exact hdrop.trans (trimEnd_of_not_mem hp)
  · have hdot : d ≠ '.' := by
      rintro rfl
      exact places.not_mem (show ('.' : Char).isDigit = false by decide) (by simp [heq])
    rw [stripZeros, ht, heq, withPoint_of_ne_nil _ (by simp), withPoint_of_ne_nil _ (by simp),
      trimFraction, if_pos (by simp), stripZeros]
    have htext : whole.chars ++ '.' :: (init ++ [d] ++ List.replicate k '0') =
        (whole.chars ++ '.' :: init) ++ [d] ++ List.replicate k '0' := by simp
    rw [htext, trimEnd_append_replicate, trimEnd_concat_of_ne _ hd, trimEnd_concat_of_ne _ hdot]
    simp

def Digits.trim (ds : Digits) : Digits where
  chars := stripZeros ds.chars
  isDigit c hc := ds.isDigit c ((List.rdropWhile_prefix _ ds.chars).subset hc)

theorem Digits.chars_trim (ds : Digits) : ds.trim.chars = trimEnd '0' ds.chars := rfl

namespace Numeral

def ofDigits (negative : Bool) (whole places : Digits) (exponent : Option (Bool × Digits)) :
    Numeral where
  negative := negative
  whole := whole
  fraction := if places.chars = [] then none else some places
  exponent := exponent

variable (negative : Bool) (whole ds : Digits) (exponent : Option (Bool × Digits))

theorem magnitude_ofDigits :
    (ofDigits negative whole ds exponent).magnitude =
      withPoint whole.chars ds.chars ++ powerText exponent := by
  unfold magnitude ofDigits withPoint
  by_cases hnil : ds.chars = [] <;> simp [hnil, pointText]

theorem places_ofDigits : (ofDigits negative whole ds exponent).places = ds.chars := by
  unfold places ofDigits
  by_cases hnil : ds.chars = [] <;> simp [hnil]

theorem size_ofDigits :
    (ofDigits negative whole ds exponent).size =
      Nat.ofDigitChars 10 (whole.chars ++ ds.chars) 0 *
        10 ^ (power exponent - ds.chars.length) := by
  rw [size, places_ofDigits]
  rfl

theorem size_trim :
    (ofDigits negative whole ds.trim exponent).size =
      (ofDigits negative whole ds exponent).size := by
  obtain ⟨k, hk⟩ : ∃ k, ds.chars = ds.trim.chars ++ List.replicate k '0' := by
    rcases trimEnd_cases '0' ds.chars with ⟨k, heq, ht⟩ | ⟨init, d, k, heq, _, ht⟩
    · exact ⟨k, by rw [Digits.chars_trim, ht, heq, List.nil_append]⟩
    · exact ⟨k, by rw [Digits.chars_trim, ht, heq]⟩
  have hdig : Nat.ofDigitChars 10 (whole.chars ++ ds.chars) 0 =
      10 ^ k * Nat.ofDigitChars 10 (whole.chars ++ ds.trim.chars) 0 := by
    rw [hk, ← List.append_assoc, Nat.ofDigitChars_append, Nat.ofDigitChars_replicate_zero]
  have hlen : (ds.chars.length : ℤ) = ds.trim.chars.length + k := by
    rw [hk]
    simp
  rw [size_ofDigits, size_ofDigits, hdig, hlen, ← sub_sub]
  generalize power exponent - ds.trim.chars.length = e
  rw [zpow_sub₀ (by norm_num), zpow_natCast]
  push_cast
  field_simp

theorem trimmed_trim : (ofDigits negative whole ds.trim exponent).Trimmed := by
  intro fraction hf
  simp only [ofDigits, Option.ite_none_left_eq_some, Option.some.injEq] at hf
  obtain ⟨hne, rfl⟩ := hf
  rcases trimEnd_cases '0' ds.chars with ⟨k, _, ht⟩ | ⟨init, d, k, _, hd, ht⟩
  · exact absurd ht hne
  · exact ⟨d, by rw [Digits.chars_trim, ht, List.getLast?_concat], hd⟩

end Numeral

end ScriptMachine.Number
