/-
ScriptMachine.Proofs.Encoding — every word stands for one value, and every
value has a word.
-/
import Mathlib.Data.Set.Lattice
import Mathlib.Order.CompletePartialOrder
import ScriptMachine.Proofs.Words

namespace ScriptMachine

namespace Handle

theorem toNat_ofParts (index : UInt32) (generation : UInt16) :
    (ofParts index generation).raw.toNat = generation.toNat * 0x100000000 + index.toNat := by
  have hgen := generation.toNat_lt
  have hidx := index.toNat_lt
  have hs : (generation.toUInt64 <<< 32).toNat = 2 ^ 32 * generation.toNat := by
    rw [UInt64.toNat_shiftLeft, Nat.shiftLeft_eq]
    simp only [UInt16.toNat_toUInt64, UInt64.reduceToNat, Nat.reduceMod, Nat.reducePow]
    omega
  rw [ofParts, UInt64.toNat_or, hs, UInt32.toNat_toUInt64,
    ← Nat.two_pow_add_eq_or_of_lt hidx]
  omega

theorem index_ofParts (index : UInt32) (generation : UInt16) :
    (ofParts index generation).index = index.toNat := by
  have hidx := index.toNat_lt
  rw [Handle.index, toNat_ofParts]
  omega

theorem generation_ofParts (index : UInt32) (generation : UInt16) :
    (ofParts index generation).generation = generation.toNat := by
  have hgen := generation.toNat_lt
  have hidx := index.toNat_lt
  rw [Handle.generation, toNat_ofParts]
  omega

theorem mk_eq_iff {raw : UInt64} {h : Handle} : Handle.mk raw = h ↔ raw.toNat = h.raw.toNat := by
  rw [UInt64.toNat_inj]
  exact ⟨fun heq => heq ▸ rfl, fun heq => heq ▸ rfl⟩

end Handle

variable {w : Word} {h : Handle}

namespace Word

/-- The word can be read as a value of some kind. -/
def Reads (w : Word) : Tag → Prop
  | .number => ∃ bits, w.toNumber? = .ok bits
  | .bool => ∃ b, w.toBool? = .ok b
  | .nil => w.tag = .nil
  | .object => ∃ h, w.toHandle? = .ok h

theorem reads_iff (w : Word) (t : Tag) : w.Reads t ↔ w.tag = t := by
  cases t with
  | nil => rfl
  | number | bool | object => simp [Reads, toNumber?, toBool?, toHandle?, readAs_eq_ok_iff]

theorem readAs_of_ne {α : Type} {expected : Tag} {found : α} (hne : w.tag ≠ expected) :
    w.readAs expected found = .error (.mismatch expected w.tag) :=
  if_neg hne

theorem tag_eq_iff (w : Word) :
    (w.tag = .bool ↔ w.bits.toNat / 0x1000000000000 = 0x7FF9) ∧
    (w.tag = .nil ↔ w.bits.toNat / 0x1000000000000 = 0x7FFA) ∧
    (w.tag = .object ↔ w.bits.toNat / 0x1000000000000 = 0x7FFB) := by
  simp only [tag_eq_head, head_eq_iff, UInt64.reduceToNat]
  grind

end Word

theorem Number.isNaN_iff_fields (b : UInt64) :
    isNaN b = true ↔ exponentField b = 0x7FF ∧ fractionField b ≠ 0 := by
  have hlt := b.toNat_lt
  simp only [isNaN, exponentField, fractionField, magnitude, gt_iff_lt, decide_eq_true_eq,
    UInt64.lt_iff_toNat_lt, UInt64.toNat_mod, UInt64.reduceToNat]
  omega

namespace Word

theorem tag_ofNumber (b : UInt64) : (ofNumber b).tag = .number :=
  beq_iff_eq.mp (Canonical.of_number b).isNumber

theorem toNumber?_ofNumber {b : UInt64} (hb : Number.isNaN b = false) :
    (ofNumber b).toNumber? = .ok b := by
  have htag := tag_ofNumber b
  rw [ofNumber_of_not_isNaN hb] at htag ⊢
  exact readAs_eq_ok_iff.mpr ⟨htag, rfl⟩

theorem and_not_payloadMask_eq_zero (raw : UInt64) :
    raw &&& ~~~payloadMask = 0 ↔ raw.toNat < 0x1000000000000 := by
  have hm := toNat_and_of_upper raw (~~~payloadMask) 48 (by decide) (by decide)
  rw [← UInt64.toNat_inj, hm]
  simp only [UInt64.reduceToNat]
  omega

theorem toNat_objectMark_or {raw : UInt64} (hraw : raw.toNat < 0x1000000000000) :
    (objectMark ||| raw).toNat = 0x7FFB000000000000 + raw.toNat := by
  exact (Nat.two_pow_add_eq_or_of_lt (i := 48) hraw 0x7FFB).symm

theorem ofHandle?_of_lt (hraw : h.raw.toNat < 0x1000000000000) :
    ofHandle? h = .ok ⟨objectMark ||| h.raw⟩ :=
  if_pos ((and_not_payloadMask_eq_zero h.raw).mpr hraw)

theorem ofHandle?_of_ge (hraw : 0x1000000000000 ≤ h.raw.toNat) :
    ofHandle? h = .error (.payloadOverflow h.raw) :=
  if_neg fun hand => Nat.not_lt.mpr hraw ((and_not_payloadMask_eq_zero h.raw).mp hand)

theorem ofHandle?_eq_ok_iff : ofHandle? h = .ok w ↔
    h.raw.toNat < 0x1000000000000 ∧ w.bits.toNat = 0x7FFB000000000000 + h.raw.toNat := by
  rcases Nat.lt_or_ge h.raw.toNat 0x1000000000000 with hraw | hraw
  · rw [ofHandle?_of_lt hraw, Except.ok.injEq, Word.ext_iff, ← UInt64.toNat_inj,
      toNat_objectMark_or hraw, eq_comm, and_iff_right hraw]
  · simp [ofHandle?_of_ge hraw, Nat.not_lt.mpr hraw]

theorem ofHandle?_eq_ok_iff_toHandle? : ofHandle? h = .ok w ↔ w.toHandle? = .ok h := by
  rw [ofHandle?_eq_ok_iff, toHandle?, readAs_eq_ok_iff, tag_eq_object_iff, isObject_iff,
    Handle.mk_eq_iff, toNat_payload]
  omega

theorem tag_of_ofHandle? (hw : ofHandle? h = .ok w) : w.tag = .object :=
  (readAs_eq_ok_iff.mp (ofHandle?_eq_ok_iff_toHandle?.mp hw)).1

/-- The words that the constructor of a kind writes. -/
def written : Tag → Set Word
  | .number => Set.range ofNumber
  | .bool => Set.range ofBool
  | .nil => {nil}
  | .object => {w | ∃ h, ofHandle? h = .ok w}

theorem tag_of_written {t : Tag} (hw : w ∈ written t) : w.tag = t := by
  cases t with
  | number =>
    obtain ⟨b, rfl⟩ := hw
    exact tag_ofNumber b
  | bool =>
    obtain ⟨c, rfl⟩ := hw
    cases c <;> decide
  | nil =>
    obtain rfl := Set.mem_singleton_iff.mp hw
    decide
  | object =>
    obtain ⟨h, hw⟩ := hw
    exact tag_of_ofHandle? hw

theorem toBool?_ofBool (c : Bool) : (ofBool c).toBool? = .ok c := by
  cases c <;> decide

/-- **Every word stands for one value, and every value for one word.** A word is read by
the accessor its tag names and by no other, and the tag is that of its upper sixteen bits;
an accessor that fails tells the tag. Doubles are kept to the bit, except that all NaNs are
one. A handle can be written if it fits 48 bits, and handles and references are then in
bijection. No two constructors write the same word. -/
theorem encoding_faithful :
    (∀ w : Word,
      (∀ t, w.Reads t ↔ w.tag = t) ∧
      (w.tag = .bool ↔ w.bits.toNat / 0x1000000000000 = 0x7FF9) ∧
      (w.tag = .nil ↔ w.bits.toNat / 0x1000000000000 = 0x7FFA) ∧
      (w.tag = .object ↔ w.bits.toNat / 0x1000000000000 = 0x7FFB) ∧
      (w.isNumber = true ↔ w.tag = .number) ∧
      (w.isObject = true ↔ w.tag = .object) ∧
      (w.tag ≠ .number → w.toNumber? = .error (.mismatch .number w.tag)) ∧
      (w.tag ≠ .bool → w.toBool? = .error (.mismatch .bool w.tag)) ∧
      (w.tag ≠ .object → w.toHandle? = .error (.mismatch .object w.tag)) ∧
      (w.tag = .object → ∃ h, w.toHandle? = .ok h ∧ ofHandle? h = .ok w)) ∧
    (∀ b : UInt64,
      if Number.exponentField b = 0x7FF ∧ Number.fractionField b ≠ 0 then
        ofNumber b = ⟨0x7FF8000000000000⟩
      else (ofNumber b).toNumber? = .ok b) ∧
    (∀ h : Handle,
      ((∃ w, ofHandle? h = .ok w) ↔ h.raw.toNat < 2 ^ 48) ∧
      (∀ w, ofHandle? h = .ok w → w.toHandle? = .ok h) ∧
      ∀ e, ofHandle? h = .error e → e = .payloadOverflow h.raw) ∧
    (∀ (index : UInt32) (generation : UInt16),
      (Handle.ofParts index generation).index = index.toNat ∧
      (Handle.ofParts index generation).generation = generation.toNat) ∧
    (∀ c, (ofBool c).toBool? = .ok c) ∧
    (∀ t, ∀ w ∈ written t, w.tag = t) ∧
    ∀ s t, s ≠ t → Disjoint (written s) (written t) := by
  refine ⟨fun w => ?words, fun b => ?doubles, fun h => ?handles, fun index generation => ?parts,
    toBool?_ofBool, fun t w => tag_of_written, fun s t hst => ?disjoint⟩
  case words =>
    obtain ⟨hb, hnil, hobj⟩ := w.tag_eq_iff
    refine ⟨w.reads_iff, hb, hnil, hobj, beq_iff_eq, w.tag_eq_object_iff.symm,
      readAs_of_ne, readAs_of_ne, readAs_of_ne, fun htag => ?_⟩
    have hr : w.toHandle? = .ok ⟨w.payload⟩ := readAs_eq_ok_iff.mpr ⟨htag, rfl⟩
    exact ⟨_, hr, ofHandle?_eq_ok_iff_toHandle?.mpr hr⟩
  case doubles =>
    split
    · next hnan => exact ofNumber_of_isNaN ((Number.isNaN_iff_fields b).mpr hnan)
    · next hnan =>
      rw [← Number.isNaN_iff_fields, Bool.not_eq_true] at hnan
      exact toNumber?_ofNumber hnan
  case handles =>
    refine ⟨⟨fun ⟨w, hw⟩ => (ofHandle?_eq_ok_iff.mp hw).1, fun hraw => ⟨_, ofHandle?_of_lt hraw⟩⟩,
      fun w => ofHandle?_eq_ok_iff_toHandle?.mp, fun e he => ?_⟩
    rcases Nat.lt_or_ge h.raw.toNat 0x1000000000000 with hraw | hraw
    · rw [ofHandle?_of_lt hraw] at he
      cases he
    · rw [ofHandle?_of_ge hraw] at he
      exact (Except.error.inj he).symm
  case parts =>
    exact ⟨Handle.index_ofParts index generation, Handle.generation_ofParts index generation⟩
  case disjoint =>
    rw [Set.disjoint_left]
    intro w hs ht
    exact hst ((tag_of_written hs).symm.trans (tag_of_written ht))

end Word

end ScriptMachine
