/-
ScriptMachine.Proofs.Words — what the bits of a word say.
-/
import Mathlib.Algebra.Ring.Nat
import ScriptMachine.Store.Operators

namespace ScriptMachine

variable {bits : UInt64}

namespace Word

variable {w : Word} {i : Nat}

theorem toNat_and_of_upper (x mask : UInt64) (k : Nat) (hk : k ≤ 64)
    (hm : mask.toNat = 2 ^ 64 - 2 ^ k) :
    (x &&& mask).toNat = x.toNat / 2 ^ k * 2 ^ k := by
  have hs : (2 : Nat) ^ 64 - 2 ^ k = 2 ^ k * (2 ^ (64 - k) - 1) := by
    rw [Nat.mul_sub_one, ← Nat.pow_add, Nat.add_sub_of_le hk]
  have hlow : x.toNat / 2 ^ k < 2 ^ (64 - k) := by
    rw [Nat.div_lt_iff_lt_mul (Nat.two_pow_pos k), ← Nat.pow_add, Nat.sub_add_cancel hk]
    exact x.toNat_lt
  have hu : (x.toNat &&& mask.toNat) / 2 ^ k = x.toNat / 2 ^ k := by
    rw [Nat.and_div_two_pow, hm, hs, Nat.mul_div_cancel_left _ (Nat.two_pow_pos k),
      Nat.and_two_pow_sub_one_eq_mod, Nat.mod_eq_of_lt hlow]
  have hl : (x.toNat &&& mask.toNat) % 2 ^ k = 0 := by
    rw [Nat.and_mod_two_pow, hm, hs, Nat.mul_mod_right, Nat.and_zero]
  rw [UInt64.toNat_and, ← Nat.div_add_mod (x.toNat &&& mask.toNat) (2 ^ k), hu, hl,
    Nat.mul_comm, Nat.add_zero]

theorem toNat_head (w : Word) : w.head.toNat = w.bits.toNat / 0x1000000000000 := by
  simp [head, Nat.shiftRight_eq_div_pow]

theorem toNat_payload (w : Word) : w.payload.toNat = w.bits.toNat % 0x1000000000000 := by
  exact Nat.and_two_pow_sub_one_eq_mod _ 48

theorem head_eq_iff (w : Word) (h : UInt64) :
    w.head = h ↔ w.bits.toNat / 0x1000000000000 = h.toNat := by
  rw [← UInt64.toNat_inj, toNat_head]

theorem isObject_iff (w : Word) :
    w.isObject = true ↔ w.bits.toNat / 0x1000000000000 = 0x7FFB := by
  have hm := toNat_and_of_upper w.bits objectMask 48 (by decide) (by decide)
  rw [isObject, beq_iff_eq, ← UInt64.toNat_inj, hm]
  simp only [objectMark, UInt64.reduceToNat]
  omega

theorem boxed_iff (w : Word) :
    w.bits &&& boxedMask = quietNaN.bits ↔ w.bits.toNat / 0x4000000000000 = 0x1FFE := by
  have hm := toNat_and_of_upper w.bits boxedMask 50 (by decide) (by decide)
  rw [← UInt64.toNat_inj, hm]
  simp only [quietNaN, UInt64.reduceToNat]
  omega

theorem toNat_code (w : Word) :
    ((w.bits &&& selectMask) >>> 48).toNat = w.bits.toNat / 0x1000000000000 % 4 := by
  have hs : ((w.bits &&& selectMask) >>> 48).toNat =
      (w.bits.toNat &&& selectMask.toNat) / 2 ^ 48 := by
    simp [Nat.shiftRight_eq_div_pow]
  rw [hs, Nat.and_div_two_pow]
  exact Nat.and_two_pow_sub_one_eq_mod _ 2

theorem tag_eq_head (w : Word) :
    w.tag =
      if w.head = 0x7FF9 then .bool
      else if w.head = 0x7FFA then .nil
      else if w.head = 0x7FFB then .object
      else .number := by
  have hc := w.toNat_code
  simp only [tag, Tag.ofCode, boxed_iff, head_eq_iff]
  simp only [← UInt64.toNat_inj, hc, UInt64.reduceToNat]
  grind

theorem tag_eq_object_iff (w : Word) : w.tag = .object ↔ w.isObject = true := by
  rw [tag_eq_head, isObject_iff]
  simp only [head_eq_iff, UInt64.reduceToNat]
  repeat' split
  all_goals simp_all

theorem isPlain_iff (w : Word) :
    w.isPlain = true ↔ w.bits.toNat / 0x4000000000000 ≠ 0x1FFE := by
  rw [isPlain, bne_iff_ne, ne_eq, boxed_iff]

theorem isNumber_iff (w : Word) :
    w.isNumber = true ↔ w.bits.toNat / 0x1000000000000 ≠ 0x7FF9 ∧
      w.bits.toNat / 0x1000000000000 ≠ 0x7FFA ∧ w.bits.toNat / 0x1000000000000 ≠ 0x7FFB := by
  rw [isNumber, beq_iff_eq, tag_eq_head]
  simp only [head_eq_iff, UInt64.reduceToNat]
  repeat' split
  all_goals simp_all

theorem readAs_eq_ok_iff {α : Type} {expected : Tag} {found a : α} :
    w.readAs expected found = .ok a ↔ w.tag = expected ∧ found = a := by
  unfold readAs
  split <;> simp_all

theorem isNumber_of_isPlain (h : w.isPlain = true) : w.isNumber = true := by
  rw [isPlain_iff] at h
  rw [isNumber_iff]
  omega

theorem ofBool_xor (b : Bool) : (⟨(Word.ofBool b).bits ^^^ 1⟩ : Word) = .ofBool !b := by
  cases b <;> decide

theorem isObject_of_isNumber (h : w.isNumber = true) : w.isObject = false := by
  rw [isNumber_iff] at h
  rw [← Bool.not_eq_true, isObject_iff]
  exact h.2.2

section

variable (h : i < 0x100000000)

include h

theorem toNat_ofIndex : (ofIndex i).bits.toNat = 0x7FFB000000000000 + i := by
  simp only [ofIndex, UInt64.toNat_add, UInt64.toNat_ofNat, UInt64.toNat_ofNat']
  omega

theorem isObject_ofIndex : (ofIndex i).isObject = true := by
  rw [isObject_iff, toNat_ofIndex h]
  omega

theorem tag_ofIndex : (ofIndex i).tag = .object :=
  (tag_eq_object_iff _).mpr (isObject_ofIndex h)

theorem objectIndex_ofIndex : (ofIndex i).objectIndex = i := by
  rw [objectIndex, toNat_ofIndex h]
  omega

theorem isNumber_ofIndex : (ofIndex i).isNumber = false := by
  rw [← Bool.not_eq_true]
  intro hn
  have := isObject_of_isNumber hn
  rw [isObject_ofIndex h] at this
  cases this

theorem isPlain_ofIndex : (ofIndex i).isPlain = false := by
  rw [← Bool.not_eq_true, isPlain_iff, toNat_ofIndex h]
  omega

end

theorem ofIndex_inj {j : Nat} (hi : i < 0x100000000) (hj : j < 0x100000000)
    (h : ofIndex i = ofIndex j) : i = j := by
  have := congrArg (fun w => w.bits.toNat) h
  simp only [toNat_ofIndex hi, toNat_ofIndex hj] at this
  omega

theorem isFalsy_ofIndex (h : i < 0x100000000) : (ofIndex i).isFalsy = false := by
  rw [← Bool.not_eq_true]
  intro hf
  simp only [isFalsy, Bool.or_eq_true, beq_iff_eq] at hf
  have hobj := isObject_ofIndex h
  rcases hf with hf | hf <;> rw [hf] at hobj <;> exact absurd hobj (by decide)

theorem payload_ofIndex (h : i < 0x100000000) : (ofIndex i).payload = UInt64.ofNat i := by
  rw [← UInt64.toNat_inj, toNat_payload, toNat_ofIndex h, UInt64.toNat_ofNat']
  omega

theorem toHandle?_ofIndex (h : i < 0x100000000) : (ofIndex i).toHandle? = .ok ⟨UInt64.ofNat i⟩ := by
  rw [toHandle?, readAs, if_pos (tag_ofIndex h), payload_ofIndex h]

end Word

theorem Handle.index_ofNat {i : Nat} (h : i < 0x100000000) :
    (Handle.mk (UInt64.ofNat i)).index = i := by
  simp only [Handle.index, UInt64.toNat_ofNat']
  omega

namespace Heap

variable {heap : Heap} {w : Word} {o : Object}

theorem get?_ofNat (heap : Heap) {i : Nat} (h : i < 0x100000000) :
    heap.get? ⟨UInt64.ofNat i⟩ = heap.objects[i]? := by
  have hgen : (Handle.mk (UInt64.ofNat i)).generation = 0 := by
    simp only [Handle.generation, UInt64.toNat_ofNat']
    omega
  rw [get?, hgen, if_pos rfl, Handle.index_ofNat h]

theorem deref?_ofIndex (heap : Heap) {i : Nat} (h : i < 0x100000000) :
    heap.deref? (.ofIndex i) = heap.objects[i]? := by
  rw [deref?, Word.toHandle?_ofIndex h]
  exact heap.get?_ofNat h

theorem deref?_eq_some :
    heap.deref? w = some o ↔ ∃ i < 0x100000000, w = .ofIndex i ∧ heap.objects[i]? = some o := by
  constructor
  · intro h
    unfold deref? at h
    cases hh : w.toHandle? with
    | error e => simp [hh] at h
    | ok hd =>
      simp only [hh, get?] at h
      split at h
      case isFalse => cases h
      case isTrue hgen =>
        have hobj : w.isObject = true ∧ hd = ⟨w.payload⟩ := by
          obtain ⟨htag, rfl⟩ := Word.readAs_eq_ok_iff.mp hh
          exact ⟨(Word.tag_eq_object_iff w).mp htag, rfl⟩
        obtain ⟨hobj, rfl⟩ := hobj
        rw [Word.isObject_iff] at hobj
        simp only [Handle.generation, Word.toNat_payload] at hgen
        simp only [Handle.index, Word.toNat_payload] at h
        refine ⟨_, Nat.mod_lt _ (by decide), ?_, h⟩
        rw [Word.ext_iff, ← UInt64.toNat_inj, Word.toNat_ofIndex (Nat.mod_lt _ (by decide))]
        omega
  · rintro ⟨i, hi, rfl, h⟩
    rw [heap.deref?_ofIndex hi, h]

theorem isObject_of_deref? (h : heap.deref? w = some o) : w.isObject = true := by
  obtain ⟨i, hi, rfl, _⟩ := deref?_eq_some.mp h
  exact Word.isObject_ofIndex hi

theorem getElem?_objectIndex (h : heap.deref? w = some o) :
    heap.objects[w.objectIndex]? = some o := by
  obtain ⟨i, hi, rfl, ho⟩ := deref?_eq_some.mp h
  rwa [Word.objectIndex_ofIndex hi]

theorem instance?_eq_some {index : Nat} {i : Instance} (h : heap.instance? w = some (index, i)) :
    heap.deref? w = some (.ofInstance i) ∧ index = w.objectIndex := by
  unfold instance? at h
  split at h
  · next hd =>
    cases h
    exact ⟨hd, rfl⟩
  · cases h

end Heap

theorem Number.toBits_of_isNaN {x : Float} (h : Number.isNaN x.toBits = true) :
    x.toBits = 0x7FF8000000000000 := by
  have hv := x.toModel.valid.eq_packedNaN
  have hb : x.toBits = x.toModel.toBits := rfl
  rw [hb] at h ⊢
  generalize x.toModel.toBits = b at h hv ⊢
  simp only [Number.isNaN, Number.magnitude, gt_iff_lt, decide_eq_true_eq, UInt64.lt_iff_toNat_lt,
    UInt64.toNat_mod, UInt64.toNat_ofNat, Nat.reducePow, Nat.reduceMod] at h
  have hexp : (@Float.Model.UnpackedFloat.unpackExponent .binary64 b.toBitVec).toNat = 2047 := by
    simp only [Float.Model.UnpackedFloat.unpackExponent, BitVec.toNat_cast,
      BitVec.extractLsb_toNat, UInt64.toNat_toBitVec, Nat.shiftRight_eq_div_pow]
    omega
  have hm : (@Float.Model.UnpackedFloat.unpackMantissa .binary64 b.toBitVec).toNat ≠ 0 := by
    simp only [Float.Model.UnpackedFloat.unpackMantissa, BitVec.toNat_cast,
      BitVec.extractLsb_toNat, UInt64.toNat_toBitVec, Nat.shiftRight_eq_div_pow]
    omega
  have hpac := hv (BitVec.eq_of_toNat_eq hexp) fun hz => hm (congrArg BitVec.toNat hz)
  rw [← UInt64.toBitVec_inj, hpac]
  decide

theorem Number.toNat_flipSign (b : UInt64) :
    (Number.flipSign b).toNat =
      if b.toNat < 0x8000000000000000 then b.toNat + 0x8000000000000000
      else b.toNat - 0x8000000000000000 := by
  have hlow : (b.toNat ^^^ 2 ^ 63) % 2 ^ 63 = b.toNat % 2 ^ 63 :=
    Nat.xor_mod_two_pow.trans (Nat.xor_zero _)
  have hh : (b.toNat ^^^ 2 ^ 63) / 2 ^ 63 = b.toNat / 2 ^ 63 ^^^ 1 := Nat.xor_div_two_pow
  have hlt := b.toNat_lt
  change b.toNat ^^^ 2 ^ 63 = _
  split
  · have hz : b.toNat / 2 ^ 63 = 0 := by omega
    rw [hz, Nat.zero_xor] at hh
    omega
  · have hone : b.toNat / 2 ^ 63 = 1 := by omega
    rw [hone, Nat.xor_self] at hh
    omega

theorem Number.flipSign_flipSign (b : UInt64) : Number.flipSign (Number.flipSign b) = b := by
  simp [Number.flipSign, UInt64.xor_assoc]

theorem Number.isNaN_flipSign (b : UInt64) : Number.isNaN (Number.flipSign b) = Number.isNaN b := by
  have hmag : Number.magnitude (Number.flipSign b) = Number.magnitude b := by
    rw [← UInt64.toNat_inj]
    simp only [Number.magnitude, UInt64.toNat_mod, UInt64.reduceToNat, Number.toNat_flipSign]
    split <;> omega
  rw [Number.isNaN, hmag, Number.isNaN]

theorem Word.ofNumber_of_isNaN (h : Number.isNaN bits = true) : Word.ofNumber bits = .quietNaN := by
  unfold Word.ofNumber
  rw [if_pos (by simpa [Number.isNaN, Number.magnitude] using h)]

theorem Word.ofNumber_of_not_isNaN (h : Number.isNaN bits = false) :
    Word.ofNumber bits = ⟨bits⟩ := by
  unfold Word.ofNumber
  rw [if_neg (by simpa [Number.isNaN, Number.magnitude] using h)]

theorem Word.tag_flipSign (w : Word) :
    (Word.mk (Number.flipSign w.bits)).tag =
      if w.head = 0xFFF9 then .bool
      else if w.head = 0xFFFA then .nil
      else if w.head = 0xFFFB then .object
      else .number := by
  have hh : ∀ h : UInt64, h.toNat < 0x8000 →
      ((Word.mk (Number.flipSign w.bits)).head = h ↔ w.head = h + 0x8000) := by
    intro h hlt
    have hsum : (h + 0x8000).toNat = h.toNat + 0x8000 := by
      rw [UInt64.toNat_add]
      show (h.toNat + 0x8000) % 2 ^ 64 = h.toNat + 0x8000
      omega
    have hbits := w.bits.toNat_lt
    rw [Word.head_eq_iff, Word.head_eq_iff, Number.toNat_flipSign, hsum]
    split <;> omega
  have hb := hh 0x7FF9 (by decide)
  have hnil := hh 0x7FFA (by decide)
  have hobj := hh 0x7FFB (by decide)
  simp only [Word.tag_eq_head, hb, hnil, hobj]
  rfl

def Word.Canonical (w : Word) : Prop := Number.isNaN w.bits = false ∨ w = .quietNaN

namespace Word.Canonical

variable {w : Word}

theorem of_number (bits : UInt64) : (Word.ofNumber bits).Canonical := by
  unfold Word.ofNumber
  split
  · exact .inr rfl
  · next h =>
    left
    simpa [Number.isNaN, Number.magnitude] using h

theorem of_float (x : Float) : (Word.mk (Number.canonical x)).Canonical := by
  unfold Number.canonical
  split
  · exact .inr rfl
  · cases hn : Number.isNaN x.toBits with
    | false => exact .inl hn
    | true =>
      right
      rw [Number.toBits_of_isNaN hn]
      rfl

theorem isNumber (h : w.Canonical) : w.isNumber = true := by
  rw [Word.isNumber_iff]
  rcases h with h | rfl
  · simp only [Number.isNaN, Number.magnitude, gt_iff_lt, decide_eq_false_iff_not,
      UInt64.lt_iff_toNat_lt, UInt64.toNat_mod, UInt64.toNat_ofNat, Nat.reducePow,
      Nat.reduceMod] at h
    omega
  · decide

theorem isObject (h : w.Canonical) : w.isObject = false :=
  Word.isObject_of_isNumber h.isNumber

theorem flipSign (h : w.Canonical) (hp : w.isPlain = true) :
    (Word.mk (Number.flipSign w.bits)).Canonical := by
  rcases h with h | rfl
  · exact .inl ((Number.isNaN_flipSign w.bits).trans h)
  · exact absurd hp (by decide)

end Word.Canonical

end ScriptMachine
