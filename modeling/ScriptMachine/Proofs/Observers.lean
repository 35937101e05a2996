/-
ScriptMachine.Proofs.Observers — what is seen of a nil or a truth value.
-/
import ScriptMachine.Proofs.Encoding

namespace ScriptMachine

namespace Word

variable {v w : Word} {c : Bool}

theorem eq_iff_tag_payload (hv : v.tag ≠ .number) :
    v = w ↔ v.tag = w.tag ∧ v.payload = w.payload := by
  refine ⟨fun heq => heq ▸ ⟨rfl, rfl⟩, fun ⟨htag, hpay⟩ => ?_⟩
  obtain ⟨hb, hnil, hobj⟩ := v.tag_eq_iff
  obtain ⟨hb', hnil', hobj'⟩ := w.tag_eq_iff
  rw [← UInt64.toNat_inj, toNat_payload, toNat_payload] at hpay
  have hh : v.bits.toNat / 0x1000000000000 = w.bits.toNat / 0x1000000000000 := by
    cases ht : v.tag with
    | number => exact absurd ht hv
    | bool => rw [hb.mp ht, hb'.mp (htag ▸ ht)]
    | nil => rw [hnil.mp ht, hnil'.mp (htag ▸ ht)]
    | object => rw [hobj.mp ht, hobj'.mp (htag ▸ ht)]
  rw [Word.ext_iff, ← UInt64.toNat_inj]
  omega

theorem eq_nil_iff : w = nil ↔ w.tag = .nil ∧ w.payload.toNat = 0 := by
  rw [eq_comm, eq_iff_tag_payload (by decide), ← UInt64.toNat_inj]
  exact and_congr eq_comm eq_comm

theorem eq_ofBool_iff : w = ofBool c ↔ w.tag = .bool ∧ w.payload.toNat = c.toNat := by
  rw [eq_comm, eq_iff_tag_payload (by cases c <;> decide), ← UInt64.toNat_inj]
  cases c <;> exact and_congr eq_comm eq_comm

theorem toBool?_eq_ok_iff :
    w.toBool? = .ok c ↔ w.tag = .bool ∧ w.payload.toNat % 2 = c.toNat := by
  have hbit : (w.bits &&& 1).toNat = w.bits.toNat % 2 := by
    exact Nat.and_one_is_mod _
  rw [toBool?, readAs_eq_ok_iff, toNat_payload]
  refine and_congr_right fun _ => ?_
  cases c with
  | true =>
    rw [beq_iff_eq, ← UInt64.toNat_inj, hbit]
    simp only [UInt64.reduceToNat, Bool.toNat_true]
    omega
  | false =>
    rw [beq_eq_false_iff_ne, ne_eq, ← UInt64.toNat_inj, hbit]
    simp only [UInt64.reduceToNat, Bool.toNat_false]
    omega

theorem tag_of_toBool? (hc : w.toBool? = .ok c) : w.tag = .bool :=
  (toBool?_eq_ok_iff.mp hc).1

theorem isNil_iff : w.isNil = true ↔ w.tag = .nil ∧ w.payload.toNat = 0 := by
  rw [isNil, beq_iff_eq, eq_nil_iff]

theorem isFalsy_iff :
    w.isFalsy = true ↔ (w.tag = .nil ∨ w.tag = .bool) ∧ w.payload.toNat = 0 := by
  rw [isFalsy, Bool.or_eq_true, beq_iff_eq, beq_iff_eq, eq_nil_iff, eq_ofBool_iff, or_and_right]
  rfl

theorem inspect_of_toBool? (hc : w.toBool? = .ok c) :
    w.inspect = "Bool(" ++ toString c ++ ")" := by
  obtain ⟨htag, rfl⟩ := readAs_eq_ok_iff.mp hc
  unfold inspect
  rw [htag]
  cases w.bits &&& 1 == 1 <;> rfl

theorem render_of_tag_bool (s : Store) (htag : w.tag = .bool) :
    s.render w = toString (decide (w.payload.toNat = 1)) := by
  have ht : w = ofBool true ↔ w.payload.toNat = 1 :=
    eq_ofBool_iff.trans (and_iff_right htag)
  unfold Store.render
  simp only [htag, ht]
  by_cases hpay : w.payload.toNat = 1
  · rw [if_pos hpay, decide_eq_true hpay]
    rfl
  · rw [if_neg hpay, decide_eq_false hpay]
    rfl

/-- The two words stand for nil both, or for the same truth value. -/
def Alike (v w : Word) : Prop :=
  v.tag = .nil ∧ w.tag = .nil ∨ ∃ c, v.toBool? = .ok c ∧ w.toBool? = .ok c

theorem Alike.tag_eq (h : Alike v w) : v.tag = w.tag ∧ (v.tag = .nil ∨ v.tag = .bool) := by
  rcases h with ⟨hv, hw⟩ | ⟨c, hv, hw⟩
  · exact ⟨hv.trans hw.symm, .inl hv⟩
  · exact ⟨(tag_of_toBool? hv).trans (tag_of_toBool? hw).symm, .inr (tag_of_toBool? hv)⟩

theorem valuesEqual_of_alike (s : Store) (h : Alike v w) :
    s.valuesEqual v w = true ↔ v.payload = w.payload := by
  obtain ⟨ht, hv⟩ := h.tag_eq
  have hnum : v.tag ≠ .number := by
    rcases hv with hv | hv <;> simp [hv]
  have hobj : v.tag ≠ .object := by
    rcases hv with hv | hv <;> simp [hv]
  have htext : s.heap.text? v = none := by
    rw [Heap.text?, Heap.deref?, toHandle?, readAs_of_ne hobj]
  have hw : v.payload = w.payload ↔ v = w := by
    rw [eq_iff_tag_payload hnum, and_iff_right ht]
  rw [hw]
  unfold Store.valuesEqual
  simp [isNumber, hnum, htext]

theorem isNil_agrees_iff :
    (w.isNil = true ↔ w.tag = .nil) ↔ (w.tag = .nil → w.payload.toNat = 0) := by
  rw [isNil_iff]
  exact and_iff_left_iff_imp

theorem isFalsy_agrees_iff :
    (w.isFalsy = true ↔ w.tag = .nil ∨ w.toBool? = .ok false) ↔
      (w.tag = .nil ∨ w.toBool? = .ok false → w.payload.toNat = 0) := by
  rw [isFalsy_iff, toBool?_eq_ok_iff]
  constructor
  · exact fun ha hw => (ha.mpr hw).2
  · refine fun hpay => ⟨fun ⟨htag, hp⟩ => htag.imp_right fun hb => ⟨hb, ?_⟩,
      fun hw => ⟨hw.imp_right And.left, hpay hw⟩⟩
    rw [hp, Bool.toNat_false]

theorem render_agrees_iff (s : Store) :
    (∀ c, w.toBool? = .ok c → s.render w = toString c) ↔
      (w.toBool? = .ok true → w.payload.toNat = 1) := by
  constructor
  · intro hren hc
    have ht := hren true hc
    rw [render_of_tag_bool s (tag_of_toBool? hc)] at ht
    by_contra hpay
    rw [decide_eq_false hpay] at ht
    exact absurd ht (by decide)
  · intro hpay c hc
    rw [render_of_tag_bool s (tag_of_toBool? hc)]
    cases c with
    | true => rw [decide_eq_true (hpay hc)]
    | false =>
      have hbit : w.payload.toNat % 2 = 0 := (toBool?_eq_ok_iff.mp hc).2
      rw [decide_eq_false (by omega)]

/-- Everything that can be seen of `w` as a nil or a truth value is what its tag and its
lowest bit say. -/
structure Observed (s : Store) (w : Word) : Prop where
  isNil : w.isNil = true ↔ w.tag = .nil
  isFalsy : w.isFalsy = true ↔ w.tag = .nil ∨ w.toBool? = .ok false
  isTruthy : w.isTruthy = !w.isFalsy
  inspect : ∀ c, w.toBool? = .ok c → w.inspect = "Bool(" ++ toString c ++ ")"
  render : ∀ c, w.toBool? = .ok c → s.render w = toString c

/-- The payload is one that a constructor writes. -/
def Clean (w : Word) : Prop :=
  (w.tag = .nil → w.payload.toNat = 0) ∧ (w.tag = .bool → w.payload.toNat ≤ 1)

theorem Clean.payload_of_toBool? (hw : w.Clean) (hc : w.toBool? = .ok c) :
    w.payload.toNat = c.toNat := by
  obtain ⟨htag, hbit⟩ := toBool?_eq_ok_iff.mp hc
  have := hw.2 htag
  omega

theorem Clean.observed (s : Store) (hw : w.Clean) : w.Observed s where
  isNil := isNil_agrees_iff.mpr hw.1
  isFalsy := isFalsy_agrees_iff.mpr (Or.rec hw.1 hw.payload_of_toBool?)
  isTruthy := rfl
  inspect _ := inspect_of_toBool?
  render := (render_agrees_iff s).mpr hw.payload_of_toBool?

theorem Observed.clean {s : Store} (hw : w.Observed s) : w.Clean := by
  have hnil := isNil_agrees_iff.mp hw.isNil
  have hf := isFalsy_agrees_iff.mp hw.isFalsy
  have hren := (render_agrees_iff s).mp hw.render
  simp only [toBool?_eq_ok_iff, Bool.toNat_false, Bool.toNat_true] at hf hren
  refine ⟨hnil, fun htag => ?_⟩
  rcases Nat.mod_two_eq_zero_or_one w.payload.toNat with hbit | hbit
  · have := hf (.inr ⟨htag, hbit⟩)
    omega
  · have := hren ⟨htag, hbit⟩
    omega

theorem Clean.valuesEqual (s : Store) (hv : v.Clean) (hw : w.Clean) (h : v.Alike w) :
    s.valuesEqual v w = true := by
  rw [valuesEqual_of_alike s h, ← UInt64.toNat_inj]
  rcases h with ⟨hnil, hnil'⟩ | ⟨c, hc, hc'⟩
  · rw [hv.1 hnil, hw.1 hnil']
  · rw [hv.payload_of_toBool? hc, hw.payload_of_toBool? hc']

/-- **Where the observers of a value agree.** They all follow the tag and the lowest bit
exactly on the words with a clean payload, and equality holds between any two such words that
stand for the same nil or truth value. Of a word that is not clean, diagnostics still tell the
truth value, and truthiness is still the opposite of falsiness. But `isNil` misses every nil
with a payload, `isFalsy` misses these and every false with a payload, printing misses every
true whose payload is not 1, and equality is that of the payloads. -/
theorem observers_agree_iff (s : Store) :
    (∀ w : Word, w.Observed s ↔ w.Clean) ∧
    (∀ v w : Word, v.Clean → w.Clean → v.Alike w → s.valuesEqual v w = true) ∧
    (∀ w : Word,
      w.isTruthy = !w.isFalsy ∧
      (∀ c, w.toBool? = .ok c → w.inspect = "Bool(" ++ toString c ++ ")") ∧
      ((w.isNil = true ↔ w.tag = .nil) ↔ (w.tag = .nil → w.payload.toNat = 0)) ∧
      ((w.isFalsy = true ↔ w.tag = .nil ∨ w.toBool? = .ok false) ↔
        (w.tag = .nil ∨ w.toBool? = .ok false → w.payload.toNat = 0)) ∧
      ((∀ c, w.toBool? = .ok c → s.render w = toString c) ↔
        (w.toBool? = .ok true → w.payload.toNat = 1))) ∧
    ∀ v w : Word, v.Alike w → (s.valuesEqual v w = true ↔ v.payload = w.payload) :=
  ⟨fun _ => ⟨Observed.clean, Clean.observed s⟩, fun _ _ => Clean.valuesEqual s,
    fun _ => ⟨rfl, fun _ => inspect_of_toBool?, isNil_agrees_iff, isFalsy_agrees_iff,
      render_agrees_iff s⟩,
    fun _ _ => valuesEqual_of_alike s⟩

/-- A nil that is not nil, a false that is not falsy, and a true that prints as false. -/
theorem observers_disagree :
    (Word.mk 0x7FFA000000000001).tag = .nil ∧ (Word.mk 0x7FFA000000000001).isNil = false ∧
      (Word.mk 0x7FFA000000000001).isFalsy = false ∧
    (Word.mk 0x7FF9000000000002).toBool? = .ok false ∧
      (Word.mk 0x7FF9000000000002).isFalsy = false ∧
    (Word.mk 0x7FF9000000000003).toBool? = .ok true ∧
      (∀ s : Store, s.render ⟨0x7FF9000000000003⟩ = "false") ∧
      ∀ s : Store, s.valuesEqual ⟨0x7FF9000000000003⟩ (.ofBool true) = false := by
  refine ⟨by decide, by decide, by decide, by decide, by decide, by decide, fun s => ?_,
    fun s => ?_⟩
  · rw [render_of_tag_bool s (by decide)]
    decide
  · rw [← Bool.not_eq_true, valuesEqual_of_alike s (.inr ⟨true, by decide, by decide⟩)]
    decide

end Word

end ScriptMachine
