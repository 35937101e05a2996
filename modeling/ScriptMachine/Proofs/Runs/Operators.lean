/-
ScriptMachine.Proofs.Runs.Operators — operators computed in place, and by
routine.
-/
import ScriptMachine.Proofs.Runs.Steps
import ScriptMachine.Proofs.Words

namespace ScriptMachine

/-! ## §1 Comparisons -/

namespace Number

theorem relate_cases (a b : UInt64) :
    (relate a b = .unordered ∧ equal a b = false ∧ less a b = false ∧ less b a = false) ∨
    (relate a b = .less ∧ equal a b = false ∧ less a b = true ∧ less b a = false) ∨
    (relate a b = .equal ∧ equal a b = true ∧ less a b = false ∧ less b a = false) ∨
    (relate a b = .greater ∧ equal a b = false ∧ less a b = false ∧ less b a = true) := by
  unfold relate equal less
  cases isNaN a with
  | true => simp
  | false =>
    cases isNaN b with
    | true => simp
    | false =>
      rcases Int.lt_trichotomy (rank a) (rank b) with h | h | h
      · simp [h, Int.ne_of_lt h, Int.le_of_lt h]
      · simp [h]
      · simp [h, Int.ne_of_gt h, Int.le_of_lt h]

theorem atMost_eq (a b : UInt64) : atMost a b = (less a b || equal a b) := by
  unfold atMost less equal
  cases isNaN a with
  | true => rfl
  | false =>
    cases isNaN b with
    | true => rfl
    | false =>
      show decide (rank a ≤ rank b) = (decide (rank a < rank b) || decide (rank a = rank b))
      rw [← Bool.decide_or, decide_eq_decide]
      exact Int.le_iff_lt_or_eq

theorem equal_comm (a b : UInt64) : equal a b = equal b a := by
  unfold equal
  rw [Bool.and_comm (!isNaN a), BEq.comm]

end Number

theorem Word.ofFlag_eq (flag : Bool) : Word.ofFlag flag = .ofBool flag := by
  cases flag <;> decide

theorem Inline.binary_eq_arithmetic (op : BinaryOp) (a b : UInt64) :
    Inline.binary op a b = arithmetic op a b := by
  cases op with
  | add | subtract | multiply | divide => rfl
  | equal | notEqual | less | lessEqual | greater | greaterEqual =>
    simp only [Inline.binary, Inline.condition, Word.ofFlag_eq, arithmetic, Number.atMost_eq,
      Number.equal_comm b a]
    rcases Number.relate_cases a b with ⟨hr, he, hl, hg⟩ | ⟨hr, he, hl, hg⟩ | ⟨hr, he, hl, hg⟩ |
      ⟨hr, he, hl, hg⟩ <;>
    · rw [hr]
      simp only [he, hl, hg]
      rfl

/-! ## §2 Operators -/

/-- Code looks for an error after this operator: it left it to a routine that
can fail. -/
def BinaryOp.looks (op : BinaryOp) (left right : Word) : Bool :=
  !(left.isPlain && right.isPlain) && op != .equal && op != .notEqual

namespace Store

variable {op : BinaryOp} {left right : Word}

theorem binary_of_isPlain (hl : left.isPlain = true) (hr : right.isPlain = true) (op : BinaryOp)
    (s : Store) : s.binary op left right = (.ok (Inline.binary op left.bits right.bits), s) := by
  have hb : (left.isNumber && right.isNumber) = true := by
    rw [Word.isNumber_of_isPlain hl, Word.isNumber_of_isPlain hr]
    rfl
  rw [Inline.binary_eq_arithmetic]
  cases op <;> simp [binary, valuesEqual, hb, arithmetic]

theorem binary_of_not_looks (h : ¬op.looks left right = true) (s : Store) :
    ∃ w, s.binary op left right = (.ok w, s) := by
  by_cases hp : (left.isPlain && right.isPlain) = true
  · rw [Bool.and_eq_true] at hp
    exact ⟨_, binary_of_isPlain hp.1 hp.2 op s⟩
  · cases op with
    | equal | notEqual => exact ⟨_, rfl⟩
    | add | subtract | multiply | divide | less | lessEqual | greater | greaterEqual =>
      exact absurd (by simp [BinaryOp.looks, hp]) h

theorem negate_of_isPlain {w : Word} (h : w.isPlain = true) :
    Store.negate w = .ok (.ofNumber (Number.flipSign w.bits)) := by
  rw [negate, if_pos (Word.isNumber_of_isPlain h)]

end Store

theorem Serve.binary_of_not_looks {op : BinaryOp} {left right : Word}
    (h : ¬op.looks left right = true) (s : Store) : (Serve.binary op left right s).2 = s := by
  obtain ⟨w, hw⟩ := Store.binary_of_not_looks h s
  rw [Serve.binary, hw]
  rfl

theorem Serve.binary_notEqual (left right : Word) (s : Store) :
    Serve.binary .notEqual left right s =
      (⟨(Serve.valuesEqual left right s).1.bits ^^^ 1⟩, s) := by
  rw [Serve.valuesEqual, Word.ofBool_xor]
  rfl

namespace Machine

variable {m : Machine} {host : Host} {w : Word}

theorem binary_eq [host.Attached] (m : Machine) (op : BinaryOp)
    (left right : Word) :
    m.binary host op left right =
      if op.looks left right then m.checked host (Serve.binary op left right)
      else m.give (Serve.binary op left right m.store).1 := by
  unfold binary BinaryOp.looks
  split
  · next hp =>
    rw [Bool.and_eq_true] at hp
    simp [hp.1, hp.2, Serve.binary, Store.binary_of_isPlain hp.1 hp.2, Serve.report]
  · next hp =>
    cases op with
    | equal =>
      simp [serve_attached, Serve.valuesEqual, Serve.binary, Store.binary, Serve.report]
    | notEqual => simp [serve_attached, Serve.valuesEqual, Serve.binary_notEqual]
    | add | subtract | multiply | divide | less | lessEqual | greater | greaterEqual => simp [hp]

variable (hcalm : m.store.pending = false)

include hcalm

theorem checked_of_ok [host.Attached]
    {routine : Store → Word × Store} (h : routine m.store = (w, m.store)) :
    m.checked host routine = m.give w := by
  rw [checked_attached h, hcalm]
  rfl

theorem binary_eq_checked [host.Attached] (op : BinaryOp) (left right : Word) :
    m.binary host op left right = m.checked host (Serve.binary op left right) := by
  rw [binary_eq]
  split
  · rfl
  · next hl =>
    rw [checked_of_ok hcalm]
    exact Prod.ext rfl (Serve.binary_of_not_looks hl m.store)

end Machine

end ScriptMachine
