/-
ScriptMachine.Proofs.Sessions.Operators — operators of programs against those
of the store.
-/
import ScriptMachine.Proofs.Runs.Raising
import ScriptMachine.Proofs.Sessions.WellFormed

namespace ScriptMachine

/-! ## §1 Routines -/

variable {w : Word}

namespace Machine

variable {m : Machine} {host : Host} {stack : List Pending} {routine : Store → Word × Store}
  {s : Store}

theorem checked_ok [host.Attached] (h : routine m.store = Serve.report (.ok w, s))
    (hp : s.pending = m.store.pending) :
    m.checked host routine =
      { m with store := s, control := if m.store.pending then .leave .nil else .give w } := by
  rw [checked_attached h, hp]

theorem checked_error [host.Attached] {e : Failure}
    (h : routine m.store = Serve.report (.error e, s)) :
    m.checked host routine = { m with store := s.raise e, control := .leave .nil } := by
  rw [checked_attached h]
  rfl

end Machine

/-! ## §2 Binary operators -/

theorem Store.eq_of_binary_error {s s' : Store} {op : BinaryOp} {left right : Word} {e : Failure}
    (h : s.binary op left right = (.error e, s')) : s' = s := by
  unfold Store.binary Store.concatenate Store.alloc at h
  repeat' split at h
  all_goals cases h
  all_goals rfl

namespace Machine

variable {m : Machine} {host : Host} {stack : List Pending}

/-- **A binary operator of a program is the one of the store.** Both operands are
there, and may be any words; the store may be any store. If the operator yields a
word, then the program goes on with that word, and with the store that the
operator leaves. If it fails, the program raises that failure, and the store is
otherwise as it was. An error that was being raised before is not lost: a program
that asked a routine finds it, and does not go on. -/
theorem binary_operator_agrees (hatt : host.attached = true) {op : BinaryOp}
    {left right : Word} (hctl : m.control = .give right)
    (hstk : m.stack = .rightOperand op left :: stack) :
    (∀ w s, m.store.binary op left right = (.ok w, s) →
      m.step host = { m with
        store := s
        stack := stack
        control := if m.store.pending && op.looks left right then .leave .nil else .give w }) ∧
    ∀ e s, m.store.binary op left right = (.error e, s) → s = m.store ∧
      m.step host = { m with
        store := m.store.raise e
        stack := stack
        control := .leave .nil } := by
  have := Host.Attached.mk hatt
  have hstep : m.step host = { m with stack := stack }.binary host op left right :=
    step_give_cons hctl hstk
  rw [hstep, binary_eq]
  by_cases hl : op.looks left right = true
  · rw [if_pos hl, hl, Bool.and_true]
    constructor
    · intro w s h
      have hsig := (m.store.binary_makes op left right).signals
      rw [h] at hsig
      exact checked_ok (congrArg Serve.report h) (Store.pending_of_signals hsig)
    · intro e s h
      obtain rfl := Store.eq_of_binary_error h
      exact ⟨rfl, checked_error (congrArg Serve.report h)⟩
  · -- In place, or compared by a routine that cannot fail.
    obtain ⟨w, hw⟩ := Store.binary_of_not_looks hl m.store
    have hword : (Serve.binary op left right m.store).1 = w := by
      rw [Serve.binary, hw]
      rfl
    rw [if_neg hl, hword, hw]
    constructor
    · rintro w s ⟨⟩
      simp [hl, give]
    · rintro e s ⟨⟩

theorem binary_operator_agrees_joined :
    let s := (Session.small.store.alloc (.text "n=")).2
    let m : Machine :=
      { store := s
        frame := { unit := { name := "joined" } }
        stack := [.rightOperand .add (.ofIndex 1)]
        control := .give ⟨0x7FF8000000000001⟩ }
    ∃ s', m.step (Session.host (.ofNumber 0)) =
        { m with store := s', stack := [], control := .give (.ofIndex 2) } ∧
      s'.heap.text? (.ofIndex 2) = some "n=nan" := by
  intro s m
  have hword : (s.binary .add (.ofIndex 1) ⟨0x7FF8000000000001⟩).1.toOption = some (.ofIndex 2) ∧
      (s.binary .add (.ofIndex 1) ⟨0x7FF8000000000001⟩).2.heap.text? (.ofIndex 2) =
        some "n=nan" ∧ s.pending = false := by
    decide +kernel
  have ha := @binary_operator_agrees m (Session.host (.ofNumber 0)) [] rfl .add (.ofIndex 1)
    ⟨0x7FF8000000000001⟩ rfl rfl
  cases h : s.binary .add (.ofIndex 1) ⟨0x7FF8000000000001⟩ with
  | mk r s' =>
    rw [h] at hword
    cases r with
    | error e => exact absurd hword.1 (by simp [Except.toOption])
    | ok w =>
      obtain ⟨hw, ht, hp⟩ := hword
      obtain rfl : w = .ofIndex 2 := Option.some.inj hw
      refine ⟨s', ?_, ht⟩
      rw [ha.1 _ _ h]
      simp [m, hp]

end Machine

/-! ## §3 Unary minus -/

theorem Word.isNaN_of_not_isPlain (hp : ¬w.isPlain = true) : Number.isNaN w.bits = true := by
  rw [Word.isPlain_iff, not_not] at hp
  simp only [Number.isNaN, Number.magnitude, gt_iff_lt, decide_eq_true_eq, UInt64.lt_iff_toNat_lt,
    UInt64.toNat_mod, UInt64.reduceToNat]
  omega

theorem Word.head_ne_of_not_isPlain (hp : ¬w.isPlain = true) (head : UInt64)
    (hh : 0x8000 ≤ head.toNat) : ¬w.head = head := by
  rw [Word.isPlain_iff, not_not] at hp
  rw [Word.head_eq_iff]
  omega

theorem Number.flipSign_eq_quietNaN_iff (b : UInt64) :
    Word.mk (Number.flipSign b) = .quietNaN ↔ b = 0xFFF8000000000000 := by
  have hlt := b.toNat_lt
  rw [Word.ext_iff, ← UInt64.toNat_inj, ← UInt64.toNat_inj, Number.toNat_flipSign]
  simp only [Word.quietNaN, UInt64.reduceToNat]
  split <;> omega

namespace Store

variable {w : Word}

theorem negate_eq_flipSign_iff (hp : w.isPlain = true) :
    Store.negate w = .ok ⟨Number.flipSign w.bits⟩ ↔
      (Number.isNaN w.bits = true → w.bits = 0xFFF8000000000000) := by
  have hq := Number.flipSign_eq_quietNaN_iff w.bits
  rw [negate_of_isPlain hp]
  cases hnan : Number.isNaN w.bits with
  | true =>
    rw [Word.ofNumber_of_isNaN (by rw [Number.isNaN_flipSign, hnan])]
    simp [← hq, eq_comm]
  | false =>
    rw [Word.ofNumber_of_not_isNaN (by rw [Number.isNaN_flipSign, hnan])]
    simp

theorem negate_of_not_isPlain (hp : ¬w.isPlain = true) (hnum : w.isNumber = true) :
    Store.negate w = .ok .quietNaN := by
  have hnan : Number.isNaN (Number.flipSign w.bits) = true := by
    rw [Number.isNaN_flipSign]
    exact Word.isNaN_of_not_isPlain hp
  rw [negate, if_pos hnum, Word.ofNumber_of_isNaN hnan]

end Store

namespace Machine

variable {m : Machine} {host : Host} {stack : List Pending} {w : Word}

theorem negate_of_isPlain (hp : w.isPlain = true) :
    m.negate host w = m.give ⟨Number.flipSign w.bits⟩ := by
  rw [negate, if_pos hp]

theorem negate_ok_of_not_isPlain [host.Attached] (hp : ¬w.isPlain = true)
    {v : Word} (hv : Store.negate w = .ok v) :
    m.negate host w = { m with control := if m.store.pending then .leave .nil else .give v } := by
  have hs : Serve.negate w m.store = Serve.report (.ok v, m.store) := by rw [Serve.negate, hv]
  rw [negate, if_neg hp]
  exact checked_ok hs rfl

theorem negate_error_of_not_isPlain [host.Attached] (hp : ¬w.isPlain = true)
    {e : Failure} (he : Store.negate w = .error e) :
    m.negate host w = { m with store := m.store.raise e, control := .leave .nil } := by
  have hs : Serve.negate w m.store = Serve.report (.error e, m.store) := by
    rw [Serve.negate, he]
  rw [negate, if_neg hp]
  exact checked_error hs

/-- **Unary minus of a program is the one of the store, but for some NaNs.** The
operand is there, and may be any word. A failure is that of the store. A word is
that of the store exactly if the operand is no NaN outside of the boxed heads, or
the one of these that the sign bit alone tells from the quiet NaN. Outside of the
boxed heads a program only flips the sign bit, so what it makes of a number is no
number if the operand has the head of a boxed value under its sign bit. -/
theorem unary_minus_agrees_iff (hatt : host.attached = true) {w : Word}
    (hctl : m.control = .give w) (hstk : m.stack = .negate :: stack) :
    (∀ e, Store.negate w = .error e →
      m.step host = { m with store := m.store.raise e, stack := stack, control := .leave .nil }) ∧
    (∀ v, Store.negate w = .ok v →
      (m.step host = { m with
          stack := stack
          control := if m.store.pending && !w.isPlain then .leave .nil else .give v } ↔
        (w.isPlain = true → Number.isNaN w.bits = true → w.bits = 0xFFF8000000000000))) ∧
    (w.isPlain = true →
      m.step host = { m with stack := stack, control := .give ⟨Number.flipSign w.bits⟩ }) ∧
    (w.isNumber = true → ∀ v, (m.step host).control = .give v →
      v.tag =
        if w.head = 0xFFF9 then .bool
        else if w.head = 0xFFFA then .nil
        else if w.head = 0xFFFB then .object
        else .number) := by
  have := Host.Attached.mk hatt
  have hstep : m.step host = { m with stack := stack }.negate host w :=
    step_give_cons hctl hstk
  rw [hstep]
  by_cases hp : w.isPlain = true
  · have hf := Store.negate_eq_flipSign_iff hp
    rw [negate_of_isPlain hp]
    refine ⟨?_, ?_, fun _ => rfl, ?_⟩
    · intro e he
      rw [Store.negate_of_isPlain hp] at he
      cases he
    · intro v hv
      rw [hv, Except.ok.injEq, eq_comm] at hf
      simp [give, hp, hf]
    · rintro _ v ⟨⟩
      exact w.tag_flipSign
  · refine ⟨?_, ?_, fun h => absurd h hp, ?_⟩
    · intro e he
      exact negate_error_of_not_isPlain hp he
    · intro v hv
      rw [negate_ok_of_not_isPlain hp hv]
      simp [hp]
    · intro hnum v hv
      rw [negate_ok_of_not_isPlain hp
        (Store.negate_of_not_isPlain hp hnum)] at hv
      have hh := Word.head_ne_of_not_isPlain hp
      rw [if_neg (hh _ (by decide)), if_neg (hh _ (by decide)), if_neg (hh _ (by decide))]
      split at hv
      · cases hv
      · cases hv
        rfl

/-- The NaN that has only its sign bit on beside the quiet one is negated as the
store does it. -/
theorem unary_minus_agrees_iff_quiet :
    let m : Machine :=
      { store := Session.small.store
        frame := { unit := { name := "quiet" } }
        stack := [.negate]
        control := .give ⟨0xFFF8000000000000⟩ }
    Store.negate ⟨0xFFF8000000000000⟩ = .ok .quietNaN ∧
      m.step (Session.host (.ofNumber 0)) =
        { m with stack := [], control := .give .quietNaN } := by
  intro m
  have hp : (Word.mk 0xFFF8000000000000).isPlain = true := by decide
  have hneg : Store.negate ⟨0xFFF8000000000000⟩ = .ok .quietNaN := by decide
  have ha := @unary_minus_agrees_iff m (Session.host (.ofNumber 0)) [] rfl
    ⟨0xFFF8000000000000⟩ rfl rfl
  refine ⟨hneg, ?_⟩
  rw [(ha.2.1 _ hneg).mpr fun _ _ => rfl, if_neg (by simp [hp])]

end Machine

namespace Session

def tampered : Session :=
  { small with store := small.store.defineGlobal "x" ⟨0xFFFB000000000000⟩ }

/-- Negating that NaN, which the store takes for a number, yields a reference to
the first object of the heap, and not the quiet NaN. -/
theorem unary_minus_forges_reference :
    (tampered.store.global? "x").map (·.tag) = some .number ∧
      (tampered.store.global? "x").map Store.negate = some (.ok .quietNaN) ∧
      (tampered.evaluate (.ofNumber 0) 20 (.unary .negate (.read ⟨"x", 1⟩ .global))).1.toOption =
        some (.ofIndex 0) ∧
      (Word.ofIndex 0).tag = .object ∧ (tampered.store.heap.deref? (.ofIndex 0)).isSome := by
  decide +kernel

end Session

end ScriptMachine
