/-
ScriptMachine.Proofs.Sessions.Equality — what it means that two words are equal.
-/
import ScriptMachine.Proofs.Sessions.Identity

namespace ScriptMachine

/-! ## §1 Denotations -/

inductive Denotation where
  | number (rank : Int)
  | text (contents : String)
  | word (w : Word)

def Denotation.tag : Denotation → Tag
  | .number _ => .number
  | .text _ => .object
  | .word w => w.tag

namespace Store

variable {s s' : Store} {u v w : Word} {d : Denotation}

def denotation? (s : Store) (w : Word) : Option Denotation :=
  if w.isNumber then
    if Number.isNaN w.bits then none else some (.number (Number.rank w.bits))
  else
    match s.heap.text? w with
    | some t => some (.text t)
    | none => some (.word w)

theorem tag_of_text? {t : String} (h : s.heap.text? w = some t) : w.tag = .object := by
  unfold Heap.text? at h
  split at h
  · next hd => exact (Word.tag_eq_object_iff w).mpr (Heap.isObject_of_deref? hd)
  · cases h

theorem text?_of_isNumber (h : w.isNumber = true) : s.heap.text? w = none := by
  cases ht : s.heap.text? w with
  | none => rfl
  | some t =>
    rw [Word.isNumber, tag_of_text? ht] at h
    cases h

theorem valuesEqual_iff : s.valuesEqual v w = true ↔
    s.denotation? v = s.denotation? w ∧ s.denotation? v ≠ none := by
  unfold valuesEqual denotation?
  by_cases heq : v = w
  · subst heq
    cases v.isNumber <;> cases hn : Number.isNaN v.bits <;> cases s.heap.text? v <;>
      simp [Number.equal, hn]
  cases hv : v.isNumber with
  | true =>
    cases hw : w.isNumber with
    | true =>
      cases hn : Number.isNaN v.bits <;> cases hn' : Number.isNaN w.bits <;>
        simp [Number.equal, hn, hn']
    | false =>
      cases s.heap.text? w <;> cases Number.isNaN v.bits <;> simp [heq, text?_of_isNumber hv]
  | false =>
    cases hw : w.isNumber with
    | true =>
      cases s.heap.text? v <;> cases Number.isNaN w.bits <;> simp [heq, text?_of_isNumber hw]
    | false => cases s.heap.text? v <;> cases s.heap.text? w <;> simp [heq]

theorem tag_of_denotation? (h : s.denotation? w = some d) : w.tag = d.tag := by
  unfold denotation? at h
  split at h
  · next hn =>
    split at h <;> cases h
    exact beq_iff_eq.mp hn
  · split at h
    · next ht =>
      cases h
      exact tag_of_text? ht
    · cases h
      rfl

theorem denotation?_eq_none :
    s.denotation? w = none ↔ w.tag = .number ∧ Number.isNaN w.bits = true := by
  unfold denotation?
  cases hn : w.isNumber with
  | true =>
    have htag : w.tag = .number := beq_iff_eq.mp hn
    cases Number.isNaN w.bits <;> simp [htag]
  | false =>
    have htag : w.tag ≠ .number := fun h => by simp [Word.isNumber, h] at hn
    cases s.heap.text? w <;> simp [htag]

/-! ## §2 Time -/

/-- What may become of a store: a host operates on it, any machine takes a step
on it, or a session runs a program on it. -/
inductive Becomes (s : Store) : Store → Prop
  | refl : Becomes s s
  | operate {t : Store} (op : Operation) : Becomes s t → Becomes s (op.apply t)
  | step {m : Machine} {host : Host} : host.attached = true → Becomes s m.store →
      Becomes s (m.step host).store
  | submit {session : Session} (time : UInt64) (fuel : Nat) (program : Program) :
      session.engine.queue = [] → Becomes s session.store →
        Becomes s (session.run (.ofNumber time) fuel program).2.store

theorem Becomes.endures (h : s.Becomes s') (hl : s.Laid) : s'.Laid ∧ s.Endures s' := by
  induction h with
  | refl => exact ⟨hl, .refl s⟩
  | operate op _ ih =>
    have hw := op.apply_writesOnly ih.1
    exact ⟨hw.laid, ih.2.trans (hw.endures ih.1)⟩
  | @step m host hatt _ ih =>
    have := Host.Attached.mk hatt
    have hw := Machine.step_writesOnly host ih.1
    exact ⟨hw.laid, ih.2.trans (hw.endures ih.1)⟩
  | submit time fuel program hque _ ih =>
    obtain ⟨hl', he⟩ := Session.run_endures hque ih.1 (.ofNumber time) fuel program
    exact ⟨hl', ih.2.trans he⟩

theorem Becomes.operations (h : s.Becomes s') (ops : List Operation) :
    s.Becomes (ops.foldl Operation.apply s') := by
  induction ops generalizing s' with
  | nil => exact h
  | cons op _ ih => exact ih (h.operate op)

/-- A word refers to no object, or to one that is there. -/
def Settled (s : Store) (w : Word) : Prop := w.tag = .object → s.heap.deref? w ≠ none

theorem Endures.text?_eq (h : s.Endures s') (hw : s.Settled w) :
    s'.heap.text? w = s.heap.text? w := by
  unfold Heap.text? Heap.deref?
  cases hh : w.toHandle? with
  | error e => rfl
  | ok handle =>
    dsimp only
    have htag : w.tag = .object := by
      by_contra hne
      simp [Word.toHandle?, Word.readAs, hne] at hh
    have hl := hw htag
    simp only [Heap.deref?, hh, ne_eq] at hl
    obtain ⟨o, ho⟩ := Option.ne_none_iff_exists'.mp hl
    obtain ⟨o', ho', he⟩ := h.get? ho
    rw [ho, ho']
    cases he <;> rfl

theorem Endures.valuesEqual_eq (h : s.Endures s') (hv : s.Settled v) (hw : s.Settled w) :
    s'.valuesEqual v w = s.valuesEqual v w := by
  unfold valuesEqual
  rw [h.text?_eq hv, h.text?_eq hw]

/-- **Equality is a partial equivalence that time does not change.** Words that
are equal have one tag; all words are equal to themselves but NaNs. Of a store
that was once created, whatever has become of it since, and of words that refer
to nothing or to objects that are there: they are equal in whatever becomes of
the store if and only if they are equal now. -/
theorem equality_outlasts_time :
    (∀ (s : Store) (u v w : Word),
      s.valuesEqual v u = s.valuesEqual u v ∧
      (s.valuesEqual u v = true → s.valuesEqual v w = true → s.valuesEqual u w = true) ∧
      (s.valuesEqual u u = false ↔ u.tag = .number ∧ Number.isNaN u.bits = true) ∧
      (s.valuesEqual u v = true → u.tag = v.tag) ∧
      s.binary .equal u v = (.ok (.ofBool (s.valuesEqual u v)), s) ∧
      s.binary .notEqual u v = (.ok (.ofBool !(s.valuesEqual u v)), s)) ∧
    ∀ {limit maxDepth : Nat} {start s s' : Store},
      Store.create (.withLimit limit) maxDepth = .ok start → start.Becomes s → s.Becomes s' →
        ∀ {v w : Word}, s.Settled v → s.Settled w →
          s'.valuesEqual v w = s.valuesEqual v w := by
  refine ⟨fun s u v w => ⟨?_, ?_, ?_, ?_, rfl, rfl⟩, ?_⟩
  · rw [Bool.eq_iff_iff, valuesEqual_iff, valuesEqual_iff]
    exact ⟨fun h => ⟨h.1.symm, h.1 ▸ h.2⟩, fun h => ⟨h.1.symm, h.1 ▸ h.2⟩⟩
  · rw [valuesEqual_iff, valuesEqual_iff, valuesEqual_iff]
    exact fun h h' => ⟨h.1.trans h'.1, h.2⟩
  · rw [← Bool.not_eq_true, valuesEqual_iff, ← denotation?_eq_none (s := s)]
    simp
  · rw [valuesEqual_iff]
    rintro ⟨heq, hne⟩
    obtain ⟨d, hd⟩ := Option.ne_none_iff_exists'.mp hne
    exact (tag_of_denotation? hd).trans (tag_of_denotation? (heq ▸ hd)).symm
  · intro limit maxDepth start s s' hcre hs hs' v w hv hw
    have hl := (hs.endures (create_laid rfl hcre)).1
    exact (hs'.endures hl).2.valuesEqual_eq hv hw

def fresh (limit : Nat) : Store :=
  match Store.create (.withLimit limit) 8 with
  | .error _ => { heap := .empty, maxDepth := 0 }
  | .ok s => s

def joined : Store :=
  let ops : List Operation := [.mention (.text "ab"), .mention (.text "a"), .mention (.text "b"),
    .binary .add (.ofIndex 2) (.ofIndex 3)]
  ops.foldl Operation.apply (fresh 8)

/-- The two texts are equal, and still are when one has been joined to the
other. -/
theorem joined_texts_stay_equal :
    joined.heap.text? (.ofIndex 5) = none ∧
      ((Operation.binary .add (.ofIndex 1) (.ofIndex 4)).apply joined).heap.text? (.ofIndex 5) =
        some "abab" ∧
      joined.valuesEqual (.ofIndex 1) (.ofIndex 4) = true ∧
      ((Operation.binary .add (.ofIndex 1) (.ofIndex 4)).apply joined).valuesEqual (.ofIndex 1)
        (.ofIndex 4) = true := by
  have hcre : Store.create (.withLimit 8) 8 = .ok (fresh 8) := by rfl
  have hjoi : (fresh 8).Becomes joined := Becomes.refl.operations _
  have he : joined.valuesEqual (.ofIndex 1) (.ofIndex 4) = true := by decide +kernel
  refine ⟨by decide +kernel, by decide +kernel, he, ?_⟩
  rw [equality_outlasts_time.2 hcre hjoi (.operate _ .refl) ?_ ?_, he]
  all_goals exact fun _ => by decide +kernel

end Store

end ScriptMachine
