/-
ScriptMachine.Proofs.Sessions.Limits — limits only cut a program short.
-/
import ScriptMachine.Proofs.Runs.Limits
import ScriptMachine.Proofs.Sessions.Answers

namespace ScriptMachine

/-! ## §1 Sessions -/

/-- Whether a submission reports that it ran into a limit. -/
def SessionError.isLimit : SessionError → Bool
  | .compile (.heap _) => true
  | .runtime e => e.isLimit
  | _ => false

namespace Session

/-- The second session is in the same state as the first, with limits that
are no smaller. -/
structure Roomier (a b : Session) : Prop where
  store : a.store.Roomier b.store
  engine : b.engine = a.engine
  submissions : b.submissions = a.submissions

variable {a b : Session}

theorem Roomier.unitName (h : a.Roomier b) : b.unitName = a.unitName := by
  unfold Session.unitName
  rw [h.submissions]

theorem Roomier.conclude (h : a.Roomier b) (stop : Option Stop) :
    (b.conclude stop).1 = (a.conclude stop).1 ∧
      (a.conclude stop).2.Roomier (b.conclude stop).2 := by
  obtain ⟨⟨limit, depth, hl, hd, hs⟩, heng, hsub⟩ := h
  have herr : b.store.error = a.store.error := by
    rw [hs]
    rfl
  have hlow : Store.Roomier { a.store with error := none, pending := false }
      { b.store with error := none, pending := false } := by
    rw [hs]
    exact ⟨limit, depth, hl, hd, rfl⟩
  cases stop with
  | none => exact ⟨rfl, ⟨limit, depth, hl, hd, hs⟩, heng, hsub⟩
  | some stop =>
    cases stop with
    | strayed address => exact ⟨rfl, ⟨limit, depth, hl, hd, hs⟩, heng, hsub⟩
    | returned w =>
      unfold Session.conclude Store.takeError
      dsimp only
      rw [herr]
      split <;> exact ⟨rfl, hlow, heng, hsub⟩

/-! ## §2 Launches -/

theorem Roomier.launch (h : a.Roomier b) (hq : a.store.Quiescent) (now : Word)
    (program : Program) :
    (∃ e a' b', a.launch now program = (.error e, a') ∧ b.launch now program = (.error e, b') ∧
      a'.Roomier b') ∨
    (∃ m m' a' b', a.launch now program = (.ok m, a') ∧ b.launch now program = (.ok m', b') ∧
      a'.Roomier b' ∧ m.Trails m') ∨
    ∃ e a', a.launch now program = (.error (.compile (.heap e)), a') := by
  have hp := a.store.compile_prepares a.unitName program
  unfold Session.launch
  dsimp only
  rw [h.unitName, h.submissions]
  rcases Store.compile_roomier h.store a.unitName program with ⟨hu, hs⟩ | ⟨e, hf⟩
  · cases hc : a.store.compile a.unitName program with
    | mk unit s =>
      cases hc' : b.store.compile a.unitName program with
      | mk unit' s' =>
        rw [hc, hc'] at hu hs
        rw [hc] at hp
        dsimp only at hu hs hp ⊢
        subst hu
        cases unit with
        | error e => exact .inl ⟨_, _, _, rfl, rfl, hs, h.engine, rfl⟩
        | ok unit =>
          dsimp only
          rw [h.engine]
          cases a.engine.add unit with
          | mk added engine =>
            cases added with
            | error e => exact .inl ⟨_, _, _, rfl, rfl, hs, rfl, rfl⟩
            | ok n =>
              dsimp only
              cases engine.resolve a.unitName with
              | error e => exact .inl ⟨_, _, _, rfl, rfl, hs, rfl, rfl⟩
              | ok entry =>
                dsimp only
                cases entry.unit.function? entry.declaration with
                | none => exact .inl ⟨_, _, _, rfl, rfl, hs, rfl, rfl⟩
                | some f =>
                  exact .inr (.inl ⟨_, _, _, _, rfl, rfl,
                    ⟨hs, rfl, rfl⟩,
                    Machine.start_trails hs (hp.quiescent hq).error _ f⟩)
  · right
    right
    cases hc : a.store.compile a.unitName program with
    | mk unit s =>
      rw [hc] at hf
      dsimp only at hf
      subst hf
      exact ⟨e, _, rfl⟩

/-! ## §3 Main -/

theorem run_adds {session : Session} (h : session.engine.queue = []) (now : Word) (fuel : Nat)
    (program : Program) : session.store.Continues (session.run now fuel program).2.store := by
  have hlow : session.store.Continues (session.launch now program).2.store := by
    rw [launch_store]
    exact .of_eq (session.store.compile_prepares session.unitName program).printed
  cases hl : session.launch now program with
  | mk result after =>
    rw [hl] at hlow
    cases result with
    | error e =>
      rw [run_eq_runBy h, runBy, hl]
      exact hlow
    | ok m =>
      have hz := run_zero h hl
      refine hlow.trans (.trans (.of_eq ?_) (run_continues h (Nat.zero_le fuel)))
      rw [hz]

theorem Roomier.printed (h : a.Roomier b) : b.store.printed = a.store.printed := by
  obtain ⟨_, _, _, _, hs⟩ := h.store
  rw [hs]
  rfl

/-- **Limits only truncate.** A program is submitted to a session and to one
in the same state with limits that are no smaller. If the first comes to an
end and reports no limit, the second comes to the same answer in the same
state. In any case what the first prints is where what the second prints
begins, no matter how long either runs on. -/
theorem limits_only_truncate (h : a.Reachable) (hab : a.Roomier b) (time : UInt64) (fuel : Nat)
    (program : Program) :
    ((a.run (.ofNumber time) fuel program).1 ≠ .error .unfinished →
      (∀ e, (a.run (.ofNumber time) fuel program).1 = .error e → e.isLimit = false) →
        (b.run (.ofNumber time) fuel program).1 = (a.run (.ofNumber time) fuel program).1 ∧
          (a.run (.ofNumber time) fuel program).2.Roomier (b.run (.ofNumber time) fuel program).2) ∧
      ∀ fuel', fuel ≤ fuel' →
        (a.run (.ofNumber time) fuel program).2.store.Continues
          (b.run (.ofNumber time) fuel' program).2.store := by
  have hque := h.sound.queue
  have hque' : b.engine.queue = [] := by rw [hab.engine, hque]
  generalize hnow : Word.ofNumber time = now
  -- more fuel only lets the roomier session print more
  suffices hm : ((a.run now fuel program).1 ≠ .error .unfinished →
      (∀ e, (a.run now fuel program).1 = .error e → e.isLimit = false) →
        (b.run now fuel program).1 = (a.run now fuel program).1 ∧
          (a.run now fuel program).2.Roomier (b.run now fuel program).2) ∧
      (a.run now fuel program).2.store.Continues (b.run now fuel program).2.store from
    ⟨hm.1, fun fuel' hle => hm.2.trans (run_continues hque' hle)⟩
  rcases hab.launch h.quiescent now program with
    ⟨e, a', b', hl, hl', hsame⟩ | ⟨m, m', a', b', hl, hl', hsame, htra⟩ | ⟨e, a', hl⟩
  · have hrun : a.run now fuel program = (.error e, a') := by
      rw [run_eq_runBy hque, runBy, hl]
    have hrun' : b.run now fuel program = (.error e, b') := by
      rw [run_eq_runBy hque', runBy, hl']
    rw [hrun, hrun']
    exact ⟨fun _ _ => ⟨rfl, hsame⟩, .of_eq hsame.printed⟩
  · cases fuel with
    | zero =>
      rw [run_zero hque hl, run_zero hque' hl']
      exact ⟨fun hne => absurd rfl hne, .of_eq hsame.printed⟩
    | succ n =>
      have ho := launch_orderly hque h.quiescent hl
      have hr : (m.run (host now) n).Trails (m'.run (host now) n) := htra.run ho n
      rcases hr with ⟨s, hs, heq⟩ | ⟨⟨e, he, hlim⟩, hbeg⟩
      · -- neither ran into a limit
        have hstop : (m'.run (host now) n).stop? = (m.run (host now) n).stop? := by
          rw [heq]
          rfl
        have hended : Roomier { a' with store := (m.run (host now) n).store }
            { b' with store := (m'.run (host now) n).store } := by
          rw [heq]
          exact ⟨hs, hsame.engine, hsame.submissions⟩
        have hend := hended.conclude (m.run (host now) n).stop?
        rw [run_launched hque hl, run_launched hque' hl', hstop]
        exact ⟨fun _ _ => hend, .of_eq hend.2.printed⟩
      · constructor
        · -- the first has an error to report, if it came to an end
          intro hne hnol
          rw [run_launched hque hl] at hne hnol
          subst hnow
          rcases (h.sound.launch_typed hl n).stop?_cases with hstop | ⟨w, hstop⟩
          · rw [hstop] at hne
            exact absurd rfl hne
          · rw [hstop, (conclude_returned _ w e).mpr he] at hnol
            rw [show e.isLimit = false from hnol _ rfl] at hlim
            cases hlim
        · unfold Store.Continues
          rw [run_printed hque hl, run_printed hque' hl']
          exact hbeg
  · have hrun : a.run now fuel program = (.error (.compile (.heap e)), a') := by
      rw [run_eq_runBy hque, runBy, hl]
    have hlow := (a.store.compile_prepares a.unitName program).printed
    rw [← launch_store a now program, hl] at hlow
    rw [hrun]
    refine ⟨fun _ hnol => absurd (hnol _ rfl) (by simp [SessionError.isLimit]), ?_⟩
    exact .trans (.of_eq (hab.printed.trans hlow.symm)) (run_adds hque' now fuel program)

def growing : Program :=
  let text := Expr.read ⟨"text", 1⟩ .global
  [ .declare "text" (some (.literal (.text "a"))),
    .loop (.literal (.bool true)) (.block
      [ .print text,
        .expression (.assign ⟨"text", 2⟩ .global
          (.binary .add text (.literal (.text "b")))) ]) ]

def wider : Session := { small with store := small.store.withLimits 20 small.store.maxDepth }

/-- One program fits into sixteen objects; the text of the other outgrows
them, and twenty later. -/
theorem limits_only_truncate_growing : small.Reachable ∧ small.Roomier wider ∧
    ((∃ w, (small.run (.ofNumber 0) 200 flipper).1 = .ok w ∧
        (wider.run (.ofNumber 0) 200 flipper).1 = .ok w) ∧
      (small.run (.ofNumber 0) 200 flipper).2.Roomier (wider.run (.ofNumber 0) 200 flipper).2) ∧
    failure? (small.run (.ofNumber 0) 400 growing).1 = some (.heap (.exhausted 16)) ∧
    (small.run (.ofNumber 0) 400 growing).2.store.printed.length <
      (wider.run (.ofNumber 0) 500 growing).2.store.printed.length ∧
    (small.run (.ofNumber 0) 400 growing).2.store.Continues
      (wider.run (.ofNumber 0) 500 growing).2.store := by
  have hwider : small.Roomier wider :=
    ⟨⟨20, _, by decide +kernel, Nat.le_refl _, rfl⟩, rfl, rfl⟩
  have hf : (small.run (.ofNumber 0) 200 flipper).1.toOption.isSome = true := by
    decide +kernel
  obtain ⟨w, hw⟩ := exists_ok hf
  obtain ⟨hsame, hs⟩ := (limits_only_truncate reachable_small hwider 0 200 flipper).1
    (by rw [hw]; nofun) (by rw [hw]; nofun)
  exact ⟨reachable_small, hwider, ⟨⟨w, hw, hsame.trans hw⟩, hs⟩, by decide +kernel,
    by decide +kernel, (limits_only_truncate reachable_small hwider 0 400 growing).2
      500 (by decide)⟩

end Session

end ScriptMachine
