/-
ScriptMachine.Proofs.Sessions.Answers — what can be seen of a submission.
-/
import ScriptMachine.Proofs.Sessions.Caches
import ScriptMachine.Proofs.Sessions.Loading
import ScriptMachine.Proofs.Sessions.Quiescence

namespace ScriptMachine

/-- What can be seen of a submission: what it came to, a value being seen as
programs print it, and the text that was printed so far. -/
structure Seen where
  answer : Except SessionError String
  printed : String

/-- What can be seen of a run of code. -/
def Session.seen (r : Except SessionError Word × Session) : Seen :=
  ⟨r.1.map r.2.store.render, r.2.store.printed⟩

theorem Session.seen_printed (r : Except SessionError Word × Session) :
    (Session.seen r).printed = r.2.store.printed := rfl

namespace Session

/-! ## §1 Lengths -/

variable {session after : Session} {now : Word} {program : Program} {m : Machine} {n n' : Nat}

section

variable (h : session.engine.queue = []) (hl : session.launch now program = (.ok m, after))

include h hl

theorem run_launched (n : Nat) : session.run now (n + 1) program =
      { after with store := (m.run (host now) n).store }.conclude (m.run (host now) n).stop? := by
  rw [run_eq_runBy h, runBy, hl]
  rfl

theorem run_zero : session.run now 0 program = (.error .unfinished, after) := by
  rw [run_eq_runBy h, runBy, hl]
  rfl

theorem run_printed (n : Nat) :
    (session.run now (n + 1) program).2.store.printed = (m.run (host now) n).store.printed := by
  rw [run_launched h hl]
  obtain ⟨error, pending, heq⟩ :=
    conclude_eq { after with store := (m.run (host now) n).store } (m.run (host now) n).stop?
  rw [heq]

end

theorem conclude_answer (session : Session) (w : Word) :
    (session.conclude (some (.returned w))).1 =
      match session.store.error with
      | some e => .error (.runtime e)
      | none => .ok w := by
  unfold conclude Store.takeError
  cases session.store.error <;> rfl

variable (h : session.engine.queue = [])

include h

theorem run_of_ended (hle : n ≤ n') (hne : (session.run now n program).1 ≠ .error .unfinished) :
    session.run now n' program = session.run now n program := by
  cases hl : session.launch now program with
  | mk result after =>
    cases result with
    | error e => rw [run_eq_runBy h, run_eq_runBy h, runBy, runBy, hl]
    | ok m =>
      cases n with
      | zero =>
        rw [run_zero h hl] at hne
        exact absurd rfl hne
      | succ n =>
        obtain ⟨k, rfl⟩ := Nat.exists_eq_add_of_le hle
        rw [run_launched h hl] at hne
        rw [Nat.succ_add, run_launched h hl, run_launched h hl, Machine.run_add]
        cases hc : (m.run (host now) n).control with
        | stopped stop => rw [Machine.run_of_stop hc]
        | _ => simp [Machine.stop?, hc, conclude] at hne

theorem run_continues (hle : n ≤ n') :
    (session.run now n program).2.store.Continues (session.run now n' program).2.store := by
  cases hl : session.launch now program with
  | mk result after =>
    cases result with
    | error e =>
      rw [run_eq_runBy h, run_eq_runBy h, runBy, runBy, hl]
      exact .of_eq rfl
    | ok m =>
      cases n' with
      | zero =>
        cases Nat.le_zero.mp hle
        exact .of_eq rfl
      | succ n' =>
        unfold Store.Continues
        rw [run_printed h hl]
        cases n with
        | zero =>
          rw [run_zero h hl]
          obtain ⟨unit, f, _, _, rfl⟩ := launch_ok h hl
          have hsta : after.store.Continues (Machine.start (host now) after.store unit f).store :=
            Store.Continues.of_eq (Machine.enter_printed _ _ f)
          exact hsta.trans (Machine.continues_run _ n')
        | succ n =>
          rw [run_printed h hl]
          obtain ⟨k, rfl⟩ := Nat.exists_eq_add_of_le (Nat.le_of_succ_le_succ hle)
          rw [Machine.run_add]
          exact Machine.continues_run _ k

omit h

/-! ## §2 Searches -/

variable {time : UInt64}

theorem ReachableBy.tracks {V : Vocabulary} (h : session.ReachableBy V) :
    ∃ names, session.Tracks names := by
  induction h with
  | create hcre => exact ⟨_, .create hcre⟩
  | serve request _ hall ih =>
    obtain ⟨names, ht⟩ := ih
    cases request with
    | mention m => exact ⟨names, ht.mention m⟩
    | define name w => exact ⟨names, ht.define name w⟩
    | mute muted => exact ⟨names, ht.mute muted⟩
    | run now fuel program => exact ht.run now fuel program hall.2

/-- A search at every site makes no difference to the run of a program, if the
references that the host supplied were issued by the heap. -/
theorem ReachableBy.searchRun_alike (h : session.ReachableBy .issued)
    (hl : session.launch (.ofNumber time) program = (.ok m, after)) (n : Nat) :
    (m.searchRun (host (.ofNumber time)) n).Alike (m.run (host (.ofNumber time)) n) := by
  obtain ⟨names, ht⟩ := h.tracks
  obtain ⟨names', _, htyped⟩ := ht.launch (.ofNumber time) program
  rw [hl] at htyped
  exact Machine.searchRun_alike n (htyped rfl)
    (fun k _ => (h.sound.launch_typed hl k).issued) (.refl m)

theorem ReachableBy.reports_full (h : session.ReachableBy .issued)
    (hl : session.launch (.ofNumber time) program = (.ok m, after)) {e : HeapError}
    (he : (m.searchRun (host (.ofNumber time)) n).store.error = some (.heap e)) :
    ∃ fuel, (session.run (.ofNumber time) fuel program).1 = .error (.runtime (.heap e)) := by
  obtain ⟨sites, _, heq⟩ := h.searchRun_alike hl n
  have herr : (m.run (host (.ofNumber time)) n).store.error = some (.heap e) := by
    rw [heq] at he
    exact he
  have ho : (m.run (host (.ofNumber time)) n).Orderly :=
    (launch_orderly h.sound.queue h.quiescent hl).run n
  obtain ⟨k, stop, hs, hends⟩ := ho.stops herr (host (.ofNumber time))
  rw [← Machine.run_add] at hs hends
  rcases (h.sound.launch_typed hl (n + k)).stop?_cases with hn | ⟨w, hw⟩
  · rw [hs] at hn
    cases hn
  · refine ⟨n + k + 1, ?_⟩
    rw [run_launched h.sound.queue hl, hw, conclude_returned]
    exact hends

end Session

end ScriptMachine
