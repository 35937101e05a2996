/-
ScriptMachine.Proofs.Sessions.Quiescence — nothing of a submission is left
over when it came to an end.
-/
import ScriptMachine.Proofs.Runs.Raising
import ScriptMachine.Proofs.Sessions.WellFormed
import ScriptMachine.Thread

namespace ScriptMachine

/-! ## §1 Stores -/

/-- No function runs, the flag is down and there is no error. -/
structure Store.Quiescent (s : Store) : Prop where
  depth : s.depth = 0
  calm : s.pending = false
  error : s.error = none

namespace Store

variable {s s' : Store}

theorem Quiescent.flagged (h : s.Quiescent) : s.Flagged := by
  unfold Flagged
  rw [h.calm, h.error]
  rfl

theorem Prepares.quiescent (hp : s.Prepares s') (h : s.Quiescent) : s'.Quiescent where
  depth := hp.depth.trans h.depth
  calm := hp.pending.trans h.calm
  error := hp.error.trans h.error

theorem create_quiescent {heap : Heap} {maxDepth : Nat}
    (h : Store.create heap maxDepth = .ok s) : s.Quiescent := by
  obtain ⟨_, t, _, ht, rfl⟩ := create_eq_ok h
  have hs := (t.prepares_globalSlot "clock").quiescent (by subst ht; exact ⟨rfl, rfl, rfl⟩)
  exact ⟨hs.depth, hs.calm, hs.error⟩

end Store

/-! ## §2 Sessions -/

namespace Session

variable {session : Session} {after : Session} {now : Word} {program : Program} {m : Machine}

/-- The error raised in a submission's code, in its `n`-th step: the call of
the script is the first. No code runs, and nothing is raised, if the program
was rejected. -/
def RaisesFirst (session : Session) (now : Word) (program : Program) (n : Nat) (e : Failure) :
    Prop :=
  ∃ m started, session.launch now program = (.ok m, started) ∧ m.RaisesFirst (host now) n e

/-- What a submission that came to an end leaves. It reports the first error
raised in its code, if there was one, and after that error was raised the
store stayed as it was until the script returned. -/
structure Settles (session : Session) (now : Word) (program : Program)
    (answer : Except SessionError Word) (after : Session) : Prop where
  quiescent : after.store.Quiescent
  reports : ∀ e, answer = .error (.runtime e) ↔ ∃ n, session.RaisesFirst now program n e
  keeps : ∀ {m started n e}, session.launch now program = (.ok m, started) →
    m.RaisesFirst (host now) n e →
      (∀ k, n ≤ k → (m.run (host now) k).store =
        { (m.run (host now) n).store with depth := (m.run (host now) k).store.depth }) ∧
      after.store = { (m.run (host now) n).store with depth := 0, pending := false, error := none }

def failure? : Except SessionError Word → Option Failure
  | .error (.runtime e) => some e
  | _ => none

theorem failure?_eq_some {answer : Except SessionError Word} {e : Failure} :
    failure? answer = some e ↔ answer = .error (.runtime e) := by
  unfold failure?
  split
  · simp
  · next hne => exact ⟨nofun, fun h => absurd h (hne e)⟩

theorem launch_error {e : SessionError} (h : session.launch now program = (.error e, after))
    (f : Failure) : e ≠ .runtime f := by
  rintro rfl
  unfold launch at h
  dsimp only at h
  split at h
  · cases h
  · split at h
    · cases h
    · split at h
      · cases h
      · split at h <;> cases h

theorem launch_orderly (h : session.engine.queue = []) (hq : session.store.Quiescent)
    (hl : session.launch now program = (.ok m, after)) : m.Orderly := by
  obtain ⟨unit, f, hc, _, rfl⟩ := launch_ok h hl
  have hp := session.store.compile_prepares session.unitName program
  rw [hc] at hp
  have hsta := hp.quiescent hq
  exact Machine.start_orderly hsta.depth hsta.flagged hsta.calm unit f

theorem conclude_returned (session : Session) (w : Word) (e : Failure) :
    (session.conclude (some (.returned w))).1 = .error (.runtime e) ↔
      session.store.error = some e := by
  unfold conclude Store.takeError
  dsimp only
  split
  · next e' he =>
    rw [he]
    simp
  · next he =>
    rw [he]
    simp

theorem conclude_returned_store (session : Session) (w : Word) :
    (session.conclude (some (.returned w))).2.store =
      { session.store with error := none, pending := false } := by
  unfold conclude Store.takeError
  dsimp only
  split <;> rfl

theorem settles_of_error {e : SessionError} (hl : session.launch now program = (.error e, after))
    (hq : session.store.Quiescent) :
    session.Settles now program (.error e) after where
  quiescent := by
    have hp := session.store.compile_prepares session.unitName program
    rw [← launch_store session now program, hl] at hp
    exact hp.quiescent hq
  reports f := by
    constructor
    · intro h
      cases h
      exact absurd rfl (launch_error hl f)
    · rintro ⟨n, m, started, hl', _⟩
      rw [hl] at hl'
      cases hl'
  keeps hl' := by
    rw [hl] at hl'
    cases hl'

theorem settles_of_returned {started : Session} (hl : session.launch now program = (.ok m, started))
    (ho : m.Orderly) {fuel : Nat} {w : Word}
    (hc : (m.run (host now) fuel).control = .stopped (.returned w)) :
    let ended := { started with store := (m.run (host now) fuel).store }.conclude
      (some (.returned w))
    session.Settles now program ended.1 ended.2 := by
  have hd : (m.run (host now) fuel).store.depth = 0 := by
    rw [(ho.run fuel).depth]
    simp [Machine.nesting, hc]
  have hs : ∀ k, fuel ≤ k → m.run (host now) k = m.run (host now) fuel := by
    intro k hk
    obtain ⟨j, rfl⟩ := Nat.exists_eq_add_of_le hk
    rw [Machine.run_add, Machine.run_of_stop hc]
  have hlate : ∀ {n e}, m.RaisesFirst (host now) n e →
      (m.run (host now) fuel).store =
        { (m.run (host now) n).store with depth := (m.run (host now) fuel).store.depth } := by
    intro n e hfst
    rcases Nat.le_total n fuel with hn | hn
    · exact hfst.store ho hn
    · rw [hs n hn]
  refine ⟨?_, fun e => ?_, fun {m' started' n e} hl' hfst => ?_⟩
  · rw [conclude_returned_store]
    exact ⟨hd, rfl, rfl⟩
  · rw [conclude_returned]
    constructor
    · intro he
      obtain ⟨n, _, hfst⟩ := (ho.error_eq_some_iff fuel e).mp he
      exact ⟨n, m, started, hl, hfst⟩
    · rintro ⟨n, m', started', hl', hfst⟩
      rw [hl] at hl'
      cases hl'
      show (m.run (host now) fuel).store.error = some e
      rw [hlate hfst]
      exact hfst.error ho
  · rw [hl] at hl'
    cases hl'
    refine ⟨fun k hk => hfst.store ho hk, ?_⟩
    rw [conclude_returned_store]
    rw [hlate hfst, hd]

theorem Sound.run_settles {V : Vocabulary} (h : session.Sound V) (hq : session.store.Quiescent)
    (time : UInt64) (fuel : Nat) (program : Program)
    (hne : (session.run (.ofNumber time) fuel program).1 ≠ .error .unfinished) :
    session.Settles (.ofNumber time) program (session.run (.ofNumber time) fuel program).1
      (session.run (.ofNumber time) fuel program).2 := by
  rw [run_eq_runBy h.queue] at hne ⊢
  unfold runBy at hne ⊢
  cases hl : session.launch (.ofNumber time) program with
  | mk result started =>
    rw [hl] at hne
    cases result with
    | error e => exact settles_of_error hl hq
    | ok m =>
      have ho := launch_orderly h.queue hq hl
      cases fuel with
      | zero => exact absurd rfl hne
      | succ fuel =>
        dsimp only [finish] at hne ⊢
        have hs := (h.launch_typed hl fuel).stop?_cases
        rcases hs with hs | ⟨w, hs⟩
        · rw [hs] at hne
          exact absurd rfl hne
        · have hc : (m.run (host (.ofNumber time)) fuel).control = .stopped (.returned w) := by
            unfold Machine.stop? at hs
            split at hs
            · next hc =>
              cases hs
              exact hc
            · cases hs
          rw [hs]
          exact settles_of_returned hl ho hc

theorem ReachableBy.quiescent {V : Vocabulary} (h : session.ReachableBy V) :
    session.store.Quiescent := by
  induction h with
  | create hcre =>
    obtain ⟨store, hst, rfl⟩ := Session.create_eq_ok hcre
    exact Store.create_quiescent hst
  | @serve before request hbef hall ih =>
    cases request with
    | mention m => exact (Store.prepares_mention _ m).quiescent ih
    | define name w =>
      have hs := (before.store.prepares_globalSlot name).quiescent ih
      exact ⟨hs.depth, hs.calm, hs.error⟩
    | mute muted => exact ⟨ih.depth, ih.calm, ih.error⟩
    | run now fuel program =>
      obtain ⟨⟨time, rfl⟩, hne⟩ := hall
      exact (hbef.sound.run_settles ih _ _ _ hne).quiescent

end Session

/-! ## §3 Threads -/

/-- The program a submission runs; an expression is a program of one
statement. -/
def Submission.statements : Submission → Program
  | .program statements => statements
  | .expression e => [.expression e]

theorem Session.submit_lower (session : Session) (now : Word) (fuel : Nat)
    (submission : Submission) :
    session.submit now fuel submission.lower = session.run now fuel submission.statements := by
  cases submission <;> rfl

namespace Thread

theorem submit_eq {thread : Thread} {i : Nat} {session : Session}
    (h : thread.sessions[i]? = some session) (now : Word) (fuel : Nat) (submission : Submission) :
    thread.submit i now fuel submission =
      (some (session.run now fuel submission.statements).1,
        thread.put i (session.run now fuel submission.statements).2) := by
  have hh : (thread.activate i).2.host i now = { now := now } := by
    simp [host, activate]
  rw [← session.submit_lower]
  unfold submit Session.submit
  rw [h]
  dsimp only
  cases session.stage submission.lower with
  | mk result staged =>
    cases result with
    | error e => rfl
    | ok entry =>
      rw [hh]
      rfl

/-! ## §4 Main -/

/-- **Sessions are quiescent between submissions.** On any thread, whatever
was submitted to its sessions before and whichever store is active, no
session has a running function or an error. A submission that comes to an
end keeps it so and leaves the same store active. It reports an error of the
code if and only if a routine raised one, then the first one raised; and after
that raise nothing in the store changed but the depth. -/
theorem quiescent_between_submissions {thread : Thread}
    (h : ∀ session ∈ thread.sessions, session.Reachable) :
    (∀ session ∈ thread.sessions, session.store.Quiescent) ∧
      ∀ {i : Nat} {session : Session}, thread.sessions[i]? = some session →
        ∀ (time : UInt64) (fuel : Nat) (submission : Submission),
          ∃ answer after, thread.submit i (.ofNumber time) fuel submission = (some answer, after) ∧
            after.active = thread.active ∧
            (answer ≠ .error .unfinished →
              (∀ other ∈ after.sessions, other.Reachable ∧ other.store.Quiescent) ∧
              ∃ left, after.sessions[i]? = some left ∧
                session.Settles (.ofNumber time) submission.statements answer left) := by
  refine ⟨fun session hmem => (h session hmem).quiescent, ?_⟩
  intro i session hi time fuel submission
  have hs := h session (Array.mem_of_getElem? hi)
  refine ⟨_, _, submit_eq hi _ _ _, rfl, fun hne => ?_⟩
  have hl := hs.run time fuel submission.statements hne
  constructor
  · intro other hmem
    have ho : other.Reachable := by
      rcases Array.mem_or_eq_of_mem_setIfInBounds hmem with hold | rfl
      · exact h other hold
      · exact hl
    exact ⟨ho, ho.quiescent⟩
  · refine ⟨_, ?_, hs.sound.run_settles hs.quiescent time fuel submission.statements hne⟩
    obtain ⟨hlt, _⟩ := Array.getElem?_eq_some_iff.mp hi
    simp [put, hlt]

def unlucky : Program :=
  let call (name : String) : Expr := .call (.read ⟨name, 1⟩ .global) [] 1
  [ .function (.mk ⟨"inner", 1⟩ []
      [.print (.literal (.text "in")), .leave (some (.read ⟨"missing", 2⟩ .global))]),
    .function (.mk ⟨"outer", 3⟩ [] [.expression (call "inner"), .print (.literal (.text "out"))]),
    .expression (call "outer"),
    .print (.literal (.text "end")) ]

theorem quiescent_between_submissions_unlucky :
    let thread : Thread := { sessions := #[Session.small, Session.small], active := some 1 }
    (∀ session ∈ thread.sessions, session.Reachable) ∧
      ∃ after, thread.submit 0 (.ofNumber 0) 200 (.program unlucky) =
          (some (.error (.runtime (.undefinedVariable "missing"))), after) ∧
        after.active = some 1 ∧ (∀ other ∈ after.sessions, other.store.Quiescent) ∧
        ∃ n, Session.small.RaisesFirst (.ofNumber 0) unlucky n (.undefinedVariable "missing") := by
  intro thread
  have hr : ∀ session ∈ thread.sessions, session.Reachable := by
    intro session hmem
    obtain rfl : session = Session.small := by simpa [thread] using hmem
    exact Session.reachable_small
  have hfai : Session.failure? (Session.small.run (.ofNumber 0) 200 unlucky).1 =
      some (.undefinedVariable "missing") := by decide +kernel
  obtain ⟨_, hsub⟩ := quiescent_between_submissions hr
  have hfst : thread.sessions[0]? = some Session.small := rfl
  obtain ⟨answer, after, heq, hact, ho⟩ := hsub hfst 0 200 (.program unlucky)
  have hans : answer = .error (.runtime (.undefinedVariable "missing")) := by
    rw [submit_eq hfst] at heq
    rw [← Option.some.inj (congrArg Prod.fst heq)]
    exact Session.failure?_eq_some.mp hfai
  subst hans
  obtain ⟨hoth, left, _, hset⟩ := ho nofun
  exact ⟨hr, after, heq, hact, fun other hmem => (hoth other hmem).2, (hset.reports _).mp rfl⟩

end Thread

end ScriptMachine
