/-
ScriptMachine.Proofs.Sessions.Rejections — a program that is rejected leaves no
trace that can be seen.
-/
import ScriptMachine.Proofs.Sessions.Twins

namespace ScriptMachine

/-! ## §1 Turns -/

variable {K : Kin}

/-- A submission: the time it is made, how long it may run, and the program. -/
structure Turn where
  time : UInt64
  fuel : Nat
  program : Program

namespace Session

/-- What is seen of submissions one after another, up to the first that does
not come to an end. -/
def watch (session : Session) : List Turn → List Seen
  | [] => []
  | turn :: rest =>
    let r := session.run (.ofNumber turn.time) turn.fuel turn.program
    seen r :: if ended r.1 then r.2.watch rest else []

/-- The heap does not get full while submissions are made one after another. -/
def Spacious (session : Session) : List Turn → Prop
  | [] => True
  | turn :: rest => session.NeverFull (.ofNumber turn.time) turn.program ∧
    (ended (session.run (.ofNumber turn.time) turn.fuel turn.program).1 = true →
      (session.run (.ofNumber turn.time) turn.fuel turn.program).2.Spacious rest)

variable {session session' : Session} {now : Word} {program : Program}

theorem NeverFull.of_ended (hque : session.engine.queue = []) {n : Nat}
    (hne : ended (session.run now n program).1 = true)
    (hf : ranOut (session.run now n program).1 = false) : session.NeverFull now program := by
  intro fuel
  rcases Nat.le_total n fuel with hle | hle
  · rw [run_of_ended hque hle (ended_iff.mp hne)]
    exact hf
  · by_cases hunf : (session.run now fuel program).1 = .error .unfinished
    · rw [hunf]
      rfl
    · rw [← run_of_ended hque hle hunf]
      exact hf

end Session

theorem Kin.Answers.ended_eq {answer answer' : Except SessionError Word}
    (h : K.Answers answer answer') : Session.ended answer' = Session.ended answer := by
  cases h <;> rfl

theorem Kin.Stores.watch {session session' : Session} (h : K.Stores session.store session'.store)
    (hr : session.ReachableBy .issued) (hr' : session'.ReachableBy .issued) {turns : List Turn}
    (hroom : session'.Spacious turns) : session'.watch turns = session.watch turns := by
  induction turns generalizing K session session' with
  | nil => rfl
  | cons turn rest ih =>
    obtain ⟨hn, hl⟩ := hroom
    rcases h.run hr hr' turn.time turn.fuel turn.program with ⟨K', _, hs, ha⟩ | ⟨_, hf⟩
    · unfold Session.watch
      dsimp only
      rw [hs.seen ha, ha.ended_eq]
      cases hend : Session.ended (session.run (.ofNumber turn.time) turn.fuel turn.program).1 with
      | false => rfl
      | true =>
        have hend' := ha.ended_eq.trans hend
        have hafter := hr.run turn.time turn.fuel turn.program (Session.ended_iff.mp hend)
        have hafter' := hr'.run turn.time turn.fuel turn.program (Session.ended_iff.mp hend')
        exact congrArg (_ :: ·) (ih hs hafter hafter' (hl hend'))
    · exact absurd hn hf

/-! ## §2 Main -/

namespace Session

variable {session : Session} {e : CompileError}

def rejection? : Except SessionError Word → Option CompileError
  | .error (.compile e) => some e
  | _ => none

theorem rejection?_eq_some {answer : Except SessionError Word} :
    rejection? answer = some e ↔ answer = .error (.compile e) := by
  unfold rejection?
  split
  · simp
  · next hne => exact ⟨nofun, fun h => absurd h (hne e)⟩

theorem conclude_ne_compile (session : Session) (stop : Option Stop) (e : CompileError) :
    (session.conclude stop).1 ≠ .error (.compile e) := by
  unfold conclude
  split
  · nofun
  · nofun
  · dsimp only
    split <;> nofun

theorem ReachableBy.run_rejected {V : Vocabulary} (h : session.ReachableBy V)
    {time : UInt64} {fuel : Nat}
    {program : Program}
    (hrej : (session.run (.ofNumber time) fuel program).1 = .error (.compile e)) :
    ∃ ms : List Mention,
      (session.run (.ofNumber time) fuel program).2.store = session.store.mentionAll ms := by
  have hque := h.sound.queue
  obtain ⟨ms, hms⟩ := session.store.compile_mentions session.unitName program
  cases hc : session.store.compile session.unitName program with
  | mk result t =>
    rw [hc] at hms
    cases result with
    | error e' =>
      rw [run_of_error hque hc]
      exact ⟨ms, hms⟩
    | ok unit =>
      obtain ⟨_, f, hf⟩ := Store.compile_script hc
      obtain ⟨after, _, hl⟩ := h.launch_of_ok hc hf (.ofNumber time)
      cases fuel with
      | zero =>
        rw [run_zero hque hl] at hrej
        cases hrej
      | succ n =>
        rw [run_launched hque hl] at hrej
        exact absurd hrej (conclude_ne_compile _ _ e)

def ghost : Program :=
  [ .declare "ghost" (some (.literal (.text "boo"))),
    .print (.read ⟨"ghost", 2⟩ .global),
    .expression (.read ⟨"shade", 3⟩ (.scope 0)) ]

def haunting : List Turn :=
  [ ⟨0, 100, [ .declare "cry" (some (.literal (.text "boo"))),
      .print (.binary .add (.read ⟨"cry", 1⟩ .global) (.literal (.text "!"))) ]⟩,
    ⟨0, 100, [.print (.read ⟨"ghost", 1⟩ .global)]⟩ ]

def shaded : Program :=
  [ .print (.literal (.text "boo")), .expression (.read ⟨"shade", 2⟩ (.scope 0)) ]

/-- A later submission prints a text of the program that was rejected, and
without that program it does not. -/
structure Haunted (session : Session) (later : List Turn) : Prop where
  reachable : session.Reachable
  rejected : (session.run (.ofNumber 0) 100 shaded).1 =
    .error (.compile (.unresolvedLocal "shade" 0 2))
  room : (session.run (.ofNumber 0) 100 shaded).2.Spacious later
  after : ((session.run (.ofNumber 0) 100 shaded).2.watch later).map (·.printed) = ["boo\n"]
  without : (session.watch later).map (·.printed) = ["<dangling>\n"]

end Session

end ScriptMachine
