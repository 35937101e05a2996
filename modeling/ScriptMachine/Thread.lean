/-
ScriptMachine.Thread — sessions that share a thread.
-/
import ScriptMachine.Session

namespace ScriptMachine

inductive Submission where
  | program (statements : Program)
  | expression (e : Expr)

def Submission.lower (submission : Submission) (s : Store) (name : String) :
    Except CompileError CodeUnit × Store :=
  match submission with
  | .program statements => s.compile name statements
  | .expression e => s.compileExpr name e

structure Thread where
  sessions : Array Session
  active : Option Nat := none

namespace Thread

def host (thread : Thread) (i : Nat) (now : Word) : Host :=
  { now := now, attached := thread.active = some i }

def activate (thread : Thread) (i : Nat) : Option Nat × Thread :=
  (thread.active, { thread with active := some i })

def restore (thread : Thread) (previous : Option Nat) : Thread :=
  { thread with active := previous }

def put (thread : Thread) (i : Nat) (session : Session) : Thread :=
  { thread with sessions := thread.sessions.setIfInBounds i session }

def submit (thread : Thread) (i : Nat) (now : Word) (fuel : Nat) (submission : Submission) :
    Option (Except SessionError Word) × Thread :=
  match thread.sessions[i]? with
  | none => (none, thread)
  | some session =>
    match session.stage submission.lower with
    | (.error e, session) => (some (.error e), thread.put i session)
    | (.ok entry, session) =>
      let (previous, thread) := thread.activate i
      let (answer, session) := session.perform (thread.host i now) fuel entry
      (some answer, (thread.restore previous).put i session)

end Thread

end ScriptMachine
