/-
ScriptMachine.Session — running programs one after another.
-/
import ScriptMachine.Engine.Invoke
import ScriptMachine.Lowering.Program

namespace ScriptMachine

inductive SessionError where
  | compile (e : CompileError)
  | engine (e : EngineError)
  | runtime (e : Failure)
  | strayed (address : UInt64)
  | unfinished

structure Session where
  settings : SessionSettings := {}
  store : Store
  engine : Engine
  submissions : Nat := 0

namespace Session

def create (settings : SessionSettings) (heap : Heap) : Except Failure Session := do
  let store ← Store.create heap settings.maxCallDepth.toNat
  return { settings := settings, store := store, engine := { settings := settings.engine } }

def unitName (session : Session) : String := "__script" ++ toString session.submissions

def conclude (session : Session) (stop : Option Stop) : Except SessionError Word × Session :=
  match stop with
  | none => (.error .unfinished, session)
  | some (.strayed address) => (.error (.strayed address), session)
  | some (.returned w) =>
    let (error, store) := session.store.takeError
    let session := { session with store := store }
    match error with
    | some e => (.error (.runtime e), session)
    | none => (.ok w, session)

def load (session : Session) (name : String) (unit : CodeUnit) :
    Except SessionError EntryPoint × Session :=
  match session.engine.add unit with
  | (.error e, engine) => (.error (.engine e), { session with engine := engine })
  | (.ok _, engine) =>
    let session := { session with engine := engine }
    match engine.resolve name with
    | .error e => (.error (.engine e), session)
    | .ok entry => (.ok entry, session)

def stage (session : Session) (lower : Store → String → Except CompileError CodeUnit × Store) :
    Except SessionError EntryPoint × Session :=
  let name := session.unitName
  let (unit, store) := lower session.store name
  let session := { session with store := store, submissions := session.submissions + 1 }
  match unit with
  | .error e => (.error (.compile e), session)
  | .ok unit => session.load name unit

def perform (session : Session) (host : Host) (fuel : Nat) (entry : EntryPoint) :
    Except SessionError Word × Session :=
  let (stop, store) := session.engine.invoke host fuel entry session.store
  { session with store := store }.conclude stop

def submit (session : Session) (now : Word) (fuel : Nat)
    (lower : Store → String → Except CompileError CodeUnit × Store) :
    Except SessionError Word × Session :=
  match session.stage lower with
  | (.error e, session) => (.error e, session)
  | (.ok entry, session) => session.perform { now := now } fuel entry

def run (session : Session) (now : Word) (fuel : Nat) (program : Program) :
    Except SessionError Word × Session :=
  session.submit now fuel fun s name => s.compile name program

def evaluate (session : Session) (now : Word) (fuel : Nat) (e : Expr) :
    Except SessionError Word × Session :=
  session.submit now fuel fun s name => s.compileExpr name e

def inspect (session : Session) : String :=
  "Session \x7b engine: " ++ session.engine.inspect ++ ", submissions: " ++
    toString session.submissions ++ ", config: " ++ session.settings.inspect ++ " \x7d"

end Session

end ScriptMachine
