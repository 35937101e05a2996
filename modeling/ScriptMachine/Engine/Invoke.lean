/-
ScriptMachine.Engine.Invoke — calling what an engine has prepared.
-/
import ScriptMachine.Engine.Basic
import ScriptMachine.Machine.Step

namespace ScriptMachine

def Routine.call (routine : Routine) (host : Host) (words : List Word) (s : Store) :
    Word × Store :=
  match routine with
  | .service r => if host.attached then r.call words s else (r.idle, s)
  | .clock => (host.now, s)
  | .function f => (f words, s)

namespace EntryPoint

def call (routines : Routines) (host : Host) :
    Nat → EntryPoint → List Word → Store → Option Stop × Store
  | 0, _, _, s => (none, s)
  | fuel + 1, entry, words, s =>
    match entry.unit.body? entry.declaration with
    | some (.constant w) => (some (.returned w), s)
    | some (.parameter index) => (some (.returned (words[index]?.getD .zero)), s)
    | some (.lowered f) =>
      let m := (Machine.start host s entry.unit f).run host fuel
      (m.stop?, m.store)
    | some (.call target arguments) =>
      match entry.unit.declarations[target.index]? with
      | some ⟨name, .imported, _⟩ =>
        match routines.get? name with
        | some routine =>
          let (w, s) := routine.call host arguments s
          (some (.returned w), s)
        | none => (some (.strayed 0), s)
      | _ => call routines host fuel ⟨entry.unit, target.index⟩ arguments s
    | some .noReturn | none => (some (.strayed 0), s)

end EntryPoint

def Engine.invoke (engine : Engine) (host : Host) (fuel : Nat) (entry : EntryPoint) (s : Store) :
    Option Stop × Store :=
  entry.call engine.routines host fuel [] s

end ScriptMachine
