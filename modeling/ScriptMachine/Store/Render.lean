/-
ScriptMachine.Store.Render — values as programs print them.
-/
import ScriptMachine.Number.General
import ScriptMachine.Store.Basic

namespace ScriptMachine.Store

def functionText (s : Store) (name : Symbol) : String := "<fn " ++ s.names.spelling name ++ ">"

def objectText (s : Store) : Object → String
  | .text text => text
  | .closure c => s.functionText c.name
  | .native _ => "<native fn>"
  | .ofClass c => s.names.spelling c.name
  | .ofInstance i =>
    match s.heap.class? i.classHandle with
    | some c => s.names.spelling c.name ++ " instance"
    | none => "? instance"
  | .bound b =>
    match s.heap.deref? b.method with
    | some (.closure c) => s.functionText c.name
    | _ => "<fn>"
  | .cell _ => "<cell>"

def render (s : Store) (w : Word) : String :=
  match w.tag with
  | .number => Number.general w.bits
  | .bool => if w = .ofBool true then "true" else "false"
  | .nil => "nil"
  | .object =>
    match s.heap.deref? w with
    | some object => s.objectText object
    | none => "<dangling>"

def print (s : Store) (w : Word) : Store :=
  if s.muted then s else { s with printed := s.printed ++ s.render w ++ "\n" }

end ScriptMachine.Store
