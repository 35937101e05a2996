/-
ScriptMachine.Lowering.Scope — which declaration a name refers to.
-/
import ScriptMachine.Heap.Basic

namespace ScriptMachine

/-! ## 1. Errors -/

inductive CompileError where
  | unresolvedLocal (name : String) (depth : UInt64) (line : Nat)
  | invalidReceiver (keyword : String) (line : Nat)
  | tooManyArguments (line : Nat)
  | tooManyParameters (line : Nat)
  | captureMismatch (key : Nat)
  | heap (e : HeapError)
  | depthOverflow
deriving DecidableEq

def CompileError.message : CompileError → String
  | .unresolvedLocal name depth line =>
    "[line " ++ toString line ++ "] unresolved local '" ++ name ++ "' at depth " ++
      toString depth.toNat
  | .invalidReceiver keyword line =>
    "[line " ++ toString line ++ "] '" ++ keyword ++ "' used outside of a method"
  | .tooManyArguments line =>
    "[line " ++ toString line ++ "] can't have more than 255 arguments"
  | .tooManyParameters line =>
    "[line " ++ toString line ++ "] can't have more than 255 parameters"
  | .captureMismatch key => "captured variable '" ++ toString key ++ "' has no boxed storage"
  | .heap e => e.message
  | .depthOverflow => "depth overflow"

def maxArity : Nat := 255

/-! ## 2. Scopes -/

abbrev Key := Nat

structure Scope where
  frame : Nat
  entries : List (String × Key) := []

structure Declared where
  frame : Nat
  key : Key
deriving DecidableEq

structure Scopes where
  stack : List Scope := []
  frame : Nat := 0
  nextFrame : Nat := 1
  nextKey : Key := 0

namespace Scopes

def atTop (scopes : Scopes) : Bool := scopes.stack.isEmpty

def push (scopes : Scopes) : Scopes :=
  { scopes with stack := { frame := scopes.frame } :: scopes.stack }

def pop (scopes : Scopes) : Scopes := { scopes with stack := scopes.stack.tail }

def declare (scopes : Scopes) (name : String) : Scopes :=
  match scopes.stack with
  | [] => scopes
  | scope :: rest =>
    { scopes with
      stack := { scope with entries := (name, scopes.nextKey) :: scope.entries } :: rest
      nextKey := scopes.nextKey + 1 }

def enter (scopes : Scopes) : Scopes :=
  { scopes with frame := scopes.nextFrame, nextFrame := scopes.nextFrame + 1 }

def backTo (scopes : Scopes) (frame : Nat) : Scopes := { scopes with frame := frame }

def resolve (scopes : Scopes) (name : String) (depth : UInt64) :
    Except CompileError (Option Declared) :=
  if depth.toNat + 1 = 0x10000000000000000 then .error .depthOverflow
  else .ok do
    let scope ← scopes.stack[depth.toNat]?
    let key ← scope.entries.lookup name
    return ⟨scope.frame, key⟩

end Scopes

end ScriptMachine
