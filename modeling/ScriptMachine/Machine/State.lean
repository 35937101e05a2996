/-
ScriptMachine.Machine.State — the state of a run.
-/
import ScriptMachine.Service.Basic

namespace ScriptMachine

structure Host where
  now : Word
  attached : Bool := true

structure Frame where
  unit : CodeUnit
  closure : Word := .nil
  receiver : Word := .nil
  arguments : List Word := []
  locals : Array Word := #[]

namespace Frame

def value (frame : Frame) (index : Nat) : Word := frame.locals[index]?.getD .zero

def setVariable (frame : Frame) (index : Nat) (value : Word) : Frame :=
  { frame with locals := frame.locals.setIfInBounds index value }

end Frame

inductive Pending where
  | assignVariable (index : Nat)
  | newCell
  | assignCell (cell : CellRef)
  | assignGlobal (slot : Nat)
  | negate
  | not
  | leftOperand (op : BinaryOp) (right : Code)
  | rightOperand (op : BinaryOp) (left : Word)
  | logical (op : LogicalOp) (right : Code)
  | callee (arguments : List Code)
  | argument (callee : Word) (done : List Word) (rest : List Code)
  | getProperty (name : Symbol) (site : Nat)
  | setObject (name : Symbol) (value : Code) (site : Nat)
  | setProperty (object : Word) (name : Symbol) (site : Nat)
  | superclass (self : Code) (name : Symbol)
  | superReceiver (superclass : Word) (name : Symbol)
  | discard
  | print
  | defineGlobal (slot : Nat)
  | branch (yes no : List Instr)
  | loopTest (condition : Code) (body : List Instr)
  | addMethod (classVariable : Nat) (name : Symbol)
  | leave
  | rest (code : List Instr)
  | again (condition : Code) (body : List Instr)

inductive Stop where
  | returned (w : Word)
  | strayed (address : UInt64)
deriving DecidableEq

inductive Control where
  | run (code : List Instr)
  | eval (e : Code)
  | give (w : Word)
  | leave (w : Word)
  | stopped (stop : Stop)

structure Caller where
  frame : Frame
  stack : List Pending

structure Machine where
  store : Store
  frame : Frame
  stack : List Pending := []
  callers : List Caller := []
  control : Control

end ScriptMachine
