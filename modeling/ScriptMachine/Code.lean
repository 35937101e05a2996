/-
ScriptMachine.Code — what programs are lowered to.
-/
import ScriptMachine.Word.Basic
import ScriptMachine.Names
import ScriptMachine.Tree.Operator

namespace ScriptMachine

inductive CellRef where
  | own (index : Nat)
  | captured (index : Nat)
deriving DecidableEq

inductive Code where
  | constant (w : Word)
  | receiver
  | argument (index : Nat)
  | readVariable (index : Nat)
  | assignVariable (index : Nat) (value : Code)
  | newCell (value : Code)
  | readCell (cell : CellRef)
  | assignCell (cell : CellRef) (value : Code)
  | readGlobal (slot : Nat)
  | assignGlobal (slot : Nat) (value : Code)
  | negate (operand : Code)
  | not (operand : Code)
  | binary (op : BinaryOp) (left right : Code)
  | logical (op : LogicalOp) (left right : Code)
  | call (callee : Code) (arguments : List Code)
  | getProperty (object : Code) (name : Symbol) (site : Nat)
  | setProperty (object : Code) (name : Symbol) (value : Code) (site : Nat)
  | getSuper (superclass receiver : Code) (name : Symbol)
  | closure (declaration prototype : Nat) (cells : List CellRef)
  | newClass (name : Symbol) (superclass : Option Nat)

/-- Lowered statements. -/
inductive Instr where
  | evaluate (e : Code)
  | print (e : Code)
  | defineGlobal (slot : Nat) (e : Code)
  | branch (condition : Code) (yes no : List Instr)
  | loop (condition : Code) (body : List Instr)
  | addMethod (classVariable : Nat) (name : Symbol) (method : Code)
  | leave (e : Code)

structure Function where
  locals : Nat
  body : List Instr

end ScriptMachine
