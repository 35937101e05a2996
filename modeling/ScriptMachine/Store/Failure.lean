/-
ScriptMachine.Store.Failure — what can go wrong while a program runs.
-/
import ScriptMachine.Word.Inspect
import ScriptMachine.Heap.Basic

namespace ScriptMachine

inductive Failure where
  | operands (op : BinaryOp) (left right : Tag)
  | operand (tag : Tag)
  | noProperties (receiver : Tag)
  | noFields (receiver : Tag)
  | encoding (e : EncodingError)
  | undefinedVariable (name : String)
  | undefinedProperty (name : String)
  | notCallable (callee : Tag)
  | unknownPrototype
  | arity (expected found : Nat)
  | invalidSuperclass
  | stackOverflow
  | heap (e : HeapError)
deriving DecidableEq

def Failure.message : Failure → String
  | .operands .add _ _ => "Operands must be numbers or strings for +."
  | .operands _ _ _ => "Operands must be numbers."
  | .operand _ => "Operand must be a number."
  | .noProperties _ => "Only instances have properties."
  | .noFields _ => "Only instances have fields."
  | .encoding e => e.message
  | .undefinedVariable name => "Undefined variable '" ++ name ++ "'."
  | .undefinedProperty name => "Undefined property '" ++ name ++ "'."
  | .notCallable _ => "Can only call functions and classes."
  | .unknownPrototype => "Unknown function prototype."
  | .arity expected found =>
    "Expected " ++ toString expected ++ " arguments but got " ++ toString found ++ "."
  | .invalidSuperclass => "Superclass must be a class."
  | .stackOverflow => "Stack overflow."
  | .heap e => e.message

end ScriptMachine
