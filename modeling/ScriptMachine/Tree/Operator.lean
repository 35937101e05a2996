/-
ScriptMachine.Tree.Operator — the operators of the language.
-/

namespace ScriptMachine

inductive BinaryOp where
  | add
  | subtract
  | multiply
  | divide
  | equal
  | notEqual
  | less
  | lessEqual
  | greater
  | greaterEqual
deriving DecidableEq, Inhabited

namespace BinaryOp

def all : List BinaryOp :=
  [add, subtract, multiply, divide, equal, notEqual, less, lessEqual, greater, greaterEqual]

def spelling : BinaryOp → String
  | add => "+"
  | subtract => "-"
  | multiply => "*"
  | divide => "/"
  | equal => "=="
  | notEqual => "!="
  | less => "<"
  | lessEqual => "<="
  | greater => ">"
  | greaterEqual => ">="

def index (op : BinaryOp) : Nat := all.idxOf op

def ofIndex? (n : Nat) : Option BinaryOp := all[n]?

def isComparison : BinaryOp → Bool
  | less | lessEqual | greater | greaterEqual => true
  | _ => false

end BinaryOp

inductive UnaryOp where
  | negate
  | not
deriving DecidableEq

inductive LogicalOp where
  | and
  | or
deriving DecidableEq

end ScriptMachine
