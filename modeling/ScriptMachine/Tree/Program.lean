/-
ScriptMachine.Tree.Program — resolved programs.
-/
import ScriptMachine.Tree.Operator

namespace ScriptMachine

inductive Resolution where
  | global
  | scope (depth : UInt64)
deriving DecidableEq

inductive Literal where
  | nil
  | bool (b : Bool)
  | number (bits : UInt64)
  | text (s : String)
deriving DecidableEq

structure Ident where
  name : String
  line : Nat := 1
deriving DecidableEq

inductive Expr where
  | literal (value : Literal)
  | group (inner : Expr)
  | unary (op : UnaryOp) (operand : Expr)
  | binary (op : BinaryOp) (left right : Expr)
  | logical (op : LogicalOp) (left right : Expr)
  | read (name : Ident) (target : Resolution)
  | assign (name : Ident) (target : Resolution) (value : Expr)
  | call (callee : Expr) (arguments : List Expr) (line : Nat)
  | get (object : Expr) (name : String)
  | set (object : Expr) (name : String) (value : Expr)
  | self (keyword : Ident) (target : Resolution)
  | super (keyword : Ident) (method : String) (target : Resolution)

mutual

inductive Stmt where
  | expression (e : Expr)
  | print (e : Expr)
  | declare (name : String) (initial : Option Expr)
  | block (body : List Stmt)
  | branch (condition : Expr) (yes : Stmt) (no : Option Stmt)
  | loop (condition : Expr) (body : Stmt)
  | function (decl : FunctionDecl)
  | leave (value : Option Expr)
  | classDecl (name : String) (superclass : Option Expr) (methods : List FunctionDecl)

inductive FunctionDecl where
  | mk (name : Ident) (params : List String) (body : List Stmt)

end

namespace FunctionDecl

def name : FunctionDecl → Ident
  | mk name _ _ => name

def params : FunctionDecl → List String
  | mk _ params _ => params

def body : FunctionDecl → List Stmt
  | mk _ _ body => body

end FunctionDecl

abbrev Program := List Stmt

def initializerName : String := "init"

end ScriptMachine
