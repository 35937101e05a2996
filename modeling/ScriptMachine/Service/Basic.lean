/-
ScriptMachine.Service.Basic — the routines lowered code calls for what
it cannot do by itself.
-/
import ScriptMachine.Store.Operators
import ScriptMachine.Store.Calls

namespace ScriptMachine

/-! ## 1. The table -/

inductive Service where
  | print
  | binary
  | negate
  | valuesEqual
  | globalGet
  | globalSet
  | globalDefine
  | newCell
  | cellGet
  | cellSet
  | closureCell
  | makeClosure
  | prepareCall
  | stackOverflow
  | getProperty
  | setProperty
  | newClass
  | addMethod
  | getSuper
deriving DecidableEq, Inhabited

namespace Service

def all : List Service :=
  [print, binary, negate, valuesEqual, globalGet, globalSet, globalDefine, newCell, cellGet,
   cellSet, closureCell, makeClosure, prepareCall, stackOverflow, getProperty, setProperty,
   newClass, addMethod, getSuper]

def symbol : Service → String
  | print => "elx_print"
  | binary => "elx_binary"
  | negate => "elx_negate"
  | valuesEqual => "elx_values_equal"
  | globalGet => "elx_global_get"
  | globalSet => "elx_global_set"
  | globalDefine => "elx_global_define"
  | newCell => "elx_new_cell"
  | cellGet => "elx_cell_get"
  | cellSet => "elx_cell_set"
  | closureCell => "elx_closure_cell"
  | makeClosure => "elx_make_closure"
  | prepareCall => "elx_prepare_call"
  | stackOverflow => "elx_stack_overflow"
  | getProperty => "elx_get_property"
  | setProperty => "elx_set_property"
  | newClass => "elx_new_class"
  | addMethod => "elx_add_method"
  | getSuper => "elx_get_super"

def arity : Service → Nat
  | stackOverflow => 0
  | print | negate | globalGet | newCell | cellGet => 1
  | valuesEqual | globalSet | globalDefine | cellSet | closureCell => 2
  | binary | prepareCall | getProperty | newClass | addMethod | getSuper => 3
  | makeClosure | setProperty => 4

def fallible : Service → Bool
  | print | valuesEqual | globalDefine | cellGet | cellSet | closureCell | addMethod
  | prepareCall => false
  | _ => true

def ofSymbol? (name : String) : Option Service := all.find? (·.symbol == name)

end Service

/-! ## 2. What the routines do -/

namespace Serve

def report : Except Failure Word × Store → Word × Store
  | (.ok w, s) => (w, s)
  | (.error e, s) => (.nil, s.raise e)

def print (w : Word) (s : Store) : Word × Store := (w, s.print w)

def binary (op : BinaryOp) (left right : Word) (s : Store) : Word × Store :=
  report (s.binary op left right)

def negate (operand : Word) (s : Store) : Word × Store := report (Store.negate operand, s)

def valuesEqual (left right : Word) (s : Store) : Word × Store :=
  (.ofBool (s.valuesEqual left right), s)

def globalGet (slot : Nat) (s : Store) : Word × Store := report (s.getGlobal slot, s)

def globalSet (slot : Nat) (value : Word) (s : Store) : Word × Store :=
  report (s.setGlobal slot value)

def globalDefine (slot : Nat) (value : Word) (s : Store) : Word × Store :=
  (.nil, s.putSlot slot value)

def newCell (value : Word) (s : Store) : Word × Store := report (s.newCell value)

def cellGet (cell : Word) (s : Store) : Word × Store := (s.cellValue cell, s)

def cellSet (cell value : Word) (s : Store) : Word × Store := (value, s.setCell cell value)

def closureCell (closure : Word) (index : Nat) (s : Store) : Word × Store :=
  (s.closureCell closure index, s)

def makeClosure (prototype : Nat) (entry : Entry) (cells : Array Word) (s : Store) :
    Word × Store :=
  report (s.makeClosure prototype entry cells)

def prepareCall (callee : Word) (count : Nat) (s : Store) : Option CallTarget × Store :=
  match s.prepareCall callee count with
  | (.ok target, s) => (some target, s)
  | (.error e, s) => (none, s.raise e)

def stackOverflow (s : Store) : Word × Store := (.nil, s.raise .stackOverflow)

def getProperty (object : Word) (name : Symbol) (site : Nat) (s : Store) : Word × Store :=
  report (s.getProperty object name site)

def setProperty (object : Word) (name : Symbol) (value : Word) (site : Nat) (s : Store) :
    Word × Store :=
  report (s.setProperty object name value site)

def newClass (name : Symbol) (superclass : Option Word) (s : Store) : Word × Store :=
  report (s.newClass name superclass)

def addMethod (w : Word) (name : Symbol) (method : Word) (s : Store) : Word × Store :=
  (.nil, s.addMethod w name method)

def getSuper (superclass receiver : Word) (name : Symbol) (s : Store) : Word × Store :=
  report (s.getSuper superclass receiver name)

end Serve

/-! ## 3. The routines on bare words -/

def Entry.toWord : Entry → Word
  | .address n => ⟨n⟩
  | _ => ⟨1⟩

def Service.call (service : Service) (words : List Word) (s : Store) : Word × Store :=
  let word (i : Nat) : Word := words[i]?.getD .zero
  let low (i : Nat) : Nat := (word i).bits.toNat % 0x100000000
  let whole (i : Nat) : Nat := (word i).bits.toNat
  match service with
  | .print => Serve.print (word 0) s
  | .binary =>
    match BinaryOp.ofIndex? (whole 0) with
    | some op => Serve.binary op (word 1) (word 2) s
    | none => (.nil, s)
  | .negate => Serve.negate (word 0) s
  | .valuesEqual => Serve.valuesEqual (word 0) (word 1) s
  | .globalGet => Serve.globalGet (low 0) s
  | .globalSet => Serve.globalSet (low 0) (word 1) s
  | .globalDefine => Serve.globalDefine (low 0) (word 1) s
  | .newCell => Serve.newCell (word 0) s
  | .cellGet => Serve.cellGet (word 0) s
  | .cellSet => Serve.cellSet (word 0) (word 1) s
  | .closureCell => Serve.closureCell (word 0) (whole 1) s
  | .makeClosure => Serve.makeClosure (low 0) (.address (word 1).bits) #[] s
  | .prepareCall =>
    match Serve.prepareCall (word 0) (whole 1) s with
    | (some target, s) => (target.entry.toWord, s)
    | (none, s) => (.zero, s)
  | .stackOverflow => Serve.stackOverflow s
  | .getProperty => Serve.getProperty (word 0) (low 1) (low 2) s
  | .setProperty => Serve.setProperty (word 0) (low 1) (word 2) (low 3) s
  | .newClass =>
    Serve.newClass (low 0) (if word 1 = .zero then none else some (word 2)) s
  | .addMethod => Serve.addMethod (word 0) (low 1) (word 2) s
  | .getSuper => Serve.getSuper (word 0) (word 1) (low 2) s

def Service.idle : Service → Word
  | .prepareCall => .zero
  | _ => .nil

end ScriptMachine
