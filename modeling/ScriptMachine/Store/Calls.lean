/-
ScriptMachine.Store.Calls — calls, closures, cells and classes.
-/
import ScriptMachine.Store.Properties

namespace ScriptMachine

structure CallTarget where
  entry : Entry
  closure : Word
  receiver : Word

namespace Store

def bindCall (s : Store) (method receiver : Word) (count : Nat) : Except Failure CallTarget :=
  match s.heap.deref? method with
  | some (.closure c) =>
    if c.arity = count then .ok ⟨c.entry, method, receiver⟩ else .error (.arity c.arity count)
  | _ => .error (.notCallable method.tag)

def prepareConstruction (s : Store) (callee : Word) (c : Class) (count : Nat) :
    Except Failure CallTarget × Store :=
  let initializer := c.method? s.initializer
  if initializer.isNone && count != 0 then (.error (.arity 0 count), s)
  else
    match s.alloc (.ofInstance { classHandle := ⟨callee.payload⟩ }) with
    | (.error e, s) => (.error e, s)
    | (.ok created, s) =>
      match initializer with
      | some method => (s.bindCall method created count, s)
      | none => (.ok ⟨.construct, callee, created⟩, s)

def prepareCall (s : Store) (callee : Word) (count : Nat) : Except Failure CallTarget × Store :=
  match s.heap.deref? callee with
  | some (.closure c) =>
    (if c.arity = count then .ok ⟨c.entry, callee, .nil⟩ else .error (.arity c.arity count), s)
  | some (.native n) =>
    (if n.arity = count then .ok ⟨n.entry, callee, .nil⟩ else .error (.arity n.arity count), s)
  | some (.bound b) => (s.bindCall b.method b.receiver count, s)
  | some (.ofClass c) => s.prepareConstruction callee c count
  | _ => (.error (.notCallable callee.tag), s)

def makeClosure (s : Store) (prototype : Nat) (entry : Entry) (cells : Array Word) :
    Except Failure Word × Store :=
  match s.prototypes[prototype]? with
  | some p => s.alloc (.closure ⟨p.name, p.arity, entry, cells⟩)
  | none => (.error .unknownPrototype, s)

def newCell (s : Store) (value : Word) : Except Failure Word × Store := s.alloc (.cell value)

def cellValue (s : Store) (cell : Word) : Word :=
  match s.heap.deref? cell with
  | some (.cell value) => value
  | _ => .nil

def setCell (s : Store) (cell value : Word) : Store :=
  { s with heap := (s.heap.setCell cell value).2 }

def closureCell (s : Store) (closure : Word) (index : Nat) : Word :=
  match s.heap.deref? closure with
  | some (.closure c) => c.cells[index]?.getD .nil
  | _ => .nil

def inherited (s : Store) : Option Word → Except Failure (Table Symbol Word)
  | none => .ok []
  | some superclass =>
    match s.heap.deref? superclass with
    | some (.ofClass c) => .ok c.methods
    | _ => .error .invalidSuperclass

def newClass (s : Store) (name : Symbol) (superclass : Option Word) :
    Except Failure Word × Store :=
  match s.inherited superclass with
  | .ok methods => s.alloc (.ofClass ⟨name, methods⟩)
  | .error e => (.error e, s)

def addMethod (s : Store) (w : Word) (name : Symbol) (method : Word) : Store :=
  match w.toHandle? with
  | .ok h => { s with heap := s.heap.addMethod h name method }
  | .error _ => s

def getSuper (s : Store) (superclass receiver : Word) (name : Symbol) :
    Except Failure Word × Store :=
  let method :=
    match s.heap.deref? superclass with
    | some (.ofClass c) => c.method? name
    | _ => none
  match method with
  | some method => s.bind receiver method
  | none => (.error (s.undefinedProperty name), s)

end Store

end ScriptMachine
