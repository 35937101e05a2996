/-
ScriptMachine.Heap.Object — what the heap holds.
-/
import ScriptMachine.Shapes
import ScriptMachine.Unit.Basic

namespace ScriptMachine

inductive Entry where
  | address (n : UInt64)
  | clock
  | construct
  | compiled (unit : CodeUnit) (declaration : Nat)

structure Closure where
  name : Symbol
  arity : Nat
  entry : Entry
  cells : Array Word

structure Native where
  name : Symbol
  arity : Nat
  entry : Entry

structure BoundMethod where
  receiver : Word
  method : Word
deriving DecidableEq

structure Class where
  name : Symbol
  methods : Table Symbol Word := []

structure Instance where
  classHandle : Handle
  shape : ShapeId := Shapes.root
  slots : Array Word := #[]

inductive Object where
  | text (s : String)
  | closure (c : Closure)
  | cell (w : Word)
  | ofClass (c : Class)
  | ofInstance (i : Instance)
  | bound (b : BoundMethod)
  | native (n : Native)

def Object.kindName : Object → String
  | .text _ => "string"
  | .closure _ => "function"
  | .cell _ => "cell"
  | .ofClass _ => "class"
  | .ofInstance _ => "instance"
  | .bound _ => "bound method"
  | .native _ => "native function"

def Object.instance? : Object → Option Instance
  | .ofInstance i => some i
  | _ => none

namespace Class

def method? (c : Class) (name : Symbol) : Option Word := c.methods.get? name

def addMethod (c : Class) (name : Symbol) (method : Word) : Class :=
  { c with methods := c.methods.insert name method }

end Class

namespace Instance

def field? (i : Instance) (shapes : Shapes) (field : Symbol) : Option Word := do
  let slot ← shapes.slot? i.shape field
  i.slots[slot]?

def setField (i : Instance) (shapes : Shapes) (field : Symbol) (value : Word) :
    Nat × Instance × Shapes :=
  match shapes.slot? i.shape field with
  | some slot => (slot, { i with slots := i.slots.setIfInBounds slot value }, shapes)
  | none =>
    let (next, shapes) := shapes.extend i.shape field
    (i.slots.size, { i with shape := next, slots := i.slots.push value }, shapes)

end Instance

end ScriptMachine
