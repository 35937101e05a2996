/-
ScriptMachine.Heap.Basic — the arena of objects.
-/
import ScriptMachine.Heap.Object

namespace ScriptMachine

inductive HeapError where
  | exhausted (count : Nat)
deriving DecidableEq

def HeapError.message : HeapError → String
  | .exhausted count => "object heap exhausted after " ++ toString count ++ " allocations"

structure Heap where
  limit : Nat
  objects : Array Object := #[]
  instances : Array (Option Nat) := #[]
  interned : Table String Nat := []

namespace Heap

def maxLimit : Nat := 0xFFFFFFFF

def withLimit (limit : Nat) : Heap := { limit := min limit maxLimit }

def empty : Heap := withLimit maxLimit

def size (heap : Heap) : Nat := heap.objects.size

def push (heap : Heap) (object : Object) : Heap :=
  { heap with
    objects := heap.objects.push object
    instances := heap.instances.push (object.instance?.map fun _ => heap.size) }

@[simp] theorem objects_push (heap : Heap) (object : Object) :
    (heap.push object).objects = heap.objects.push object := rfl

@[simp] theorem limit_push (heap : Heap) (object : Object) :
    (heap.push object).limit = heap.limit := rfl

@[simp] theorem interned_push (heap : Heap) (object : Object) :
    (heap.push object).interned = heap.interned := rfl

@[simp] theorem size_push (heap : Heap) (object : Object) :
    (heap.push object).size = heap.size + 1 := Array.size_push ..

def allocate (heap : Heap) (object : Object) : Except HeapError (Nat × Heap) :=
  if heap.size < heap.limit then .ok (heap.size, heap.push object)
  else .error (.exhausted heap.size)

def internText (heap : Heap) (text : String) : Except HeapError (Nat × Heap) :=
  match heap.interned.get? text with
  | some index => .ok (index, heap)
  | none => do
    let (index, heap) ← heap.allocate (.text text)
    return (index, { heap with interned := heap.interned.insert text index })

def get? (heap : Heap) (h : Handle) : Option Object :=
  if h.generation = 0 then heap.objects[h.index]? else none

def deref? (heap : Heap) (w : Word) : Option Object :=
  match w.toHandle? with
  | .ok h => heap.get? h
  | .error _ => none

def put (heap : Heap) (index : Nat) (object : Object) : Heap :=
  { heap with objects := heap.objects.setIfInBounds index object }

def text? (heap : Heap) (w : Word) : Option String :=
  match heap.deref? w with
  | some (.text s) => some s
  | _ => none

def class? (heap : Heap) (h : Handle) : Option Class :=
  match heap.get? h with
  | some (.ofClass c) => some c
  | _ => none

def instance? (heap : Heap) (w : Word) : Option (Nat × Instance) :=
  match heap.deref? w with
  | some (.ofInstance i) => some (w.objectIndex, i)
  | _ => none

def setCell (heap : Heap) (w value : Word) : Bool × Heap :=
  match heap.deref? w with
  | some (.cell _) => (true, heap.put w.objectIndex (.cell value))
  | _ => (false, heap)

def addMethod (heap : Heap) (h : Handle) (name : Symbol) (method : Word) : Heap :=
  match heap.class? h with
  | some c => heap.put h.index (.ofClass (c.addMethod name method))
  | none => heap

end Heap

end ScriptMachine
