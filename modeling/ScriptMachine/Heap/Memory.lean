/-
ScriptMachine.Heap.Memory — a heap as hosts use it.
-/
import ScriptMachine.Heap.Basic

namespace ScriptMachine

/-! ## 1. Storing and changing -/

def Handle.ofIndex (index : Nat) : Handle := .ofParts (UInt32.ofNat index) 0

namespace Heap

def issue (heap : Heap) (object : Object) : Except HeapError Handle × Heap :=
  match heap.allocate object with
  | .ok (index, heap) => (.ok (.ofIndex index), heap)
  | .error e => (.error e, heap)

def issueWord (heap : Heap) (object : Object) : Except HeapError Word × Heap :=
  match heap.issue object with
  | (.ok h, heap) =>
    match Word.ofHandle? h with
    | .ok w => (.ok w, heap)
    | .error _ => (.error (.exhausted heap.size), heap)
  | (.error e, heap) => (.error e, heap)

def issueText (heap : Heap) (text : String) : Except HeapError Handle × Heap :=
  match heap.internText text with
  | .ok (index, heap) => (.ok (.ofIndex index), heap)
  | .error e => (.error e, heap)

def edit? (heap : Heap) (h : Handle) : Option (Object × (Object → Heap)) :=
  (heap.get? h).map fun object => (object, heap.put h.index)

end Heap

/-! ## 2. Requests -/

structure Memory where
  heap : Heap
  shapes : Shapes := {}

namespace Memory

inductive Request where
  | allocate (object : Object)
  | allocateWord (object : Object)
  | internText (text : String)
  | setCell (cell value : Word)
  | addMethod (handle : Handle) (name : Symbol) (method : Word)
  | setField (object : Word) (field : Symbol) (value : Word)

inductive Reply where
  | handle (h : Handle)
  | word (w : Word)
  | refused (e : HeapError)
  | missing
  | written
  | added (previous : Option Word)
  | stored (slot : Nat) (shape : ShapeId)

def Reply.ofExcept {α : Type} (ok : α → Reply) : Except HeapError α → Reply
  | .ok a => ok a
  | .error e => .refused e

def withLimit (limit : Nat) : Memory := { heap := .withLimit limit }

def setCell (m : Memory) (cell value : Word) : Reply × Memory :=
  let (done, heap) := m.heap.setCell cell value
  (if done then .written else .missing, { m with heap := heap })

def addMethod (m : Memory) (h : Handle) (name : Symbol) (method : Word) : Reply × Memory :=
  match m.heap.edit? h with
  | some (.ofClass c, put) =>
    (.added (c.method? name), { m with heap := put (.ofClass (c.addMethod name method)) })
  | _ => (.missing, m)

def setField (m : Memory) (object : Word) (field : Symbol) (value : Word) : Reply × Memory :=
  match m.heap.instance? object with
  | some (index, i) =>
    let (slot, i, shapes) := i.setField m.shapes field value
    (.stored slot i.shape, { heap := m.heap.put index (.ofInstance i), shapes := shapes })
  | none => (.missing, m)

def serve (m : Memory) : Request → Reply × Memory
  | .allocate object =>
    let (outcome, heap) := m.heap.issue object
    (.ofExcept .handle outcome, { m with heap := heap })
  | .allocateWord object =>
    let (outcome, heap) := m.heap.issueWord object
    (.ofExcept .word outcome, { m with heap := heap })
  | .internText text =>
    let (outcome, heap) := m.heap.issueText text
    (.ofExcept .handle outcome, { m with heap := heap })
  | .setCell cell value => m.setCell cell value
  | .addMethod h name method => m.addMethod h name method
  | .setField object field value => m.setField object field value

end Memory

end ScriptMachine
