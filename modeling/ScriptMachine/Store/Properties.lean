/-
ScriptMachine.Store.Properties — fields and methods of instances.
-/
import ScriptMachine.Store.Basic

namespace ScriptMachine.Store

def undefinedProperty (s : Store) (name : Symbol) : Failure :=
  .undefinedProperty (s.names.spelling name)

def bind (s : Store) (receiver method : Word) : Except Failure Word × Store :=
  s.alloc (.bound ⟨receiver, method⟩)

def getProperty (s : Store) (object : Word) (name : Symbol) (site : Nat) :
    Except Failure Word × Store :=
  let s := s.modifySite site .miss
  match s.heap.instance? object with
  | none => (.error (.noProperties object.tag), s)
  | some (_, i) =>
    match s.shapes.slot? i.shape name with
    | some slot =>
      (.ok (i.slots[slot]?.getD .nil), s.modifySite site (·.refresh i.shape slot))
    | none =>
      match (s.heap.class? i.classHandle).bind (·.method? name) with
      | some method => s.bind object method
      | none => (.error (s.undefinedProperty name), s)

def setProperty (s : Store) (object : Word) (name : Symbol) (value : Word) (site : Nat) :
    Except Failure Word × Store :=
  match s.heap.instance? object with
  | none => (.error (.noFields object.tag), s)
  | some (index, i) =>
    let (slot, changed, shapes) := i.setField s.shapes name value
    let s := { s with shapes := shapes, heap := s.heap.put index (.ofInstance changed) }
    let s := s.modifySite site .miss
    (.ok value, if changed.shape = i.shape then s.modifySite site (·.refresh i.shape slot) else s)

def cached? (s : Store) (object : Word) (site : Nat) : Option (Instance × Nat) := do
  guard object.isObject
  let i ← (← s.heap.objects[object.objectIndex]?).instance?
  let (shape, slot) ← (← s.sites[site]?).cached
  guard (i.shape = shape)
  return (i, slot)

def getCached (s : Store) (i : Instance) (slot : Nat) (site : Nat) : Word × Store :=
  (i.slots[slot]?.getD .nil, s.modifySite site .hit)

def setCached (s : Store) (object : Word) (i : Instance) (slot : Nat) (value : Word)
    (site : Nat) : Store :=
  let changed := { i with slots := i.slots.setIfInBounds slot value }
  { s with heap := s.heap.put object.objectIndex (.ofInstance changed) }.modifySite site .hit

end ScriptMachine.Store
