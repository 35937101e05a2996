/-
ScriptMachine.Store.Basic — everything a running program can see or
change.
-/
import ScriptMachine.Store.Failure
import ScriptMachine.Store.Site

namespace ScriptMachine

structure Prototype where
  name : Symbol
  arity : Nat
deriving DecidableEq

structure Global where
  name : Symbol
  value : Option Word := none
deriving DecidableEq

structure Store where
  names : Names := {}
  shapes : Shapes := {}
  heap : Heap
  globals : Array Global := #[]
  prototypes : Array Prototype := #[]
  sites : Array Site := #[]
  initializer : Symbol := 0
  pending : Bool := false
  error : Option Failure := none
  depth : Nat := 0
  maxDepth : Nat
  printed : String := ""
  muted : Bool := false

namespace Store

/-! ## 1. Errors -/

def raise (s : Store) (e : Failure) : Store :=
  { s with error := some (s.error.getD e), pending := true }

def takeError (s : Store) : Option Failure × Store :=
  (s.error, { s with error := none, pending := false })

/-! ## 2. Objects -/

def alloc (s : Store) (object : Object) : Except Failure Word × Store :=
  match s.heap.allocate object with
  | .ok (index, heap) => (.ok (.ofIndex index), { s with heap := heap })
  | .error e => (.error (.heap e), s)

def internText (s : Store) (text : String) : Except HeapError Word × Store :=
  match s.heap.internText text with
  | .ok (index, heap) => (.ok (.ofIndex index), { s with heap := heap })
  | .error e => (.error e, s)

/-! ## 3. Names, prototypes and sites -/

def intern (s : Store) (name : String) : Symbol × Store :=
  let (symbol, names) := s.names.intern name
  (symbol, { s with names := names })

def addPrototype (s : Store) (name : String) (arity : Nat) : Nat × Store :=
  let (symbol, s) := s.intern name
  (s.prototypes.size, { s with prototypes := s.prototypes.push ⟨symbol, arity⟩ })

def addSite (s : Store) (kind : SiteKind) : Nat × Store :=
  (s.sites.size, { s with sites := s.sites.push { kind := kind } })

def modifySite (s : Store) (site : Nat) (f : Site → Site) : Store :=
  { s with sites := s.sites.modify site f }

def cacheStats (s : Store) : CacheStats := s.sites.foldl CacheStats.add {}

/-! ## 4. Globals -/

def globalSlot? (s : Store) (symbol : Symbol) : Option Nat :=
  s.globals.findIdx? (·.name == symbol)

def globalSlot (s : Store) (name : String) : Nat × Store :=
  let (symbol, s) := s.intern name
  match s.globalSlot? symbol with
  | some slot => (slot, s)
  | none => (s.globals.size, { s with globals := s.globals.push { name := symbol } })

def undefinedGlobal (s : Store) (slot : Nat) : Failure :=
  match s.globals[slot]? with
  | some g => .undefinedVariable (s.names.spelling g.name)
  | none => .undefinedVariable "?"

def slotValue? (s : Store) (slot : Nat) : Option Word := s.globals[slot]?.bind (·.value)

def putSlot (s : Store) (slot : Nat) (value : Word) : Store :=
  { s with globals := s.globals.modify slot fun g => { g with value := some value } }

def getGlobal (s : Store) (slot : Nat) : Except Failure Word :=
  match s.slotValue? slot with
  | some value => .ok value
  | none => .error (s.undefinedGlobal slot)

def setGlobal (s : Store) (slot : Nat) (value : Word) : Except Failure Word × Store :=
  match s.slotValue? slot with
  | some _ => (.ok value, s.putSlot slot value)
  | none => (.error (s.undefinedGlobal slot), s)

def defineGlobal (s : Store) (name : String) (value : Word) : Store :=
  let (slot, s) := s.globalSlot name
  s.putSlot slot value

def global? (s : Store) (name : String) : Option Word := do
  let symbol ← s.names.find? name
  let slot ← s.globalSlot? symbol
  s.slotValue? slot

/-! ## 5. Creation -/

def create (heap : Heap) (maxDepth : Nat) : Except Failure Store :=
  let s : Store := { heap := heap, maxDepth := maxDepth }
  let (initializer, s) := s.intern "init"
  let s := { s with initializer := initializer }
  let (clock, s) := s.intern "clock"
  match s.alloc (.native ⟨clock, 0, .clock⟩) with
  | (.ok value, s) => .ok (s.defineGlobal "clock" value)
  | (.error e, _) => .error e

def inspect (s : Store) : String :=
  "Runtime \x7b objects: " ++ toString s.heap.size ++ ", shapes: " ++ toString s.shapes.size ++
    ", sites: " ++ toString s.sites.size ++ ", pending_error: " ++ toString s.pending ++ " \x7d"

end Store

end ScriptMachine
