/-
ScriptMachine.Lowering.State — what lowering keeps track of.
-/
import ScriptMachine.Lowering.Scope
import ScriptMachine.Service.Basic
import ScriptMachine.Tree.Program

namespace ScriptMachine

/-! ## 1. State -/

inductive FunctionKind where
  | script
  | function
  | method
  | initializer
deriving DecidableEq

def FunctionKind.hasReceiver : FunctionKind → Bool
  | .method | .initializer => true
  | _ => false

def FunctionKind.ofMethod (name : String) : FunctionKind :=
  if name = initializerName then .initializer else .method

inductive Storage where
  | direct (index : Nat)
  | boxed (index : Nat)
deriving DecidableEq

structure Binding where
  frame : Nat
  storage : Storage
deriving DecidableEq

structure FunctionState where
  kind : FunctionKind
  upvalues : List Key := []
  locals : Nat := 0
  references : List Nat := []

structure Lowering where
  store : Store
  unit : CodeUnit
  imports : Table Service Nat := []
  scopes : Scopes := {}
  bindings : Table Key Binding := []
  captured : List Key
  functions : Nat := 0
  current : FunctionState := { kind := .script }

abbrev Lower := EStateM CompileError Lowering

namespace Lower

/-! ## 2. Reaching into the state -/

def onStore {α : Type} (f : Store → α × Store) : Lower α :=
  modifyGet fun l =>
    let (a, store) := f l.store
    (a, { l with store := store })

def onScopes (f : Scopes → Scopes) : Lower Unit := modify fun l => { l with scopes := f l.scopes }

def onCurrent (f : FunctionState → FunctionState) : Lower Unit :=
  modify fun l => { l with current := f l.current }

def declare (d : Declaration) : Lower Nat :=
  modifyGet fun l =>
    let (index, unit) := l.unit.declare d
    (index, { l with unit := unit })

def refer (declaration : Nat) : Lower Unit :=
  onCurrent fun f =>
    if f.references.contains declaration then f
    else { f with references := f.references ++ [declaration] }

def use (service : Service) : Lower Unit := do
  match (← get).imports.get? service with
  | some declaration => refer declaration
  | none =>
    let declaration ← declare ⟨service.symbol, .imported, .words service.arity⟩
    modify fun l => { l with imports := l.imports.insert service declaration }
    refer declaration

def useIf (condition : Bool) (service : Service) : Lower Unit :=
  if condition then use service else pure ()

def newVariable : Lower Nat :=
  modifyGet fun l =>
    (l.current.locals,
     { l with current := { l.current with locals := l.current.locals + 1 } })

/-! ## 3. Locals -/

def resolve? (name : String) (depth : UInt64) : Lower (Option Key) := do
  match (← get).scopes.resolve name depth with
  | .ok found => return found.map (·.key)
  | .error e => throw e

def bindingOf (key : Key) : Lower Binding := do
  match (← get).bindings.get? key with
  | some binding => return binding
  | none => throw (.captureMismatch key)

def bindNext (storage : Storage) : Lower Unit :=
  modify fun l =>
    { l with bindings := l.bindings.insert l.scopes.nextKey ⟨l.scopes.frame, storage⟩ }

def declareLocal (name : String) (value : Code) : Lower Instr := do
  let index ← newVariable
  let l ← get
  let boxed := l.captured.contains l.scopes.nextKey
  useIf boxed .newCell
  bindNext (if boxed then .boxed index else .direct index)
  onScopes (·.declare name)
  return .evaluate (.assignVariable index (if boxed then .newCell value else value))

def upvalue (key : Key) : Lower Nat := do
  match (← get).current.upvalues.idxOf? key with
  | some index => return index
  | none =>
    modifyGet fun l =>
      (l.current.upvalues.length,
       { l with current := { l.current with upvalues := l.current.upvalues ++ [key] } })

def cellOf (key : Key) : Lower CellRef := do
  let binding ← bindingOf key
  match binding.storage with
  | .direct _ => throw (.captureMismatch key)
  | .boxed index =>
    if binding.frame = (← get).scopes.frame then return .own index
    else
      let position ← upvalue key
      use .closureCell
      return .captured position

def cellsOf : List Key → Lower (List CellRef)
  | [] => return []
  | key :: rest => do
    let cell ← cellOf key
    return cell :: (← cellsOf rest)

def ownVariable? (key : Key) : Lower (Option Nat) := do
  let binding ← bindingOf key
  match binding.storage with
  | .direct index => return if binding.frame = (← get).scopes.frame then some index else none
  | .boxed _ => return none

def readKey (key : Key) : Lower Code := do
  match ← ownVariable? key with
  | some index => return .readVariable index
  | none =>
    let cell ← cellOf key
    use .cellGet
    return .readCell cell

def assignKey (key : Key) (value : Code) : Lower Code := do
  match ← ownVariable? key with
  | some index => return .assignVariable index value
  | none =>
    let cell ← cellOf key
    use .cellSet
    return .assignCell cell value

end Lower

end ScriptMachine
