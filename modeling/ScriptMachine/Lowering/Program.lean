/-
ScriptMachine.Lowering.Program — from trees to code units.
-/
import ScriptMachine.Lowering.Capture
import ScriptMachine.Lowering.State

namespace ScriptMachine

namespace Lower

/-! ## 1. Expressions -/

def literal : Literal → Lower Code
  | .nil => return .constant .nil
  | .bool b => return .constant (.ofBool b)
  | .number bits => return .constant (.ofNumber bits)
  | .text s => do
    match ← onStore (·.internText s) with
    | .ok w => return .constant w
    | .error e => throw (.heap e)

def read (name : Ident) : Resolution → Lower Code
  | .global => do
    let slot ← onStore (·.globalSlot name.name)
    use .globalGet
    return .readGlobal slot
  | .scope depth => do
    match ← resolve? name.name depth with
    | some key => readKey key
    | none => throw (.unresolvedLocal name.name depth name.line)

def assign (name : Ident) (value : Code) : Resolution → Lower Code
  | .global => do
    let slot ← onStore (·.globalSlot name.name)
    use .globalSet
    return .assignGlobal slot value
  | .scope depth => do
    match ← resolve? name.name depth with
    | some key => assignKey key value
    | none => throw (.unresolvedLocal name.name depth name.line)

def readImplicit (keyword : Ident) (name : String) (depth : UInt64) : Lower Code := do
  match ← resolve? name depth with
  | some key => readKey key
  | none => throw (.invalidReceiver keyword.name keyword.line)

def self (keyword : Ident) : Resolution → Lower Code
  | .scope depth => readImplicit keyword "this" depth
  | .global => throw (.invalidReceiver keyword.name keyword.line)

def super (keyword : Ident) (method : String) : Resolution → Lower Code
  | .global => throw (.invalidReceiver keyword.name keyword.line)
  | .scope depth =>
    if depth = 0 then throw (.invalidReceiver keyword.name keyword.line)
    else do
      let superclass ← readImplicit keyword "super" depth
      let self ← readImplicit keyword "this" (depth - 1)
      let name ← onStore (·.intern method)
      use .getSuper
      return .getSuper superclass self name

def checkCount (count : Nat) (e : CompileError) : Lower Unit :=
  if maxArity < count then throw e else pure ()

def operatorService : BinaryOp → Service
  | .equal | .notEqual => .valuesEqual
  | _ => .binary

mutual

def expr : Expr → Lower Code
  | .literal value => literal value
  | .group inner => expr inner
  | .unary .negate operand => do
    let operand ← expr operand
    use .negate
    return .negate operand
  | .unary .not operand => return .not (← expr operand)
  | .binary op left right => do
    let left ← expr left
    let right ← expr right
    use (operatorService op)
    return .binary op left right
  | .logical op left right => do
    let left ← expr left
    let right ← expr right
    return .logical op left right
  | .read name target => read name target
  | .assign name target value => do
    let value ← expr value
    assign name value target
  | .call callee arguments line => do
    checkCount arguments.length (.tooManyArguments line)
    let callee ← expr callee
    let arguments ← exprs arguments
    use .prepareCall
    return .call callee arguments
  | .get object name => do
    let object ← expr object
    let site ← onStore (·.addSite .get)
    let name ← onStore (·.intern name)
    use .getProperty
    return .getProperty object name site
  | .set object name value => do
    let object ← expr object
    let value ← expr value
    let site ← onStore (·.addSite .set)
    let name ← onStore (·.intern name)
    use .setProperty
    return .setProperty object name value site
  | .self keyword target => self keyword target
  | .super keyword method target => super keyword method target

def exprs : List Expr → Lower (List Code)
  | [] => return []
  | e :: rest => do
    let code ← expr e
    return code :: (← exprs rest)

end

def expr? : Option Expr → Lower Code
  | none => return .constant .nil
  | some e => expr e

/-! ## 2. Statements -/

def bareReturn : FunctionKind → Code
  | .initializer => .receiver
  | _ => .constant .nil

def defineGlobal (name : String) (value : Code) : Lower Instr := do
  let slot ← onStore (·.globalSlot name)
  use .globalDefine
  return .defineGlobal slot value

def declareVariable (name : String) (value : Code) : Lower Instr := do
  if (← get).scopes.atTop then defineGlobal name value else declareLocal name value

def resultVariable : Nat := 0

def expression (value : Code) : Lower Instr := do
  let l ← get
  return .evaluate <|
    if l.current.kind = .script && l.scopes.atTop then .assignVariable resultVariable value
    else value

def parameters (index : Nat) : List String → Lower (List Instr)
  | [] => return []
  | name :: rest => do
    let instr ← declareLocal name (.argument index)
    return instr :: (← parameters (index + 1) rest)

def enterFunction (name : Ident) (count : Nat) (kind : FunctionKind) : Lower Nat := do
  let l ← get
  let symbol := l.unit.name ++ "::" ++ name.name ++ "#" ++ toString l.functions
  modify fun l =>
    { l with
      functions := l.functions + 1
      scopes := l.scopes.enter
      current := { kind := kind } }
  let declaration ← declare ⟨symbol, .internal, .words (count + 2)⟩
  use .stackOverflow
  return declaration

def receiverScope (kind : FunctionKind) : Lower (List Instr) :=
  if kind.hasReceiver then do
    onScopes .push
    return [← declareLocal "this" .receiver]
  else return []

def openScopes (kind : FunctionKind) (params : List String) : Lower (List Instr) := do
  let receiver ← receiverScope kind
  onScopes .push
  let arguments ← parameters 0 params
  return receiver ++ arguments

def closeScopes (kind : FunctionKind) : Lower Unit :=
  onScopes fun scopes => if kind.hasReceiver then scopes.pop.pop else scopes.pop

def leaveFunction (declaration count : Nat) (body : List Instr) (outer : FunctionState)
    (frame : Nat) : Lower (List Key) := do
  let inner := (← get).current
  modify fun l =>
    { l with
      unit := l.unit.define
        ⟨declaration, .words (count + 2), inner.references.map .own, .lowered ⟨inner.locals, body⟩⟩
      scopes := l.scopes.backTo frame
      current := outer }
  return inner.upvalues

def closureOf (name : String) (count declaration : Nat) (upvalues : List Key) : Lower Code := do
  let prototype ← onStore (·.addPrototype name count)
  refer declaration
  let cells ← cellsOf upvalues
  use .makeClosure
  return .closure declaration prototype cells

def function (name : Ident) (params : List String) (kind : FunctionKind)
    (body : Lower (List Instr)) : Lower Code := do
  checkCount params.length (.tooManyParameters name.line)
  let l ← get
  let declaration ← enterFunction name params.length kind
  let opening ← openScopes kind params
  let body ← body
  closeScopes kind
  let upvalues ← leaveFunction declaration params.length
    (opening ++ body ++ [.leave (bareReturn kind)]) l.current l.scopes.frame
  closureOf name.name params.length declaration upvalues

def declareClass (atTop : Bool) (name : String) : Lower (List Instr) :=
  if atTop then return [] else return [← declareLocal name (.constant .nil)]

def superclassVariable : Option (Lower Code) → Lower (List Instr × Option Nat)
  | none => return ([], none)
  | some superclass => do
    let code ← superclass
    let index ← newVariable
    return ([.evaluate (.assignVariable index code)], some index)

def nameClass (atTop : Bool) (key : Key) (name : String) (value : Code) : Lower Instr :=
  if atTop then defineGlobal name value else return .evaluate (← assignKey key value)

def classStart (name : String) (superclass : Option (Lower Code)) :
    Lower (List Instr × Option Nat × Nat) := do
  let l ← get
  let declared ← declareClass l.scopes.atTop name
  let (evaluated, superVariable) ← superclassVariable superclass
  let symbol ← onStore (·.intern name)
  use .newClass
  let classVariable ← newVariable
  let created := Instr.evaluate (.assignVariable classVariable (.newClass symbol superVariable))
  let named ← nameClass l.scopes.atTop l.scopes.nextKey name (.readVariable classVariable)
  return (declared ++ evaluated ++ [created, named], superVariable, classVariable)

def superScope (superVariable : Nat) : Lower Instr := do
  onScopes .push
  declareLocal "super" (.readVariable superVariable)

def addMethod (classVariable : Nat) (name : String) (method : Code) : Lower Instr := do
  let symbol ← onStore (·.intern name)
  use .addMethod
  return .addMethod classVariable symbol method

mutual

def stmt : Stmt → Lower (List Instr)
  | .expression e => do
    let value ← expr e
    return [← expression value]
  | .print e => do
    let value ← expr e
    use .print
    return [.print value]
  | .declare name initial => do
    let value ← expr? initial
    return [← declareVariable name value]
  | .block body => do
    onScopes .push
    let body ← stmts body
    onScopes .pop
    return body
  | .branch condition yes none => do
    let condition ← expr condition
    let yes ← stmt yes
    return [.branch condition yes []]
  | .branch condition yes (some no) => do
    let condition ← expr condition
    let yes ← stmt yes
    let no ← stmt no
    return [.branch condition yes no]
  | .loop condition body => do
    let condition ← expr condition
    let body ← stmt body
    return [.loop condition body]
  | .function (.mk name params body) => do
    if (← get).scopes.atTop then
      let closure ← function name params .function (stmts body)
      return [← defineGlobal name.name closure]
    else
      -- Declared ahead of its body, so that the function can call itself.
      let key := (← get).scopes.nextKey
      let declared ← declareLocal name.name (.constant .nil)
      let closure ← function name params .function (stmts body)
      return [declared, .evaluate (← assignKey key closure)]
  | .leave none => return [.leave (bareReturn (← get).current.kind)]
  | .leave (some e) => return [.leave (← expr e)]
  | .classDecl name none ms => do
    let (start, _, classVariable) ← classStart name none
    return start ++ (← methods classVariable ms)
  | .classDecl name (some superclass) ms => do
    let (start, superVariable, classVariable) ← classStart name (some (expr superclass))
    let declared ← superScope (superVariable.getD 0)
    let ms ← methods classVariable ms
    onScopes .pop
    return start ++ declared :: ms

def stmts : List Stmt → Lower (List Instr)
  | [] => return []
  | s :: rest => do
    let first ← stmt s
    return first ++ (← stmts rest)

def methods (classVariable : Nat) : List FunctionDecl → Lower (List Instr)
  | [] => return []
  | .mk name params body :: rest => do
    let closure ← function name params (.ofMethod name.name) (stmts body)
    let instr ← addMethod classVariable name.name closure
    return instr :: (← methods classVariable rest)

end

/-! ## 3. Units -/

def script (name : String) (program : Program) : Lower CodeUnit := do
  let declaration ← declare ⟨name, .exported, .words 0⟩
  use .stackOverflow
  let result ← newVariable
  let body ← stmts program
  let l ← get
  let lowered : Function :=
    { locals := l.current.locals
      body := .evaluate (.assignVariable result (.constant .nil)) :: body ++
        [.leave (.readVariable result)] }
  return l.unit.define ⟨declaration, .words 0, l.current.references.map .own, .lowered lowered⟩

end Lower

def Store.compile (s : Store) (name : String) (program : Program) :
    Except CompileError CodeUnit × Store :=
  match Capture.captures program with
  | .error e => (.error e, s)
  | .ok captured =>
    let start : Lowering := { store := s, unit := { name := name }, captured := captured }
    match Lower.script name program start with
    | .ok unit l => (.ok unit, l.store)
    | .error e l => (.error e, l.store)

def Store.compileExpr (s : Store) (name : String) (e : Expr) :
    Except CompileError CodeUnit × Store :=
  s.compile name [.expression e]

end ScriptMachine
