/-
ScriptMachine.Lowering.Capture — which locals other functions refer to.
-/
import ScriptMachine.Lowering.Scope
import ScriptMachine.Tree.Program

namespace ScriptMachine.Capture

structure Walk where
  scopes : Scopes := {}
  captured : List Key := []

namespace Walk

def onScopes (walk : Walk) (f : Scopes → Scopes) : Walk := { walk with scopes := f walk.scopes }

def reference (walk : Walk) (name : String) : Resolution → Except CompileError Walk
  | .global => .ok walk
  | .scope depth => do
    match ← walk.scopes.resolve name depth with
    | some d =>
      return if d.frame = walk.scopes.frame then walk
        else { walk with captured := d.key :: walk.captured }
    | none => return walk

def superReference (walk : Walk) (target : Resolution) : Except CompileError Walk := do
  let walk ← walk.reference "super" target
  match target with
  | .global => return walk
  | .scope depth =>
    if depth = 0 then return walk else walk.reference "this" (.scope (depth - 1))

end Walk

mutual

def expr (walk : Walk) : Expr → Except CompileError Walk
  | .literal _ => .ok walk
  | .group e => expr walk e
  | .unary _ e => expr walk e
  | .binary _ l r => do expr (← expr walk l) r
  | .logical _ l r => do expr (← expr walk l) r
  | .read name target => walk.reference name.name target
  | .assign name target value => do (← expr walk value).reference name.name target
  | .call callee arguments _ => do exprs (← expr walk callee) arguments
  | .get object _ => expr walk object
  | .set object _ value => do expr (← expr walk object) value
  | .self _ target => walk.reference "this" target
  | .super _ _ target => walk.superReference target

def exprs (walk : Walk) : List Expr → Except CompileError Walk
  | [] => .ok walk
  | e :: rest => do exprs (← expr walk e) rest

end

def expr? (walk : Walk) : Option Expr → Except CompileError Walk
  | none => .ok walk
  | some e => expr walk e

mutual

def stmt (walk : Walk) : Stmt → Except CompileError Walk
  | .expression e => expr walk e
  | .print e => expr walk e
  | .declare name initial => do return (← expr? walk initial).onScopes (·.declare name)
  | .block body => do return (← stmts (walk.onScopes .push) body).onScopes .pop
  | .branch condition yes none => do stmt (← expr walk condition) yes
  | .branch condition yes (some no) => do stmt (← stmt (← expr walk condition) yes) no
  | .loop condition body => do stmt (← expr walk condition) body
  | .function decl => function (walk.onScopes (·.declare decl.name.name)) false decl
  | .leave value => expr? walk value
  | .classDecl name none ms => methods (walk.onScopes (·.declare name)) ms
  | .classDecl name (some superclass) ms => do
    let walk ← expr (walk.onScopes (·.declare name)) superclass
    let walk ← methods (walk.onScopes (·.push.declare "super")) ms
    return walk.onScopes .pop

def stmts (walk : Walk) : List Stmt → Except CompileError Walk
  | [] => .ok walk
  | s :: rest => do stmts (← stmt walk s) rest

def function (walk : Walk) (isMethod : Bool) : FunctionDecl → Except CompileError Walk
  | .mk _ params body => do
    let outer := walk.scopes.frame
    let walk := walk.onScopes fun scopes =>
      let scopes := scopes.enter
      let scopes := if isMethod then scopes.push.declare "this" else scopes
      params.foldl .declare scopes.push
    let walk ← stmts walk body
    return walk.onScopes fun scopes =>
      let scopes := scopes.pop
      let scopes := if isMethod then scopes.pop else scopes
      scopes.backTo outer

def methods (walk : Walk) : List FunctionDecl → Except CompileError Walk
  | [] => .ok walk
  | m :: rest => do methods (← function walk true m) rest

end

def captures (program : Program) : Except CompileError (List Key) := do
  return (← stmts {} program).captured

end ScriptMachine.Capture
