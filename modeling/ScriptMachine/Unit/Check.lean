/-
ScriptMachine.Unit.Check — which units are well formed.
-/
import ScriptMachine.Unit.Basic

namespace ScriptMachine

inductive Malformed where
  | emptyName
  | declaredTwice (name : String)
  | undeclared (index : Nat)
  | importHasBody (name : String)
  | definedTwice (name : String)
  | otherSignature (name : String)
  | unknownReference (name : String) (reference : Reference)
  | rejected (name : String)
  | noBody (name : String)
deriving DecidableEq

def Malformed.message : Malformed → String
  | .emptyName => "empty symbol name"
  | .declaredTwice name => s!"'{name}' declared twice"
  | .undeclared index => s!"definition of undeclared function {index}"
  | .importHasBody name => s!"import '{name}' has a body"
  | .definedTwice name => s!"'{name}' defined twice"
  | .otherSignature name => s!"'{name}' does not match its signature"
  | .unknownReference name r =>
    "'" ++ name ++ "' references undeclared function " ++ toString r.space ++ ":" ++
      toString r.index
  | .rejected name => s!"'{name}': <verifier>"
  | .noBody name => s!"'{name}' has no body"

def Body.returns : Body → Bool
  | .noReturn => false
  | _ => true

abbrev Verifier := Definition → Bool

def Verifier.ofFlag (verify : Bool) : Verifier := fun f => !verify || f.body.returns

namespace CodeUnit

def checkNames (seen : List String) : List Declaration → Except Malformed Unit
  | [] => .ok ()
  | d :: rest =>
    if d.name = "" then .error .emptyName
    else if d.name ∈ seen then .error (.declaredTwice d.name)
    else checkNames (d.name :: seen) rest

def declares (unit : CodeUnit) (r : Reference) : Bool :=
  r.space == 0 && decide (r.index < unit.declarations.size)

def checkBody (unit : CodeUnit) (accepts : Verifier) (d : Declaration) (f : Definition) :
    Except Malformed Unit :=
  if f.signature ≠ d.signature then .error (.otherSignature d.name)
  else
    match f.references.find? (!unit.declares ·) with
    | some r => .error (.unknownReference d.name r)
    | none => if accepts f then .ok () else .error (.rejected d.name)

def checkDefinitions (unit : CodeUnit) (accepts : Verifier) (seen : List Nat) :
    List Definition → Except Malformed Unit
  | [] => .ok ()
  | f :: rest =>
    match unit.declarations[f.declaration]? with
    | none => .error (.undeclared f.declaration)
    | some d =>
      if d.linkage = .imported then .error (.importHasBody d.name)
      else if f.declaration ∈ seen then .error (.definedTwice d.name)
      else do
        unit.checkBody accepts d f
        checkDefinitions unit accepts (f.declaration :: seen) rest

def lacksBody (unit : CodeUnit) (d : Declaration) (index : Nat) : Bool :=
  d.linkage ≠ .imported && !unit.definitions.any (·.declaration = index)

def checkWith (unit : CodeUnit) (accepts : Verifier) : Except Malformed Unit := do
  checkNames [] unit.declarations.toList
  unit.checkDefinitions accepts [] unit.definitions.toList
  match unit.declarations.toList.zipIdx.find? fun (d, index) => unit.lacksBody d index with
  | some (d, _) => .error (.noBody d.name)
  | none => .ok ()

def check (unit : CodeUnit) (verify : Bool) : Except Malformed Unit :=
  unit.checkWith (.ofFlag verify)

end CodeUnit

end ScriptMachine
