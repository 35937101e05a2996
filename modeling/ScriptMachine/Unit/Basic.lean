/-
ScriptMachine.Unit.Basic — code units.
-/
import ScriptMachine.Code

namespace ScriptMachine

inductive Linkage where
  | imported
  | internal
  | exported
deriving DecidableEq

inductive Purpose where
  | normal
  | structArgument (size : UInt32)
  | structReturn
  | context
deriving DecidableEq

inductive Extension where
  | none
  | zero
  | sign
deriving DecidableEq

inductive MachineType where
  | integer (bits : Nat)
  | float (bits : Nat)
  | other (code : UInt16)
deriving DecidableEq

structure Passed where
  type : MachineType
  purpose : Purpose := .normal
  extension : Extension := .none
deriving DecidableEq

def Passed.word : Passed where
  type := .integer 64

inductive Convention where
  | fast
  | cold
  | tail
  | systemV
  | windowsFastcall
  | appleAarch64
  | probestack
  | winch
deriving DecidableEq

structure Signature where
  params : List Passed
  returns : List Passed
  convention : Convention := .systemV
deriving DecidableEq

def Signature.words (count : Nat) : Signature where
  params := .replicate count .word
  returns := [.word]

structure Declaration where
  name : String
  linkage : Linkage
  signature : Signature
deriving DecidableEq

structure Reference where
  space : Nat
  index : Nat
deriving DecidableEq

def Reference.own (index : Nat) : Reference := ⟨0, index⟩

inductive Body where
  | constant (w : Word)
  | parameter (index : Nat)
  | call (target : Reference) (arguments : List Word)
  | noReturn
  | lowered (function : Function)

structure Definition where
  declaration : Nat
  signature : Signature
  references : List Reference
  body : Body

structure CodeUnit where
  name : String
  declarations : Array Declaration := #[]
  definitions : Array Definition := #[]

namespace CodeUnit

def declare (unit : CodeUnit) (d : Declaration) : Nat × CodeUnit :=
  (unit.declarations.size, { unit with declarations := unit.declarations.push d })

def define (unit : CodeUnit) (d : Definition) : CodeUnit :=
  { unit with definitions := unit.definitions.push d }

def exports (unit : CodeUnit) : List String :=
  (unit.declarations.toList.filter (·.linkage = .exported)).map (·.name)

def body? (unit : CodeUnit) (declaration : Nat) : Option Body :=
  (unit.definitions.find? (·.declaration = declaration)).map (·.body)

def function? (unit : CodeUnit) (declaration : Nat) : Option Function :=
  match unit.body? declaration with
  | some (.lowered f) => some f
  | _ => none

end CodeUnit

end ScriptMachine
