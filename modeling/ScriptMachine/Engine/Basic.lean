/-
ScriptMachine.Engine.Basic — the engine: who owns which name, and how
far each unit has come.
-/
import ScriptMachine.Service.Basic
import ScriptMachine.Settings.Basic
import ScriptMachine.Unit.Check

namespace ScriptMachine

/-! ## 1. Host routines -/

inductive Routine where
  | service (s : Service)
  | clock
  | function (f : List Word → Word)

abbrev Routines := Table String Routine

def Routines.standard : Routines :=
  Service.all.map (fun s => (s.symbol, .service s)) ++ [("elx_clock", .clock)]

/-! ## 2. Errors -/

inductive Refusal where
  | noRoutine (name : String)
  | crashed
deriving DecidableEq

def Refusal.message : Refusal → String
  | .noRoutine name => s!"no host routine named '{name}'"
  | .crashed => "compiler panicked: <panic>"

inductive EngineError where
  | malformed (unit : String) (reason : Malformed)
  | duplicate (name : String)
  | unresolved (name : String)
  | failed (unit : String) (reason : Refusal)
deriving DecidableEq

def EngineError.message : EngineError → String
  | .malformed unit reason => s!"malformed compilation unit '{unit}': " ++ reason.message
  | .duplicate name => s!"duplicate symbol '{name}'"
  | .unresolved name => s!"unresolved symbol '{name}'"
  | .failed unit reason => s!"materializing unit '{unit}' failed: " ++ reason.message

/-! ## 3. State -/

inductive UnitStatus where
  | queued
  | ready
  | failed (reason : Refusal)
deriving DecidableEq

structure UnitRecord where
  name : String
  status : UnitStatus := .queued
deriving DecidableEq

structure EntryPoint where
  unit : CodeUnit
  declaration : Nat

inductive Export where
  | pending (owner : Nat)
  | ready (entry : EntryPoint)

structure EngineStats where
  submitted : Nat := 0
  materialized : Nat := 0
  failed : Nat := 0
  functions : Nat := 0
deriving DecidableEq

structure Job where
  id : Nat
  unit : CodeUnit

structure Engine where
  settings : EngineSettings := {}
  routines : Routines := .standard
  symbols : Table String Export := []
  units : Array UnitRecord := #[]
  stats : EngineStats := {}
  queue : List Job := []

namespace Engine

/-! ## 4. Single changes -/

def reserve (engine : Engine) (unit : CodeUnit) : Engine :=
  let id := engine.units.size
  { engine with
    units := engine.units.push { name := unit.name }
    symbols := unit.exports.foldl (fun t name => t.insert name (.pending id)) engine.symbols
    stats := { engine.stats with submitted := engine.stats.submitted + 1 } }

def registerWith (engine : Engine) (accepts : Verifier) (unit : CodeUnit) :
    Except EngineError (Job × Engine) :=
  match unit.checkWith accepts with
  | .error reason => .error (.malformed unit.name reason)
  | .ok () =>
    match unit.exports.find? fun name => (engine.symbols.get? name).isSome with
    | some name => .error (.duplicate name)
    | none => .ok (⟨engine.units.size, unit⟩, engine.reserve unit)

def register (engine : Engine) (unit : CodeUnit) : Except EngineError (Job × Engine) :=
  engine.registerWith (.ofFlag engine.settings.verify) unit

def enqueue (engine : Engine) (job : Job) : Engine :=
  { engine with queue := engine.queue ++ [job] }

def take (engine : Engine) : Option (Job × Engine) :=
  match engine.queue with
  | [] => none
  | job :: rest => some (job, { engine with queue := rest })

def prepare (routines : Routines) (unit : CodeUnit) : Except Refusal Unit :=
  let missing := unit.declarations.find? fun d =>
    d.linkage = .imported && (routines.get? d.name).isNone
  match missing with
  | some d => .error (.noRoutine d.name)
  | none => if unit.definitions.all (·.body.returns) then .ok () else .error .crashed

def entries (unit : CodeUnit) : List (String × EntryPoint) :=
  (unit.declarations.toList.zipIdx.filter (·.1.linkage = .exported)).map
    fun (d, index) => (d.name, ⟨unit, index⟩)

def setStatus (engine : Engine) (id : Nat) (status : UnitStatus) : Engine :=
  { engine with units := engine.units.modify id fun u => { u with status := status } }

def publish (engine : Engine) (job : Job) : Engine :=
  { engine.setStatus job.id .ready with
    symbols := (entries job.unit).foldl (fun t (name, e) => t.insert name (.ready e)) engine.symbols
    stats :=
      { engine.stats with
        materialized := engine.stats.materialized + 1
        functions := engine.stats.functions + job.unit.definitions.size } }

def fail (engine : Engine) (job : Job) (reason : Refusal) : Engine :=
  { engine.setStatus job.id (.failed reason) with
    stats := { engine.stats with failed := engine.stats.failed + 1 } }

def settle (engine : Engine) (job : Job) : Engine :=
  match prepare engine.routines job.unit with
  | .ok () => engine.publish job
  | .error reason => engine.fail job reason

def lookup (engine : Engine) (name : String) : Option (Except EngineError EntryPoint) :=
  match engine.symbols.get? name with
  | none => some (.error (.unresolved name))
  | some (.ready entry) => some (.ok entry)
  | some (.pending owner) =>
    match engine.units[owner]? with
    | some ⟨unit, .failed reason⟩ => some (.error (.failed unit reason))
    | _ => none

/-! ## 5. A single thread -/

def drain (engine : Engine) : Engine :=
  engine.queue.foldl settle { engine with queue := [] }

def submit (engine : Engine) (accepts : Verifier) (unit : CodeUnit) :
    Except EngineError Nat × Engine :=
  match engine.registerWith accepts unit with
  | .error e => (.error e, engine)
  | .ok (job, engine) => (.ok job.id, engine.enqueue job)

def add (engine : Engine) (unit : CodeUnit) : Except EngineError Nat × Engine :=
  match engine.submit (.ofFlag engine.settings.verify) unit with
  | (.error e, engine) => (.error e, engine)
  | (.ok id, engine) => (.ok id, engine.drain)

def resolve (engine : Engine) (name : String) : Except EngineError EntryPoint :=
  (engine.drain.lookup name).getD (.error (.unresolved name))

/-! ## 6. Diagnostics -/

def workers (engine : Engine) : Nat := max 1 engine.settings.workers.toNat

def target : String := "<triple> (64-bit, system_v)"

def inspect (engine : Engine) : String :=
  "Engine \x7b target: TargetDescription \x7b triple: \"<triple>\", pointer_bits: 64, " ++
    "call_conv: \"system_v\" \x7d, workers: " ++ toString engine.workers ++ " \x7d"

end Engine

end ScriptMachine
