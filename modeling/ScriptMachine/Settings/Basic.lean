/-
ScriptMachine.Settings.Basic — what can be configured.
-/

namespace ScriptMachine

inductive OptLevel where
  | none
  | speed
  | speedAndSize
deriving DecidableEq

namespace OptLevel

def all : List OptLevel := [.none, .speed, .speedAndSize]

def name : OptLevel → String
  | .none => "none"
  | .speed => "speed"
  | .speedAndSize => "speed_and_size"

def ofName? (name : String) : Option OptLevel := all.find? (·.name == name)

def inspect : OptLevel → String
  | .none => "None"
  | .speed => "Speed"
  | .speedAndSize => "SpeedAndSize"

end OptLevel

structure Pipeline where
  optLevel : OptLevel := .speed
  verify : Bool := true
deriving DecidableEq

structure Flags where
  optLevel : String
  verifier : Bool
  canonicalNaN : Bool := true
  positionIndependent : Bool := false
  pointerBits : Nat := 64
deriving DecidableEq

def Pipeline.flags (pipeline : Pipeline) : Flags :=
  { optLevel := pipeline.optLevel.name, verifier := pipeline.verify }

structure EngineSettings where
  workers : UInt64 := 1
  optLevel : OptLevel := .speed
  verify : Bool := true
deriving DecidableEq

namespace EngineSettings

def pipeline (settings : EngineSettings) : Pipeline := ⟨settings.optLevel, settings.verify⟩

def inspect (settings : EngineSettings) : String :=
  "EngineConfig \x7b worker_threads: " ++ toString settings.workers ++ ", opt_level: " ++
    settings.optLevel.inspect ++ ", verify: " ++ toString settings.verify ++ " \x7d"

def render (settings : EngineSettings) : String :=
  "\x7b\"worker_threads\":" ++ toString settings.workers ++ ",\"opt_level\":\"" ++
    settings.optLevel.name ++ "\",\"verify\":" ++ toString settings.verify ++ "\x7d"

end EngineSettings

structure SessionSettings where
  engine : EngineSettings := {}
  maxCallDepth : UInt64 := 1024
deriving DecidableEq

namespace SessionSettings

def inspect (settings : SessionSettings) : String :=
  "SessionConfig \x7b engine: " ++ settings.engine.inspect ++ ", max_call_depth: " ++
    toString settings.maxCallDepth ++ " \x7d"

def render (settings : SessionSettings) : String :=
  "\x7b\"engine\":" ++ settings.engine.render ++ ",\"max_call_depth\":" ++
    toString settings.maxCallDepth ++ "\x7d"

end SessionSettings

end ScriptMachine
