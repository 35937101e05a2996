/-
ScriptMachine.Settings.Reader — configuration documents.
-/
import ScriptMachine.Settings.Basic
import ScriptMachine.Settings.Scanner

namespace ScriptMachine

structure Field (ρ : Type) where
  name : String
  read : ρ → Scan ρ

namespace Scan

/-! ## 1. Values of fields -/

def count : Scan UInt64 := do
  let c ← token
  let value ←
    if c = '-' then
      drop
      number true
    else if c.isDigit then number false
    else refuse
  match value with
  | some n => return n.toUInt64
  | none => throw .meaningless

def truth : Scan Bool := do
  match ← token with
  | 't' => drop; word ['r', 'u', 'e']; return true
  | 'f' => drop; word ['a', 'l', 's', 'e']; return false
  | _ => refuse

def levelNamed : Scan OptLevel := do
  match OptLevel.ofName? (← text) with
  | some level => return level
  | none => throw .meaningless

def level : Scan OptLevel := do
  match ← token with
  | '"' =>
    drop
    levelNamed
  | '\x7b' =>
    drop
    expect '"'
    let level ← levelNamed
    expect ':'
    if (← token) ≠ 'n' then refuse
    drop
    word ['u', 'l', 'l']
    expect '\x7d'
    return level
  | _ => throw .malformed

/-! ## 2. Records -/

def elements {ρ : Type} : Bool → List (Field ρ) → ρ → Scan ρ
  | _, [], record => do
    expect ']'
    return record
  | first, field :: rest, record => do
    if (← token) = ']' then
      drop
      return record
    if !first then
      expect ','
      if (← token) = ']' then throw .malformed
    elements false rest (← field.read record)

def member {ρ : Type} (fields : List (Field ρ)) (others : List String → ρ → Scan ρ)
    (seen : List String) (record : ρ) : Scan ρ := do
  expect '"'
  let key ← text
  match fields.find? (·.name == key) with
  | some field =>
    if seen.contains key then throw .meaningless
    expect ':'
    others (key :: seen) (← field.read record)
  | none =>
    expect ':'
    skipValue
    others seen record

def members {ρ : Type} (fields : List (Field ρ)) : Nat → Bool → List String → ρ → Scan ρ
  | 0, _, _, _ => throw .malformed
  | fuel + 1, first, seen, record => do
    if (← token) = '\x7d' then
      drop
      return record
    if !first then expect ','
    member fields (members fields fuel false) seen record

def record {ρ : Type} (fields : List (Field ρ)) (default : ρ) : Scan ρ := do
  match ← token with
  | '[' =>
    drop
    elements true fields default
  | '\x7b' =>
    drop
    members fields ((← get).length + 1) true [] default
  | _ => refuse

end Scan

/-! ## 3. Settings -/

def EngineSettings.fields : List (Field EngineSettings) :=
  [⟨"worker_threads", fun s => do return { s with workers := ← Scan.count }⟩,
   ⟨"opt_level", fun s => do return { s with optLevel := ← Scan.level }⟩,
   ⟨"verify", fun s => do return { s with verify := ← Scan.truth }⟩]

def SessionSettings.fields (default : EngineSettings) : List (Field SessionSettings) :=
  [⟨"engine", fun s => do return { s with engine := ← Scan.record EngineSettings.fields default }⟩,
   ⟨"max_call_depth", fun s => do return { s with maxCallDepth := ← Scan.count }⟩]

def SessionSettings.read (default : SessionSettings) (document : String) :
    Except Fault SessionSettings :=
  let scan : Scan SessionSettings := do
    let settings ← Scan.record (SessionSettings.fields default.engine) default
    match ← Scan.token? with
    | some _ => throw .malformed
    | none => return settings
  (scan.run document.toList).map (·.1)

end ScriptMachine
