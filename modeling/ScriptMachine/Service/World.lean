/-
ScriptMachine.Service.World — several stores, of which one at a time is
served.
-/
import ScriptMachine.Service.Basic

namespace ScriptMachine

/-! ## 1. Requests -/

structure Service.Request where
  service : Service
  words : List Word := []
  cells : Array Word := #[]

structure Service.Reply where
  word : Word
  target : Option CallTarget := none

namespace Service.Request

def serve (request : Request) (s : Store) : Reply × Store :=
  let word (i : Nat) : Word := request.words[i]?.getD .zero
  match request.service with
  | .makeClosure =>
    let prototype := (word 0).bits.toNat % 0x100000000
    let (w, s) := Serve.makeClosure prototype (.address (word 1).bits) request.cells s
    ({ word := w }, s)
  | .prepareCall =>
    match Serve.prepareCall (word 0) (word 1).bits.toNat s with
    | (some target, s) => ({ word := target.entry.toWord, target := some target }, s)
    | (none, s) => ({ word := .zero }, s)
  | service =>
    let (w, s) := service.call request.words s
    ({ word := w }, s)

def idle (request : Request) : Reply := { word := request.service.idle }

end Service.Request

/-! ## 2. Worlds -/

structure World where
  stores : Array Store
  active : Option Nat := none
  guards : List (Option Nat) := []

namespace World

def activate (world : World) (i : Nat) : World :=
  { world with active := some i, guards := world.active :: world.guards }

def deactivate (world : World) : World :=
  match world.guards with
  | [] => world
  | previous :: rest => { world with active := previous, guards := rest }

def at? {α : Type} (world : World) (i : Nat) (f : Store → α × Store) : Option α × World :=
  match world.stores[i]? with
  | some s =>
    let (a, s) := f s
    (some a, { world with stores := world.stores.setIfInBounds i s })
  | none => (none, world)

def serve (world : World) (request : Service.Request) : Service.Reply × World :=
  match world.active with
  | some i =>
    let (reply, world) := world.at? i request.serve
    (reply.getD request.idle, world)
  | none => (request.idle, world)

inductive Call where
  | service (request : Service.Request)
  | clock
  | construct (callee receiver : Word)

def call (world : World) (now : Word) : Call → Service.Reply × World
  | .service request => world.serve request
  | .clock => ({ word := now }, world)
  | .construct _ receiver => ({ word := receiver }, world)

def drain (world : World) : String × World :=
  (world.stores.foldl (fun text s => text ++ s.printed) "",
   { world with stores := world.stores.map fun s => { s with printed := "" } })

end World

end ScriptMachine
