/-
ScriptMachine.Machine.Step — how lowered code runs.
-/
import ScriptMachine.Machine.Inline
import ScriptMachine.Machine.State

namespace ScriptMachine.Machine

/-! ## 1. Moving on -/

def give (m : Machine) (w : Word) : Machine := { m with control := .give w }

def leave (m : Machine) (w : Word) : Machine := { m with control := .leave w }

def evalFor (m : Machine) (task : Pending) (e : Code) : Machine :=
  { m with stack := task :: m.stack, control := .eval e }

def next (m : Machine) : Machine := { m with control := .run [] }

/-! ## 2. Routines -/

def serve (m : Machine) (host : Host) (routine : Store → Word × Store) : Word × Machine :=
  if host.attached then
    let (w, store) := routine m.store
    (w, { m with store := store })
  else (.nil, m)

def giveUnlessPending (m : Machine) (w : Word) : Machine :=
  if m.store.pending then m.leave .nil else m.give w

def checked (m : Machine) (host : Host) (routine : Store → Word × Store) : Machine :=
  let (w, m) := m.serve host routine
  m.giveUnlessPending w

def cellWord (m : Machine) (host : Host) : CellRef → Word
  | .own index => m.frame.value index
  | .captured index => (m.serve host (Serve.closureCell m.frame.closure index)).1

/-! ## 3. Calls -/

def enter (m : Machine) (host : Host) (frame : Frame) (f : Function) : Machine :=
  let depth := m.store.depth + 1
  let m :=
    { m with
      store := { m.store with depth := depth }
      frame := { frame with locals := Array.replicate f.locals .zero }
      stack := [] }
  if m.store.maxDepth < depth then (m.serve host Serve.stackOverflow).2.leave .nil
  else { m with control := .run f.body }

def callTarget (m : Machine) (host : Host) (target : CallTarget) (arguments : List Word) :
    Machine :=
  match target.entry with
  | .address n => if n = 0 then m.leave .nil else { m with control := .stopped (.strayed n) }
  | .clock => m.giveUnlessPending host.now
  | .construct => m.giveUnlessPending target.receiver
  | .compiled unit declaration =>
    match unit.function? declaration with
    | none => { m with control := .stopped (.strayed 0) }
    | some f =>
      let frame : Frame :=
        { unit := unit
          closure := target.closure
          receiver := target.receiver
          arguments := arguments }
      { m with callers := ⟨m.frame, m.stack⟩ :: m.callers }.enter host frame f

def call (m : Machine) (host : Host) (callee : Word) (arguments : List Word) : Machine :=
  if host.attached then
    let (target, store) := Serve.prepareCall callee arguments.length m.store
    let m := { m with store := store }
    match target with
    | some target => m.callTarget host target arguments
    | none => m.leave .nil
  else m.leave .nil

def callWith (m : Machine) (host : Host) (callee : Word) (done : List Word) :
    List Code → Machine
  | [] => m.call host callee done
  | e :: rest => m.evalFor (.argument callee done rest) e

def unwind (m : Machine) (w : Word) : Machine :=
  let m := { m with store := { m.store with depth := m.store.depth - 1 } }
  match m.callers with
  | [] => { m with control := .stopped (.returned w) }
  | caller :: rest =>
    { m with frame := caller.frame, stack := caller.stack, callers := rest }.giveUnlessPending w

/-! ## 4. Dispatch -/

def eval (m : Machine) (host : Host) : Code → Machine
  | .constant w => m.give w
  | .receiver => m.give m.frame.receiver
  | .argument index => m.give (m.frame.arguments[index]?.getD .zero)
  | .readVariable index => m.give (m.frame.value index)
  | .assignVariable index value => m.evalFor (.assignVariable index) value
  | .newCell value => m.evalFor .newCell value
  | .readCell cell =>
    let (w, m) := m.serve host (Serve.cellGet (m.cellWord host cell))
    m.give w
  | .assignCell cell value => m.evalFor (.assignCell cell) value
  | .readGlobal slot => m.checked host (Serve.globalGet slot)
  | .assignGlobal slot value => m.evalFor (.assignGlobal slot) value
  | .negate operand => m.evalFor .negate operand
  | .not operand => m.evalFor .not operand
  | .binary op left right => m.evalFor (.leftOperand op right) left
  | .logical op left right => m.evalFor (.logical op right) left
  | .call callee arguments => m.evalFor (.callee arguments) callee
  | .getProperty object name site => m.evalFor (.getProperty name site) object
  | .setProperty object name value site => m.evalFor (.setObject name value site) object
  | .getSuper superclass self name => m.evalFor (.superclass self name) superclass
  | .closure declaration prototype cells =>
    let words := cells.map (m.cellWord host)
    m.checked host
      (Serve.makeClosure prototype (.compiled m.frame.unit declaration) words.toArray)
  | .newClass name superclass =>
    m.checked host (Serve.newClass name (superclass.map m.frame.value))

def negate (m : Machine) (host : Host) (w : Word) : Machine :=
  if w.isPlain then m.give ⟨Number.flipSign w.bits⟩ else m.checked host (Serve.negate w)

def binary (m : Machine) (host : Host) (op : BinaryOp) (left right : Word) : Machine :=
  if left.isPlain && right.isPlain then m.give (Inline.binary op left.bits right.bits)
  else
    match op with
    | .equal =>
      let (w, m) := m.serve host (Serve.valuesEqual left right)
      m.give w
    | .notEqual =>
      let (w, m) := m.serve host (Serve.valuesEqual left right)
      m.give ⟨w.bits ^^^ 1⟩
    | op => m.checked host (Serve.binary op left right)

def getProperty (m : Machine) (host : Host) (object : Word) (name : Symbol) (site : Nat) :
    Machine :=
  match m.store.cached? object site with
  | some (i, slot) =>
    let (w, store) := m.store.getCached i slot site
    { m with store := store }.give w
  | none => m.checked host (Serve.getProperty object name site)

def setProperty (m : Machine) (host : Host) (object : Word) (name : Symbol) (value : Word)
    (site : Nat) : Machine :=
  match m.store.cached? object site with
  | some (i, slot) => { m with store := m.store.setCached object i slot value site }.give value
  | none => m.checked host (Serve.setProperty object name value site)

def receive (m : Machine) (host : Host) (w : Word) : Pending → Machine
  | .assignVariable index => { m with frame := m.frame.setVariable index w }.give w
  | .newCell => m.checked host (Serve.newCell w)
  | .assignCell cell => (m.serve host (Serve.cellSet (m.cellWord host cell) w)).2.give w
  | .assignGlobal slot => (m.serve host (Serve.globalSet slot w)).2.giveUnlessPending w
  | .negate => m.negate host w
  | .not => m.give (.ofBool w.isFalsy)
  | .leftOperand op right => m.evalFor (.rightOperand op w) right
  | .rightOperand op left => m.binary host op left w
  | .logical .and right => if w.isFalsy then m.give w else { m with control := .eval right }
  | .logical .or right => if w.isFalsy then { m with control := .eval right } else m.give w
  | .callee arguments => m.callWith host w [] arguments
  | .argument callee done rest => m.callWith host callee (done ++ [w]) rest
  | .getProperty name site => m.getProperty host w name site
  | .setObject name value site => m.evalFor (.setProperty w name site) value
  | .setProperty object name site => m.setProperty host object name w site
  | .superclass self name => m.evalFor (.superReceiver w name) self
  | .superReceiver superclass name => m.checked host (Serve.getSuper superclass w name)
  | .discard => m.next
  | .print => (m.serve host (Serve.print w)).2.next
  | .defineGlobal slot => (m.serve host (Serve.globalDefine slot w)).2.next
  | .branch yes no => { m with control := .run (if w.isFalsy then no else yes) }
  | .loopTest condition body =>
    if w.isFalsy then m.next
    else { m with stack := .again condition body :: m.stack, control := .run body }
  | .addMethod classVariable name =>
    (m.serve host (Serve.addMethod (m.frame.value classVariable) name w)).2.next
  | .leave => m.leave w
  | .rest code => { m with control := .run code }
  | .again condition body => m.evalFor (.loopTest condition body) condition

def exec (m : Machine) : Instr → Machine
  | .evaluate e => m.evalFor .discard e
  | .print e => m.evalFor .print e
  | .defineGlobal slot e => m.evalFor (.defineGlobal slot) e
  | .branch condition yes no => m.evalFor (.branch yes no) condition
  | .loop condition body => m.evalFor (.loopTest condition body) condition
  | .addMethod classVariable name method => m.evalFor (.addMethod classVariable name) method
  | .leave e => m.evalFor .leave e

def resume (m : Machine) (host : Host) : Machine :=
  match m.stack with
  | [] => m.leave .nil
  | task :: stack => { m with stack := stack }.receive host .nil task

def step (host : Host) (m : Machine) : Machine :=
  match m.control with
  | .stopped _ => m
  | .run [] => m.resume host
  | .run (i :: rest) => { m with stack := .rest rest :: m.stack }.exec i
  | .eval e => m.eval host e
  | .give w =>
    match m.stack with
    | [] => m.leave w
    | task :: stack => { m with stack := stack }.receive host w task
  | .leave w => m.unwind w

/-! ## 5. Runs -/

def stop? (m : Machine) : Option Stop :=
  match m.control with
  | .stopped stop => some stop
  | _ => none

def run (host : Host) : Nat → Machine → Machine
  | 0, m => m
  | fuel + 1, m => if m.stop?.isSome then m else run host fuel (m.step host)

def start (host : Host) (store : Store) (unit : CodeUnit) (f : Function) : Machine :=
  let m : Machine := { store := store, frame := { unit := unit }, control := .run [] }
  m.enter host { unit := unit } f

end ScriptMachine.Machine
