/-
ScriptMachine.Proofs.Lexical.Interpreter — what programs mean.
-/
import ScriptMachine.Machine.State
import ScriptMachine.Proofs.Evolution

namespace ScriptMachine

/-- The cells a closure carries. -/
def Store.carried (s : Store) (closure : Word) : Array Word :=
  match s.heap.deref? closure with
  | some (.closure c) => c.cells
  | _ => #[]

namespace Lexical

/-! ## §1 Computations -/

/-- An environment: what its variables hold, and the environment around it. -/
structure Env where
  vars : Table String Word := []
  parent : Option Nat := none

/-- A function, with the environment it was made in. -/
structure Made where
  kind : FunctionKind
  decl : FunctionDecl
  env : Option Nat

/-- The state of the interpreter. Environments are never dropped; a function
that was made is found by the number in its object. -/
structure State where
  store : Store
  envs : Array Env := #[]
  functions : Array Made := #[]

/-- What ends a computation early. -/
inductive Exit where
  | returned (w : Word)
  | raised (e : Failure)
  | unfinished

variable {α β : Type}

def left : EStateM.Result Exit State α → State
  | .ok _ σ => σ
  | .error _ σ => σ

structure Interp (α : Type) where
  run : State → EStateM.Result Exit State α
  continues : ∀ σ : State, σ.store.Continues (left (run σ)).store

instance : Monad Interp where
  pure a := ⟨fun σ => .ok a σ, fun _ => .of_eq rfl⟩
  bind x f :=
    { run := fun σ =>
        match x.run σ with
        | .ok a σ => (f a).run σ
        | .error e σ => .error e σ
      continues := by
        intro σ
        have hx := x.continues σ
        cases h : x.run σ with
        | ok a σ' =>
          rw [h] at hx
          exact hx.trans ((f a).continues σ')
        | error e σ' =>
          rw [h] at hx
          exact hx }

def exit (e : Exit) : Interp α := ⟨fun σ => .error e σ, fun _ => .of_eq rfl⟩

def look (f : State → α) : Interp α := ⟨fun σ => .ok (f σ) σ, fun _ => .of_eq rfl⟩

def change (f : State → Array Env × Array Made) : Interp Unit :=
  ⟨fun σ => .ok () { σ with envs := (f σ).1, functions := (f σ).2 }, fun _ => .of_eq rfl⟩

def onStore (f : Store → Except Failure α × Store) (h : ∀ s : Store, s.Continues (f s).2) :
    Interp α where
  run σ :=
    match f σ.store with
    | (.ok a, s) => .ok a { σ with store := s }
    | (.error e, s) => .error (.raised e) { σ with store := s }
  continues σ := by
    have hs := h σ.store
    generalize f σ.store = r at hs
    obtain ⟨_ | _, s⟩ := r <;> exact hs

theorem continues_of_report {s : Store} {r : Except Failure Word × Store}
    (h : s.Continues (Serve.report r).2) : s.Continues r.2 := by
  obtain ⟨_ | _, _⟩ := r <;> exact h

/-! ## §2 Environments -/

def ancestor (envs : Array Env) (env : Option Nat) : Nat → Option Nat
  | 0 => env
  | depth + 1 =>
    match env with
    | some e => ancestor envs (envs[e]?.bind (·.parent)) depth
    | none => none

def value? (envs : Array Env) (e : Nat) (name : String) : Option Word :=
  envs[e]?.bind (·.vars.get? name)

def write (envs : Array Env) (e : Nat) (name : String) (w : Word) : Array Env :=
  envs.modify e fun env => { env with vars := env.vars.insert name w }

def openEnv (parent : Option Nat) : Interp Nat := do
  let e ← look (·.envs.size)
  change fun σ => (σ.envs.push { parent := parent }, σ.functions)
  return e

def put (e : Nat) (name : String) (w : Word) : Interp Unit :=
  change fun σ => (write σ.envs e name w, σ.functions)

def locate (env : Option Nat) (name : String) (depth : UInt64) : Interp (Nat × Word) := do
  let found ← look fun σ => do
    let e ← ancestor σ.envs env depth.toNat
    let w ← value? σ.envs e name
    return (e, w)
  match found with
  | some found => return found
  | none => exit (.raised (.undefinedVariable name))

def symbol (name : String) : Interp Symbol :=
  onStore (fun s => (.ok (s.intern name).1, (s.intern name).2)) fun s =>
    .of_eq (s.prepares_intern name).printed

def slot (name : String) : Interp Nat :=
  onStore (fun s => (.ok (s.globalSlot name).1, (s.globalSlot name).2)) fun s =>
    .of_eq (s.prepares_globalSlot name).printed

def defineSlot (slot : Nat) (w : Word) : Interp Unit :=
  onStore (fun s => (.ok (), s.putSlot slot w)) fun s =>
    (s.evolves_putSlot slot w fun _ => True).printed

def readSlot (slot : Nat) : Interp Word :=
  onStore (fun s => (s.getGlobal slot, s)) fun _ => .of_eq rfl

def assignSlot (slot : Nat) (w : Word) : Interp Word :=
  onStore (·.setGlobal slot w) fun _ =>
    continues_of_report (Serve.evolves_globalSet slot w fun _ => True).printed

def define (name : String) (w : Word) : Interp Unit := do defineSlot (← slot name) w

def declare (env : Option Nat) (name : String) (w : Word) : Interp Unit :=
  match env with
  | none => define name w
  | some e => put e name w

def read (env : Option Nat) (name : String) : Resolution → Interp Word
  | .global => do readSlot (← slot name)
  | .scope depth => do return (← locate env name depth).2

def assign (env : Option Nat) (name : String) (w : Word) : Resolution → Interp Word
  | .global => do assignSlot (← slot name) w
  | .scope depth => do
    put (← locate env name depth).1 name w
    return w

/-! ## §3 Expressions -/

def literal : Literal → Interp Word
  | .nil => return .nil
  | .bool b => return .ofBool b
  | .number bits => return .ofNumber bits
  | .text text =>
    onStore (fun s => ((s.internText text).1.mapError .heap, (s.internText text).2)) fun s =>
      .of_eq (s.prepares_internText text).printed

def negate (w : Word) : Interp Word :=
  if w.isPlain then return ⟨Number.flipSign w.bits⟩
  else onStore (fun s => (Store.negate w, s)) fun _ => .of_eq rfl

def binary (op : BinaryOp) (left right : Word) : Interp Word :=
  onStore (·.binary op left right) fun _ =>
    continues_of_report (Serve.evolves_binary op left right).printed

def getSymbol (object : Word) (symbol : Symbol) : Interp Word :=
  onStore (fun s => s.getProperty object symbol s.sites.size) fun s =>
    continues_of_report (Serve.evolves_getProperty object symbol s.sites.size).printed

def setSymbol (object : Word) (symbol : Symbol) (w : Word) : Interp Word :=
  onStore (fun s => s.setProperty object symbol w s.sites.size) fun s =>
    continues_of_report (Serve.evolves_setProperty object symbol w s.sites.size fun _ =>
      True).printed

def superSymbol (sup recv : Word) (symbol : Symbol) : Interp Word :=
  onStore (·.getSuper sup recv symbol) fun _ =>
    continues_of_report (Serve.evolves_getSuper sup recv symbol).printed

def getSuper (env : Option Nat) (method : String) (depth : UInt64) : Interp Word := do
  let sup ← locate env "super" depth
  let recv ← locate env "this" (depth - 1)
  superSymbol sup.2 recv.2 (← symbol method)

mutual

def eval (call : Word → List Word → Interp Word) (env : Option Nat) : Expr → Interp Word
  | .literal value => literal value
  | .group inner => eval call env inner
  | .unary .negate operand => do negate (← eval call env operand)
  | .unary .not operand => do return .ofBool (← eval call env operand).isFalsy
  | .binary op left right => do
    let l ← eval call env left
    let r ← eval call env right
    binary op l r
  | .logical .and left right => do
    let l ← eval call env left
    if l.isFalsy then return l else eval call env right
  | .logical .or left right => do
    let l ← eval call env left
    if l.isFalsy then eval call env right else return l
  | .read name target => read env name.name target
  | .assign name target value => do
    let w ← eval call env value
    assign env name.name w target
  | .call callee args _ => do
    let f ← eval call env callee
    let ws ← evalAll call env args
    call f ws
  | .get object name => do
    let o ← eval call env object
    getSymbol o (← symbol name)
  | .set object name value => do
    let o ← eval call env object
    let w ← eval call env value
    setSymbol o (← symbol name) w
  | .self _ target => read env "this" target
  | .super _ method (.scope depth) => getSuper env method depth
  | .super keyword _ .global => exit (.raised (.undefinedVariable keyword.name))

def evalAll (call : Word → List Word → Interp Word) (env : Option Nat) :
    List Expr → Interp (List Word)
  | [] => return []
  | e :: rest => do
    let w ← eval call env e
    return w :: (← evalAll call env rest)

end

def eval? (call : Word → List Word → Interp Word) (env : Option Nat) : Option Expr → Interp Word
  | none => return .nil
  | some e => eval call env e

/-! ## §4 Statements -/

def iterate (test : Interp Word) (body : Word → Interp Word) : Nat → Word → Interp Word
  | 0, _ => exit .unfinished
  | fuel + 1, last => do
    if (← test).isFalsy then return last else iterate test body fuel (← body last)

def announce (env : Option Nat) (name : String) : Interp Unit :=
  match env with
  | none => return ()
  | some e => put e name .nil

def make (kind : FunctionKind) (decl : FunctionDecl) (env : Option Nat) : Interp Word := do
  let name ← symbol decl.name.name
  let number ← look (·.functions.size)
  let w ← onStore (·.alloc (.closure ⟨name, decl.params.length, .address (.ofNat number), #[]⟩))
    fun s => (s.evolves_alloc _).printed
  change fun σ => (σ.envs, σ.functions.push ⟨kind, decl, env⟩)
  return w

def newClass (symbol : Symbol) (sup : Option Word) : Interp Word :=
  onStore (·.newClass symbol sup) fun _ =>
    continues_of_report (Serve.evolves_newClass symbol sup).printed

def makeClass (env : Option Nat) (name : String) (sup : Option Word) : Interp Word := do
  let c ← newClass (← symbol name) sup
  declare env name c
  return c

def addMethod (c : Word) (symbol : Symbol) (f : Word) : Interp Unit :=
  onStore (fun s => (.ok (), s.addMethod c symbol f)) fun _ =>
    (Serve.evolves_addMethod c symbol f fun _ => True).printed

def addMethods (env : Option Nat) (c : Word) : List FunctionDecl → Interp Unit
  | [] => return ()
  | decl :: rest => do
    let f ← make (.ofMethod decl.name.name) decl env
    addMethod c (← symbol decl.name.name) f
    addMethods env c rest

def print (w : Word) : Interp Unit :=
  onStore (fun s => (.ok (), s.print w)) fun _ => (Serve.evolves_print w fun _ => True).printed

section

variable (fuel : Nat) (call : Word → List Word → Interp Word) (bare : Word)

mutual

def exec (env : Option Nat) : Stmt → Word → Interp Word
  | .expression e, last => do
    let w ← eval call env e
    return if env.isNone then w else last
  | .print e, last => do
    print (← eval call env e)
    return last
  | .declare name initial, last => do
    declare env name (← eval? call env initial)
    return last
  | .block body, last => do
    let inner ← openEnv env
    execAll (some inner) body last
  | .branch cond yes none, last => do
    if (← eval call env cond).isFalsy then return last else exec env yes last
  | .branch cond yes (some no), last => do
    if (← eval call env cond).isFalsy then exec env no last else exec env yes last
  | .loop cond body, last => iterate (eval call env cond) (exec env body) fuel last
  | .function decl, last => do
    announce env decl.name.name
    declare env decl.name.name (← make .function decl env)
    return last
  | .leave none, _ => exit (.returned bare)
  | .leave (some e), _ => do exit (.returned (← eval call env e))
  | .classDecl name none methods, last => do
    announce env name
    let c ← makeClass env name none
    addMethods env c methods
    return last
  | .classDecl name (some sup) methods, last => do
    announce env name
    let parent ← eval call env sup
    let c ← makeClass env name (some parent)
    let inner ← openEnv env
    put inner "super" parent
    addMethods (some inner) c methods
    return last

def execAll (env : Option Nat) : List Stmt → Word → Interp Word
  | [], last => return last
  | s :: rest, last => do execAll env rest (← exec env s last)

end

end

/-! ## §5 Code

What a function that was there before does. Its frame is handed from one step
to the next and changes when a variable is assigned; `cells` are the cells its
closure carries. -/

def cellOf (cells : Array Word) (frame : Frame) : CellRef → Word
  | .own index => frame.value index
  | .captured index => cells[index]?.getD .nil

def makeClosure (prototype : Nat) (entry : Entry) (words : Array Word) : Interp Word :=
  onStore (·.makeClosure prototype entry words) fun _ =>
    continues_of_report (Serve.evolves_makeClosure prototype entry words).printed

section

variable (call : Word → List Word → Interp Word) (cells : Array Word)

mutual

def evalCode : Code → Frame → Interp (Word × Frame)
  | .constant w, frame => return (w, frame)
  | .receiver, frame => return (frame.receiver, frame)
  | .argument index, frame => return (frame.arguments[index]?.getD .zero, frame)
  | .readVariable index, frame => return (frame.value index, frame)
  | .assignVariable index value, frame => do
    let (w, frame) ← evalCode value frame
    return (w, frame.setVariable index w)
  | .newCell value, frame => do
    let (w, frame) ← evalCode value frame
    return (← onStore (·.newCell w) fun s => (s.evolves_alloc _).printed, frame)
  | .readCell cell, frame => do
    return (← look (·.store.cellValue (cellOf cells frame cell)), frame)
  | .assignCell cell value, frame => do
    let (w, frame) ← evalCode value frame
    onStore (fun s => (.ok (), s.setCell (cellOf cells frame cell) w)) fun _ => .of_eq rfl
    return (w, frame)
  | .readGlobal slot, frame => do return (← readSlot slot, frame)
  | .assignGlobal slot value, frame => do
    let (w, frame) ← evalCode value frame
    return (← assignSlot slot w, frame)
  | .negate operand, frame => do
    let (w, frame) ← evalCode operand frame
    return (← negate w, frame)
  | .not operand, frame => do
    let (w, frame) ← evalCode operand frame
    return (.ofBool w.isFalsy, frame)
  | .binary op left right, frame => do
    let (l, frame) ← evalCode left frame
    let (r, frame) ← evalCode right frame
    return (← binary op l r, frame)
  | .logical .and left right, frame => do
    let (l, frame) ← evalCode left frame
    if l.isFalsy then return (l, frame) else evalCode right frame
  | .logical .or left right, frame => do
    let (l, frame) ← evalCode left frame
    if l.isFalsy then evalCode right frame else return (l, frame)
  | .call callee args, frame => do
    let (f, frame) ← evalCode callee frame
    let (ws, frame) ← evalCodes args frame
    return (← call f ws, frame)
  | .getProperty object name _, frame => do
    let (o, frame) ← evalCode object frame
    return (← getSymbol o name, frame)
  | .setProperty object name value _, frame => do
    let (o, frame) ← evalCode object frame
    let (w, frame) ← evalCode value frame
    return (← setSymbol o name w, frame)
  | .getSuper sup self name, frame => do
    let (c, frame) ← evalCode sup frame
    let (w, frame) ← evalCode self frame
    return (← superSymbol c w name, frame)
  | .closure declaration prototype captured, frame => do
    let words := (captured.map (cellOf cells frame)).toArray
    return (← makeClosure prototype (.compiled frame.unit declaration) words, frame)
  | .newClass name sup, frame => do
    return (← newClass name (sup.map frame.value), frame)

def evalCodes : List Code → Frame → Interp (List Word × Frame)
  | [], frame => return ([], frame)
  | e :: rest, frame => do
    let (w, frame) ← evalCode e frame
    let (ws, frame) ← evalCodes rest frame
    return (w :: ws, frame)

end

def iterateCode (test : Frame → Interp (Word × Frame)) (body : Frame → Interp Frame) :
    Nat → Frame → Interp Frame
  | 0, _ => exit .unfinished
  | fuel + 1, frame => do
    let (w, frame) ← test frame
    if w.isFalsy then return frame else iterateCode test body fuel (← body frame)

variable (fuel : Nat)

mutual

def execCode : Instr → Frame → Interp Frame
  | .evaluate e, frame => do return (← evalCode call cells e frame).2
  | .print e, frame => do
    let (w, frame) ← evalCode call cells e frame
    print w
    return frame
  | .defineGlobal slot e, frame => do
    let (w, frame) ← evalCode call cells e frame
    defineSlot slot w
    return frame
  | .branch cond yes no, frame => do
    let (w, frame) ← evalCode call cells cond frame
    if w.isFalsy then runCode no frame else runCode yes frame
  | .loop cond body, frame =>
    iterateCode (evalCode call cells cond) (runCode body) fuel frame
  | .addMethod classVariable name method, frame => do
    let (w, frame) ← evalCode call cells method frame
    addMethod (frame.value classVariable) name w
    return frame
  | .leave e, frame => do exit (.returned (← evalCode call cells e frame).1)

def runCode : List Instr → Frame → Interp Frame
  | [], frame => return frame
  | i :: rest, frame => do runCode rest (← execCode i frame)

end

end

/-! ## §6 Calls -/

def atDepth (body : Interp Word) : Interp Word where
  run σ :=
    let deeper := { σ with store := { σ.store with depth := σ.store.depth + 1 } }
    let back := fun σ : State => { σ with store := { σ.store with depth := σ.store.depth - 1 } }
    if σ.store.maxDepth < σ.store.depth + 1 then .error (.raised .stackOverflow) (back deeper)
    else
      match body.run deeper with
      | .ok w σ => .ok w (back σ)
      | .error e σ => .error e (back σ)
  continues σ := by
    dsimp only
    split
    · exact .of_eq rfl
    · have hb := body.continues { σ with store := { σ.store with depth := σ.store.depth + 1 } }
      split <;> next heq => rw [heq] at hb; exact hb

def returning (otherwise : α → Word) (body : Interp α) : Interp Word where
  run σ :=
    match body.run σ with
    | .ok a σ => .ok (otherwise a) σ
    | .error (.returned w) σ => .ok w σ
    | .error e σ => .error e σ
  continues σ := by
    have hb := body.continues σ
    split <;> next heq => rw [heq] at hb; exact hb

def bindAll (e : Nat) : List String → List Word → Interp Unit
  | name :: names, w :: ws => do
    put e name w
    bindAll e names ws
  | _, _ => return ()

def openCall (made : Made) (recv : Word) (args : List Word) : Interp Nat := do
  let around ← if made.kind.hasReceiver then do
      let this ← openEnv made.env
      put this "this" recv
      pure (some this)
    else pure made.env
  let e ← openEnv around
  bindAll e made.decl.params args
  return e

def bareReturn (kind : FunctionKind) (recv : Word) : Word :=
  if kind = .initializer then recv else .nil

def invoke (now : Word) : Nat → Word → List Word → Interp Word
  | 0, _, _ => exit .unfinished
  | fuel + 1, callee, args => do
    let target ← onStore (·.prepareCall callee args.length) fun s =>
      (s.evolves_prepareCall callee args.length).printed
    match target.entry with
    | .clock => return now
    | .construct => return target.receiver
    | .address number =>
      match ← look (·.functions[number.toNat]?) with
      | none => exit (.raised (.notCallable target.closure.tag))
      | some made =>
        let bare := bareReturn made.kind target.receiver
        atDepth do
          let e ← openCall made target.receiver args
          returning (fun _ => bare)
            (execAll fuel (invoke now fuel) bare (some e) made.decl.body .nil)
    | .compiled unit declaration =>
      match unit.function? declaration with
      | none => exit (.raised (.notCallable target.closure.tag))
      | some f =>
        let cells ← look (·.store.carried target.closure)
        atDepth (returning (fun _ => .nil) (runCode (invoke now fuel) cells fuel f.body
          ⟨unit, target.closure, target.receiver, args, .replicate f.locals .zero⟩))

/-- Runs a program: the value of the last expression statement that was
executed at top level, or nil. The numbers of all it mentions are issued
first. -/
def interpret (now : Word) (fuel : Nat) (program : Program) : Interp Word := do
  onStore (fun s => (.ok (), s.mentionAll program.mentions)) fun s =>
    .of_eq (s.prepares_mentionAll program.mentions).printed
  atDepth (returning id (execAll fuel (invoke now fuel) .nil none program .nil))

end Lexical

end ScriptMachine
