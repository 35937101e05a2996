/-
ScriptMachine.Proofs.Lowers.Logic — what holds of every computation of
lowering.
-/
import ScriptMachine.Lowering.Program

namespace ScriptMachine

mutual

def Stmt.functions : Stmt → List (String × Nat)
  | .block body => functionsOfAll body
  | .branch _ yes none => yes.functions
  | .branch _ yes (some no) => yes.functions ++ no.functions
  | .loop _ body => body.functions
  | .function decl => decl.functions
  | .classDecl _ _ methods => functionsOfMethods methods
  | _ => []

def functionsOfAll : List Stmt → List (String × Nat)
  | [] => []
  | s :: rest => s.functions ++ functionsOfAll rest

def FunctionDecl.functions : FunctionDecl → List (String × Nat)
  | .mk name params body => (name.name, params.length) :: functionsOfAll body

def functionsOfMethods : List FunctionDecl → List (String × Nat)
  | [] => []
  | m :: rest => m.functions ++ functionsOfMethods rest

end

def Lowering.withStore (l : Lowering) (s : Store) : Lowering := { l with store := s }

namespace Lower

structure Local {α : Type} (f : Lowering → α × Lowering) : Prop where
  store : ∀ l, (f l).2.store = l.store
  unit : ∀ l, (f l).2.unit = l.unit
  imports : ∀ l, (f l).2.imports = l.imports
  functions : ∀ l, (f l).2.functions = l.functions
  references : ∀ l, (f l).2.current.references = l.current.references
  blind : ∀ l s, f (l.withStore s) = ((f l).1, (f l).2.withStore s)

structure Steps (P : (α : Type) → Lower α → List (String × Nat) → Prop) : Prop where
  done : ∀ {α : Type} (a : α), P α (pure a) []
  fails : ∀ {α : Type} (e : CompileError), P α (throw e) []
  seq : ∀ {α β : Type} {x : Lower α} {f : α → Lower β} {fns more}, P α x fns →
    (∀ a, P β (f a) more) → P β (x >>= f) (fns ++ more)
  look : ∀ {β : Type} {f : Lowering → Lower β} {fns}, (∀ l, P β (f l) fns) →
    (∀ l s, f (l.withStore s) = f l) → P β (get >>= f) fns
  change : ∀ {α : Type} {f : Lowering → α × Lowering}, Local f → P α (modifyGet f) []
  uses : ∀ service, P Unit (use service) []
  name : ∀ name, P Symbol (onStore (·.intern name)) []
  slot : ∀ name, P Nat (onStore (·.globalSlot name)) []
  prototype : ∀ name arity, P Nat (onStore (·.addPrototype name arity)) []
  site : ∀ kind, P Nat (onStore (·.addSite kind)) []
  text : ∀ text, P Code (literal (.text text)) []

structure Logic (P : (α : Type) → Lower α → List (String × Nat) → Prop) : Prop extends Steps P where
  function : ∀ (name : Ident) (params : List String) (kind : FunctionKind)
    {body : Lower (List Instr)} {fns}, P _ body fns →
      P Code (function name params kind body) ((name.name, params.length) :: fns)

namespace Steps

variable {P : (α : Type) → Lower α → List (String × Nat) → Prop} (hP : Steps P) {α β : Type}
  {x : Lower α} {f : α → Lower β} {fns : List (String × Nat)}

include hP

theorem lead (hx : P α x []) (hf : ∀ a, P β (f a) fns) : P β (x >>= f) fns := hP.seq hx hf

theorem follow (hx : P α x fns) (hf : ∀ a, P β (f a) []) : P β (x >>= f) fns := by
  have h := hP.seq hx hf
  rwa [List.append_nil] at h

theorem result (hx : P α x fns) {g : α → β} : P β (x >>= fun a => pure (g a)) fns :=
  hP.follow hx fun _ => hP.done _

theorem served (service : Service) {a : α} :
    P α (do use service; return a) [] :=
  hP.result (hP.uses service)

theorem onScopes (g : Scopes → Scopes) : P Unit (onScopes g) [] :=
  hP.change ⟨fun _ => rfl, fun _ => rfl, fun _ => rfl, fun _ => rfl, fun _ => rfl, fun _ _ => rfl⟩

theorem newVariable : P Nat newVariable [] :=
  hP.change ⟨fun _ => rfl, fun _ => rfl, fun _ => rfl, fun _ => rfl, fun _ => rfl, fun _ _ => rfl⟩

theorem bindNext (storage : Storage) : P Unit (bindNext storage) [] :=
  hP.change ⟨fun _ => rfl, fun _ => rfl, fun _ => rfl, fun _ => rfl, fun _ => rfl, fun _ _ => rfl⟩

theorem useIf (cond : Bool) (service : Service) : P Unit (useIf cond service) [] := by
  unfold Lower.useIf
  split
  · exact hP.uses service
  · exact hP.done _

theorem resolve? (name : String) (depth : UInt64) : P (Option Key) (resolve? name depth) [] := by
  refine hP.look (fun l => ?_) fun _ _ => rfl
  split
  · exact hP.done _
  · exact hP.fails _

theorem bindingOf (key : Key) : P Binding (bindingOf key) [] := by
  refine hP.look (fun l => ?_) fun _ _ => rfl
  split
  · exact hP.done _
  · exact hP.fails _

theorem declareLocal (name : String) (value : Code) : P Instr (declareLocal name value) [] := by
  refine hP.lead hP.newVariable fun index => hP.look (fun l => ?_) fun _ _ => rfl
  exact hP.lead (hP.useIf _ _) fun _ => hP.lead (hP.bindNext _) fun _ => hP.result (hP.onScopes _)

theorem upvalue (key : Key) : P Nat (upvalue key) [] := by
  refine hP.look (fun l => ?_) fun _ _ => rfl
  split
  · exact hP.done _
  · exact hP.change
      ⟨fun _ => rfl, fun _ => rfl, fun _ => rfl, fun _ => rfl, fun _ => rfl, fun _ _ => rfl⟩

theorem cellOf (key : Key) : P CellRef (cellOf key) [] := by
  refine hP.lead (hP.bindingOf key) fun binding => ?_
  split
  · exact hP.fails _
  · refine hP.look (fun l => ?_) fun _ _ => rfl
    split
    · exact hP.done _
    · exact hP.lead (hP.upvalue key) fun _ => hP.served _

theorem cellsOf (keys : List Key) : P (List CellRef) (cellsOf keys) [] := by
  induction keys with
  | nil => exact hP.done _
  | cons key rest ih => exact hP.lead (hP.cellOf key) fun _ => hP.result ih

theorem ownVariable? (key : Key) : P (Option Nat) (ownVariable? key) [] := by
  refine hP.lead (hP.bindingOf key) fun binding => ?_
  split
  · exact hP.look (fun _ => hP.done _) fun _ _ => rfl
  · exact hP.done _

theorem readKey (key : Key) : P Code (readKey key) [] := by
  refine hP.lead (hP.ownVariable? key) fun own => ?_
  split
  · exact hP.done _
  · exact hP.lead (hP.cellOf key) fun _ => hP.served _

theorem assignKey (key : Key) (value : Code) : P Code (assignKey key value) [] := by
  refine hP.lead (hP.ownVariable? key) fun own => ?_
  split
  · exact hP.done _
  · exact hP.lead (hP.cellOf key) fun _ => hP.served _

theorem literal (value : Literal) : P Code (literal value) [] := by
  cases value with
  | nil | bool | number => exact hP.done _
  | text text => exact hP.text text

theorem found {name : String} {depth : UInt64} {g : Key → Lower α} {e : CompileError}
    (hg : ∀ key, P α (g key) []) :
    P α (do
      match ← Lower.resolve? name depth with
      | some key => g key
      | none => throw e) [] := by
  refine hP.lead (hP.resolve? _ _) fun key => ?_
  split
  · exact hg _
  · exact hP.fails _

theorem read (name : Ident) (target : Resolution) : P Code (read name target) [] := by
  cases target with
  | global => exact hP.lead (hP.slot _) fun _ => hP.served _
  | scope depth => exact hP.found hP.readKey

theorem assign (name : Ident) (value : Code) (target : Resolution) :
    P Code (assign name value target) [] := by
  cases target with
  | global => exact hP.lead (hP.slot _) fun _ => hP.served _
  | scope depth => exact hP.found fun key => hP.assignKey key value

theorem readImplicit (keyword : Ident) (name : String) (depth : UInt64) :
    P Code (readImplicit keyword name depth) [] :=
  hP.found hP.readKey

theorem self (keyword : Ident) (target : Resolution) : P Code (self keyword target) [] := by
  cases target with
  | global => exact hP.fails _
  | scope depth => exact hP.readImplicit _ _ _

theorem super (keyword : Ident) (method : String) (target : Resolution) :
    P Code (super keyword method target) [] := by
  cases target with
  | global => exact hP.fails _
  | scope depth =>
    rw [Lower.super]
    split
    · exact hP.fails _
    · exact hP.lead (hP.readImplicit _ _ _) fun _ => hP.lead (hP.readImplicit _ _ _) fun _ =>
        hP.lead (hP.name _) fun _ => hP.served _

theorem checkCount (count : Nat) (e : CompileError) : P Unit (checkCount count e) [] := by
  unfold Lower.checkCount
  split
  · exact hP.fails _
  · exact hP.done _

mutual

theorem expr : ∀ e : Expr, P Code (expr e) []
  | .literal value => by
    exact hP.literal value
  | .group inner => by
    exact expr inner
  | .unary .negate operand => by
    exact hP.lead (expr operand) fun _ => hP.served _
  | .unary .not operand => by
    exact hP.result (expr operand)
  | .binary op left right => by
    exact hP.lead (expr left) fun _ => hP.lead (expr right) fun _ => hP.served _
  | .logical op left right => by
    exact hP.lead (expr left) fun _ => hP.result (expr right)
  | .read name target => by
    exact hP.read name target
  | .assign name target value => by
    exact hP.lead (expr value) fun _ => hP.assign _ _ _
  | .call callee arguments line => by
    exact hP.lead (hP.checkCount _ _) fun _ => hP.lead (expr callee) fun _ =>
      hP.lead (exprs arguments) fun _ => hP.served _
  | .get object name => by
    exact hP.lead (expr object) fun _ => hP.lead (hP.site _) fun _ => hP.lead (hP.name _) fun _ =>
      hP.served _
  | .set object name value => by
    exact hP.lead (expr object) fun _ => hP.lead (expr value) fun _ => hP.lead (hP.site _) fun _ =>
      hP.lead (hP.name _) fun _ => hP.served _
  | .self keyword target => by
    exact hP.self keyword target
  | .super keyword method target => by
    exact hP.super keyword method target

theorem exprs : ∀ es : List Expr, P (List Code) (exprs es) []
  | [] => by
    exact hP.done _
  | e :: rest => by
    exact hP.lead (expr e) fun _ => hP.result (exprs rest)

end

theorem expr? (e : Option Expr) : P Code (expr? e) [] := by
  cases e with
  | none => exact hP.done _
  | some e => exact hP.expr e

theorem defineGlobal (name : String) (value : Code) : P Instr (defineGlobal name value) [] :=
  hP.lead (hP.slot _) fun _ => hP.served _

theorem declareVariable (name : String) (value : Code) :
    P Instr (declareVariable name value) [] := by
  refine hP.look (fun l => ?_) fun _ _ => rfl
  split
  · exact hP.defineGlobal _ _
  · exact hP.declareLocal _ _

theorem expression (value : Code) : P Instr (expression value) [] :=
  hP.look (fun _ => hP.done _) fun _ _ => rfl

theorem parameters (index : Nat) (names : List String) :
    P (List Instr) (parameters index names) [] := by
  induction names generalizing index with
  | nil => exact hP.done _
  | cons name rest ih => exact hP.lead (hP.declareLocal _ _) fun _ => hP.result (ih _)

theorem openScopes (kind : FunctionKind) (params : List String) :
    P (List Instr) (openScopes kind params) [] := by
  have hr : P (List Instr) (receiverScope kind) [] := by
    unfold receiverScope
    split
    · exact hP.lead (hP.onScopes _) fun _ => hP.result (hP.declareLocal _ _)
    · exact hP.done _
  exact hP.lead hr fun _ => hP.lead (hP.onScopes _) fun _ => hP.result (hP.parameters _ _)

theorem classStart (name : String) {sup : Option (Lower Code)}
    (hs : ∀ x ∈ sup, P Code x []) : P _ (classStart name sup) [] := by
  have hdec : ∀ atTop, P (List Instr) (declareClass atTop name) [] := by
    intro atTop
    unfold declareClass
    split
    · exact hP.done _
    · exact hP.result (hP.declareLocal _ _)
  have hvar : P _ (superclassVariable sup) [] := by
    cases sup with
    | none => exact hP.done _
    | some x => exact hP.lead (hs x rfl) fun _ => hP.result hP.newVariable
  have hn : ∀ atTop key value, P Instr (nameClass atTop key name value) [] := by
    intro atTop key value
    unfold nameClass
    split
    · exact hP.defineGlobal _ _
    · exact hP.result (hP.assignKey _ _)
  refine hP.look (fun l => ?_) fun _ _ => rfl
  exact hP.lead (hdec _) fun _ => hP.lead hvar fun _ => hP.lead (hP.name _) fun _ =>
    hP.lead (hP.uses _) fun _ => hP.lead hP.newVariable fun _ => hP.result (hn _ _ _)

theorem superScope (superVariable : Nat) : P Instr (superScope superVariable) [] :=
  hP.lead (hP.onScopes _) fun _ => hP.declareLocal _ _

theorem addMethod (classVariable : Nat) (name : String) (method : Code) :
    P Instr (addMethod classVariable name method) [] :=
  hP.lead (hP.name _) fun _ => hP.served _

end Steps

namespace Logic

variable {P : (α : Type) → Lower α → List (String × Nat) → Prop} (hP : Logic P)

include hP

mutual

theorem stmt : ∀ s : Stmt, P (List Instr) (stmt s) s.functions
  | .expression e => by
    exact hP.lead (hP.expr e) fun _ => hP.result (hP.expression _)
  | .print e => by
    exact hP.lead (hP.expr e) fun _ => hP.served _
  | .declare name initial => by
    exact hP.lead (hP.expr? initial) fun _ => hP.result (hP.declareVariable _ _)
  | .block body => by
    exact hP.lead (hP.onScopes _) fun _ => hP.follow (stmts body) fun _ => hP.result (hP.onScopes _)
  | .branch cond yes none => by
    exact hP.lead (hP.expr cond) fun _ => hP.result (stmt yes)
  | .branch cond yes (some no) => by
    exact hP.lead (hP.expr cond) fun _ => hP.seq (stmt yes) fun _ => hP.result (stmt no)
  | .loop cond body => by
    exact hP.lead (hP.expr cond) fun _ => hP.result (stmt body)
  | .function (.mk name params body) => by
    have hclo := hP.function name params .function (stmts body)
    refine hP.look (fun l => ?_) fun _ _ => rfl
    split
    · exact hP.follow hclo fun _ => hP.result (hP.defineGlobal _ _)
    · refine hP.look (fun l => ?_) fun _ _ => rfl
      exact hP.lead (hP.declareLocal _ _) fun _ => hP.follow hclo fun _ =>
        hP.result (hP.assignKey _ _)
  | .leave none => by
    exact hP.look (fun _ => hP.done _) fun _ _ => rfl
  | .leave (some e) => by
    exact hP.result (hP.expr e)
  | .classDecl name none ms => by
    exact hP.lead (hP.classStart name nofun) fun _ => hP.result (methods _ ms)
  | .classDecl name (some sup) ms => by
    have hs : ∀ x ∈ some (Lower.expr sup), P Code x [] := by
      rintro _ ⟨⟩
      exact hP.expr sup
    exact hP.lead (hP.classStart name hs) fun _ => hP.lead (hP.superScope _) fun _ =>
      hP.follow (methods _ ms) fun _ => hP.result (hP.onScopes _)

theorem stmts : ∀ ss : List Stmt, P (List Instr) (stmts ss) (functionsOfAll ss)
  | [] => by
    exact hP.done _
  | s :: rest => by
    exact hP.seq (stmt s) fun _ => hP.result (stmts rest)

theorem methods (classVariable : Nat) : ∀ ms : List FunctionDecl,
    P (List Instr) (methods classVariable ms) (functionsOfMethods ms)
  | [] => by
    exact hP.done _
  | .mk name params body :: rest => by
    exact hP.seq (hP.function name params _ (stmts body)) fun _ =>
      hP.lead (hP.addMethod _ _ _) fun _ => hP.result (methods classVariable rest)

end

end Logic

end Lower

end ScriptMachine
