/-
ScriptMachine.Proofs.Duties — what a program is checked for, in order.
-/
import ScriptMachine.Proofs.Scoping

namespace ScriptMachine

def Nest.holds (nest : Nest) (name : String) (depth : UInt64) : Bool :=
  nest[depth.toNat]?.any (·.contains name)

theorem Nest.holds_iff {nest : Nest} {name : String} {depth : UInt64} :
    nest.holds name depth ↔ nest.Holds name depth := by
  simp [holds, Holds, Option.any_eq_true]

/-- Something a program is checked for. -/
inductive Duty where
  | reach (use : Use) (line : Nat)
  | receiver (use : Use) (keyword : Ident)
  | check (holds : Bool) (e : CompileError)

namespace Duty

def met : Duty → Bool
  | .reach use _ | .receiver use _ => use.scopes.nest.holds use.name use.depth
  | .check holds _ => holds

/-- The error that is reported if a duty is not met. -/
def error : Duty → CompileError
  | .reach use line => .unresolvedLocal use.name use.depth line
  | .receiver _ keyword => .invalidReceiver keyword.name keyword.line
  | .check _ e => e

/-- The local reference a duty is about. -/
def use? : Duty → Option Use
  | .reach use _ | .receiver use _ => some use
  | .check _ _ => none

def noReceiver (keyword : Ident) : Duty :=
  .check false (.invalidReceiver keyword.name keyword.line)

end Duty

/-- The first duty that is not met. -/
def unmet? (duties : List Duty) : Option Duty := duties.find? (!·.met)

def Resolution.duties (sc : Scopes) (name : Ident) : Resolution → List Duty
  | .global => []
  | .scope depth => [.reach ⟨sc, name.name, depth⟩ name.line]

def Resolution.selfDuties (sc : Scopes) (keyword : Ident) : Resolution → List Duty
  | .global => [.noReceiver keyword]
  | .scope depth => [.receiver ⟨sc, "this", depth⟩ keyword]

def Resolution.superDuties (sc : Scopes) (keyword : Ident) : Resolution → List Duty
  | .global => [.noReceiver keyword]
  | .scope depth =>
    if depth = 0 then [.noReceiver keyword]
    else [.receiver ⟨sc, "super", depth⟩ keyword, .receiver ⟨sc, "this", depth - 1⟩ keyword]

mutual

def Expr.duties (sc : Scopes) : Expr → List Duty
  | .literal _ => []
  | .group inner | .unary _ inner | .get inner _ => inner.duties sc
  | .binary _ left right | .logical _ left right | .set left _ right =>
    left.duties sc ++ right.duties sc
  | .read name target => target.duties sc name
  | .assign name target value => value.duties sc ++ target.duties sc name
  | .call callee arguments line =>
    .check (arguments.length ≤ maxArity) (.tooManyArguments line) ::
      (callee.duties sc ++ dutiesOfArguments sc arguments)
  | .self keyword target => target.selfDuties sc keyword
  | .super keyword _ target => target.superDuties sc keyword

def dutiesOfArguments (sc : Scopes) : List Expr → List Duty
  | [] => []
  | e :: rest => e.duties sc ++ dutiesOfArguments sc rest

end

def dutiesOfInitial (sc : Scopes) : Option Expr → List Duty
  | none => []
  | some e => e.duties sc

mutual

def Stmt.duties (sc : Scopes) : Stmt → List Duty
  | .expression e | .print e => e.duties sc
  | .declare _ value | .leave value => dutiesOfInitial sc value
  | .block body => dutiesOfAll sc.push body
  | .branch cond body none | .loop cond body =>
    cond.duties sc ++ body.duties sc
  | .branch cond yes (some no) =>
    cond.duties sc ++ (yes.duties sc ++ no.duties (yes.walk sc))
  | .function decl => decl.duties false (sc.declare decl.name.name)
  | .classDecl name none methods => dutiesOfMethods (sc.declare name) methods
  | .classDecl name (some superclass) methods =>
    superclass.duties (sc.declare name) ++
      dutiesOfMethods ((sc.declare name).push.declare "super") methods

def dutiesOfAll (sc : Scopes) : List Stmt → List Duty
  | [] => []
  | s :: rest => s.duties sc ++ dutiesOfAll (s.walk sc) rest

def FunctionDecl.duties (isMethod : Bool) (sc : Scopes) : FunctionDecl → List Duty
  | .mk name params body => .check (params.length ≤ maxArity) (.tooManyParameters name.line) ::
      dutiesOfAll (sc.openFunction isMethod params) body

def dutiesOfMethods (sc : Scopes) : List FunctionDecl → List Duty
  | [] => []
  | m :: rest => m.duties true sc ++ dutiesOfMethods (m.walk true sc) rest

end

/-- Everything a program is checked for. -/
def Program.duties (program : Program) : List Duty := dutiesOfAll {} program

def Met (duties : List Duty) : Prop := ∀ d ∈ duties, d.met

@[simp] theorem met_nil : Met [] := nofun

@[simp] theorem met_append {duties more : List Duty} :
    Met (duties ++ more) ↔ Met duties ∧ Met more := List.forall_mem_append

@[simp] theorem met_cons {d : Duty} {duties : List Duty} :
    Met (d :: duties) ↔ d.met ∧ Met duties := List.forall_mem_cons

theorem unmet?_append (duties more : List Duty) :
    unmet? (duties ++ more) = (unmet? duties).or (unmet? more) := List.find?_append

theorem unmet?_eq_none {duties : List Duty} : unmet? duties = none ↔ Met duties := by
  simp [unmet?, Met]

theorem Resolution.met_duties {sc : Scopes} {name : Ident} {target : Resolution} :
    Met (target.duties sc name) ↔ target.WellScoped sc.nest name.name := by
  cases target <;> simp [Resolution.duties, Resolution.WellScoped, Duty.met, Nest.holds_iff]

mutual

theorem Expr.met_duties {sc : Scopes} : ∀ e : Expr, Met (e.duties sc) ↔ e.WellScoped sc.nest
  | .literal _ => by simp [Expr.duties, Expr.WellScoped]
  | .group inner | .unary _ inner | .get inner _ => inner.met_duties
  | .binary _ left right | .logical _ left right | .set left _ right => by
    simp [Expr.duties, Expr.WellScoped, left.met_duties, right.met_duties]
  | .read name target => Resolution.met_duties
  | .assign name target value => by
    simp [Expr.duties, Expr.WellScoped, value.met_duties, Resolution.met_duties]
  | .call callee arguments _ => by
    simp [Expr.duties, Expr.WellScoped, Duty.met, callee.met_duties, met_arguments arguments]
  | .self keyword target => by
    cases target <;> simp [Expr.duties, Expr.WellScoped, Resolution.selfDuties, Duty.noReceiver,
      Duty.met, Nest.holds_iff]
  | .super keyword _ target => by
    cases target with
    | global =>
      simp [Expr.duties, Expr.WellScoped, Resolution.superDuties, Duty.noReceiver, Duty.met]
    | scope depth =>
      by_cases hd : depth = 0 <;> simp [Expr.duties, Expr.WellScoped, Resolution.superDuties,
        Duty.noReceiver, Duty.met, Nest.holds_iff, hd]

theorem met_arguments {sc : Scopes} : ∀ es : List Expr,
    Met (dutiesOfArguments sc es) ↔ wellScopedArguments sc.nest es
  | [] => by simp [dutiesOfArguments, wellScopedArguments]
  | e :: rest => by
    simp [dutiesOfArguments, wellScopedArguments, e.met_duties, met_arguments rest]

end

theorem met_initial {sc : Scopes} (e : Option Expr) :
    Met (dutiesOfInitial sc e) ↔ wellScopedInitial sc.nest e := by
  cases e with
  | none => simp [dutiesOfInitial, wellScopedInitial]
  | some e => exact e.met_duties

mutual

theorem Stmt.met_duties : ∀ (s : Stmt) {sc : Scopes}, Met (s.duties sc) ↔ s.WellScoped sc.nest
  | .expression e, _ | .print e, _ => e.met_duties
  | .declare _ value, _ | .leave value, _ => met_initial value
  | .block body, sc => met_all body
  | .branch cond body none, _ | .loop cond body, _ => by
    simp [Stmt.duties, Stmt.WellScoped, cond.met_duties, body.met_duties]
  | .branch cond yes (some no), _ => by
    simp [Stmt.duties, Stmt.WellScoped, cond.met_duties, yes.met_duties, no.met_duties,
      yes.nest_walk]
  | .function decl, sc => by
    simp [Stmt.duties, Stmt.WellScoped, decl.met_duties false, Scopes.nest_declare]
  | .classDecl name none methods, _ => by
    simp [Stmt.duties, Stmt.WellScoped, met_methods methods, Scopes.nest_declare]
  | .classDecl name (some superclass) methods, _ => by
    simp [Stmt.duties, Stmt.WellScoped, superclass.met_duties, met_methods methods,
      Scopes.nest_declare, Nest.declare]

theorem met_all : ∀ (body : List Stmt) {sc : Scopes},
    Met (dutiesOfAll sc body) ↔ wellScopedAll sc.nest body
  | [], _ => by simp [dutiesOfAll, wellScopedAll]
  | s :: rest, _ => by
    simp [dutiesOfAll, wellScopedAll, s.met_duties, met_all rest, s.nest_walk]

theorem FunctionDecl.met_duties (isMethod : Bool) : ∀ (decl : FunctionDecl) {sc : Scopes},
    Met (decl.duties isMethod sc) ↔
      decl.WellScoped (if isMethod then ["this"] :: sc.nest else sc.nest)
  | .mk _ params body, sc => by
    simp [FunctionDecl.duties, FunctionDecl.WellScoped, Duty.met, met_all body,
      sc.nest_openFunction]

theorem met_methods : ∀ (ms : List FunctionDecl) {sc : Scopes},
    Met (dutiesOfMethods sc ms) ↔ wellScopedMethods sc.nest ms
  | [], _ => by simp [dutiesOfMethods, wellScopedMethods]
  | m :: rest, sc => by
    simp [dutiesOfMethods, wellScopedMethods, m.met_duties true, met_methods rest,
      Scopes.nest_of_stack (Scopes.stack_walk true m sc)]

end

theorem Program.met_duties {program : Program} : Met program.duties ↔ program.WellScoped :=
  met_all program

end ScriptMachine
