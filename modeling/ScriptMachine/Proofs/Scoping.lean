/-
ScriptMachine.Proofs.Scoping — which programs are well scoped.
-/
import ScriptMachine.Proofs.Translation

namespace ScriptMachine

abbrev Nest := List (List String)

namespace Nest

def declare (nest : Nest) (names : List String) : Nest :=
  match nest with
  | [] => []
  | scope :: rest => (names ++ scope) :: rest

def Holds (nest : Nest) (name : String) (depth : UInt64) : Prop :=
  ∃ scope, nest[depth.toNat]? = some scope ∧ name ∈ scope

theorem declare_nil (nest : Nest) : nest.declare [] = nest := by
  cases nest <;> rfl

theorem declare_declare (nest : Nest) (names more : List String) :
    (nest.declare names).declare more = nest.declare (more ++ names) := by
  cases nest with
  | nil => rfl
  | cons scope rest => simp [declare]

end Nest

def Resolution.WellScoped (nest : Nest) (name : String) : Resolution → Prop
  | .global => True
  | .scope depth => nest.Holds name depth

mutual

def Expr.WellScoped (nest : Nest) : Expr → Prop
  | .literal _ => True
  | .group inner => inner.WellScoped nest
  | .unary _ operand => operand.WellScoped nest
  | .binary _ left right => left.WellScoped nest ∧ right.WellScoped nest
  | .logical _ left right => left.WellScoped nest ∧ right.WellScoped nest
  | .read name target => target.WellScoped nest name.name
  | .assign name target value => value.WellScoped nest ∧ target.WellScoped nest name.name
  | .call callee arguments _ =>
    arguments.length ≤ maxArity ∧ callee.WellScoped nest ∧ wellScopedArguments nest arguments
  | .get object _ => object.WellScoped nest
  | .set object _ value => object.WellScoped nest ∧ value.WellScoped nest
  | .self _ target => ∃ depth, target = .scope depth ∧ nest.Holds "this" depth
  | .super _ _ target => ∃ depth, target = .scope depth ∧ depth ≠ 0 ∧
      nest.Holds "super" depth ∧ nest.Holds "this" (depth - 1)

def wellScopedArguments (nest : Nest) : List Expr → Prop
  | [] => True
  | e :: rest => e.WellScoped nest ∧ wellScopedArguments nest rest

end

def wellScopedInitial (nest : Nest) : Option Expr → Prop
  | none => True
  | some e => e.WellScoped nest

def Stmt.declares : Stmt → List String
  | .declare name _ => [name]
  | .branch _ yes none => yes.declares
  | .branch _ yes (some no) => no.declares ++ yes.declares
  | .loop _ body => body.declares
  | .function decl => [decl.name.name]
  | .classDecl name _ _ => [name]
  | _ => []

mutual

def Stmt.WellScoped (nest : Nest) : Stmt → Prop
  | .expression e => e.WellScoped nest
  | .print e => e.WellScoped nest
  | .declare _ initial => wellScopedInitial nest initial
  | .block body => wellScopedAll ([] :: nest) body
  | .branch cond yes none => cond.WellScoped nest ∧ yes.WellScoped nest
  | .branch cond yes (some no) =>
    cond.WellScoped nest ∧ yes.WellScoped nest ∧ no.WellScoped (nest.declare yes.declares)
  | .loop cond body => cond.WellScoped nest ∧ body.WellScoped nest
  | .function decl => decl.WellScoped (nest.declare [decl.name.name])
  | .leave value => wellScopedInitial nest value
  | .classDecl name none methods => wellScopedMethods (nest.declare [name]) methods
  | .classDecl name (some superclass) methods =>
    superclass.WellScoped (nest.declare [name]) ∧
      wellScopedMethods (["super"] :: nest.declare [name]) methods

def wellScopedAll (nest : Nest) : List Stmt → Prop
  | [] => True
  | s :: rest => s.WellScoped nest ∧ wellScopedAll (nest.declare s.declares) rest

def FunctionDecl.WellScoped (nest : Nest) : FunctionDecl → Prop
  | .mk _ params body => params.length ≤ maxArity ∧ wellScopedAll (params.reverse :: nest) body

def wellScopedMethods (nest : Nest) : List FunctionDecl → Prop
  | [] => True
  | m :: rest => m.WellScoped (["this"] :: nest) ∧ wellScopedMethods nest rest

end

/-- A whole program; no scope is open at top level. -/
def Program.WellScoped (program : Program) : Prop := wellScopedAll [] program

def tally : Program :=
  [.block
    [.declare "count" (some (.literal (.text "none"))),
     .function (.mk ⟨"step", 1⟩ ["by"]
      [.expression (.assign ⟨"count", 1⟩ (.scope 1) (.read ⟨"by", 1⟩ (.scope 0))),
       .leave (some (.read ⟨"count", 1⟩ (.scope 1)))]),
     .print (.call (.read ⟨"step", 1⟩ (.scope 0)) [.literal (.text "one")] 1),
     .classDecl "Base" none [],
     .classDecl "Leaf" (some (.read ⟨"Base", 1⟩ (.scope 0)))
      [.mk ⟨"get", 1⟩ [] [.leave (some (.super ⟨"super", 1⟩ "get" (.scope 2)))]]]]

/-- A local reference: the scopes open where it stands, the name, and how
many levels out the declaration should be. -/
structure Use where
  scopes : Scopes
  name : String
  depth : UInt64

namespace Use

/-- The declaration a use refers to. -/
def LeadsTo (use : Use) (d : Declared) : Prop :=
  use.scopes.resolve use.name use.depth = .ok (some d)

/-- The declaration a use refers to belongs to another function. -/
def Captures (use : Use) (key : Key) : Prop :=
  ∃ frame, frame ≠ use.scopes.frame ∧ use.LeadsTo ⟨frame, key⟩

/-- The level of a use can be counted. -/
def Countable (use : Use) : Prop := use.depth.toNat + 1 ≠ 0x10000000000000000

instance (use : Use) : Decidable use.Countable := inferInstanceAs (Decidable (_ ≠ _))

end Use

def Resolution.uses (sc : Scopes) (name : String) : Resolution → List Use
  | .global => []
  | .scope depth => [⟨sc, name, depth⟩]

def Resolution.superUses (sc : Scopes) : Resolution → List Use
  | .global => []
  | .scope depth =>
    ⟨sc, "super", depth⟩ :: if depth = 0 then [] else [⟨sc, "this", depth - 1⟩]

mutual

def Expr.uses (sc : Scopes) : Expr → List Use
  | .literal _ => []
  | .group inner => inner.uses sc
  | .unary _ operand => operand.uses sc
  | .binary _ left right => left.uses sc ++ right.uses sc
  | .logical _ left right => left.uses sc ++ right.uses sc
  | .read name target => target.uses sc name.name
  | .assign name target value => value.uses sc ++ target.uses sc name.name
  | .call callee arguments _ => callee.uses sc ++ usesOfArguments sc arguments
  | .get object _ => object.uses sc
  | .set object _ value => object.uses sc ++ value.uses sc
  | .self _ target => target.uses sc "this"
  | .super _ _ target => target.superUses sc

def usesOfArguments (sc : Scopes) : List Expr → List Use
  | [] => []
  | e :: rest => e.uses sc ++ usesOfArguments sc rest

end

def usesOfInitial (sc : Scopes) : Option Expr → List Use
  | none => []
  | some e => e.uses sc

mutual

def Stmt.uses (sc : Scopes) : Stmt → List Use
  | .expression e => e.uses sc
  | .print e => e.uses sc
  | .declare _ initial => usesOfInitial sc initial
  | .block body => usesOfAll sc.push body
  | .branch cond yes none => cond.uses sc ++ yes.uses sc
  | .branch cond yes (some no) =>
    cond.uses sc ++ yes.uses sc ++ no.uses (yes.walk sc)
  | .loop cond body => cond.uses sc ++ body.uses sc
  | .function decl => decl.uses false (sc.declare decl.name.name)
  | .leave value => usesOfInitial sc value
  | .classDecl name none methods => usesOfMethods (sc.declare name) methods
  | .classDecl name (some superclass) methods =>
    superclass.uses (sc.declare name) ++
      usesOfMethods ((sc.declare name).push.declare "super") methods

def usesOfAll (sc : Scopes) : List Stmt → List Use
  | [] => []
  | s :: rest => s.uses sc ++ usesOfAll (s.walk sc) rest

def FunctionDecl.uses (isMethod : Bool) (sc : Scopes) : FunctionDecl → List Use
  | .mk _ params body => usesOfAll (sc.openFunction isMethod params) body

def usesOfMethods (sc : Scopes) : List FunctionDecl → List Use
  | [] => []
  | m :: rest => m.uses true sc ++ usesOfMethods (m.walk true sc) rest

end

/-- Every local reference of a program. -/
def Program.uses (program : Program) : List Use := usesOfAll {} program

namespace Scopes

def nest (sc : Scopes) : Nest := sc.stack.map (·.entries.map (·.1))

@[simp] theorem nest_push (sc : Scopes) : sc.push.nest = [] :: sc.nest := rfl

theorem nest_of_stack {a b : Scopes} (h : b.stack = a.stack) : b.nest = a.nest := by
  rw [nest, nest, h]

theorem nest_declare (sc : Scopes) (name : String) :
    (sc.declare name).nest = sc.nest.declare [name] := by
  cases h : sc.stack with
  | nil => simp [declare_of_nil name h, nest, h, Nest.declare]
  | cons scope rest => simp [declare_of_cons name h, nest, h, Nest.declare]

theorem nest_declareAll (names : List String) (sc : Scopes) :
    (names.foldl declare sc).nest = sc.nest.declare names.reverse := by
  induction names generalizing sc with
  | nil => exact (Nest.declare_nil _).symm
  | cons name names ih =>
    rw [List.foldl_cons, ih, nest_declare, Nest.declare_declare, List.reverse_cons]

theorem nest_openFunction (sc : Scopes) (isMethod : Bool) (params : List String) :
    (sc.openFunction isMethod params).nest =
      params.reverse :: (if isMethod then ["this"] :: sc.nest else sc.nest) := by
  unfold openFunction
  rw [nest_declareAll, nest_push, Nest.declare, List.append_nil]
  cases isMethod with
  | false => rfl
  | true =>
    simp only [if_true]
    rfl

theorem stack_walk (isMethod : Bool) (decl : FunctionDecl) (sc : Scopes) :
    (decl.walk isMethod sc).stack = sc.stack := by
  obtain ⟨name, params, body⟩ := decl
  obtain ⟨_, _, _, _, hstk⟩ :=
    (walkAll_extends body (sc.openFunction isMethod params)).openFunction_stack
  exact hstk

theorem stack_walkMethods (methods : List FunctionDecl) (sc : Scopes) :
    (walkMethods methods sc).stack = sc.stack := by
  induction methods generalizing sc with
  | nil => rw [walkMethods]
  | cons m rest ih => rw [walkMethods, ih, stack_walk]

end Scopes

theorem Stmt.nest_walk : ∀ (s : Stmt) (sc : Scopes), (s.walk sc).nest = sc.nest.declare s.declares
  | .print _, _ | .expression _, _ | .leave _, _ => by
    rw [Stmt.walk, Stmt.declares, Nest.declare_nil] <;> simp
  | .declare name _, sc => by
    exact sc.nest_declare name
  | .block body, sc => by
    rw [Stmt.walk, Stmt.declares, Nest.declare_nil]
    · exact Scopes.nest_of_stack (walkAll_extends body sc.push).pop
    all_goals simp
  | .branch _ yes none, sc => by
    exact yes.nest_walk sc
  | .branch _ yes (some no), sc => by
    rw [Stmt.walk, Stmt.declares, no.nest_walk, yes.nest_walk, Nest.declare_declare]
  | .loop _ body, sc => by
    exact body.nest_walk sc
  | .function decl, sc => by
    rw [Stmt.walk, Stmt.declares, ← sc.nest_declare]
    exact Scopes.nest_of_stack (Scopes.stack_walk false decl _)
  | .classDecl name none methods, sc => by
    rw [Stmt.walk, Stmt.declares, ← sc.nest_declare]
    exact Scopes.nest_of_stack (Scopes.stack_walkMethods methods _)
  | .classDecl name (some _) methods, sc => by
    rw [Stmt.walk, Stmt.declares, ← sc.nest_declare]
    refine Scopes.nest_of_stack (Scopes.Extends.pop ?_)
    exact (Scopes.Extends.declare _ "super").trans (walkMethods_extends methods _)

theorem Use.exists_leadsTo_iff {use : Use} (h : use.Countable) :
    (∃ d, use.LeadsTo d) ↔ use.scopes.nest.Holds use.name use.depth := by
  unfold LeadsTo Scopes.resolve Nest.Holds Scopes.nest
  rw [if_neg h]
  simp only [Except.ok.injEq, Option.bind_eq_bind, Option.bind_eq_some_iff, pure,
    Option.some.injEq, List.getElem?_map, Option.map_eq_some_iff]
  constructor
  · rintro ⟨d, scope, hs, key, hkey, rfl⟩
    refine ⟨_, ⟨scope, hs, rfl⟩, ?_⟩
    obtain ⟨before, after, heq, _⟩ := List.lookup_eq_some_iff.mp hkey
    simp [heq]
  · rintro ⟨_, ⟨scope, hs, rfl⟩, hn⟩
    cases hkey : scope.entries.lookup use.name with
    | some key => exact ⟨_, scope, hs, key, hkey, rfl⟩
    | none =>
      obtain ⟨entry, hmem, hent⟩ := List.mem_map.mp hn
      have := List.lookup_eq_none_iff.mp hkey entry hmem
      simp [hent] at this

end ScriptMachine
