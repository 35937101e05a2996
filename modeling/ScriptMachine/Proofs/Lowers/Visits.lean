/-
ScriptMachine.Proofs.Lowers.Visits — the analysis of captures and lowering
agree.
-/
import ScriptMachine.Proofs.Lowers.Acceptance

namespace ScriptMachine

/-- A local reference that lowering has come to, and the state it is in. -/
structure Visit where
  state : Lowering
  name : String
  depth : UInt64

/-- The use the reference makes. -/
def Visit.use (v : Visit) : Use := ⟨v.state.scopes, v.name, v.depth⟩

namespace Lower

def After {α : Type} (x : Lower α) (l : Lowering) (P : Lowering → Prop) : Prop :=
  ∃ a m, x l = .ok a m ∧ P m

end Lower

open Lower (After)

def Resolution.Visits (name : String) (l : Lowering) (v : Visit) : Resolution → Prop
  | .global => False
  | .scope depth => v = ⟨l, name, depth⟩

def Resolution.SuperVisits (keyword : Ident) (l : Lowering) (v : Visit) : Resolution → Prop
  | .global => False
  | .scope depth => depth ≠ 0 ∧ (v = ⟨l, "super", depth⟩ ∨
      After (Lower.readImplicit keyword "super" depth) l fun m => v = ⟨m, "this", depth - 1⟩)

mutual

def Expr.Visits (l : Lowering) (v : Visit) : Expr → Prop
  | .literal _ => False
  | .group inner => inner.Visits l v
  | .unary _ operand => operand.Visits l v
  | .binary _ left right => left.Visits l v ∨ After (Lower.expr left) l (right.Visits · v)
  | .logical _ left right => left.Visits l v ∨ After (Lower.expr left) l (right.Visits · v)
  | .read name target => target.Visits name.name l v
  | .assign name target value =>
    value.Visits l v ∨ After (Lower.expr value) l (target.Visits name.name · v)
  | .call callee arguments _ => arguments.length ≤ maxArity ∧
      (callee.Visits l v ∨ After (Lower.expr callee) l (visitsOfArguments · v arguments))
  | .get object _ => object.Visits l v
  | .set object _ value => object.Visits l v ∨ After (Lower.expr object) l (value.Visits · v)
  | .self _ target => target.Visits "this" l v
  | .super keyword _ target => target.SuperVisits keyword l v

def visitsOfArguments (l : Lowering) (v : Visit) : List Expr → Prop
  | [] => False
  | e :: rest => e.Visits l v ∨ After (Lower.expr e) l (visitsOfArguments · v rest)

end

def visitsOfInitial (l : Lowering) (v : Visit) : Option Expr → Prop
  | none => False
  | some e => e.Visits l v

mutual

def Stmt.Visits (l : Lowering) (v : Visit) : Stmt → Prop
  | .expression e => e.Visits l v
  | .print e => e.Visits l v
  | .declare _ initial => visitsOfInitial l v initial
  | .block body => After (Lower.onScopes .push) l (visitsOfAll · v body)
  | .branch cond yes none =>
    cond.Visits l v ∨ After (Lower.expr cond) l (yes.Visits · v)
  | .branch cond yes (some no) => cond.Visits l v ∨
      After (Lower.expr cond) l fun m => yes.Visits m v ∨ After (Lower.stmt yes) m (no.Visits · v)
  | .loop cond body => cond.Visits l v ∨ After (Lower.expr cond) l (body.Visits · v)
  | .function decl =>
    if l.scopes.atTop then decl.Visits .function l v
    else After (Lower.declareLocal decl.name.name (.constant .nil)) l (decl.Visits .function · v)
  | .leave value => visitsOfInitial l v value
  | .classDecl name none methods =>
    ∃ start u w m, Lower.classStart name none l = .ok (start, u, w) m ∧
      visitsOfMethods w m v methods
  | .classDecl name (some sup) methods =>
    After (Lower.declareClass l.scopes.atTop name) l (sup.Visits · v) ∨
      ∃ start u w m, Lower.classStart name (some (Lower.expr sup)) l = .ok (start, u, w) m ∧
        After (Lower.superScope (u.getD 0)) m (visitsOfMethods w · v methods)

def visitsOfAll (l : Lowering) (v : Visit) : List Stmt → Prop
  | [] => False
  | s :: rest => s.Visits l v ∨ After (Lower.stmt s) l (visitsOfAll · v rest)

def FunctionDecl.Visits (kind : FunctionKind) (l : Lowering) (v : Visit) : FunctionDecl → Prop
  | .mk name params body => params.length ≤ maxArity ∧
      After (Lower.enterFunction name params.length kind) l fun m =>
        After (Lower.openScopes kind params) m (visitsOfAll · v body)

def visitsOfMethods (w : Nat) (l : Lowering) (v : Visit) : List FunctionDecl → Prop
  | [] => False
  | m :: rest => m.Visits (.ofMethod m.name.name) l v ∨
      After (Lower.methods w [m]) l (visitsOfMethods w · v rest)

end

/-- The references lowering a program comes to, on a store. -/
def Program.Visits (program : Program) (s : Store) (name : String) (caps : List Key)
    (v : Visit) : Prop :=
  After (Lower.use .stackOverflow) (s.scriptStart name caps) fun m =>
    After Lower.newVariable m (visitsOfAll · v program)

structure Visit.Among (v : Visit) (caps : List Key) (uses : List Use) : Prop where
  ready : v.state.Ready v.state.scopes caps
  mem : v.use ∈ uses

namespace Visit.Among

variable {v : Visit} {caps : List Key} {uses more : List Use}

theorem left (h : v.Among caps uses) : v.Among caps (uses ++ more) :=
  ⟨h.ready, List.mem_append_left _ h.mem⟩

theorem right (h : v.Among caps more) : v.Among caps (uses ++ more) :=
  ⟨h.ready, List.mem_append_right _ h.mem⟩

theorem cons (h : v.Among caps uses) {use : Use} : v.Among caps (use :: uses) :=
  ⟨h.ready, List.mem_cons_of_mem _ h.mem⟩

end Visit.Among

namespace Lower

variable {l m : Lowering} {sc : Scopes} {caps : List Key} {v : Visit} {target : Resolution}

section

variable (hr : l.Ready sc caps)

include hr

theorem Ready.among (name : String) (depth : UInt64)
    (more : List Use) : Visit.Among ⟨l, name, depth⟩ caps (⟨sc, name, depth⟩ :: more) := by
  obtain rfl := hr.scopes_eq
  exact ⟨hr, List.mem_cons_self⟩

theorem expr_ready {e : Expr} {code : Code}
    (hc : Covers caps (e.uses sc)) (h : expr e l = .ok code m) : m.Ready sc caps :=
  (expr_yields e hr.tidy h).ready hr ((expr_decides e hr hc).accepted h).1

theorem target_among {name : String} (h : target.Visits name l v) :
    v.Among caps (target.uses sc name) := by
  cases target with
  | global => exact h.elim
  | scope depth =>
    obtain rfl := h
    exact Ready.among hr name depth []

theorem super_among {keyword : Ident}
    (hc : Covers caps (target.superUses sc)) (h : target.SuperVisits keyword l v) :
    v.Among caps (target.superUses sc) := by
  cases target with
  | global => exact h.elim
  | scope depth =>
    obtain ⟨hd, h⟩ := h
    rw [Resolution.superUses, if_neg hd] at hc ⊢
    rcases h with rfl | ⟨_, m, hs, rfl⟩
    · exact Ready.among hr "super" depth _
    · have ha := ((readImplicit_decides hr keyword hc.head).accepted hs).1
      have hm := (readImplicit_yields hr.tidy hs).ready hr ha
      exact (Ready.among hm "this" (depth - 1) []).cons

end

mutual

theorem expr_among : ∀ (e : Expr) {l : Lowering}, l.Ready sc caps →
    Covers caps (e.uses sc) → e.Visits l v → v.Among caps (e.uses sc)
  | .literal _, _, _, _, h => h.elim
  | .group inner, _, hr, hc, h => expr_among inner hr hc h
  | .unary _ operand, _, hr, hc, h => expr_among operand hr hc h
  | .binary _ left right, _, hr, hc, h | .logical _ left right, _, hr, hc, h => by
    rcases h with h | ⟨_, m, hx, h⟩
    · exact (expr_among left hr hc.left h).left
    · exact (expr_among right (expr_ready hr hc.left hx) hc.right h).right
  | .read _ _, _, hr, _, h => target_among hr h
  | .assign _ _ value, _, hr, hc, h => by
    rcases h with h | ⟨_, m, hx, h⟩
    · exact (expr_among value hr hc.left h).left
    · exact (target_among (expr_ready hr hc.left hx) h).right
  | .call callee arguments _, _, hr, hc, h => by
    rcases h with ⟨_, h | ⟨_, m, hx, h⟩⟩
    · exact (expr_among callee hr hc.left h).left
    · exact (exprs_among arguments (expr_ready hr hc.left hx) hc.right h).right
  | .get object _, _, hr, hc, h => expr_among object hr hc h
  | .set object _ value, _, hr, hc, h => by
    rcases h with h | ⟨_, m, hx, h⟩
    · exact (expr_among object hr hc.left h).left
    · exact (expr_among value (expr_ready hr hc.left hx) hc.right h).right
  | .self _ _, _, hr, _, h => target_among hr h
  | .super _ _ _, _, hr, hc, h => super_among hr hc h

theorem exprs_among : ∀ (es : List Expr) {l : Lowering}, l.Ready sc caps →
    Covers caps (usesOfArguments sc es) → visitsOfArguments l v es →
      v.Among caps (usesOfArguments sc es)
  | [], _, _, _, h => h.elim
  | e :: rest, _, hr, hc, h => by
    rcases h with h | ⟨_, m, hx, h⟩
    · exact (expr_among e hr hc.left h).left
    · exact (exprs_among rest (expr_ready hr hc.left hx) hc.right h).right

end

section

variable (hr : l.Ready sc caps)

include hr

theorem expr?_among {initial : Option Expr}
    (hc : Covers caps (usesOfInitial sc initial)) (h : visitsOfInitial l v initial) :
    v.Among caps (usesOfInitial sc initial) := by
  cases initial with
  | none => exact h.elim
  | some e => exact expr_among e hr hc h

theorem opened_ready {name : Ident} {params : List String} {kind : FunctionKind} {d : Nat}
    {start : List Instr} {n : Lowering} (hk : kind ≠ .script)
    (he : enterFunction name params.length kind l = .ok d m)
    (ho : openScopes kind params m = .ok start n) :
    n.Ready (sc.openFunction kind.hasReceiver params) caps := by
  obtain rfl := hr.scopes_eq
  have hae := ((enterFunction_decides hr.agrees name params.length kind).accepted he).1
  have hao := ((openScopes_decides hae kind params).accepted ho).1
  have hent := enterFunction_entered he
  exact (openScopes_executes hent hr.tidy hk ho).ready (hent.captured.trans hr.captured_eq) hao

theorem declareClass_ready {name : String} {code : List Instr}
    (h : declareClass l.scopes.atTop name l = .ok code m) :
    m.Ready (sc.declare name) caps := by
  obtain rfl := hr.scopes_eq
  exact (declareClass_executes hr.tidy h).ready hr.captured_eq
    ((declareClass_decides hr.agrees _ name).accepted h).1

theorem method_ready {decl : FunctionDecl} {w : Nat} {code : List Instr}
    (hc : Covers caps (decl.uses true sc))
    (h : methods w [decl] l = .ok code m) : m.Ready (decl.walk true sc) caps := by
  have hone : Covers caps (usesOfMethods sc [decl]) := by
    rw [usesOfMethods, usesOfMethods, List.append_nil]
    exact hc
  have ha := ((methods_decides w [decl] hr hone).accepted h).1
  obtain rfl := hr.scopes_eq
  exact (methods_yields [decl] w hr.tidy h).ready hr.captured_eq ha

end

mutual

theorem stmt_among : ∀ (s : Stmt) {l : Lowering} {sc : Scopes}, l.Ready sc caps →
    Covers caps (s.uses sc) → s.Visits l v → v.Among caps (s.uses sc)
  | .expression e, _, _, hr, hc, h => expr_among e hr hc h
  | .print e, _, _, hr, hc, h => expr_among e hr hc h
  | .declare _ _, _, _, hr, hc, h => expr?_among hr hc h
  | .block body, _, _, hr, hc, h => by
    obtain ⟨_, m, hp, h⟩ := h
    obtain rfl := onScopes_eq_ok.mp hp
    exact stmts_among body (push_ready hr) hc h
  | .branch cond yes none, _, _, hr, hc, h => by
    rcases h with h | ⟨_, m, hx, h⟩
    · exact (expr_among cond hr hc.left h).left
    · exact (stmt_among yes (expr_ready hr hc.left hx) hc.right h).right
  | .branch cond yes (some no), _, _, hr, hc, h => by
    rcases h with h | ⟨_, m, hx, h⟩
    · exact (expr_among cond hr hc.left.left h).left.left
    have hm := expr_ready hr hc.left.left hx
    rcases h with h | ⟨_, n, hy, h⟩
    · exact (stmt_among yes hm hc.left.right h).right.left
    · have ha := ((stmt_decides yes hm hc.left.right).accepted hy).1
      exact (stmt_among no (stmt_ready hm hy ha) hc.right h).right
  | .loop cond body, _, _, hr, hc, h => by
    rcases h with h | ⟨_, m, hx, h⟩
    · exact (expr_among cond hr hc.left h).left
    · exact (stmt_among body (expr_ready hr hc.left hx) hc.right h).right
  | .function decl, l, sc, hr, hc, h => by
    rw [Stmt.Visits, hr.scopes_eq] at h
    rw [Stmt.uses] at hc ⊢
    cases htop : sc.atTop with
    | true =>
      have hsc : sc.declare decl.name.name = sc :=
        Scopes.declare_of_nil _ (sc.atTop_iff.mp htop)
      rw [hsc] at hc ⊢
      exact function_among .function decl hr (by decide) hc (by simpa [htop] using h)
    | false =>
      simp only [htop, Bool.false_eq_true, if_false] at h
      obtain ⟨_, m, hd, h⟩ := h
      have ha := ((declareLocal_decides hr.agrees _ _).accepted hd).1
      exact function_among .function decl (declareLocal_ready hr htop hd ha) (by decide) hc h
  | .leave _, _, _, hr, hc, h => expr?_among hr hc h
  | .classDecl name none ms, _, sc, hr, hc, h => by
    obtain ⟨start, u, w, m, hs, h⟩ := h
    have hn : Covers caps (usesOfInitial (sc.declare name) none) := nofun
    have ha := ((classStart_decides hr name hn).accepted hs).1
    exact methods_among w ms (classStart_ready none hr hs ha) hc h
  | .classDecl name (some sup) ms, _, sc, hr, hc, h => by
    rcases h with ⟨_, m, hd, h⟩ | ⟨start, u, w, m, hs, _, n, ho, h⟩
    · exact (expr_among sup (declareClass_ready hr hd) hc.left h).left
    · have hsome : Covers caps (usesOfInitial (sc.declare name) (some sup)) :=
        hc.left
      have ha := ((classStart_decides hr name hsome).accepted hs).1
      have hm := classStart_ready (some sup) hr hs ha
      have hao := ((superScope_decides ha _).accepted ho).1
      simp only [superScope, bind_eq_ok, onScopes_eq_ok] at ho
      obtain ⟨_, _, rfl, hd⟩ := ho
      exact (methods_among w ms (declareLocal_ready (push_ready hm) rfl hd hao) hc.right h).right

theorem stmts_among : ∀ (body : List Stmt) {l : Lowering} {sc : Scopes},
    l.Ready sc caps → Covers caps (usesOfAll sc body) → visitsOfAll l v body →
      v.Among caps (usesOfAll sc body)
  | [], _, _, _, _, h => h.elim
  | s :: rest, _, _, hr, hc, h => by
    rcases h with h | ⟨_, m, hx, h⟩
    · exact (stmt_among s hr hc.left h).left
    · have ha := ((stmt_decides s hr hc.left).accepted hx).1
      exact (stmts_among rest (stmt_ready hr hx ha) hc.right h).right

theorem function_among (kind : FunctionKind) : ∀ (decl : FunctionDecl) {l : Lowering}
    {sc : Scopes}, l.Ready sc caps → kind ≠ .script →
      Covers caps (decl.uses kind.hasReceiver sc) → decl.Visits kind l v →
        v.Among caps (decl.uses kind.hasReceiver sc)
  | .mk _ params body, _, _, hr, hk, hc, h => by
    obtain ⟨_, _, m, he, _, n, ho, h⟩ := h
    exact stmts_among body (opened_ready hr hk he ho) hc h

theorem methods_among (w : Nat) : ∀ (ms : List FunctionDecl) {l : Lowering} {sc : Scopes},
    l.Ready sc caps → Covers caps (usesOfMethods sc ms) →
      visitsOfMethods w l v ms → v.Among caps (usesOfMethods sc ms)
  | [], _, _, _, _, h => h.elim
  | decl :: rest, _, _, hr, hc, h => by
    rcases h with h | ⟨_, m, hx, h⟩
    · have hk := FunctionKind.ofMethod_ne_script decl.name.name
      have hrecv := FunctionKind.hasReceiver_ofMethod decl.name.name
      have hfst := function_among _ decl hr hk (by rw [hrecv]; exact hc.left) h
      rw [hrecv] at hfst
      exact hfst.left
    · exact (methods_among w rest (method_ready hr hc.left hx) hc.right h).right

end

end Lower

namespace Store

theorem compile_ne_captureMismatch (s : Store) (name : String) (program : Program) (key : Key) :
    (s.compile name program).1 ≠ .error (.captureMismatch key) := by
  rw [compile_eq]
  cases hcap : Capture.captures program with
  | error e =>
    obtain ⟨rfl, _⟩ := Capture.captures_error hcap
    simp
  | ok caps =>
    have hd := Lower.scriptAfter_decides s name (Capture.captures_covers hcap)
    dsimp only
    cases ha : Lower.scriptAfter program 0 (s.scriptStart name caps) with
    | ok unit l => simp
    | error e l =>
      have hne := (hd.rejected ha).1 key
      simpa using hne

theorem visits_among {s : Store} {name : String} {program : Program} {caps : List Key}
    (hcap : Capture.captures program = .ok caps) {v : Visit}
    (h : program.Visits s name caps v) : v.Among caps program.uses := by
  obtain ⟨_, m, hu, _, n, hv, h⟩ := h
  obtain ⟨hready, _⟩ := Lower.scriptStart_ready hu hv
  exact Lower.stmts_among program hready (Capture.captures_covers hcap) h

/-- **The analysis of captures and lowering agree on every tree.** No program
is rejected for a missing cell. A reference that leads to a declaration finds
it bound, and finds it in a cell if it belongs to another function; and the
analysis marks no declaration but those some other function refers to. -/
theorem captures_agree (s : Store) (name : String) (program : Program) :
    (∀ key, (s.compile name program).1 ≠ .error (.captureMismatch key)) ∧
    ∀ caps, Capture.captures program = .ok caps →
      (∀ v d, program.Visits s name caps v → v.use.LeadsTo d →
        ∃ storage, v.state.bindings.get? d.key = some ⟨d.frame, storage⟩ ∧
          (d.frame ≠ v.state.scopes.frame →
            d.key ∈ caps ∧ ∃ index, storage = .boxed index)) ∧
      ∀ key, key ∈ caps ↔ ∃ use ∈ program.uses, use.Captures key := by
  refine ⟨s.compile_ne_captureMismatch name program, fun caps hcap => ⟨?_, ?_⟩⟩
  · rintro v ⟨frame, key⟩ hv hl
    have ha := visits_among hcap hv
    obtain ⟨_, storage, hbind⟩ := Lower.resolve_declared ha.ready.tidy hl
    refine ⟨storage, hbind, fun hne => ?_⟩
    have hkey : key ∈ caps :=
      ((Capture.captures_covers hcap) v.use ha.mem).2 key ⟨frame, hne, hl⟩
    have hb := ha.ready.agrees.boxed hbind
    rw [ha.ready.captured_eq] at hb
    exact ⟨hkey, hb.mp hkey⟩
  · exact (Capture.captures_ok hcap).2

theorem captures_agree_tally :
    Capture.captures tally = .ok [5, 0, 0] ∧ (∃ use ∈ tally.uses, use.Captures 5) ∧
      (∃ use ∈ tally.uses, use.Captures 0) ∧ ∀ use ∈ tally.uses, ¬use.Captures 1 := by
  have hcap : Capture.captures tally = .ok [5, 0, 0] := by decide +kernel
  have h := ((captures_agree { heap := .empty, maxDepth := 8 } "main" tally).2 _ hcap).2
  refine ⟨hcap, (h 5).mp (by decide), (h 0).mp (by decide), fun use hu hone => ?_⟩
  exact absurd ((h 1).mpr ⟨use, hu, hone⟩) (by decide)

end Store

end ScriptMachine
