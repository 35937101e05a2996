/-
ScriptMachine.Proofs.Translation — which code stands for which tree.
-/
import ScriptMachine.Proofs.Growth

namespace ScriptMachine

def Scopes.openFunction (sc : Scopes) (isMethod : Bool) (params : List String) : Scopes :=
  let inner := if isMethod then sc.enter.push.declare "this" else sc.enter
  params.foldl .declare inner.push

def Scopes.closeFunction (sc : Scopes) (isMethod : Bool) (frame : Nat) : Scopes :=
  (if isMethod then sc.pop.pop else sc.pop).backTo frame

mutual

/-- The scopes a statement leaves, with the keys and frames it has used up. -/
def Stmt.walk : Stmt → Scopes → Scopes
  | .declare name _, sc => sc.declare name
  | .block body, sc => (walkAll body sc.push).pop
  | .branch _ yes none, sc => yes.walk sc
  | .branch _ yes (some no), sc => no.walk (yes.walk sc)
  | .loop _ body, sc => body.walk sc
  | .function decl, sc => decl.walk false (sc.declare decl.name.name)
  | .classDecl name none methods, sc => walkMethods methods (sc.declare name)
  | .classDecl name (some _) methods, sc =>
    (walkMethods methods ((sc.declare name).push.declare "super")).pop
  | _, sc => sc

def walkAll : List Stmt → Scopes → Scopes
  | [], sc => sc
  | s :: rest, sc => walkAll rest (s.walk sc)

def FunctionDecl.walk (isMethod : Bool) : FunctionDecl → Scopes → Scopes
  | .mk _ params body, sc =>
    (walkAll body (sc.openFunction isMethod params)).closeFunction isMethod sc.frame

def walkMethods : List FunctionDecl → Scopes → Scopes
  | [], sc => sc
  | m :: rest, sc => walkMethods rest (m.walk true sc)

end

namespace Scopes

variable {sc a b : Scopes} {isMethod : Bool} {params : List String}

@[simp] theorem declare_frame (sc : Scopes) (name : String) :
    (sc.declare name).frame = sc.frame := by
  unfold declare
  split <;> rfl

@[simp] theorem declare_nextFrame (sc : Scopes) (name : String) :
    (sc.declare name).nextFrame = sc.nextFrame := by
  unfold declare
  split <;> rfl

theorem nextKey_le_declare (sc : Scopes) (name : String) :
    sc.nextKey ≤ (sc.declare name).nextKey := by
  unfold declare
  split
  · exact Nat.le_refl _
  · exact Nat.le_succ _

theorem declare_of_cons {scope : Scope} {rest : List Scope} (name : String)
    (h : sc.stack = scope :: rest) :
    sc.declare name =
      { sc with
        stack := { scope with entries := (name, sc.nextKey) :: scope.entries } :: rest
        nextKey := sc.nextKey + 1 } := by
  unfold declare
  rw [h]

theorem declare_of_nil (name : String) (h : sc.stack = []) : sc.declare name = sc := by
  unfold declare
  rw [h]

theorem declared_next (sc : Scopes) (name : String) (h : sc.atTop = false) :
    (sc.declare name).Opens sc.nextKey := by
  cases hs : sc.stack with
  | nil => simp [atTop, hs] at h
  | cons scope rest =>
    rw [declare_of_cons name hs]
    exact ⟨_, List.mem_cons_self, name, List.mem_cons_self⟩

theorem atTop_iff (sc : Scopes) : sc.atTop = true ↔ sc.stack = [] := by
  simp [atTop]

structure Extends (a b : Scopes) : Prop where
  frame : b.frame = a.frame
  nextFrame : a.nextFrame ≤ b.nextFrame
  nextKey : a.nextKey ≤ b.nextKey
  stack : (a.stack = [] ∧ b.stack = []) ∨ ∃ scope rest more, a.stack = scope :: rest ∧
    b.stack = { scope with entries := more ++ scope.entries } :: rest

namespace Extends

variable {a b : Scopes}

theorem refl (a : Scopes) : a.Extends a where
  frame := rfl
  nextFrame := Nat.le_refl _
  nextKey := Nat.le_refl _
  stack := by
    cases h : a.stack with
    | nil => exact .inl ⟨rfl, rfl⟩
    | cons scope rest => exact .inr ⟨scope, rest, [], rfl, rfl⟩

theorem trans {c : Scopes} (h : a.Extends b) (h' : b.Extends c) : a.Extends c where
  frame := h'.frame.trans h.frame
  nextFrame := Nat.le_trans h.nextFrame h'.nextFrame
  nextKey := Nat.le_trans h.nextKey h'.nextKey
  stack := by
    rcases h.stack with ⟨ha, hb⟩ | ⟨scope, rest, more, ha, hb⟩ <;>
      rcases h'.stack with ⟨hb', hc⟩ | ⟨scope', rest', more', hb', hc⟩ <;> rw [hb] at hb'
    · exact .inl ⟨ha, hc⟩
    · cases hb'
    · cases hb'
    · obtain ⟨rfl, rfl⟩ := List.cons.inj hb'
      exact .inr ⟨scope, rest, more' ++ more, ha, by rw [hc, List.append_assoc]⟩

theorem declare (a : Scopes) (name : String) : a.Extends (a.declare name) where
  frame := declare_frame a name
  nextFrame := Nat.le_of_eq (declare_nextFrame a name).symm
  nextKey := nextKey_le_declare a name
  stack := by
    cases h : a.stack with
    | nil => exact .inl ⟨rfl, by rw [declare_of_nil name h, h]⟩
    | cons scope rest =>
      exact .inr ⟨scope, rest, [(name, a.nextKey)], rfl, by rw [declare_of_cons name h]; rfl⟩

theorem atTop (h : a.Extends b) : b.atTop = a.atTop := by
  rcases h.stack with ⟨ha, hb⟩ | ⟨scope, rest, more, ha, hb⟩ <;> simp [Scopes.atTop, ha, hb]

theorem declareAll (names : List String) (a : Scopes) :
    a.Extends (names.foldl Scopes.declare a) := by
  induction names generalizing a with
  | nil => exact .refl a
  | cons name names ih => exact (declare a name).trans (ih (a.declare name))

theorem pop (h : a.push.Extends b) : b.pop.stack = a.stack := by
  rcases h.stack with ⟨ha, _⟩ | ⟨scope, rest, more, ha, hb⟩
  · simp [Scopes.push] at ha
  · simp only [Scopes.push, List.cons.injEq] at ha
    simp [Scopes.pop, hb, ha.2]

theorem of_stack (hf : b.frame = a.frame) (hn : a.nextFrame ≤ b.nextFrame)
    (hk : a.nextKey ≤ b.nextKey) (hs : b.stack = a.stack) : a.Extends b where
  frame := hf
  nextFrame := hn
  nextKey := hk
  stack := by
    rw [hs]
    exact (refl a).stack

theorem block (h : a.push.Extends b) : a.Extends b.pop :=
  of_stack h.frame h.nextFrame h.nextKey h.pop

theorem mem (h : a.Extends b) {key : Key} (hk : a.Opens key) : b.Opens key := by
  obtain ⟨s, hs, n, hn⟩ := hk
  rcases h.stack with ⟨ha, _⟩ | ⟨scope, rest, more, ha, hb⟩
  · simp [ha] at hs
  · rw [ha] at hs
    rw [Scopes.Opens, hb]
    rcases List.mem_cons.mp hs with rfl | hs
    · exact ⟨_, List.mem_cons_self, n, List.mem_append_right _ hn⟩
    · exact ⟨s, List.mem_cons_of_mem _ hs, n, hn⟩

end Extends

theorem Extends.openFunction_stack (h : (a.openFunction isMethod params).Extends b) : ∃ own,
      (∀ scope ∈ own, scope.frame = a.nextFrame) ∧ b.stack = own ++ a.stack ∧ own ≠ [] ∧
        (b.closeFunction isMethod a.frame).stack = a.stack := by
  cases isMethod with
  | false =>
    have h' : a.enter.push.Extends b := (declareAll params _).trans h
    have hpop : b.pop.stack = a.stack := h'.pop
    rcases h'.stack with ⟨ha, _⟩ | ⟨scope, rest, more, ha, hb⟩
    · simp [push] at ha
    · obtain ⟨rfl, rfl⟩ := ha
      exact ⟨[_], by simp [enter], hb, by simp, hpop⟩
  | true =>
    have h' : (a.enter.push.declare "this").push.Extends b := (declareAll params _).trans h
    have hpop : b.pop.stack = (a.enter.push.declare "this").stack := h'.pop
    have ht : (a.enter.push.declare "this").stack =
        ⟨a.nextFrame, [("this", a.nextKey)]⟩ :: a.stack := rfl
    rcases h'.stack with ⟨ha, _⟩ | ⟨scope, rest, more, ha, hb⟩
    · simp [push] at ha
    · obtain ⟨rfl, rfl⟩ := ha
      refine ⟨[_, ⟨a.nextFrame, [("this", a.nextKey)]⟩], ?_, hb, by simp, ?_⟩
      · rintro scope (_ | ⟨_, _ | ⟨_, hmem⟩⟩)
        · exact declare_frame _ _
        · rfl
        · cases hmem
      · show b.pop.stack.tail = a.stack
        rw [hpop, ht]
        rfl

theorem openFunction_frame (a : Scopes) (isMethod : Bool) (params : List String) :
    (a.openFunction isMethod params).frame = a.nextFrame := by
  refine (Extends.declareAll params _).frame.trans ?_
  cases isMethod <;> rfl

theorem openFunction_atTop (a : Scopes) (isMethod : Bool) (params : List String) :
    (a.openFunction isMethod params).atTop = false :=
  (Extends.declareAll params _).atTop.trans rfl

@[simp] theorem closeFunction_nextFrame (a : Scopes) (isMethod : Bool) (frame : Nat) :
    (a.closeFunction isMethod frame).nextFrame = a.nextFrame := by
  cases isMethod <;> rfl

@[simp] theorem closeFunction_nextKey (a : Scopes) (isMethod : Bool) (frame : Nat) :
    (a.closeFunction isMethod frame).nextKey = a.nextKey := by
  cases isMethod <;> rfl

theorem Extends.closeFunction (h : (a.openFunction isMethod params).Extends b) :
    a.Extends (b.closeFunction isMethod a.frame) := by
  obtain ⟨_, _, _, _, hs⟩ := h.openFunction_stack
  have ho : a.enter.nextFrame ≤ (a.openFunction isMethod params).nextFrame ∧
      a.enter.nextKey ≤ (a.openFunction isMethod params).nextKey := by
    have hp := declareAll params (if isMethod then a.enter.push.declare "this" else a.enter).push
    cases isMethod with
    | false => exact ⟨hp.nextFrame, hp.nextKey⟩
    | true =>
      have hd := declare a.enter.push "this"
      exact ⟨Nat.le_trans hd.nextFrame hp.nextFrame, Nat.le_trans hd.nextKey hp.nextKey⟩
  refine of_stack rfl ?_ ?_ hs
  · rw [closeFunction_nextFrame]
    exact Nat.le_trans (Nat.le_succ _) (Nat.le_trans ho.1 h.nextFrame)
  · rw [closeFunction_nextKey]
    exact Nat.le_trans ho.2 h.nextKey

end Scopes

mutual

theorem Stmt.walk_extends : ∀ (s : Stmt) (sc : Scopes), sc.Extends (s.walk sc)
  | .expression _, sc => .refl sc
  | .print _, sc => .refl sc
  | .leave _, sc => .refl sc
  | .declare name _, sc => .declare sc name
  | .block body, sc => (walkAll_extends body sc.push).block
  | .branch _ yes none, sc => yes.walk_extends sc
  | .branch _ yes (some no), sc =>
    (yes.walk_extends sc).trans (no.walk_extends (yes.walk sc))
  | .loop _ body, sc => body.walk_extends sc
  | .function decl, sc =>
    (Scopes.Extends.declare sc _).trans (decl.walk_extends false (sc.declare decl.name.name))
  | .classDecl name none methods, sc =>
    (Scopes.Extends.declare sc name).trans (walkMethods_extends methods (sc.declare name))
  | .classDecl name (some _) methods, sc =>
    (Scopes.Extends.declare sc name).trans <| Scopes.Extends.block <|
      (Scopes.Extends.declare (sc.declare name).push "super").trans (walkMethods_extends methods _)

theorem walkAll_extends : ∀ (body : List Stmt) (sc : Scopes), sc.Extends (walkAll body sc)
  | [], sc => .refl sc
  | s :: rest, sc => (s.walk_extends sc).trans (walkAll_extends rest (s.walk sc))

theorem FunctionDecl.walk_extends (isMethod : Bool) : ∀ (decl : FunctionDecl) (sc : Scopes),
    sc.Extends (decl.walk isMethod sc)
  | .mk _ params body, sc =>
    (walkAll_extends body (sc.openFunction isMethod params)).closeFunction

theorem walkMethods_extends : ∀ (methods : List FunctionDecl) (sc : Scopes),
    sc.Extends (walkMethods methods sc)
  | [], sc => .refl sc
  | m :: rest, sc =>
    (m.walk_extends true sc).trans (walkMethods_extends rest (m.walk true sc))

end

theorem FunctionKind.hasReceiver_ofMethod (name : String) :
    (FunctionKind.ofMethod name).hasReceiver = true := by
  unfold ofMethod
  split <;> rfl

theorem FunctionKind.ofMethod_ne_script (name : String) : FunctionKind.ofMethod name ≠ .script := by
  unfold ofMethod
  split <;> decide

def Storage.hold : Storage → Code → Code
  | .direct _, value => value
  | .boxed _, value => .newCell value

namespace Translate

variable (G : Final) (F : FunctionState)

def CellAt (frame : Nat) (key : Key) (cell : CellRef) : Prop :=
  ∃ owner index, G.bindings.get? key = some ⟨owner, .boxed index⟩ ∧
    ((owner = frame ∧ cell = .own index) ∨
      (owner ≠ frame ∧ ∃ position, F.upvalues[position]? = some key ∧ cell = .captured position))

def CellsAt (frame : Nat) (keys : List Key) (cells : List CellRef) : Prop :=
  List.Forall₂ (CellAt G F frame) keys cells

def ReadsKey (frame : Nat) (key : Key) (code : Code) : Prop :=
  (∃ index, G.bindings.get? key = some ⟨frame, .direct index⟩ ∧ code = .readVariable index) ∨
    ∃ cell, CellAt G F frame key cell ∧ code = .readCell cell

def AssignsKey (frame : Nat) (key : Key) (value code : Code) : Prop :=
  (∃ index, G.bindings.get? key = some ⟨frame, .direct index⟩ ∧
      code = .assignVariable index value) ∨
    ∃ cell, CellAt G F frame key cell ∧ code = .assignCell cell value

def Resolves (sc : Scopes) (name : String) (depth : UInt64) (key : Key) : Prop :=
  ∃ frame storage, sc.resolve name depth = .ok (some ⟨frame, key⟩) ∧
    G.bindings.get? key = some ⟨frame, storage⟩

def ReadsLocal (sc : Scopes) (name : String) (depth : UInt64) (code : Code) : Prop :=
  ∃ key, Resolves G sc name depth key ∧ ReadsKey G F sc.frame key code

def DeclaresLocal (sc : Scopes) (value : Code) (instr : Instr) : Prop :=
  ∃ storage, G.bindings.get? sc.nextKey = some ⟨sc.frame, storage⟩ ∧ storage.index < F.locals ∧
      instr = .evaluate (.assignVariable storage.index (storage.hold value))

structure Spare (frame index : Nat) : Prop where
  lt : index < F.locals
  unbound : ∀ {key storage}, G.bindings.get? key = some ⟨frame, storage⟩ → storage.index ≠ index
  not_result : F.kind = .script → index ≠ Lower.resultVariable

def Named (name : String) (symbol : Symbol) : Prop := G.store.names.find? name = some symbol

def DefinesGlobal (name : String) (value : Code) (instr : Instr) : Prop :=
  ∃ slot, G.store.slotOf? name = some slot ∧ instr = .defineGlobal slot value

def DeclaresVariable (sc : Scopes) (name : String) (value : Code) (instr : Instr) : Prop :=
  if sc.atTop then DefinesGlobal G name value instr
  else DeclaresLocal G F sc value instr

def literal : Literal → Code → Prop
  | .nil, c => c = .constant .nil
  | .bool b, c => c = .constant (.ofBool b)
  | .number bits, c => c = .constant (.ofNumber bits)
  | .text s, c => ∃ i, G.store.heap.interned.get? s = some i ∧ c = .constant (.ofIndex i)

def read (sc : Scopes) (name : String) : Resolution → Code → Prop
  | .global, c => ∃ slot, G.store.slotOf? name = some slot ∧ c = .readGlobal slot
  | .scope depth, c => ReadsLocal G F sc name depth c

def assign (sc : Scopes) (name : String) (value : Code) : Resolution → Code → Prop
  | .global, c => ∃ slot, G.store.slotOf? name = some slot ∧ c = .assignGlobal slot value
  | .scope depth, c => ∃ key, Resolves G sc name depth key ∧ AssignsKey G F sc.frame key value c

def SiteOf (site : Nat) (kind : SiteKind) (symbol : Symbol) : Prop :=
  (G.store.sites.map (·.kind))[site]? = some kind ∧ G.site site = symbol

mutual

def expr (sc : Scopes) : Expr → Code → Prop
  | .literal value, c => literal G value c
  | .group inner, c => expr sc inner c
  | .unary .negate operand, c => ∃ o, expr sc operand o ∧ c = .negate o
  | .unary .not operand, c => ∃ o, expr sc operand o ∧ c = .not o
  | .binary op left right, c =>
    ∃ l r, expr sc left l ∧ expr sc right r ∧ c = .binary op l r
  | .logical op left right, c =>
    ∃ l r, expr sc left l ∧ expr sc right r ∧ c = .logical op l r
  | .read name target, c => read G F sc name.name target c
  | .assign name target value, c =>
    ∃ v, expr sc value v ∧ assign G F sc name.name v target c
  | .call callee arguments _, c =>
    ∃ f as, expr sc callee f ∧ exprs sc arguments as ∧ c = .call f as
  | .get object name, c =>
    ∃ o symbol site, expr sc object o ∧ Named G name symbol ∧ SiteOf G site .get symbol ∧
      c = .getProperty o symbol site
  | .set object name value, c =>
    ∃ o v symbol site, expr sc object o ∧ expr sc value v ∧ Named G name symbol ∧
      SiteOf G site .set symbol ∧ c = .setProperty o symbol v site
  | .self _ target, c => ∃ depth, target = .scope depth ∧ ReadsLocal G F sc "this" depth c
  | .super _ method target, c =>
    ∃ depth s r symbol, target = .scope depth ∧ depth ≠ 0 ∧ ReadsLocal G F sc "super" depth s ∧
      ReadsLocal G F sc "this" (depth - 1) r ∧ Named G method symbol ∧ c = .getSuper s r symbol

def exprs (sc : Scopes) : List Expr → List Code → Prop
  | [], cs => cs = []
  | e :: rest, cs => ∃ c cs', expr sc e c ∧ exprs sc rest cs' ∧ cs = c :: cs'

end

def expr? (sc : Scopes) : Option Expr → Code → Prop
  | none, c => c = .constant .nil
  | some e, c => expr G F sc e c

def parameters (index : Nat) : List String → Scopes → List Instr → Prop
  | [], _, code => code = []
  | name :: rest, sc, code =>
    ∃ instr code', DeclaresLocal G F sc (.argument index) instr ∧
      parameters (index + 1) rest (sc.declare name) code' ∧ code = instr :: code'

def opening (sc : Scopes) (kind : FunctionKind) (params : List String) (code : List Instr) :
    Prop :=
  if kind.hasReceiver then
    ∃ instr code', DeclaresLocal G F sc.enter.push .receiver instr ∧
      parameters G F 0 params (sc.enter.push.declare "this").push code' ∧ code = instr :: code'
  else parameters G F 0 params sc.enter.push code

mutual

/-- The variables that statements put cells into. -/
def boxes : List Instr → List Nat
  | [] => []
  | i :: rest => boxesOf i ++ boxes rest

def boxesOf : Instr → List Nat
  | .evaluate (.assignVariable index (.newCell _)) => [index]
  | .branch _ yes no => boxes yes ++ boxes no
  | .loop _ body => boxes body
  | _ => []

end

theorem boxes_append (a b : List Instr) : boxes (a ++ b) = boxes a ++ boxes b := by
  induction a with
  | nil => rfl
  | cons i rest ih => simp [boxes, ih]

structure ClosureOf (sc : Scopes) (name : String) (count : Nat) (kind : FunctionKind)
    (inner : FunctionState) (body : List Instr) (code : Code) : Prop where
  exists_code : ∃ declaration prototype cells symbol,
    code = .closure declaration prototype cells ∧
      G.unit.function? declaration = some ⟨inner.locals, body⟩ ∧
        G.store.prototypes[prototype]? = some ⟨symbol, count⟩ ∧ Named G name symbol ∧
          CellsAt G F sc.frame inner.upvalues cells
  kind_eq : inner.kind = kind
  upvalues : ∀ key ∈ inner.upvalues, ∃ scope ∈ sc.stack, ∃ n, (n, key) ∈ scope.entries
  boxed : ∀ {key index}, G.bindings.get? key = some ⟨sc.nextFrame, .boxed index⟩ →
    index ∈ boxes body

def namesClass (sc : Scopes) (name : String) (value : Code) (instr : Instr) : Prop :=
  if sc.atTop then DefinesGlobal G name value instr
  else ∃ c, AssignsKey G F sc.frame sc.nextKey value c ∧ instr = .evaluate c

def declaresClass (sc : Scopes) (code : List Instr) : Prop :=
  if sc.atTop then code = []
  else ∃ instr, DeclaresLocal G F sc (.constant .nil) instr ∧ code = [instr]

mutual

def stmt (F : FunctionState) (sc : Scopes) : Stmt → List Instr → Prop
  | .expression e, code => ∃ c, expr G F sc e c ∧
      code = [.evaluate (if F.kind = .script && sc.atTop then
        .assignVariable Lower.resultVariable c else c)]
  | .print e, code => ∃ c, expr G F sc e c ∧ code = [.print c]
  | .declare name initial, code => ∃ c instr, expr? G F sc initial c ∧
      DeclaresVariable G F sc name c instr ∧ code = [instr]
  | .block body, code => stmts F sc.push body code
  | .branch cond yes none, code => ∃ c y, expr G F sc cond c ∧
      stmt F sc yes y ∧ code = [.branch c y []]
  | .branch cond yes (some no), code => ∃ c y n, expr G F sc cond c ∧
      stmt F sc yes y ∧ stmt F (yes.walk sc) no n ∧ code = [.branch c y n]
  | .loop cond body, code => ∃ c b, expr G F sc cond c ∧ stmt F sc body b ∧ code = [.loop c b]
  | .function decl, code =>
    if sc.atTop then ∃ c instr, closure F sc .function decl c ∧
      DefinesGlobal G decl.name.name c instr ∧ code = [instr]
    else ∃ instr c c', DeclaresLocal G F sc (.constant .nil) instr ∧
      closure F (sc.declare decl.name.name) .function decl c ∧
        AssignsKey G F sc.frame sc.nextKey c c' ∧ code = [instr, .evaluate c']
  | .leave none, code => code = [.leave (Lower.bareReturn F.kind)]
  | .leave (some e), code => ∃ c, expr G F sc e c ∧ code = [.leave c]
  | .classDecl name none ms, code => ∃ declared symbol v named rest,
      declaresClass G F sc declared ∧ Named G name symbol ∧ Spare G F sc.frame v ∧
        namesClass G F sc name (.readVariable v) named ∧ methods F v (sc.declare name) ms rest ∧
            code = declared ++
              .evaluate (.assignVariable v (.newClass symbol none)) :: named :: rest
  | .classDecl name (some superclass) ms, code => ∃ declared c u symbol v named opened rest,
      declaresClass G F sc declared ∧ expr G F (sc.declare name) superclass c ∧
        Spare G F sc.frame u ∧ Named G name symbol ∧ Spare G F sc.frame v ∧ u ≠ v ∧
          namesClass G F sc name (.readVariable v) named ∧
            DeclaresLocal G F (sc.declare name).push (.readVariable u) opened ∧
              methods F v ((sc.declare name).push.declare "super") ms rest ∧
                code = declared ++ .evaluate (.assignVariable u c) ::
                  .evaluate (.assignVariable v (.newClass symbol (some u))) ::
                    named :: opened :: rest

/-- The code of statements, one after another. -/
def stmts (F : FunctionState) (sc : Scopes) : List Stmt → List Instr → Prop
  | [], code => code = []
  | s :: rest, code => ∃ first next, stmt F sc s first ∧ stmts F (s.walk sc) rest next ∧
      code = first ++ next

def closure (F : FunctionState) (sc : Scopes) (kind : FunctionKind) :
    FunctionDecl → Code → Prop
  | .mk name params body, code => ∃ inner start rest,
      opening G inner sc kind params start ∧
        stmts inner (sc.openFunction kind.hasReceiver params) body rest ∧
          ClosureOf G F sc name.name params.length kind inner
            (start ++ rest ++ [.leave (Lower.bareReturn kind)]) code

def methods (F : FunctionState) (classVariable : Nat) (sc : Scopes) :
    List FunctionDecl → List Instr → Prop
  | [], code => code = []
  | m :: rest, code => ∃ c symbol code', closure F sc (.ofMethod m.name.name) m c ∧
      Named G m.name.name symbol ∧ methods F classVariable (m.walk true sc) rest code' ∧
        code = .addMethod classVariable symbol c :: code'

end

/-- The body of a whole program around the code of its statements. -/
def scriptBody (code : List Instr) : List Instr :=
  .evaluate (.assignVariable Lower.resultVariable (.constant .nil)) :: code ++
    [.leave (.readVariable Lower.resultVariable)]

/-- The code of a whole program: declaration 0 of the unit is the function
around its statements. -/
structure Script (G : Final) (F : FunctionState) (program : Program) (code : List Instr) :
    Prop where
  kind : F.kind = .script
  upvalues : F.upvalues = []
  statements : stmts G F {} program code
  function : G.unit.function? 0 = some ⟨F.locals, scriptBody code⟩
  result : Lower.resultVariable < F.locals
  unbound : ∀ {key storage}, G.bindings.get? key = some ⟨0, storage⟩ →
    storage.index ≠ Lower.resultVariable
  boxed : ∀ {key index}, G.bindings.get? key = some ⟨0, .boxed index⟩ → index ∈ boxes code
  injective : ∀ {k k' frame storage storage'}, G.bindings.get? k = some ⟨frame, storage⟩ →
    G.bindings.get? k' = some ⟨frame, storage'⟩ → storage.index = storage'.index → k = k'

end Translate

end ScriptMachine
