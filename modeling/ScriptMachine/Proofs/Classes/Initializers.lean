/-
ScriptMachine.Proofs.Classes.Initializers — what a call of a class comes to.
-/
import ScriptMachine.Proofs.Classes.Making

namespace ScriptMachine

/-! ## §1 Returns -/

variable {i : Instr} {s : Store} {count : Nat} {target : CallTarget}

mutual

def Stmt.returned : Stmt → List Expr
  | .leave (some e) => [e]
  | .block body => returnedAll body
  | .branch _ yes none => yes.returned
  | .branch _ yes (some no) => yes.returned ++ no.returned
  | .loop _ body => body.returned
  | _ => []

def returnedAll : List Stmt → List Expr
  | [] => []
  | s :: rest => s.returned ++ returnedAll rest

end

/-- The expressions whose values a function may return. -/
def FunctionDecl.returned : FunctionDecl → List Expr
  | .mk _ _ body => returnedAll body

/-! ## §2 Leaves -/

mutual

def Instr.Leaves (L : Code → Prop) : Instr → Prop
  | .leave e => L e
  | .branch _ yes no => leaves L yes ∧ leaves L no
  | .loop _ body => leaves L body
  | _ => True

def leaves (L : Code → Prop) : List Instr → Prop
  | [] => True
  | i :: rest => i.Leaves L ∧ leaves L rest

end

variable {L : Code → Prop}

theorem leaves_append {a b : List Instr} (ha : leaves L a) (hb : leaves L b) :
    leaves L (a ++ b) := by
  induction a with
  | nil => exact hb
  | cons i rest ih => exact ⟨ha.1, ih ha.2⟩

namespace Translate

variable {G : Final} {F : FunctionState} {sc : Scopes} {value : Code} {instr : Instr}
  {name : String} {code : List Instr}

theorem DeclaresLocal.leaves (h : DeclaresLocal G F sc value instr) : instr.Leaves L := by
  obtain ⟨storage, _, _, rfl⟩ := h
  trivial

theorem DeclaresVariable.leaves (h : DeclaresVariable G F sc name value instr) :
    instr.Leaves L := by
  unfold DeclaresVariable at h
  split at h
  · obtain ⟨_, _, rfl⟩ := h
    trivial
  · exact h.leaves

theorem namesClass_leaves (h : namesClass G F sc name value instr) : instr.Leaves L := by
  unfold namesClass at h
  split at h
  · obtain ⟨_, _, rfl⟩ := h
    trivial
  · obtain ⟨_, _, rfl⟩ := h
    trivial

theorem declaresClass_leaves (h : declaresClass G F sc code) : leaves L code := by
  unfold declaresClass at h
  split at h
  · subst h
    trivial
  · obtain ⟨instr, hi, rfl⟩ := h
    exact ⟨hi.leaves, trivial⟩

theorem opening_leaves {kind : FunctionKind} {params : List String}
    (h : opening G F sc kind params code) : leaves L code := by
  have hpar : ∀ {params index sc code}, parameters G F index params sc code → leaves L code := by
    intro params
    induction params with
    | nil =>
      intro index sc code h
      subst h
      trivial
    | cons name rest ih =>
      intro index sc code h
      obtain ⟨instr, code', hd, hr, rfl⟩ := h
      exact ⟨hd.leaves, ih hr⟩
  unfold opening at h
  split at h
  · obtain ⟨instr, code', hd, hp, rfl⟩ := h
    exact ⟨hd.leaves, hpar hp⟩
  · exact hpar h

theorem methods_leaves {v : Nat} {ms : List FunctionDecl} (h : methods G F v sc ms code) :
    leaves L code := by
  induction ms generalizing sc code with
  | nil =>
    subst h
    trivial
  | cons m rest ih =>
    obtain ⟨c, symbol, code', _, _, hr, rfl⟩ := h
    exact ⟨trivial, ih hr⟩

mutual

theorem stmt_leaves {sc : Scopes} (hbare : L (Lower.bareReturn F.kind)) :
    ∀ {s : Stmt} {code : List Instr}, Translate.stmt G F sc s code →
      (∀ {x sc c}, x ∈ s.returned → Translate.expr G F sc x c → L c) → leaves L code
  | .expression _, _, ⟨_, _, heq⟩, _ => heq ▸ ⟨trivial, trivial⟩
  | .print _, _, ⟨_, _, heq⟩, _ => heq ▸ ⟨trivial, trivial⟩
  | .declare _ _, _, ⟨_, _, _, hd, heq⟩, _ => heq ▸ ⟨hd.leaves, trivial⟩
  | .block body, _, hb, hx => by
    exact stmts_leaves hbare hb hx
  | .branch _ _ none, _, ⟨_, _, _, hy, heq⟩, hx => by
    exact heq ▸ ⟨⟨stmt_leaves hbare hy hx, trivial⟩, trivial⟩
  | .branch _ _ (some _), _, ⟨_, _, _, _, hy, hn, heq⟩, hx => by
    subst heq
    refine ⟨⟨stmt_leaves hbare hy ?_, stmt_leaves hbare hn ?_⟩, trivial⟩
    · exact fun hmem => hx (List.mem_append_left _ hmem)
    · exact fun hmem => hx (List.mem_append_right _ hmem)
  | .loop _ _, _, ⟨_, _, _, hb, heq⟩, hx => by
    exact heq ▸ ⟨stmt_leaves hbare hb hx, trivial⟩
  | .function decl, _, hs, _ => by
    rw [Translate.stmt] at hs
    split at hs
    · obtain ⟨c, instr, _, ⟨slot, _, rfl⟩, rfl⟩ := hs
      exact ⟨trivial, trivial⟩
    · obtain ⟨instr, c, c', hd, _, _, rfl⟩ := hs
      exact ⟨hd.leaves, trivial, trivial⟩
  | .leave none, _, hs, _ => by
    subst hs
    exact ⟨hbare, trivial⟩
  | .leave (some _), _, ⟨_, he, heq⟩, hx => by
    exact heq ▸ ⟨hx List.mem_cons_self he, trivial⟩
  | .classDecl name none _, _, ⟨_, _, v, _, _, hd, _, _, hn, hms, heq⟩, _ => by
    subst heq
    exact leaves_append (declaresClass_leaves hd)
      ⟨trivial, namesClass_leaves hn, methods_leaves hms⟩
  | .classDecl name (some _) _, _,
      ⟨_, c, u, _, v, _, _, _, hd, _, _, _, _, _, hn, ho, hms, heq⟩, _ => by
    subst heq
    exact leaves_append (declaresClass_leaves hd)
      ⟨trivial, trivial, namesClass_leaves hn, ho.leaves, methods_leaves hms⟩

theorem stmts_leaves {sc : Scopes} (hb : L (Lower.bareReturn F.kind)) :
    ∀ {body : List Stmt} {code : List Instr}, Translate.stmts G F sc body code →
      (∀ {x sc c}, x ∈ returnedAll body → Translate.expr G F sc x c → L c) → leaves L code
  | [], _, heq, _ => heq ▸ trivial
  | _ :: _, _, ⟨_, _, hs, hr, heq⟩, hx => by
    subst heq
    refine leaves_append (stmt_leaves hb hs ?_) (stmts_leaves hb hr ?_)
    · exact fun hmem => hx (List.mem_append_left _ hmem)
    · exact fun hmem => hx (List.mem_append_right _ hmem)

end

end Translate

/-- The code of an expression whose value a function may return. -/
def CodeUnit.Returns (unit : CodeUnit) (decl : FunctionDecl) (e : Code) : Prop :=
  ∃ x ∈ decl.returned, ∃ G F sc, G.unit = unit ∧ Translate.expr G F sc x e

def EndsBare (code : List Instr) : Prop := ∃ front, code = front ++ [.leave .receiver]

theorem EndsBare.cons {rest : List Instr} (h : EndsBare (i :: rest)) (hi : i ≠ .leave .receiver) :
    EndsBare rest := by
  obtain ⟨front, heq⟩ := h
  cases front with
  | nil =>
    cases heq
    exact absurd rfl hi
  | cons j front =>
    obtain ⟨_, rfl⟩ := List.cons.inj heq
    exact ⟨front, rfl⟩

theorem CodeUnit.Declares.initializer {unit : CodeUnit} {d : Nat} {decl : FunctionDecl}
    (h : unit.Declares d decl) (hn : decl.name.name = "init") :
    ∃ f, unit.function? d = some f ∧ EndsBare f.body ∧
      leaves (fun e => e = .receiver ∨ unit.Returns decl e) f.body := by
  obtain ⟨G, F, sc, prototype, cells, rfl, h⟩ := h
  obtain ⟨name, params, body⟩ := decl
  obtain ⟨inner, start, rest, hsta, hr, hof⟩ := h
  obtain ⟨declaration, _, _, _, heq, hf, _⟩ := hof.exists_code
  cases heq
  have hk : inner.kind = .initializer := by
    rw [hof.kind_eq, hn]
    rfl
  have hb : Lower.bareReturn inner.kind = .receiver := by rw [hk]; rfl
  rw [← hof.kind_eq, hb] at hf
  refine ⟨_, hf, ⟨start ++ rest, rfl⟩, ?_⟩
  refine leaves_append (leaves_append (Translate.opening_leaves hsta) ?_) ⟨.inl rfl, trivial⟩
  exact Translate.stmts_leaves (.inl hb) hr fun hmem hx =>
    .inr ⟨_, hmem, G, inner, _, rfl, hx⟩

/-! ## §3 Activations -/

def operands : Fragment := ⟨fun _ => True, Pending.Operand, fun _ => False⟩

theorem operands_closed : operands.Closed :=
  .of_operands (fun _ => trivial) id fun _ hnot ht => absurd ht hnot

def Pending.Leaves (L : Code → Prop) : Pending → Prop
  | .leave => False
  | .branch yes no => leaves L yes ∧ leaves L no
  | .loopTest _ body => leaves L body
  | .rest code => leaves L code
  | .again _ body => leaves L body
  | _ => True

theorem Instr.Leaves.first (h : i.Leaves L) (hi : ∀ e, i ≠ .leave e) : i.first.1.Leaves L := by
  cases i with
  | branch | loop => exact h
  | leave e => exact absurd rfl (hi e)
  | _ => trivial

def leaving (L : Code → Prop) : Fragment := ⟨fun _ => True, Pending.Leaves L, leaves L⟩

theorem leaving_closed : (leaving L).Closed := by
  refine .of_operands (fun _ => trivial) (fun {task} ht => ?_) fun {task} w hnot ht => ?_
  · cases task with
    | branch | loopTest | leave | rest | again => exact absurd ht id
    | _ => trivial
  · cases task with
    | branch yes no =>
      refine ⟨Fragment.mem_none, ?_⟩
      show leaves L (if w.isFalsy then no else yes)
      split
      · exact ht.2
      · exact ht.1
    | loopTest condition body =>
      simp only [Pending.follow]
      split
      · exact ⟨Fragment.mem_none, trivial⟩
      · exact ⟨Fragment.mem_one ht, ht⟩
    | leave => exact absurd ht id
    | rest code => exact ⟨Fragment.mem_none, ht⟩
    | again condition body => exact ⟨Fragment.mem_one ht, trivial⟩
    | discard | print | defineGlobal | addMethod => exact ⟨Fragment.mem_none, trivial⟩
    | _ => exact absurd trivial hnot

def Waits (L : Code → Prop) (B : List Pending → Prop) (stack : List Pending) : Prop :=
  (∃ code, leaves L code ∧ EndsBare code ∧ (leaving L).Covers [.rest code] stack) ∨
    ∃ below, B below ∧ operands.Covers (.leave :: below) stack

theorem Waits.mono {B B' : List Pending → Prop} {stack : List Pending} (h : Waits L B stack)
    (hB : ∀ {below}, B below → B' below) : Waits L B' stack :=
  h.imp_right fun ⟨below, hb, hcov⟩ => ⟨below, hB hb, hcov⟩

namespace Machine

variable {w : Word}

inductive Constructs (L : Code → Prop) (B : List Pending → Prop) (C : Word → Prop) (self : Word)
    (m : Machine) : Prop
  | body {code : List Instr} : m.control = .run code → m.stack = [] → leaves L code →
      EndsBare code → Constructs L B C self m
  | within {code : List Instr} : (∃ next, m.flow = some next) → leaves L code → EndsBare code →
      (leaving L).Holds [.rest code] m → Constructs L B C self m
  | bare {below : List Pending} : m.stack = .leave :: below →
      m.control = .eval .receiver ∨ m.control = .give self → Constructs L B C self m
  | valued {below : List Pending} : (∃ next, m.flow = some next) → B below →
      operands.Holds (.leave :: below) m → Constructs L B C self m
  | left {w : Word} : m.control = .leave w → m.store.pending = true ∨ w = self ∨ C w →
      Constructs L B C self m

variable {M : Symbol → CodeUnit → Nat → Prop} {B B' : List Pending → Prop} {C C' : Word → Prop}
  {self : Word} {m : Machine} {host : Host}

inductive Advances (F : Fragment) (host : Host) (base : List Pending) (m : Machine) : Prop
  | hands {w : Word} : m.stack = base → m.control = .give w ∨ m.control = .run [] ∧ w = .nil →
      Advances F host base m
  | goes : m.Same (m.step host) → (∃ next, (m.step host).flow = some next) →
      F.Holds base (m.step host) → Advances F host base m
  | fails {w : Word} : m.Same (m.step host) → (m.step host).control = .leave w →
      (m.step host).store.pending = true → Advances F host base m
  | calls : (m.step host).callers = ⟨m.frame, m.stack.tail⟩ :: m.callers →
      F.Covers base m.stack.tail → Advances F host base m

theorem advances (host : Host) [host.Attached] {F : Fragment} (hF : F.Closed)
    (hret : ¬F.task .leave)
    (hcode : m.store.heap.Sectioned M) {first : Pending}
    {others : List Pending} (hf : ∃ next, m.flow = some next) (h : F.Holds (first :: others) m)
    (hblock : ∀ {i rest}, m.control = .run (i :: rest) →
      F.task i.first.1 ∧ F.task (.rest rest) ∧ F.code i.first.2) :
    m.Advances F host (first :: others) := by
  by_cases hbase : m.stack = first :: others → m.below = first :: others
  · cases hF.step host h hbase hf hblock with
    | stays hsame hh hstop hl =>
      cases hc : (m.step host).control with
      | leave w =>
        rcases hl hc with hp | hr
        · exact .fails hsame hc hp
        · exfalso
          have hcov := h.stack
          rcases flow_eq_leave hr with hs | ⟨stack, hs, hb⟩
          · rw [hs] at hcov
            obtain ⟨tasks, heq, _⟩ := hcov
            cases tasks <;> cases heq
          · rw [hs] at hcov hbase
            rcases hcov.top with ⟨ht, _⟩ | heq
            · exact hret ht
            · have hself := (hbase heq.symm).symm.trans hb
              rw [heq] at hself
              exact List.cons_ne_self _ _ hself
      | stopped stop => exact absurd hc hstop
      | _ => exact .goes hsame (exists_flow (by rw [hc]; nofun) (by rw [hc]; nofun)) hh
    | strays htgt hast =>
      have hprep := Serve.prepareCall_eq_some htgt
      exact absurd hast (Store.prepareCall_sectioned hcode hprep).not_astray
    | enters _ _ _ _ hcov heq =>
      refine .calls ?_ hcov
      rw [heq, enter_callers]
  · obtain ⟨hs, hb⟩ := Classical.not_imp.mp hbase
    obtain ⟨w, hg⟩ : ∃ w, _ := hands_of_below (hs ▸ hb)
    exact .hands hs hg

theorem Constructs.of_leave {e : Code} {rest : List Instr}
    (hc : m.control = .run (.leave e :: rest))
    (hb : e ≠ .receiver → B (.rest rest :: m.stack)) :
    m.Same (m.step host) ∧ (m.step host).Constructs L B C self := by
  refine ⟨step_same_of_run hc, ?_⟩
  rw [step_run_cons hc]
  by_cases he : e = .receiver
  · subst he
    exact .bare rfl (.inl rfl)
  · have hctl : ∀ {m' : Machine} {e}, m'.control = .eval e → ∃ next, m'.flow = some next :=
      fun hc => exists_flow (by rw [hc]; nofun) (by rw [hc]; nofun)
    exact .valued (hctl rfl) (hb he) ⟨.nil, fun _ => trivial, nofun⟩

theorem Constructs.step (host : Host) [host.Attached] (hcode : m.store.heap.Sectioned M)
    (h : m.Constructs L B C self) (hself : m.frame.receiver = self)
    (hstays : ∀ {w}, m.control ≠ .leave w) (hB : ∀ {below}, B below → B' below)
    (hbegun : ∀ {e rest}, m.control = .run (.leave e :: rest) → L e → e ≠ .receiver →
      B' (.rest rest :: m.stack))
    (hcame : ∀ {w below}, m.control = .give w → m.stack = .leave :: below → B below → C' w) :
    (m.Same (m.step host) ∧ (m.step host).Constructs L B' C' self) ∨
      ((m.step host).callers = ⟨m.frame, m.stack.tail⟩ :: m.callers ∧
        Waits L B' m.stack.tail) := by
  cases h with
  | @body code hc hs hlvs hends =>
    cases code with
    | nil =>
      obtain ⟨front, heq⟩ := hends
      cases front <;> cases heq
    | cons i rest =>
      left
      by_cases hi : ∃ e, i = .leave e
      · obtain ⟨e, rfl⟩ := hi
        exact Constructs.of_leave hc fun he => hbegun hc hlvs.1 he
      · have hi' : ∀ e, i ≠ .leave e := fun e heq => hi ⟨e, heq⟩
        refine ⟨step_same_of_run hc, ?_⟩
        rw [step_run_cons hc, exec_first]
        refine .within (exists_flow nofun nofun) hlvs.2 (hends.cons (hi' _))
          ⟨?_, fun _ => trivial, nofun⟩
        rw [hs]
        exact Fragment.Covers.nil.cons (hlvs.1.first hi')
  | @within code hf hlvs hends hh =>
    by_cases hret : ∃ e rest, m.control = .run (.leave e :: rest)
    · obtain ⟨e, rest, hc⟩ := hret
      exact .inl (Constructs.of_leave hc fun he => hbegun hc (hh.block hc).1 he)
    · have hb : ∀ {i rest}, m.control = .run (i :: rest) → (leaving L).task i.first.1 ∧
          (leaving L).task (.rest rest) ∧ (leaving L).code i.first.2 := by
        intro i rest hc
        obtain ⟨hi, hr⟩ := hh.block hc
        exact ⟨hi.first fun e heq => hret ⟨e, rest, heq ▸ hc⟩, hr, trivial⟩
      cases advances host leaving_closed id hcode hf hh hb with
      | hands hs hg =>
        refine .inl ⟨step_same_of_receives hs hg id, ?_⟩
        rw [step_receives hs hg]
        exact .body rfl rfl hlvs hends
      | goes hsame hf hh => exact .inl ⟨hsame, .within hf hlvs hends hh⟩
      | fails hsame hc hp => exact .inl ⟨hsame, .left hc (.inl hp)⟩
      | calls hcs hcov => exact .inr ⟨hcs, .inl ⟨code, hlvs, hends, hcov⟩⟩
  | bare hs hc =>
    left
    rcases hc with hc | hc
    · refine ⟨step_same_of_eval hc, ?_⟩
      rw [step_eval hc]
      exact .bare hs (.inr (congrArg Control.give hself))
    · refine ⟨step_same_of_receives hs (.inl hc) id, ?_⟩
      rw [step_receives hs (.inl hc)]
      exact .left rfl (.inr (.inl rfl))
  | @valued below hf hbelow hh =>
    have hb : ∀ {code}, m.control ≠ .run code := fun hc => hh.block hc
    cases advances host operands_closed id hcode hf hh fun hc => absurd hc hb with
    | hands hs hg =>
      have hc := hg.resolve_right fun hc => hb hc.1
      refine .inl ⟨step_same_of_receives hs hg id, ?_⟩
      rw [step_receives hs hg]
      exact .left rfl (.inr (.inr (hcame hc hs hbelow)))
    | goes hsame hf hh => exact .inl ⟨hsame, .valued hf (hB hbelow) hh⟩
    | fails hsame hc hp => exact .inl ⟨hsame, .left hc (.inl hp)⟩
    | calls hcs hcov => exact .inr ⟨hcs, .inr ⟨below, hB hbelow, hcov⟩⟩
  | left hc _ => exact absurd hc hstays

theorem Constructs.returned (h : m.Constructs L B C self) (hc : m.control = .leave w) :
    m.store.pending = true ∨ w = self ∨ C w := by
  have hs : ¬∃ next, m.flow = some next := by
    rw [flow, hc]
    rintro ⟨_, ⟨⟩⟩
  cases h with
  | body hbody => cases hc.symm.trans hbody
  | within hf | valued hf => exact absurd hf hs
  | bare _ hb => rcases hb with hb | hb <;> cases hc.symm.trans hb
  | left hl h =>
    cases hc.symm.trans hl
    exact h

theorem Constructs.of_waits (h : Waits L B m.stack) (hc : m.control = .give w) :
    m.Constructs L B C self := by
  have hf : ∃ next, m.flow = some next :=
    exists_flow (by rw [hc]; nofun) (by rw [hc]; nofun)
  rcases h with ⟨code, hlvs, he, hcov⟩ | ⟨below, hb, hcov⟩
  · exact .within hf hlvs he ⟨hcov, by rw [hc]; nofun, by rw [hc]; nofun⟩
  · exact .valued hf hb ⟨hcov, by rw [hc]; nofun, by rw [hc]; nofun⟩

end Machine

/-! ## §4 Calls -/

theorem Store.prepareCall_class {s' : Store} {callee : Word} {c : Class}
    (hcls : s.heap.deref? callee = some (.ofClass c))
    (h : s.prepareCall callee count = (.ok target, s')) :
    s'.heap.objects = s.heap.objects.push (.ofInstance { classHandle := ⟨callee.payload⟩ }) ∧
      target.receiver = .ofIndex s.heap.size ∧
      ((c.method? s.initializer = none ∧ target.entry = .construct) ∨
        ∃ method k, c.method? s.initializer = some method ∧
          s'.heap.deref? method = some (.closure k) ∧ target.entry = k.entry) := by
  have hmade : ∀ {created}, s.alloc (.ofInstance { classHandle := ⟨callee.payload⟩ }) =
      (.ok created, s') → s'.heap.objects =
        s.heap.objects.push (.ofInstance { classHandle := ⟨callee.payload⟩ }) ∧
          created = .ofIndex s.heap.size := by
    intro created ha
    rcases s.alloc_cases (.ofInstance { classHandle := ⟨callee.payload⟩ }) with
      ⟨_, heq⟩ | ⟨_, heq⟩ <;> cases ha.symm.trans heq
    exact ⟨rfl, rfl⟩
  cases prepareCall_prepared h with
  | closure hd | native hd | bound hd => cases hcls.symm.trans hd
  | plain hd hm ha =>
    cases hcls.symm.trans hd
    exact ⟨(hmade ha).1, (hmade ha).2, .inl ⟨hm, rfl⟩⟩
  | initialized hd hm ha hk =>
    cases hcls.symm.trans hd
    exact ⟨(hmade ha).1, (hmade ha).2, .inr ⟨_, _, hm, hk, rfl⟩⟩

def Heap.Initializer (L : Code → Prop) (heap : Heap) (method : Word) : Prop :=
  ∃ k unit d f, heap.deref? method = some (.closure k) ∧ k.entry = .compiled unit d ∧
    unit.function? d = some f ∧ EndsBare f.body ∧ leaves L f.body

namespace Machine

variable {M : Symbol → CodeUnit → Nat → Prop} {B : List Pending → Prop} {C : Word → Prop}
  {self : Word} {m : Machine} {host : Host} {w v : Word} {caller : Caller}

/-- The call that a machine is about to make comes to a value after `k` more
steps: until then its function waits, and then it goes on with the value. -/
structure Completes (host : Host) (m : Machine) (k : Nat) (w : Word) : Prop where
  waits : ∀ {j}, 0 < j → j ≤ k → m.callers.length < (m.run host j).callers.length
  resumes : (m.run host (k + 1)).callers.length = m.callers.length
  value : (m.run host (k + 1)).control = .give w

def completes? (host : Host) (m : Machine) (k : Nat) : Option Word :=
  if (∀ j ∈ List.range k, m.callers.length < (m.run host (j + 1)).callers.length) ∧
      (m.run host (k + 1)).callers.length = m.callers.length then
    match (m.run host (k + 1)).control with
    | .give w => some w
    | _ => none
  else none

theorem completes?_eq_some {k : Nat} : m.completes? host k = some w ↔ m.Completes host k w := by
  constructor
  · intro h
    unfold completes? at h
    split at h
    · next hall =>
      split at h
      · next w' hc =>
        cases h
        refine ⟨fun {j} hpos hle => ?_, hall.2, hc⟩
        obtain ⟨j, rfl⟩ := Nat.exists_eq_succ_of_ne_zero (Nat.ne_of_gt hpos)
        exact hall.1 j (List.mem_range.mpr hle)
      · cases h
    · cases h
  · intro h
    have hall : ∀ j ∈ List.range k, m.callers.length < (m.run host (j + 1)).callers.length :=
      fun j hj => h.waits (Nat.succ_pos j) (List.mem_range.mp hj)
    rw [completes?, if_pos ⟨hall, h.resumes⟩, h.value]

structure ReturnsValue (host : Host) (m : Machine) (outer : List Caller) (i j : Nat) (e : Code)
    (w : Word) : Prop where
  lt : i < j
  begins : ∃ rest, (m.run host i).control = .run (.leave e :: rest) ∧
    (m.run host j).stack = .leave :: .rest rest :: (m.run host i).stack
  comes : (m.run host j).control = .give w
  callers : (m.run host i).callers = outer ∧ (m.run host j).callers = outer

def Begun (host : Host) (m : Machine) (outer : List Caller) (L : Code → Prop) (j : Nat)
    (below : List Pending) : Prop :=
  ∃ i e rest, i < j ∧ L e ∧ e ≠ .receiver ∧ (m.run host i).callers = outer ∧
    (m.run host i).control = .run (.leave e :: rest) ∧ below = .rest rest :: (m.run host i).stack

/-- The values that were returned before a step. -/
def Returned (host : Host) (m : Machine) (outer : List Caller) (L : Code → Prop) (k : Nat)
    (w : Word) : Prop :=
  ∃ i j e, j < k ∧ L e ∧ e ≠ .receiver ∧ m.ReturnsValue host outer i j e w

inductive Inside (host : Host) (m : Machine) (outer : List Caller) (L : Code → Prop) (self : Word)
    (j : Nat) : Prop
  | running : (m.run host j).callers = outer → (m.run host j).frame.receiver = self →
      (m.run host j).Constructs L (m.Begun host outer L j) (m.Returned host outer L j) self →
        Inside host m outer L self j
  | waiting {above : List Caller} {caller : Caller} :
      (m.run host j).callers = above ++ caller :: outer → caller.frame.receiver = self →
        Waits L (m.Begun host outer L j) caller.stack → Inside host m outer L self j

variable {outer : List Caller} {j k : Nat}

theorem Begun.succ {below : List Pending} (h : m.Begun host outer L j below) :
    m.Begun host outer L (j + 1) below := by
  obtain ⟨i, e, rest, hlt, h⟩ := h
  exact ⟨i, e, rest, Nat.lt_succ_of_lt hlt, h⟩

theorem Inside.length_le (h : m.Inside host outer L self j) :
    outer.length ≤ (m.run host j).callers.length := by
  cases h with
  | running hcs => exact Nat.le_of_eq (congrArg List.length hcs.symm)
  | waiting hcs =>
    rw [hcs, List.length_append, List.length_cons]
    omega

theorem step_leave_cons (hc : m.control = .leave w) (hcs : m.callers = caller :: outer) :
    m.step host =
      { m with
        store := { m.store with depth := m.store.depth - 1 }
        frame := caller.frame
        stack := caller.stack
        callers := outer }.giveUnlessPending w := by
  rw [step_leave hc, unwind, hcs]

theorem gives_of_giveUnlessPending (h : (m.giveUnlessPending v).control = .give w) :
    ¬m.store.pending = true ∧ v = w := by
  unfold giveUnlessPending at h
  split at h
  · cases h
  · next hp =>
    cases h
    exact ⟨hp, rfl⟩

theorem Constructs.of_unwind (hc : m.control = .leave w) (hcs : m.callers = caller :: outer)
    (h : Waits L B caller.stack) :
    (m.step host).callers = outer ∧ (m.step host).frame = caller.frame ∧
      (m.step host).Constructs L B C self := by
  rw [step_leave_cons hc hcs]
  unfold giveUnlessPending
  split
  · next hp => exact ⟨rfl, rfl, .left rfl (.inl hp)⟩
  · exact ⟨rfl, rfl, .of_waits h rfl⟩

theorem Inside.step [host.Attached]
    (hcode : (m.run host j).store.heap.Sectioned M) (h : m.Inside host outer L self j) :
    m.Inside host outer L self (j + 1) ∨
      ∃ w, (m.run host j).callers = outer ∧ (m.run host j).control = .leave w ∧
        ((m.run host j).store.pending = true ∨ w = self ∨ m.Returned host outer L j w) := by
  have hsucc := m.run_succ host j
  cases h with
  | running hcs hself hcon =>
    by_cases hlvs : ∃ w, (m.run host j).control = .leave w
    · obtain ⟨w, hc⟩ := hlvs
      exact .inr ⟨w, hcs, hc, hcon.returned hc⟩
    · left
      have hb : ∀ {e rest}, (m.run host j).control = .run (.leave e :: rest) → L e →
          e ≠ .receiver → m.Begun host outer L (j + 1) (.rest rest :: (m.run host j).stack) :=
        fun hc hL he => ⟨j, _, _, Nat.lt_succ_self j, hL, he, hcs, hc, rfl⟩
      have hcame : ∀ {w below}, (m.run host j).control = .give w →
          (m.run host j).stack = .leave :: below → m.Begun host outer L j below →
            m.Returned host outer L (j + 1) w := by
        rintro w _ hc hs ⟨i, e, rest, hlt, hL, he, hcs', hbeg, rfl⟩
        exact ⟨i, j, e, Nat.lt_succ_self j, hL, he, hlt, ⟨rest, hbeg, hs⟩, hc, hcs', hcs⟩
      rcases hcon.step host hcode hself (fun hc => hlvs ⟨_, hc⟩) Begun.succ hb
        hcame with ⟨hsame, hn⟩ | ⟨hcalls, hw⟩
      · rw [← hsucc] at hsame hn
        refine .running ?_ ?_ hn
        · rw [hsame.callers, hcs]
        · obtain ⟨locals, _, hfr⟩ := hsame.frame
          rw [hfr]
          exact hself
      · rw [← hsucc, hcs] at hcalls
        rw [← List.nil_append (_ :: outer)] at hcalls
        exact .waiting hcalls hself hw
  | @waiting above caller hcs hself hw =>
    left
    replace hw := hw.mono Begun.succ
    by_cases hlvs : ∃ w, (m.run host j).control = .leave w
    · obtain ⟨w, hc⟩ := hlvs
      cases above with
      | nil =>
        obtain ⟨hcs, hfr, hn⟩ := Constructs.of_unwind hc hcs hw
        rw [← hsucc] at hcs hfr hn
        exact .running hcs (hfr ▸ hself) hn
      | cons first above =>
        have hcs : (m.run host (j + 1)).callers = above ++ caller :: outer := by
          rw [hsucc, step_callers_leave hc, hcs]
          rfl
        exact .waiting hcs hself hw
    · have hcs' := step_callers host fun w hc => hlvs ⟨w, hc⟩
      rw [← hsucc, hcs] at hcs'
      split at hcs'
      · rw [← List.cons_append] at hcs'
        exact .waiting hcs' hself hw
      · exact .waiting hcs' hself hw

theorem Completes.of_inside [host.Attached]
    (hcode : ∀ j, (m.run host j).store.heap.Sectioned M) (h : m.Completes host k w) (hk : 0 < k)
    (hins : m.Inside host (caller :: m.callers) L self 1) :
    w = self ∨ m.Returned host (caller :: m.callers) L k w := by
  have hall : ∀ {j}, 0 < j → j ≤ k → m.Inside host (caller :: m.callers) L self j := by
    intro j hpos hle
    induction hpos with
    | refl => exact hins
    | @step j hpos ih =>
      rcases (ih (Nat.le_of_succ_le hle)).step (hcode j) with hn | ⟨v, hcs, hc, _⟩
      · exact hn
      · have hw := h.waits (Nat.succ_pos j) hle
        rw [run_succ, step_callers_leave hc, hcs] at hw
        exact absurd hw (Nat.lt_irrefl _)
  rcases (hall hk (Nat.le_refl k)).step (hcode k) with hn | ⟨v, hcs, hc, hv⟩
  · have hle := hn.length_le
    rw [h.resumes] at hle
    exact absurd hle (Nat.not_succ_le_self _)
  · have hval := h.value
    rw [run_succ, step_leave_cons hc hcs] at hval
    obtain ⟨hp, rfl⟩ := gives_of_giveUnlessPending hval
    exact hv.resolve_left hp

theorem Completes.of_returnsValue {i : Nat} {e : Code} (h : m.Completes host k w)
    (hr : m.ReturnsValue host (caller :: m.callers) i j e v) (hj : j ≤ k) : v = w := by
  obtain ⟨rest, _, hs⟩ := hr.begins
  have hn : (m.run host (j + 1)).control = .leave v ∧
      (m.run host (j + 1)).callers = caller :: m.callers := by
    rw [run_succ, step_receives hs (.inl hr.comes)]
    exact ⟨rfl, hr.callers.2⟩
  have hl : m.run host (j + 1 + 1) = _ :=
    (m.run_succ host (j + 1)).trans (step_leave_cons hn.1 hn.2)
  have hcs : (m.run host (j + 1 + 1)).callers = m.callers := by
    rw [hl, callers_giveUnlessPending]
  have hk : k = j + 1 := by
    have hne : j ≠ k := by
      rintro rfl
      have hres := h.resumes
      rw [hn.2] at hres
      exact absurd hres (Nat.succ_ne_self _)
    have hge : ¬j + 1 + 1 ≤ k := by
      intro hle
      have hw := h.waits (Nat.succ_pos _) hle
      rw [hcs] at hw
      exact absurd hw (Nat.lt_irrefl _)
    omega
  subst hk
  have hval := h.value
  rw [hl] at hval
  exact (gives_of_giveUnlessPending hval).2

theorem enter_starts (host : Host) [host.Attached] (m : Machine) (frame : Frame)
    (f : Function) :
    (m.enter host frame f).stack = [] ∧ (m.enter host frame f).frame.receiver = frame.receiver ∧
      ((m.enter host frame f).control = .run f.body ∨
        (m.enter host frame f).control = .leave .nil ∧
          (m.enter host frame f).store.pending = true) := by
  unfold enter Machine.serve
  dsimp only
  rw [if_pos host.attached_eq]
  split
  · exact ⟨rfl, rfl, .inr ⟨rfl, rfl⟩⟩
  · exact ⟨rfl, rfl, .inl rfl⟩

variable {callee : Word} {args : List Word} {c : Class}

theorem step_call_prepared [host.Attached]
    (hact : m.act host = .call callee args) {result : Except Failure CallTarget}
    {store : Store} (hp : m.store.prepareCall callee args.length = (result, store)) :
    m.step host =
      match result with
      | .ok target =>
        { m with store := store, stack := m.stack.tail }.callTarget host target args
      | .error e => { m with store := store.raise e, stack := m.stack.tail }.leave .nil := by
  rw [step_call hact, call, if_pos host.attached_eq]
  cases result <;> simp [Serve.prepareCall, hp]

inductive Constructing (host : Host) (m : Machine) (L : Code → Prop) (callee : Word) (c : Class) :
    Prop
  | fails {w : Word} : (m.step host).callers = m.callers → (m.step host).control = .leave w →
      Constructing host m L callee c
  | plain : c.method? m.store.initializer = none → (m.step host).callers = m.callers →
      (m.step host).control = .give (.ofIndex m.store.heap.size) →
      (m.step host).store.heap.objects =
        m.store.heap.objects.push (.ofInstance { classHandle := ⟨callee.payload⟩ }) →
      Constructing host m L callee c
  | enters : c.method? m.store.initializer ≠ none →
      m.Inside host (⟨m.frame, m.stack.tail⟩ :: m.callers) L (.ofIndex m.store.heap.size) 1 →
      (m.step host).store.heap.objects =
        m.store.heap.objects.push (.ofInstance { classHandle := ⟨callee.payload⟩ }) →
      Constructing host m L callee c

theorem step_constructing [host.Attached]
    (hact : m.act host = .call callee args)
    (hcls : m.store.heap.deref? callee = some (.ofClass c))
    (hi : ∀ {method}, c.method? m.store.initializer = some method →
      m.store.heap.Initializer L method) :
    m.Constructing host L callee c := by
  cases hp : m.store.prepareCall callee args.length with
  | mk result store =>
    have hstep := step_call_prepared hact hp
    cases result with
    | error e =>
      refine .fails (w := .nil) ?_ ?_ <;> rw [hstep] <;> rfl
    | ok target =>
      dsimp only at hstep
      obtain ⟨ho, hr, ⟨hn, hent⟩ | ⟨method, k, hm, hk, hent⟩⟩ :=
        Store.prepareCall_class hcls hp
      · rw [callTarget, hent] at hstep
        dsimp only at hstep
        unfold giveUnlessPending at hstep
        split at hstep
        · refine .fails (w := .nil) ?_ ?_ <;> rw [hstep] <;> rfl
        · rw [hr] at hstep
          refine .plain hn ?_ ?_ ?_ <;> rw [hstep]
          · rfl
          · rfl
          · exact ho
      · obtain ⟨k', unit, d, f, hk', hcom, hf, he, hlvs⟩ := hi hm
        have hret := m.store.evolves_prepareCall callee args.length
        rw [hp] at hret
        cases hk.symm.trans (hret.heap.toRetains.deref?_closure hk')
        rw [callTarget, hent, hcom] at hstep
        dsimp only at hstep
        rw [hf] at hstep
        refine .enters (by rw [hm]; rintro ⟨⟩) ?_ ?_
        · have hrun : m.run host 1 = m.step host := m.run_succ host 0
          refine .running ?_ ?_ ?_ <;> rw [hrun, hstep]
          · rw [enter_callers]
          · rw [(enter_starts host _ _ _).2.1, hr]
          · obtain ⟨hs, _, hc | ⟨hc, hpend⟩⟩ := enter_starts host _ _ _
            · exact .body hc hs hlvs he
            · exact .left hc (.inl hpend)
        · rw [hstep, enter_store, ← ho]
          unfold Store.entered
          split <;> rfl

theorem Completes.constructs [host.Attached]
    (hcode : ∀ j, (m.run host j).store.heap.Sectioned M)
    (hact : m.act host = .call callee args)
    (hcls : m.store.heap.deref? callee = some (.ofClass c))
    (hi : ∀ {method}, c.method? m.store.initializer = some method →
      m.store.heap.Initializer L method) (h : m.Completes host k w) :
    (m.step host).store.heap.objects =
        m.store.heap.objects.push (.ofInstance { classHandle := ⟨callee.payload⟩ }) ∧
      (w = .ofIndex m.store.heap.size ∨ c.method? m.store.initializer ≠ none ∧
        m.Returned host (⟨m.frame, m.stack.tail⟩ :: m.callers) L k w) := by
  have hrun : m.run host 1 = m.step host := m.run_succ host 0
  -- The calling function waits for longer than one step only if another was entered.
  have hnow : (m.step host).callers = m.callers → k = 0 := by
    intro hcs
    by_contra hk
    have hw := h.waits Nat.zero_lt_one (Nat.pos_of_ne_zero hk)
    rw [hrun, hcs] at hw
    exact absurd hw (Nat.lt_irrefl _)
  cases step_constructing hact hcls hi with
  | fails hcs hc =>
    obtain rfl := hnow hcs
    have hval := h.value
    rw [hrun, hc] at hval
    cases hval
  | plain hn hcs hc ho =>
    obtain rfl := hnow hcs
    have hval := h.value
    rw [hrun, hc] at hval
    cases hval
    exact ⟨ho, .inl rfl⟩
  | enters hs hins ho =>
    have hk : 0 < k := by
      refine Nat.pos_of_ne_zero fun hz => ?_
      subst hz
      have hle := hins.length_le
      rw [h.resumes] at hle
      exact absurd hle (Nat.not_succ_le_self _)
    exact ⟨ho, (Completes.of_inside hcode h hk hins).imp_right fun hcame =>
      ⟨hs, hcame⟩⟩

end Machine

end ScriptMachine
