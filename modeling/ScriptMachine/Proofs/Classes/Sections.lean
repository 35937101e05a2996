/-
ScriptMachine.Proofs.Classes.Sections — the code of class statements.
-/
import ScriptMachine.Proofs.Typing

namespace ScriptMachine

/-! ## §1 Sections -/

variable {made : Option Nat}

structure Roster where
  function : Nat → Prop
  method : Symbol → Nat → Prop
  locals : Nat

def Roster.within (R : Roster) (f : Function) : Roster := { R with locals := f.locals }

mutual

def Code.Settled (R : Roster) : Code → Prop
  | .constant _ | .receiver | .argument _ | .readVariable _ | .readCell _ | .readGlobal _ => True
  | .assignVariable _ value => value.Settled R
  | .newCell value => value.Settled R
  | .assignCell _ value => value.Settled R
  | .assignGlobal _ value => value.Settled R
  | .negate operand => operand.Settled R
  | .not operand => operand.Settled R
  | .binary _ left right => left.Settled R ∧ right.Settled R
  | .logical _ left right => left.Settled R ∧ right.Settled R
  | .call callee arguments => callee.Settled R ∧ settledArguments R arguments
  | .getProperty object _ _ => object.Settled R
  | .setProperty object _ value _ => object.Settled R ∧ value.Settled R
  | .getSuper superclass self _ => superclass.Settled R ∧ self.Settled R
  | .closure dn _ _ => R.function dn
  | .newClass _ _ => False

def settledArguments (R : Roster) : List Code → Prop
  | [] => True
  | e :: rest => e.Settled R ∧ settledArguments R rest

end

def Code.Passes (v : Nat) : Code → Prop
  | .readVariable _ => True
  | .newCell value => value.Passes v
  | .assignCell _ value => value.Passes v
  | .assignVariable index value => index ≠ v ∧ value.Passes v
  | _ => False

def Instr.Makes (R : Roster) (v : Nat) (i : Instr) : Prop :=
  v < R.locals ∧ ∃ name superclass, i = .evaluate (.assignVariable v (.newClass name superclass)) ∧
    ∀ u ∈ superclass, u < R.locals

def Instr.Passes (v : Nat) (i : Instr) : Prop :=
  ∃ e : Code, e.Passes v ∧ (i = .evaluate e ∨ ∃ slot, i = .defineGlobal slot e)

def Instr.Attaches (R : Roster) (v : Nat) (i : Instr) : Prop :=
  ∃ name dn proto cells, i = .addMethod v name (.closure dn proto cells) ∧
    R.function dn ∧ R.method name dn

mutual

def Instr.Settled (R : Roster) : Instr → Prop
  | .evaluate e => e.Settled R
  | .print e => e.Settled R
  | .defineGlobal _ e => e.Settled R
  | .branch condition yes no => condition.Settled R ∧ sectioned R none yes ∧ sectioned R none no
  | .loop condition body => condition.Settled R ∧ sectioned R none body
  | .addMethod _ _ _ => False
  | .leave e => e.Settled R

def sectioned (R : Roster) (made : Option Nat) : List Instr → Prop
  | [] => True
  | i :: rest => i.Settled R ∧ sectioned R none rest ∨
      (∃ v, i.Makes R v ∧ sectioned R (some v) rest) ∨
        ∃ v, made = some v ∧ (i.Passes v ∨ i.Attaches R v) ∧ sectioned R (some v) rest

end

variable {R : Roster}

theorem sectioned.mono : ∀ {code : List Instr}, sectioned R none code →
    sectioned R made code
  | [], _ => trivial
  | _ :: _, .inl h => .inl h
  | _ :: _, .inr (.inl h) => .inr (.inl h)

theorem sectioned_append {a b : List Instr} (ha : sectioned R made a) (hb : sectioned R none b) :
    sectioned R made (a ++ b) := by
  induction a generalizing made with
  | nil => exact hb.mono
  | cons i rest ih =>
    rcases ha with ⟨hi, hr⟩ | ⟨v, hi, hr⟩ | ⟨v, hm, hi, hr⟩
    · exact .inl ⟨hi, ih hr⟩
    · exact .inr (.inl ⟨v, hi, ih hr⟩)
    · exact .inr (.inr ⟨v, hm, hi, ih hr⟩)

theorem sectioned.superclass_lt {u v : Nat} {name : Symbol} {rest : List Instr}
    (h : sectioned R made (.evaluate (.assignVariable v (.newClass name (some u))) :: rest)) :
    u < R.locals := by
  rcases h with ⟨hi, _⟩ | ⟨_, ⟨_, _, _, heq, hu⟩, _⟩ |
    ⟨_, _, ⟨e, he, heq | ⟨_, heq⟩⟩ | ⟨_, _, _, _, heq, _⟩, _⟩
  · exact absurd hi id
  · cases heq
    exact hu u rfl
  · cases heq
    exact absurd he.2 id
  · cases heq
  · cases heq

/-! ## §2 Units -/

variable {M : Symbol → CodeUnit → Nat → Prop}

structure CodeUnit.Lists (M : Symbol → CodeUnit → Nat → Prop) (unit : CodeUnit) (R : Roster) :
    Prop where
  function : ∀ {d}, R.function d →
    ∃ f, unit.function? d = some f ∧ sectioned (R.within f) none f.body
  method : ∀ {name d}, R.method name d → M name unit d

def CodeUnit.Sectioned (M : Symbol → CodeUnit → Nat → Prop) (unit : CodeUnit) (dn : Nat) :
    Prop :=
  ∃ R f, unit.Lists M R ∧ unit.function? dn = some f ∧ R.locals = f.locals ∧ sectioned R none f.body

theorem CodeUnit.Lists.sectioned {unit : CodeUnit} (h : unit.Lists M R) {d : Nat}
    (hd : R.function d) : unit.Sectioned M d := by
  obtain ⟨f, hf, hb⟩ := h.function hd
  exact ⟨R.within f, f, ⟨h.function, h.method⟩, hf, rfl, hb⟩

/-! ## §3 Translations -/

namespace Translate

variable {G : Final} {F : FunctionState} {frame v : Nat} {key : Key} {c : Code} {sc : Scopes}
  {instr : Instr} {name : String} {code : List Instr} {params : List String} {kind : FunctionKind}

def MethodOf (G : Final) (name : Symbol) (dn : Nat) : Prop :=
  ∃ F sc decl proto cells, Named G decl.name.name name ∧
    closure G F sc (.ofMethod decl.name.name) decl (.closure dn proto cells)

def roster (G : Final) (F : FunctionState) : Roster :=
  ⟨fun d => ∃ cells, FunctionOf G d cells, MethodOf G, F.locals⟩

theorem ReadsKey.settled (h : ReadsKey G F frame key c) : c.Settled R := by
  rcases h with ⟨_, _, rfl⟩ | ⟨_, _, rfl⟩ <;> trivial

variable {value : Code}

theorem AssignsKey.settled (h : AssignsKey G F frame key value c)
    (hv : value.Settled R) : c.Settled R := by
  rcases h with ⟨_, _, rfl⟩ | ⟨_, _, rfl⟩ <;> exact hv

theorem DeclaresLocal.settled (h : DeclaresLocal G F sc value instr)
    (hv : value.Settled R) : instr.Settled R := by
  obtain ⟨storage, _, _, rfl⟩ := h
  cases storage <;> exact hv

theorem literal_settled {value : Literal} (h : literal G value c) : c.Settled R := by
  cases value with
  | nil | bool | number => rw [show c = _ from h]; trivial
  | text s =>
    obtain ⟨_, _, rfl⟩ := h
    trivial

mutual

theorem expr_settled {sc : Scopes} : ∀ {e : Expr} {c : Code},
    Translate.expr G F sc e c → c.Settled R
  | .literal _, _, he => literal_settled (by rwa [Translate.expr] at he)
  | .group _, _, he => expr_settled (by rwa [Translate.expr] at he)
  | .unary .negate _, _, ⟨_, ho, heq⟩ => by
    rw [heq, Code.Settled]
    exact expr_settled ho
  | .unary .not _, _, ⟨_, ho, heq⟩ => by
    rw [heq, Code.Settled]
    exact expr_settled ho
  | .binary _ _ _, _, ⟨_, _, hl, hr, heq⟩ => heq ▸ ⟨expr_settled hl, expr_settled hr⟩
  | .logical _ _ _, _, ⟨_, _, hl, hr, heq⟩ => heq ▸ ⟨expr_settled hl, expr_settled hr⟩
  | .read _ .global, _, ⟨_, _, heq⟩ => heq ▸ trivial
  | .read _ (.scope _), _, ⟨_, _, hr⟩ => hr.settled
  | .assign _ .global _, _, ⟨_, hv, _, _, heq⟩ => by
    rw [heq, Code.Settled]
    exact expr_settled hv
  | .assign _ (.scope _) _, _, ⟨_, hv, _, _, ha⟩ => ha.settled (expr_settled hv)
  | .call _ _ _, _, ⟨_, _, hf, has, heq⟩ => heq ▸ ⟨expr_settled hf, exprs_settled has⟩
  | .get _ _, _, ⟨_, _, _, ho, _, _, heq⟩ => by
    rw [heq, Code.Settled]
    exact expr_settled ho
  | .set _ _ _, _, ⟨_, _, _, _, ho, hv, _, _, heq⟩ => heq ▸ ⟨expr_settled ho, expr_settled hv⟩
  | .self _ _, _, ⟨_, _, _, _, hr⟩ => hr.settled
  | .super _ _ _, _, ⟨_, _, _, _, _, _, ⟨_, _, hs⟩, ⟨_, _, hr⟩, _, heq⟩ =>
    heq ▸ ⟨hs.settled, hr.settled⟩

theorem exprs_settled {sc : Scopes} : ∀ {es : List Expr} {cs : List Code},
    Translate.exprs G F sc es cs → settledArguments R cs
  | [], _, heq => heq ▸ trivial
  | _ :: _, _, ⟨_, _, he, hr, heq⟩ => heq ▸ ⟨expr_settled he, exprs_settled hr⟩

end

theorem expr?_settled {initial : Option Expr} (h : Translate.expr? G F sc initial c) :
    c.Settled R := by
  cases initial with
  | none => rw [show c = _ from h]; trivial
  | some e => exact expr_settled h

theorem bareReturn_settled (kind : FunctionKind) : (Lower.bareReturn kind).Settled R := by
  unfold Lower.bareReturn
  split <;> trivial

theorem DeclaresVariable.settled (h : DeclaresVariable G F sc name value instr)
    (hv : value.Settled R) : instr.Settled R := by
  unfold DeclaresVariable at h
  split at h
  · obtain ⟨_, _, rfl⟩ := h
    exact hv
  · exact h.settled hv

theorem DeclaresLocal.passes {u : Nat} (h : DeclaresLocal G F sc (.readVariable u) instr)
    (hv : Spare G F sc.frame v) : instr.Passes v := by
  obtain ⟨storage, hk, _, rfl⟩ := h
  have hh : (storage.hold (.readVariable u)).Passes v := by cases storage <;> trivial
  exact ⟨.assignVariable storage.index _, ⟨hv.unbound hk, hh⟩, .inl rfl⟩

theorem namesClass_passes (h : namesClass G F sc name (.readVariable v) instr)
    (hv : Spare G F sc.frame v) : instr.Passes v := by
  unfold namesClass at h
  split at h
  · obtain ⟨slot, _, rfl⟩ := h
    exact ⟨.readVariable v, trivial, .inr ⟨slot, rfl⟩⟩
  · obtain ⟨c, ⟨index, hk, rfl⟩ | ⟨cell, _, rfl⟩, rfl⟩ := h
    · exact ⟨.assignVariable index (.readVariable v), ⟨hv.unbound hk, trivial⟩, .inl rfl⟩
    · exact ⟨.assignCell cell (.readVariable v), trivial, .inl rfl⟩

theorem declaresClass_sectioned (h : declaresClass G F sc code) : sectioned R none code := by
  unfold declaresClass at h
  split at h
  · subst h
    trivial
  · obtain ⟨instr, hi, rfl⟩ := h
    exact .inl ⟨hi.settled trivial, trivial⟩

theorem parameters_sectioned {index : Nat} (h : parameters G F index params sc code) :
    sectioned R none code := by
  induction params generalizing index sc code with
  | nil =>
    subst h
    trivial
  | cons name rest ih =>
    obtain ⟨instr, code', hd, hr, rfl⟩ := h
    exact .inl ⟨hd.settled trivial, ih hr⟩

theorem opening_sectioned (h : opening G F sc kind params code) : sectioned R none code := by
  unfold opening at h
  split at h
  · obtain ⟨instr, code', hd, hp, rfl⟩ := h
    exact .inl ⟨hd.settled trivial, parameters_sectioned hp⟩
  · exact parameters_sectioned h

theorem closure_function (hk : kind ≠ .script) {decl : FunctionDecl}
    (h : closure G F sc kind decl c) :
    ∃ dn proto cells, c = .closure dn proto cells ∧ (roster G F).function dn := by
  obtain ⟨name, params, body⟩ := decl
  obtain ⟨inner, start, rest, hsta, hr, hof⟩ := h
  obtain ⟨dn, proto, cells, symbol, rfl, hf, _, _, hc⟩ := hof.exists_code
  exact ⟨dn, proto, cells, rfl, _, sc, kind, params, body, inner, start, rest, hsta,
    hr, hf, hof.kind_eq, hk, rfl, hof.boxed⟩

theorem methods_sectioned {ms : List FunctionDecl} (h : methods G F v sc ms code) :
    sectioned (roster G F) (some v) code := by
  induction ms generalizing sc code with
  | nil =>
    subst h
    trivial
  | cons m rest ih =>
    obtain ⟨c, symbol, code', hc, hn, hr, rfl⟩ := h
    obtain ⟨d, p, cells, rfl, hd⟩ := closure_function (FunctionKind.ofMethod_ne_script _) hc
    exact .inr (.inr ⟨v, rfl, .inr ⟨symbol, d, p, cells, rfl, hd, F, sc, m, p, cells, hn, hc⟩,
      ih hr⟩)

mutual

theorem stmt_sectioned {sc : Scopes} : ∀ {s : Stmt} {code : List Instr},
    Translate.stmt G F sc s code → sectioned (roster G F) none code
  | .expression _, _, ⟨c, he, heq⟩ => by
    subst heq
    refine .inl ⟨?_, trivial⟩
    have hc : c.Settled (roster G F) := expr_settled he
    split
    · exact hc
    · exact hc
  | .print _, _, ⟨_, he, heq⟩ => heq ▸ .inl ⟨expr_settled he, trivial⟩
  | .declare _ _, _, ⟨_, _, he, hd, heq⟩ => heq ▸ .inl ⟨hd.settled (expr?_settled he), trivial⟩
  | .block body, _, hb => by
    exact stmts_sectioned hb
  | .branch _ _ none, _, ⟨_, _, hc, hy, heq⟩ =>
    heq ▸ .inl ⟨⟨expr_settled hc, stmt_sectioned hy, trivial⟩, trivial⟩
  | .branch _ _ (some _), _, ⟨_, _, _, hc, hy, hn, heq⟩ =>
    heq ▸ .inl ⟨⟨expr_settled hc, stmt_sectioned hy, stmt_sectioned hn⟩, trivial⟩
  | .loop _ _, _, ⟨_, _, hc, hb, heq⟩ => heq ▸ .inl ⟨⟨expr_settled hc, stmt_sectioned hb⟩, trivial⟩
  | .function decl, _, hs => by
    rw [Translate.stmt] at hs
    split at hs
    · obtain ⟨c, instr, hc, ⟨slot, _, rfl⟩, rfl⟩ := hs
      obtain ⟨_, _, _, rfl, hd⟩ := closure_function (by decide) hc
      exact .inl ⟨hd, trivial⟩
    · obtain ⟨instr, c, c', hd, hc, ha, rfl⟩ := hs
      obtain ⟨_, _, _, rfl, hf⟩ := closure_function (by decide) hc
      have hassi : c'.Settled (roster G F) := ha.settled hf
      exact .inl ⟨hd.settled trivial, .inl ⟨hassi, trivial⟩⟩
  | .leave none, _, hs => by
    subst hs
    exact .inl ⟨bareReturn_settled _, trivial⟩
  | .leave (some _), _, ⟨_, he, heq⟩ => heq ▸ .inl ⟨expr_settled he, trivial⟩
  | .classDecl name none _, _, ⟨_, _, v, _, _, hd, _, hv, hn, hms, heq⟩ => by
    subst heq
    refine sectioned_append (declaresClass_sectioned hd) 
      (.inr (.inl ⟨v, ⟨hv.lt, _, none, rfl, nofun⟩, ?_⟩))
    exact .inr (.inr ⟨v, rfl, .inl (namesClass_passes hn hv), methods_sectioned hms⟩)
  | .classDecl name (some _) _, _,
      ⟨_, c, u, _, v, _, _, _, hd, he, hu, _, hv, _, hn, ho, hms, heq⟩ => by
    subst heq
    have hc : c.Settled (roster G F) := expr_settled he
    have hp := ho.passes (show Spare G F (sc.declare name).push.frame v by
      rwa [show (sc.declare name).push.frame = sc.frame from Scopes.declare_frame _ _])
    refine sectioned_append (declaresClass_sectioned hd)
      (.inl ⟨hc, .inr (.inl ⟨v, ⟨hv.lt, _, some u, rfl, ?_⟩, ?_⟩)⟩)
    · rintro _ ⟨⟩
      exact hu.lt
    · exact .inr (.inr ⟨v, rfl, .inl (namesClass_passes hn hv),
        .inr (.inr ⟨v, rfl, .inl hp, methods_sectioned hms⟩)⟩)

theorem stmts_sectioned {sc : Scopes} : ∀ {body : List Stmt} {code : List Instr},
    Translate.stmts G F sc body code → sectioned (roster G F) none code
  | [], _, heq => heq ▸ trivial
  | _ :: _, _, ⟨_, _, hs, hr, heq⟩ =>
    heq ▸ sectioned_append (stmt_sectioned hs) (stmts_sectioned hr)

end

theorem roster_lists (hM : ∀ {name d}, MethodOf G name d → M name G.unit d) :
    G.unit.Lists M (roster G F) where
  function := by
    rintro d ⟨cells, sc, kind, params, body, inner, start, rest, hsta, hr, hfun, _⟩
    have hb : sectioned (roster G inner) none (start ++ rest) :=
      sectioned_append (opening_sectioned hsta) (stmts_sectioned hr)
    exact ⟨_, hfun, sectioned_append hb (.inl ⟨bareReturn_settled kind, trivial⟩)⟩
  method := hM

theorem Script.sectioned {program : Program} (h : Script G F program code)
    (hM : ∀ {name d}, MethodOf G name d → M name G.unit d) : G.unit.Sectioned M 0 := by
  refine ⟨roster G F, _, roster_lists hM, h.function, rfl, .inl ⟨trivial, ?_⟩⟩
  exact sectioned_append (stmts_sectioned h.statements) (.inl ⟨trivial, trivial⟩)

end Translate

def CodeUnit.Declares (unit : CodeUnit) (dn : Nat) (decl : FunctionDecl) : Prop :=
  ∃ G F sc proto cells, G.unit = unit ∧ Translate.closure G F sc
    (.ofMethod decl.name.name) decl (.closure dn proto cells)

def CodeUnit.Method (initializer : Symbol) (name : Symbol) (unit : CodeUnit) (dn : Nat) :
    Prop :=
  ∃ decl, unit.Declares dn decl ∧ (name = initializer → decl.name.name = "init")

end ScriptMachine
