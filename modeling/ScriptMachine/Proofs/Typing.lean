/-
ScriptMachine.Proofs.Typing — which lowered code keeps cells and values apart.
-/
import Mathlib.Data.List.Forall2
import ScriptMachine.Proofs.Translation

namespace ScriptMachine

variable {T T' : Scheme}

structure Known where
  constant : Word → Prop
  site : Nat → SiteKind → Symbol → Prop

structure Scheme extends Known where
  boxed : Nat → Prop
  cells : Nat
  closure : Nat → Nat → Prop

def Scheme.Cell (T : Scheme) : CellRef → Prop
  | .own index => T.boxed index
  | .captured position => position < T.cells

mutual

def Code.Typed (T : Scheme) : Code → Prop
  | .constant w => T.constant w
  | .receiver => True
  | .argument _ => True
  | .readVariable index => ¬T.boxed index
  | .assignVariable index value => ¬T.boxed index ∧ value.Typed T
  | .newCell _ => False
  | .readCell cell => T.Cell cell
  | .assignCell cell value => T.Cell cell ∧ value.Typed T
  | .readGlobal _ => True
  | .assignGlobal _ value => value.Typed T
  | .negate operand => operand.Typed T
  | .not operand => operand.Typed T
  | .binary _ left right => left.Typed T ∧ right.Typed T
  | .logical _ left right => left.Typed T ∧ right.Typed T
  | .call callee arguments => callee.Typed T ∧ typedArguments T arguments
  | .getProperty object name site => object.Typed T ∧ T.site site .get name
  | .setProperty object name value site => object.Typed T ∧ value.Typed T ∧ T.site site .set name
  | .getSuper superclass self _ => superclass.Typed T ∧ self.Typed T
  | .closure dn _ cells => T.closure dn cells.length ∧ ∀ c ∈ cells, T.Cell c
  | .newClass _ none => True
  | .newClass _ (some index) => ¬T.boxed index

def typedArguments (T : Scheme) : List Code → Prop
  | [] => True
  | e :: rest => e.Typed T ∧ typedArguments T rest

end

def Code.TypedCell (T : Scheme) (e : Code) : Prop := ∃ value, e = .newCell value ∧ value.Typed T

def Code.TypedBox (T : Scheme) (e : Code) : Prop :=
  ∃ index value, e = .assignVariable index value ∧ T.boxed index ∧ value.TypedCell T

def Code.TypedClosure (T : Scheme) (e : Code) : Prop :=
  ∃ dn prototype cells, e = .closure dn prototype cells ∧ e.Typed T

mutual

def Instr.Typed (T : Scheme) : Instr → Prop
  | .evaluate e => e.Typed T ∨ e.TypedBox T
  | .print e => e.Typed T
  | .defineGlobal _ e => e.Typed T
  | .branch condition yes no => condition.Typed T ∧ typedCode T yes ∧ typedCode T no
  | .loop condition body => condition.Typed T ∧ typedCode T body
  | .addMethod classVariable _ method => ¬T.boxed classVariable ∧ method.TypedClosure T
  | .leave e => e.Typed T

def typedCode (T : Scheme) : List Instr → Prop
  | [] => True
  | i :: rest => i.Typed T ∧ typedCode T rest

end

theorem typedCode_append {a b : List Instr} :
    typedCode T (a ++ b) ↔ typedCode T a ∧ typedCode T b := by
  induction a with
  | nil => simp [typedCode]
  | cons i rest ih => simp [typedCode, ih, and_assoc]

def Known.scheme (K : Known) (closure : Nat → Nat → Prop) (body : List Instr) (cells : Nat) :
    Scheme :=
  { K with boxed := (· ∈ Translate.boxes body), cells := cells, closure := closure }

def CodeUnit.Typed (K : Known) (unit : CodeUnit) (dn cells : Nat) : Prop :=
  ∃ closure : Nat → Nat → Prop, closure dn cells ∧
    ∀ {d n}, closure d n → ∃ f, unit.function? d = some f ∧
      typedCode (K.scheme closure f.body n) f.body

structure Known.Le (K K' : Known) : Prop where
  constant : ∀ {w}, K.constant w → K'.constant w
  site : ∀ {site kind name}, K.site site kind name → K'.site site kind name

structure Scheme.Le (T T' : Scheme) : Prop extends Known.Le T.toKnown T'.toKnown where
  boxed : T'.boxed = T.boxed
  cells : T'.cells = T.cells
  closure : T'.closure = T.closure

theorem Scheme.Le.cell (h : T.Le T') {c : CellRef} (hc : T.Cell c) : T'.Cell c := by
  cases c with
  | own index => exact (h.boxed ▸ hc : T'.boxed index)
  | captured position => exact (h.cells ▸ hc : position < T'.cells)

mutual

theorem Code.Typed.mono {T T' : Scheme} (h : T.Le T') : ∀ {e : Code}, e.Typed T → e.Typed T'
  | .constant _, he => h.constant he
  | .receiver, _ => trivial
  | .argument _, _ => trivial
  | .readVariable _, he => by
    rw [Code.Typed, h.boxed]
    exact he
  | .assignVariable _ _, ⟨hi, hv⟩ => by
    rw [Code.Typed, h.boxed]
    exact ⟨hi, hv.mono h⟩
  | .readCell _, he => h.cell he
  | .assignCell _ _, ⟨hc, hv⟩ => ⟨h.cell hc, hv.mono h⟩
  | .readGlobal _, _ => trivial
  | .assignGlobal _ value, hv => Code.Typed.mono h (e := value) hv
  | .negate operand, ho => Code.Typed.mono h (e := operand) ho
  | .not operand, ho => Code.Typed.mono h (e := operand) ho
  | .binary _ _ _, ⟨hl, hr⟩ => ⟨hl.mono h, hr.mono h⟩
  | .logical _ _ _, ⟨hl, hr⟩ => ⟨hl.mono h, hr.mono h⟩
  | .call _ _, ⟨hf, ha⟩ => ⟨hf.mono h, typedArguments.mono h ha⟩
  | .getProperty _ _ _, ⟨ho, hs⟩ => ⟨ho.mono h, h.site hs⟩
  | .setProperty _ _ _ _, ⟨ho, hv, hs⟩ => ⟨ho.mono h, hv.mono h, h.site hs⟩
  | .getSuper _ _ _, ⟨hs, hr⟩ => ⟨hs.mono h, hr.mono h⟩
  | .closure _ _ _, ⟨hd, hc⟩ => ⟨h.closure ▸ hd, fun c hmem => h.cell (hc c hmem)⟩
  | .newClass _ none, _ => trivial
  | .newClass _ (some _), he => by
    rw [Code.Typed, h.boxed]
    exact he

theorem typedArguments.mono {T T' : Scheme} (h : T.Le T') : ∀ {es : List Code},
    typedArguments T es → typedArguments T' es
  | [], _ => trivial
  | _ :: _, ⟨he, hr⟩ => ⟨he.mono h, typedArguments.mono h hr⟩

end

theorem Code.TypedClosure.mono (h : T.Le T') {e : Code} (he : e.TypedClosure T) :
    e.TypedClosure T' := by
  obtain ⟨d, p, cells, heq, ht⟩ := he
  exact ⟨d, p, cells, heq, ht.mono h⟩

mutual

theorem Instr.Typed.mono {T T' : Scheme} (h : T.Le T') : ∀ {i : Instr}, i.Typed T → i.Typed T'
  | .evaluate _, .inl he => .inl (he.mono h)
  | .evaluate _, .inr ⟨index, value, heq, hi, v, hv, ht⟩ =>
    .inr ⟨index, value, heq, h.boxed ▸ hi, v, hv, ht.mono h⟩
  | .print _, he => Code.Typed.mono h he
  | .defineGlobal _ _, he => Code.Typed.mono h he
  | .branch _ _ _, ⟨hc, hy, hn⟩ => ⟨hc.mono h, typedCode.mono h hy, typedCode.mono h hn⟩
  | .loop _ _, ⟨hc, hb⟩ => ⟨hc.mono h, typedCode.mono h hb⟩
  | .addMethod _ _ _, ⟨hv, hm⟩ => ⟨h.boxed ▸ hv, hm.mono h⟩
  | .leave _, he => Code.Typed.mono h he

theorem typedCode.mono {T T' : Scheme} (h : T.Le T') : ∀ {code : List Instr},
    typedCode T code → typedCode T' code
  | [], _ => trivial
  | _ :: _, ⟨hi, hr⟩ => ⟨hi.mono h, typedCode.mono h hr⟩

end

theorem CodeUnit.Typed.mono {K K' : Known} (h : K.Le K') {unit : CodeUnit} {d n : Nat}
    (ht : unit.Typed K d n) : unit.Typed K' d n := by
  obtain ⟨closure, hd, hall⟩ := ht
  refine ⟨closure, hd, fun {d n} hc => ?_⟩
  obtain ⟨f, hf, hb⟩ := hall hc
  have hle : (K.scheme closure f.body n).Le (K'.scheme closure f.body n) := ⟨h, rfl, rfl, rfl⟩
  exact ⟨f, hf, hb.mono hle⟩

mutual

theorem Instr.Typed.boxed {T : Scheme} {index : Nat} : ∀ {i : Instr}, i.Typed T →
    index ∈ Translate.boxesOf i → T.boxed index
  | .evaluate (.assignVariable _ (.newCell _)), ht, hi => by
    rcases ht with ht | ⟨i, _, heq, hboxed, _⟩
    · exact absurd ht.2 id
    · obtain rfl := List.mem_singleton.mp hi
      cases heq
      exact hboxed
  | .branch _ _ _, ⟨_, hy, hn⟩, hi => by
    rw [Translate.boxesOf, List.mem_append] at hi
    rcases hi with hi | hi
    · exact typedCode.boxed hy hi
    · exact typedCode.boxed hn hi
  | .loop _ _, ⟨_, hb⟩, hi => typedCode.boxed hb hi

theorem typedCode.boxed {T : Scheme} {index : Nat} : ∀ {code : List Instr}, typedCode T code →
    index ∈ Translate.boxes code → T.boxed index
  | _ :: _, ⟨hi, hr⟩, hmem => by
    rw [Translate.boxes, List.mem_append] at hmem
    rcases hmem with hmem | hmem
    · exact hi.boxed hmem
    · exact typedCode.boxed hr hmem

end

namespace Translate

variable {G : Final} {F : FunctionState} {T : Scheme} {K : Known}

def Boxed (G : Final) (frame index : Nat) : Prop :=
  ∃ key, G.bindings.get? key = some ⟨frame, .boxed index⟩

def FunctionOf (G : Final) (dn cells : Nat) : Prop :=
  ∃ sc kind params body inner start rest,
    opening G inner sc kind params start ∧
      stmts G inner (sc.openFunction kind.hasReceiver params) body rest ∧ G.unit.function? dn =
          some ⟨inner.locals, start ++ rest ++ [.leave (Lower.bareReturn kind)]⟩ ∧
        inner.kind = kind ∧ kind ≠ .script ∧ inner.upvalues.length = cells ∧
          ∀ {key index}, G.bindings.get? key = some ⟨sc.nextFrame, .boxed index⟩ →
            index ∈ boxes (start ++ rest ++ [.leave (Lower.bareReturn kind)])

structure Fits (G : Final) (F : FunctionState) (frame : Nat) (T : Scheme) : Prop where
  boxed : ∀ {index}, T.boxed index ↔ Boxed G frame index
  cells : T.cells = F.upvalues.length
  constant : ∀ {value w}, literal G value (.constant w) → T.constant w
  site : ∀ {site kind symbol}, SiteOf G site kind symbol → T.site site kind symbol
  function : ∀ {dn cells}, FunctionOf G dn cells → T.closure dn cells
  result : F.kind = .script → ¬T.boxed Lower.resultVariable
  injective : ∀ {k k' storage storage'}, G.bindings.get? k = some ⟨frame, storage⟩ →
    G.bindings.get? k' = some ⟨frame, storage'⟩ → storage.index = storage'.index → k = k'

namespace Fits

variable {frame : Nat} {index : Nat} {value : Code} {sc : Scopes} {instr : Instr}
  {name : String} {code : List Instr} {params : List String} {kind : FunctionKind}

section

variable (h : Fits G F frame T)

include h

theorem nil : (Code.constant .nil).Typed T :=
  h.constant (show literal G .nil (.constant .nil) from rfl)

theorem direct {key : Nat}
    (hk : G.bindings.get? key = some ⟨frame, .direct index⟩) : ¬T.boxed index := by
  intro hb
  obtain ⟨key', hk'⟩ := h.boxed.mp hb
  obtain rfl := h.injective hk hk' rfl
  rw [hk] at hk'
  cases hk'

theorem spare (hs : Spare G F frame index) : ¬T.boxed index := by
  intro hb
  obtain ⟨key, hk⟩ := h.boxed.mp hb
  exact hs.unbound hk rfl

theorem cell {key : Key} {c : CellRef} (hc : CellAt G F frame key c) : T.Cell c := by
  obtain ⟨owner, index, hk, ⟨rfl, rfl⟩ | ⟨_, position, hp, rfl⟩⟩ := hc
  · exact h.boxed.mpr ⟨key, hk⟩
  · show position < T.cells
    rw [h.cells]
    exact (List.getElem?_eq_some_iff.mp hp).1

theorem reads {key : Key} {c : Code} (hc : ReadsKey G F frame key c) : c.Typed T := by
  rcases hc with ⟨index, hk, rfl⟩ | ⟨cell, hcell, rfl⟩
  · exact h.direct hk
  · exact h.cell hcell

theorem assigns {key : Key} {c : Code}
    (hc : AssignsKey G F frame key value c) (hv : value.Typed T) : c.Typed T := by
  rcases hc with ⟨index, hk, rfl⟩ | ⟨cell, hcell, rfl⟩
  · exact ⟨h.direct hk, hv⟩
  · exact ⟨h.cell hcell, hv⟩

end

theorem declares (h : Fits G F sc.frame T) (hd : DeclaresLocal G F sc value instr)
    (hv : value.Typed T) : instr.Typed T := by
  obtain ⟨storage, hk, _, rfl⟩ := hd
  cases storage with
  | direct index => exact .inl ⟨h.direct hk, hv⟩
  | boxed index => exact .inr ⟨index, _, rfl, h.boxed.mpr ⟨_, hk⟩, value, rfl, hv⟩

mutual

theorem expr {sc : Scopes} (h : Fits G F sc.frame T) : ∀ {e : Expr} {c : Code},
    Translate.expr G F sc e c → c.Typed T
  | .literal value, c, he => by
    obtain ⟨w, rfl⟩ : ∃ w, c = .constant w := by
      cases value with
      | nil | bool b | number bits => exact ⟨_, he⟩
      | text s =>
        obtain ⟨i, _, heq⟩ := he
        exact ⟨_, heq⟩
    exact h.constant he
  | .group _, _, he => h.expr (by rwa [Translate.expr] at he)
  | .unary .negate _, _, ⟨_, ho, heq⟩ => by
    rw [heq, Code.Typed]
    exact h.expr ho
  | .unary .not _, _, ⟨_, ho, heq⟩ => by
    rw [heq, Code.Typed]
    exact h.expr ho
  | .binary _ _ _, _, ⟨_, _, hl, hr, heq⟩ => heq ▸ ⟨h.expr hl, h.expr hr⟩
  | .logical _ _ _, _, ⟨_, _, hl, hr, heq⟩ => heq ▸ ⟨h.expr hl, h.expr hr⟩
  | .read _ .global, _, ⟨_, _, heq⟩ => heq ▸ trivial
  | .read _ (.scope _), _, ⟨_, _, hr⟩ => h.reads hr
  | .assign _ .global _, _, ⟨_, hv, _, _, heq⟩ => by
    rw [heq, Code.Typed]
    exact h.expr hv
  | .assign _ (.scope _) _, _, ⟨_, hv, _, _, ha⟩ => h.assigns ha (h.expr hv)
  | .call _ _ _, _, ⟨_, _, hf, has, heq⟩ => heq ▸ ⟨h.expr hf, h.exprs has⟩
  | .get _ _, _, ⟨_, _, _, ho, _, hs, heq⟩ => heq ▸ ⟨h.expr ho, h.site hs⟩
  | .set _ _ _, _, ⟨_, _, _, _, ho, hv, _, hs, heq⟩ => heq ▸ ⟨h.expr ho, h.expr hv, h.site hs⟩
  | .self _ _, _, ⟨_, _, _, _, hr⟩ => h.reads hr
  | .super _ _ _, _, ⟨_, _, _, _, _, _, ⟨_, _, hs⟩, ⟨_, _, hr⟩, _, heq⟩ =>
    heq ▸ ⟨h.reads hs, h.reads hr⟩

theorem exprs {sc : Scopes} (h : Fits G F sc.frame T) : ∀ {es : List Expr}
    {cs : List Code}, Translate.exprs G F sc es cs → typedArguments T cs
  | [], _, heq => heq ▸ trivial
  | _ :: _, _, ⟨_, _, he, hr, heq⟩ => heq ▸ ⟨h.expr he, h.exprs hr⟩

end

section

variable (h : Fits G F sc.frame T)

include h

theorem expr? {initial : Option Expr} {c : Code}
    (he : Translate.expr? G F sc initial c) : c.Typed T := by
  cases initial with
  | none =>
    subst he
    exact h.nil
  | some e => exact h.expr he

theorem declaresVariable
    (hd : DeclaresVariable G F sc name value instr) (hv : value.Typed T) : instr.Typed T := by
  unfold DeclaresVariable at hd
  split at hd
  · obtain ⟨slot, _, rfl⟩ := hd
    exact hv
  · exact h.declares hd hv

theorem declaresClass (hd : Translate.declaresClass G F sc code) : typedCode T code := by
  unfold Translate.declaresClass at hd
  split at hd
  · subst hd
    trivial
  · obtain ⟨instr, hi, rfl⟩ := hd
    exact ⟨h.declares hi (h.nil), trivial⟩

theorem namesClass (hn : Translate.namesClass G F sc name value instr) (hv : value.Typed T) :
    instr.Typed T := by
  unfold Translate.namesClass at hn
  split at hn
  · obtain ⟨slot, _, rfl⟩ := hn
    exact hv
  · obtain ⟨c, hc, rfl⟩ := hn
    exact .inl (h.assigns hc hv)

theorem parameters (hp : Translate.parameters G F index params sc code) : typedCode T code := by
  induction params generalizing index sc code with
  | nil =>
    subst hp
    trivial
  | cons name rest ih =>
    obtain ⟨instr, code', hd, hr, rfl⟩ := hp
    refine ⟨h.declares hd trivial, ih ?_ hr⟩
    rwa [Scopes.declare_frame]

end

theorem opening (h : Fits G F sc.nextFrame T)
    (ho : Translate.opening G F sc kind params code) : typedCode T code := by
  unfold Translate.opening at ho
  split at ho
  · obtain ⟨instr, code', hd, hp, rfl⟩ := ho
    refine ⟨Fits.declares h hd trivial, parameters ?_ hp⟩
    rwa [show (sc.enter.push.declare "this").push.frame = sc.nextFrame from
      Scopes.declare_frame _ _]
  · exact Fits.parameters h ho

theorem closure (h : Fits G F sc.frame T) (hk : kind ≠ .script) {decl : FunctionDecl} {c : Code}
    (hc : Translate.closure G F sc kind decl c) : c.TypedClosure T := by
  obtain ⟨name, params, body⟩ := decl
  obtain ⟨inner, start, rest, hsta, hr, hof⟩ := hc
  obtain ⟨dn, prototype, cells, symbol, rfl, hf, _, _, hcells⟩ := hof.exists_code
  refine ⟨dn, prototype, cells, rfl, h.function ?_, ?_⟩
  · exact ⟨sc, kind, params, body, inner, start, rest, hsta, hr, hf, hof.kind_eq, hk,
      hcells.length_eq, hof.boxed⟩
  · intro c hmem
    obtain ⟨position, hlt, rfl⟩ := List.getElem_of_mem hmem
    exact h.cell (hcells.get (hcells.length_eq ▸ hlt) hlt)

mutual

theorem stmt {sc : Scopes} (h : Fits G F sc.frame T) : ∀ {s : Stmt} {code : List Instr},
    Translate.stmt G F sc s code → typedCode T code
  | .expression _, _, ⟨c, he, heq⟩ => by
    subst heq
    refine ⟨.inl ?_, trivial⟩
    split
    · next hscr =>
      simp only [Bool.and_eq_true, decide_eq_true_eq] at hscr
      exact ⟨h.result hscr.1, h.expr he⟩
    · exact h.expr he
  | .print _, _, ⟨_, he, heq⟩ => heq ▸ ⟨h.expr he, trivial⟩
  | .declare _ _, _, ⟨_, _, he, hd, heq⟩ => heq ▸ ⟨h.declaresVariable hd (h.expr? he), trivial⟩
  | .block body, _, hb => by
    exact stmts (show Fits G F sc.push.frame T from h) hb
  | .branch _ _ none, _, ⟨_, _, hc, hy, heq⟩ => heq ▸ ⟨⟨h.expr hc, h.stmt hy, trivial⟩, trivial⟩
  | .branch _ yes (some _), _, ⟨_, _, _, hc, hy, hn, heq⟩ => by
    subst heq
    exact ⟨⟨h.expr hc, h.stmt hy, stmt (by rwa [(yes.walk_extends sc).frame]) hn⟩, trivial⟩
  | .loop _ _, _, ⟨_, _, hc, hb, heq⟩ => heq ▸ ⟨⟨h.expr hc, h.stmt hb⟩, trivial⟩
  | .function decl, _, hs => by
    rw [Translate.stmt] at hs
    split at hs
    · obtain ⟨c, instr, hc, ⟨slot, _, rfl⟩, rfl⟩ := hs
      obtain ⟨_, _, _, _, ht⟩ := h.closure (by decide) hc
      exact ⟨ht, trivial⟩
    · obtain ⟨instr, c, c', hd, hc, ha, rfl⟩ := hs
      have h' : Fits G F (sc.declare decl.name.name).frame T := by rwa [Scopes.declare_frame]
      obtain ⟨_, _, _, _, ht⟩ := h'.closure (by decide) hc
      exact ⟨h.declares hd (h.nil), .inl (h.assigns ha ht), trivial⟩
  | .leave none, _, hs => by
    subst hs
    refine ⟨?_, trivial⟩
    unfold Lower.bareReturn
    split
    · trivial
    · exact h.nil
  | .leave (some _), _, ⟨_, he, heq⟩ => heq ▸ ⟨h.expr he, trivial⟩
  | .classDecl name none _, _, ⟨_, _, v, _, _, hd, _, hv, hn, hms, heq⟩ => by
    subst heq
    rw [typedCode_append]
    refine ⟨h.declaresClass hd, .inl ⟨h.spare hv, trivial⟩, h.namesClass hn (h.spare hv), ?_⟩
    exact methods (by rwa [Scopes.declare_frame]) (h.spare hv) hms
  | .classDecl name (some _) _, _,
      ⟨_, _, u, _, v, _, _, _, hd, he, hu, _, hv, _, hn, ho, hms, heq⟩ => by
    subst heq
    have h' : Fits G F (sc.declare name).frame T := by rwa [Scopes.declare_frame]
    rw [typedCode_append]
    refine ⟨h.declaresClass hd, .inl ⟨h.spare hu, h'.expr he⟩, .inl ⟨h.spare hv, h.spare hu⟩,
      h.namesClass hn (h.spare hv), ?_, ?_⟩
    · exact Fits.declares h' ho (h.spare hu)
    · refine methods ?_ (h.spare hv) hms
      exact h'

theorem stmts {sc : Scopes} (h : Fits G F sc.frame T) : ∀ {body : List Stmt}
    {code : List Instr}, Translate.stmts G F sc body code → typedCode T code
  | [], _, heq => heq ▸ trivial
  | s :: _, _, ⟨_, _, hs, hr, heq⟩ => by
    subst heq
    rw [typedCode_append]
    exact ⟨h.stmt hs, stmts (by rwa [(s.walk_extends sc).frame]) hr⟩

theorem methods {sc : Scopes} (h : Fits G F sc.frame T) {v : Nat} (hv : ¬T.boxed v) :
    ∀ {ms : List FunctionDecl} {code : List Instr}, Translate.methods G F v sc ms code →
      typedCode T code
  | [], _, heq => heq ▸ trivial
  | m :: _, _, ⟨_, _, _, hc, _, hr, heq⟩ => by
    subst heq
    refine ⟨⟨hv, h.closure (FunctionKind.ofMethod_ne_script _) hc⟩, ?_⟩
    exact methods (by rwa [(m.walk_extends true sc).frame]) hv hr

end

end Fits

theorem FunctionOf.typed {dn cells : Nat} (h : FunctionOf G dn cells)
    (hc : ∀ {value w}, literal G value (.constant w) → K.constant w)
    (hs : ∀ {site kind symbol}, SiteOf G site kind symbol → K.site site kind symbol)
    (hinj : ∀ {k k' frame storage storage'}, G.bindings.get? k = some ⟨frame, storage⟩ →
      G.bindings.get? k' = some ⟨frame, storage'⟩ → storage.index = storage'.index → k = k')
    {closure : Nat → Nat → Prop} (hf : ∀ {d n}, FunctionOf G d n → closure d n) :
    ∃ f, G.unit.function? dn = some f ∧ typedCode (K.scheme closure f.body cells) f.body := by
  obtain ⟨sc, kind, params, body, inner, start, rest, hsta, hr, hfun, hkind, hne, hlen, hb⟩ := h
  refine ⟨_, hfun, ?_⟩
  let T : Scheme := { K with boxed := Boxed G sc.nextFrame, cells := cells, closure := closure }
  have hfits : Fits G inner sc.nextFrame T :=
    { boxed := Iff.rfl, cells := hlen.symm, constant := hc, site := hs, function := hf
      result := fun heq => absurd (hkind.symm.trans heq) hne, injective := hinj }
  have hbody : typedCode T (start ++ rest ++ [.leave (Lower.bareReturn kind)]) := by
    rw [typedCode_append, typedCode_append]
    refine ⟨⟨hfits.opening hsta, ?_⟩, ?_, trivial⟩
    · refine Fits.stmts ?_ hr
      rwa [Scopes.openFunction_frame]
    · unfold Lower.bareReturn
      split
      · trivial
      · exact hfits.nil
  have hsame : T = K.scheme closure (start ++ rest ++ [.leave (Lower.bareReturn kind)]) cells := by
    have hset : Boxed G sc.nextFrame =
        (· ∈ boxes (start ++ rest ++ [.leave (Lower.bareReturn kind)])) := by
      funext index
      exact propext ⟨fun ⟨_, hk⟩ => hb hk, fun hmem => hbody.boxed hmem⟩
    simp [T, Known.scheme, hset]
  rwa [← hsame]

theorem Script.typed {program : Program} {code : List Instr} (h : Script G F program code)
    (hc : ∀ {value w}, literal G value (.constant w) → K.constant w)
    (hs : ∀ {site kind symbol}, SiteOf G site kind symbol → K.site site kind symbol) :
      G.unit.Typed K 0 0 := by
  refine ⟨fun d n => (d = 0 ∧ n = 0) ∨ FunctionOf G d n, .inl ⟨rfl, rfl⟩, ?_⟩
  rintro d n (⟨rfl, rfl⟩ | hf)
  · refine ⟨_, h.function, ?_⟩
    let T : Scheme := { K with
      boxed := Boxed G 0, cells := 0, closure := fun d n => (d = 0 ∧ n = 0) ∨ FunctionOf G d n }
    have hres : ¬T.boxed Lower.resultVariable := fun ⟨_, hk⟩ => h.unbound hk rfl
    have hfits : Fits G F 0 T :=
      { boxed := Iff.rfl, cells := by rw [h.upvalues]; rfl, constant := hc, site := hs
        function := .inr, result := fun _ => hres, injective := h.injective }
    have hb : typedCode T (scriptBody code) := by
      refine ⟨.inl ⟨hres, hfits.nil⟩, ?_⟩
      rw [List.append_eq, typedCode_append]
      exact ⟨Fits.stmts hfits h.statements, hres, trivial⟩
    have hsame : T = K.scheme T.closure (scriptBody code) 0 := by
      have hset : Boxed G 0 = (· ∈ boxes (scriptBody code)) := by
        funext index
        refine propext ⟨fun ⟨_, hk⟩ => ?_, fun hmem => hb.boxed hmem⟩
        simp only [scriptBody, List.cons_append, boxes, boxes_append, List.mem_append]
        exact .inr (.inl (h.boxed hk))
      simp [T, Known.scheme, hset]
    exact hsame ▸ hb
  · exact hf.typed hc hs h.injective .inr

end Translate

end ScriptMachine
