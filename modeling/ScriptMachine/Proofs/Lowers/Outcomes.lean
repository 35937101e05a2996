/-
ScriptMachine.Proofs.Lowers.Outcomes — what lowering leaves behind, also when
it rejects a program.
-/
import ScriptMachine.Proofs.Growth
import ScriptMachine.Proofs.Lowers.Logic
import ScriptMachine.Proofs.Fittings

namespace ScriptMachine

structure Issues (R : Store → Store → Prop) (tight : Prop) : Prop where
  text : ∀ {s s'}, R s s' → ∀ text,
    ((s.internText text).1 = (s'.internText text).1 ∧
      R (s.internText text).2 (s'.internText text).2) ∨
    (tight ∧ ∃ e, (s.internText text).1 = .error e)
  name : ∀ {s s'}, R s s' → ∀ name,
    (s.intern name).1 = (s'.intern name).1 ∧ R (s.intern name).2 (s'.intern name).2
  slot : ∀ {s s'}, R s s' → ∀ name,
    (s.globalSlot name).1 = (s'.globalSlot name).1 ∧ R (s.globalSlot name).2 (s'.globalSlot name).2
  prototype : ∀ {s s'}, R s s' → ∀ name arity,
    (s.addPrototype name arity).1 = (s'.addPrototype name arity).1 ∧
      R (s.addPrototype name arity).2 (s'.addPrototype name arity).2
  site : ∀ {s s'}, R s s' → ∀ kind,
    (s.addSite kind).1 = (s'.addSite kind).1 ∧ R (s.addSite kind).2 (s'.addSite kind).2

theorem issues_alike : Issues Store.Alike False where
  text h text := .inl ((Fits.internText text).alike h)
  name h name := (Fits.intern name).alike h
  slot h name := (Fits.globalSlot name).alike h
  prototype h name arity := (Fits.addPrototype name arity).alike h
  site h kind := by
    obtain ⟨sites, hk, rfl⟩ := h
    exact ⟨hk.size_eq, _, hk.push _, rfl⟩

namespace Lower

variable {α β : Type}

def stateOf : EStateM.Result CompileError Lowering α → Lowering
  | .ok _ l => l
  | .error _ l => l

def withStore (r : EStateM.Result CompileError Lowering α) (s : Store) :
    EStateM.Result CompileError Lowering α :=
  match r with
  | .ok a l => .ok a (l.withStore s)
  | .error e l => .error e (l.withStore s)

def Beside (R : Store → Store → Prop) (tight : Prop)
    (r r' : EStateM.Result CompileError Lowering α) : Prop :=
  (∃ s, R (stateOf r).store s ∧ r' = withStore r s) ∨ (tight ∧ ∃ e l, r = .error (.heap e) l)

end Lower

structure Lowering.Extends (l l' : Lowering) : Prop where
  store : ∃ ms : List Mention, l'.store = l.store.mentionAll ms
  declarations : ∃ ds : List Declaration, (∀ d ∈ ds, d.linkage ≠ .exported) ∧
    l'.unit.declarations.toList = l.unit.declarations.toList ++ ds

namespace Lowering.Extends

variable {l l' l'' : Lowering}

theorem of_eq (hs : l'.store = l.store) (hu : l'.unit.declarations = l.unit.declarations) :
    l.Extends l' :=
  ⟨⟨[], hs⟩, [], nofun, by rw [hu, List.append_nil]⟩

theorem refl (l : Lowering) : l.Extends l := .of_eq rfl rfl

theorem trans (h : l.Extends l') (h' : l'.Extends l'') : l.Extends l'' := by
  obtain ⟨⟨ms, hms⟩, ds, hds, heq⟩ := h
  obtain ⟨⟨ms', hms'⟩, ds', hds', heq'⟩ := h'
  refine ⟨⟨ms ++ ms', by rw [hms', hms, Store.mentionAll_append]⟩, ds ++ ds', ?_,
    by rw [heq', heq, List.append_assoc]⟩
  intro d hd
  rcases List.mem_append.mp hd with hd | hd
  · exact hds d hd
  · exact hds' d hd

end Lowering.Extends

namespace Lower

variable {α β : Type}

structure Lawful (x : Lower α) : Prop where
  extend : ∀ l : Lowering, l.Extends (stateOf (x l))
  uniform : ∀ {R tight}, Issues R tight → ∀ {l : Lowering} {s : Store}, R l.store s →
    Beside R tight (x l) (x (l.withStore s))

theorem pure_lawful (a : α) : Lawful (pure a : Lower α) where
  extend := .refl
  uniform _ _ s h := .inl ⟨s, h, rfl⟩

theorem throw_lawful (e : CompileError) : Lawful (throw e : Lower α) where
  extend := .refl
  uniform _ _ s h := .inl ⟨s, h, rfl⟩

theorem Lawful.bind {x : Lower α} {f : α → Lower β} (hx : Lawful x) (hf : ∀ a, Lawful (f a)) :
    Lawful (x >>= f) where
  extend l := by
    have hl := hx.extend l
    show l.Extends (stateOf (EStateM.bind x f l))
    unfold EStateM.bind
    cases h : x l with
    | ok a m =>
      rw [h] at hl
      exact hl.trans ((hf a).extend m)
    | error e m =>
      rw [h] at hl
      exact hl
  uniform {R tight} hR {l s} hs := by
    show Beside R tight (EStateM.bind x f l) (EStateM.bind x f (l.withStore s))
    unfold EStateM.bind
    rcases hx.uniform hR hs with ⟨s', hs', heq⟩ | ⟨ht, e, m, hfull⟩
    · rw [heq]
      cases h : x l with
      | ok a m =>
        rw [h] at hs'
        exact (hf a).uniform hR hs'
      | error e m =>
        rw [h] at hs'
        exact .inl ⟨s', hs', rfl⟩
    · rw [hfull]
      exact .inr ⟨ht, e, m, rfl⟩

theorem get_lawful {f : Lowering → Lower β} (hf : ∀ l, Lawful (f l))
    (hb : ∀ l s, f (l.withStore s) = f l) : Lawful (get >>= f) where
  extend l := (hf l).extend l
  uniform {R tight} hR {l s} hs := by
    show Beside R tight (f l l) (f (l.withStore s) (l.withStore s))
    rw [hb]
    exact (hf l).uniform hR hs

theorem modifyGet_lawful {f : Lowering → α × Lowering}
    (hst : ∀ l : Lowering, (f l).2.store = l.store)
    (hu : ∀ l : Lowering, (f l).2.unit.declarations = l.unit.declarations)
    (hb : ∀ l s, f (l.withStore s) = ((f l).1, (f l).2.withStore s)) :
    Lawful (modifyGet f : Lower α) where
  extend l := .of_eq (hst l) (hu l)
  uniform {R _} _ {l s} hs := by
    refine .inl ⟨s, ?_, ?_⟩
    · show R (f l).2.store s
      rw [hst]
      exact hs
    · show (match f (l.withStore s) with | (a, l') => EStateM.Result.ok a l') = _
      rw [hb]
      rfl

theorem modify_lawful {f : Lowering → Lowering} (hst : ∀ l : Lowering, (f l).store = l.store)
    (hu : ∀ l : Lowering, (f l).unit.declarations = l.unit.declarations)
    (hb : ∀ l s, f (l.withStore s) = (f l).withStore s) :
    Lawful (modify f : Lower Unit) :=
  modifyGet_lawful hst hu fun l s => by rw [hb]

theorem onStore_lawful {f : Store → α × Store} (m : Mention)
    (hmen : ∀ s : Store, (f s).2 = s.mention m)
    (hiss : ∀ {R tight}, Issues R tight → ∀ {s s'}, R s s' →
      (f s).1 = (f s').1 ∧ R (f s).2 (f s').2) : Lawful (onStore f) where
  extend l := ⟨⟨[m], hmen l.store⟩, [], nofun, (List.append_nil _).symm⟩
  uniform {_ _} hR {l s} hs := by
    obtain ⟨hnum, hs'⟩ := hiss hR hs
    refine .inl ⟨(f s).2, hs', ?_⟩
    show EStateM.Result.ok (f s).1 { l with store := (f s).2 } = _
    rw [← hnum]
    rfl

theorem declare_lawful {d : Declaration} (hd : d.linkage ≠ .exported) : Lawful (declare d) where
  extend l := by
    refine ⟨⟨[], rfl⟩, [d], fun d' hd' => List.mem_singleton.mp hd' ▸ hd, ?_⟩
    show (l.unit.declarations.push d).toList = _
    rw [Array.toList_push]
  uniform _ _ s hs := .inl ⟨s, hs, rfl⟩

theorem onCurrent_lawful (f : FunctionState → FunctionState) : Lawful (onCurrent f) :=
  modify_lawful (fun _ => rfl) (fun _ => rfl) fun _ _ => rfl

theorem use_lawful (service : Service) : Lawful (use service) := by
  refine get_lawful (fun l => ?_) fun _ _ => rfl
  split
  · exact onCurrent_lawful _
  · refine Lawful.bind (declare_lawful (by simp)) fun _ => ?_
    exact modify_lawful (fun _ => rfl) (fun _ => rfl) fun _ _ => rfl

theorem literal_text (text : String) (l : Lowering) :
    literal (.text text) l =
      match (l.store.internText text).1 with
      | .ok w => .ok (.constant w) (l.withStore (l.store.internText text).2)
      | .error e => .error (.heap e) (l.withStore (l.store.internText text).2) := by
  show (match (l.store.internText text).1 with
    | .ok w => pure (.constant w)
    | .error e => throw (.heap e) : Lower Code) (l.withStore (l.store.internText text).2) = _
  cases (l.store.internText text).1 <;> rfl

theorem text_lawful (text : String) : Lawful (literal (.text text)) where
  extend l := by
    have hl : l.Extends (l.withStore (l.store.internText text).2) :=
      ⟨⟨[.text text], rfl⟩, [], nofun, (List.append_nil _).symm⟩
    rw [literal_text]
    cases (l.store.internText text).1 <;> exact hl
  uniform {R tight} hR {l s} hs := by
    rw [literal_text, literal_text]
    rcases hR.text hs text with ⟨hw, hs'⟩ | ⟨ht, e, hf⟩
    · refine .inl ⟨(s.internText text).2, ?_, ?_⟩
      · cases (l.store.internText text).1 <;> exact hs'
      · show (match (s.internText text).1 with
          | .ok w => _
          | .error e => _) = _
        rw [← hw]
        cases (l.store.internText text).1 <;> rfl
    · rw [hf]
      exact .inr ⟨ht, e, _, rfl⟩

theorem steps_lawful : Steps fun _ x _ => Lawful x where
  done := pure_lawful
  fails := throw_lawful
  seq := Lawful.bind
  look := get_lawful
  change h := modifyGet_lawful h.store (fun l => by rw [h.unit]) h.blind
  uses := use_lawful
  name name := onStore_lawful (.name name) (fun _ => rfl) fun hR _ _ hs => hR.name hs name
  slot name := onStore_lawful (.global name) (fun _ => rfl) fun hR _ _ hs => hR.slot hs name
  prototype name arity :=
    onStore_lawful (.prototype name arity) (fun _ => rfl) fun hR _ _ hs =>
      hR.prototype hs name arity
  site kind := onStore_lawful (.site kind) (fun _ => rfl) fun hR _ _ hs => hR.site hs kind
  text := text_lawful

theorem enterFunction_lawful (name : Ident) (count : Nat) (kind : FunctionKind) :
    Lawful (enterFunction name count kind) := by
  refine get_lawful (fun l => ?_) fun _ _ => rfl
  refine Lawful.bind ?_ fun _ => ?_
  · exact modify_lawful (fun _ => rfl) (fun _ => rfl) fun _ _ => rfl
  · exact Lawful.bind (declare_lawful (by simp)) fun _ => (use_lawful _).bind fun _ =>
      pure_lawful _

theorem leaveFunction_lawful (decl count : Nat) (body : List Instr) (outer : FunctionState)
    (frame : Nat) : Lawful (leaveFunction decl count body outer frame) := by
  refine get_lawful (fun l => ?_) fun _ _ => rfl
  refine Lawful.bind ?_ fun _ => pure_lawful _
  exact modify_lawful (fun _ => rfl) (fun _ => rfl) fun _ _ => rfl

theorem closureOf_lawful (name : String) (count decl : Nat) (upvalues : List Key) :
    Lawful (closureOf name count decl upvalues) :=
  (steps_lawful.prototype _ _).bind fun _ => (onCurrent_lawful _).bind fun _ =>
    (steps_lawful.cellsOf _).bind fun _ => steps_lawful.served _

theorem logic_lawful : Logic fun _ x _ => Lawful x where
  toSteps := steps_lawful
  function name params kind {body _} hb := by
    refine (steps_lawful.checkCount _ _).bind fun _ => get_lawful (fun l => ?_) fun _ _ => rfl
    exact (enterFunction_lawful _ _ _).bind fun _ => (steps_lawful.openScopes _ _).bind fun _ =>
      hb.bind fun _ => (steps_lawful.onScopes _).bind fun _ =>
        (leaveFunction_lawful _ _ _ _ _).bind fun _ => closureOf_lawful _ _ _ _

def scriptAfter (program : Program) (decl : Nat) : Lower CodeUnit := do
  use .stackOverflow
  let result ← newVariable
  let body ← stmts program
  let l ← get
  let lowered : Function :=
    { locals := l.current.locals
      body := .evaluate (.assignVariable result (.constant .nil)) :: body ++
        [.leave (.readVariable result)] }
  return l.unit.define ⟨decl, .words 0, l.current.references.map .own, .lowered lowered⟩

theorem scriptAfter_lawful (program : Program) (decl : Nat) : Lawful (scriptAfter program decl) :=
  (use_lawful _).bind fun _ => logic_lawful.newVariable.bind fun _ =>
    (logic_lawful.stmts program).bind fun _ => get_lawful (fun _ => pure_lawful _) fun _ _ => rfl

theorem scriptAfter_declarations {program : Program} {decl : Nat} {l l' : Lowering}
    {unit : CodeUnit} (h : scriptAfter program decl l = .ok unit l') :
    unit.declarations = l'.unit.declarations := by
  simp only [scriptAfter, bind_eq_ok, get_eq_ok, pure_eq_ok] at h
  obtain ⟨_, _, _, _, _, _, _, _, _, _, _, ⟨rfl, rfl⟩, rfl, rfl⟩ := h
  rfl

end Lower

namespace Store

open Lower

variable {s s' : Store}

def scriptStart (s : Store) (name : String) (caps : List Key) : Lowering :=
  { store := s
    unit := { name := name, declarations := #[⟨name, .exported, .words 0⟩] }
    captured := caps }

theorem compile_eq (s : Store) (name : String) (program : Program) :
    s.compile name program =
      match Capture.captures program with
      | .error e => (.error e, s)
      | .ok caps =>
        match scriptAfter program 0 (s.scriptStart name caps) with
        | .ok unit l => (.ok unit, l.store)
        | .error e l => (.error e, l.store) := rfl

theorem compile_mentions (s : Store) (name : String) (program : Program) :
    ∃ ms : List Mention, (s.compile name program).2 = s.mentionAll ms := by
  rw [compile_eq]
  split
  · exact ⟨[], rfl⟩
  · next caps _ =>
    have h := (scriptAfter_lawful program 0).extend (s.scriptStart name caps)
    split
    · next heq =>
      rw [heq] at h
      exact h.store
    · next heq =>
      rw [heq] at h
      exact h.store

theorem compile_prepares (s : Store) (name : String) (program : Program) :
    s.Prepares (s.compile name program).2 := by
  obtain ⟨ms, hms⟩ := s.compile_mentions name program
  rw [hms]
  exact s.prepares_mentionAll ms

theorem compile_exports {name : String} {program : Program} {unit : CodeUnit}
    (h : s.compile name program = (.ok unit, s')) :
    ∃ ds : List Declaration, (∀ d ∈ ds, d.linkage ≠ .exported) ∧
      unit.declarations.toList = ⟨name, .exported, .words 0⟩ :: ds := by
  rw [compile_eq] at h
  split at h
  · cases h
  · next caps _ =>
    have hl := (scriptAfter_lawful program 0).extend (s.scriptStart name caps)
    split at h
    · next l heq =>
      cases h
      rw [heq] at hl
      obtain ⟨ds, hds, hd⟩ := hl.declarations
      exact ⟨ds, hds, by rw [scriptAfter_declarations heq]; exact hd⟩
    · cases h

theorem compile_uniform {R : Store → Store → Prop} {tight : Prop} (hR : Issues R tight) (h : R s s')
    (name : String) (program : Program) :
    ((s.compile name program).1 = (s'.compile name program).1 ∧
      R (s.compile name program).2 (s'.compile name program).2) ∨
    (tight ∧ ∃ e, (s.compile name program).1 = .error (.heap e)) := by
  rw [compile_eq, compile_eq]
  cases Capture.captures program with
  | error e => exact .inl ⟨rfl, h⟩
  | ok caps =>
    have ha : Beside R tight (scriptAfter program 0 (s.scriptStart name caps))
        (scriptAfter program 0 (s'.scriptStart name caps)) :=
      (scriptAfter_lawful program 0).uniform hR h
    dsimp only
    rcases ha with ⟨s'', hs'', heq⟩ | ⟨ht, e, l, hf⟩
    · rw [heq]
      cases hr : scriptAfter program 0 (s.scriptStart name caps) with
      | ok _ l =>
        rw [hr] at hs''
        exact .inl ⟨rfl, hs''⟩
      | error _ l =>
        rw [hr] at hs''
        exact .inl ⟨rfl, hs''⟩
    · rw [hf]
      exact .inr ⟨ht, e, rfl⟩

theorem compile_alike (h : s.Alike s') (name : String) (program : Program) :
    (s.compile name program).1 = (s'.compile name program).1 ∧
      (s.compile name program).2.Alike (s'.compile name program).2 :=
  (compile_uniform issues_alike h name program).resolve_right fun hf => hf.1

end Store

end ScriptMachine
