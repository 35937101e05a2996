/-
ScriptMachine.Proofs.Twins.Trees — statements and programs lowered twice.
-/
import ScriptMachine.Proofs.Twins.Tandem

namespace ScriptMachine

mutual

def Stmt.stays : Stmt → Bool
  | .block body => staysAll body
  | .branch _ yes none => yes.stays
  | .branch _ yes (some no) => yes.stays && no.stays
  | .loop _ body => body.stays
  | .leave _ => false
  | _ => true

/-- Whether control stays in the function through several statements. -/
def staysAll : List Stmt → Bool
  | [] => true
  | s :: rest => s.stays && staysAll rest

end

theorem Scopes.nextKey_declare {scs : Scopes} (name : String) (h : scs.atTop = false) :
    (scs.declare name).nextKey = scs.nextKey + 1 := by
  cases hs : scs.stack with
  | nil => simp [atTop, hs] at h
  | cons scope rest => rw [declare_of_cons name hs]

namespace Tandem

open Lower

variable {T : Tandem} {l l' m m' n n' : Lowering} {sc : Scopes} {X : Setting → Prop}
  {value value' : Code} {a : Scopes} {kind : FunctionKind} {d d' : Nat}

theorem expr?_meets (initial : Option Expr) (h : T.At sc l l') :
    T.Steps l l' sc Setting.Codes (expr? initial) (expr? initial) := by
  cases initial with
  | none => exact .pure ((Together.refl h).mono fun _ => .constant (.inr (.inl rfl)))
  | some e => exact expr_meets e h

theorem defineGlobal_meets (name : String) (h : T.At sc l l') :
    T.Steps l l' sc (fun E i i' => ∀ leaves, E.Codes value value' → E.Instrs leaves i i')
      (defineGlobal name value) (defineGlobal name value') := by
  refine (globalSlot_meets name h).bind fun hs => ?_
  refine (use_meets .globalDefine hs).bind fun hu => ?_
  exact .pure (hu.mono fun hslot _ hval => .defineGlobal hslot hval)

theorem declareVariable_meets (name : String) (h : T.At sc l l')
    (hkey : (sc.declare name).nextKey ≤ T.bound) :
    T.Steps l l' (sc.declare name)
      (fun E i i' => ∀ leaves, E.Codes value value' → E.Instrs leaves i i')
      (declareVariable name value) (declareVariable name value') := by
  refine .get_bind ?_
  rw [h.atTop, h.opened]
  cases htop : sc.atTop with
  | true =>
    rw [Scopes.declare_of_nil name (sc.atTop_iff.mp htop)]
    exact defineGlobal_meets name h
  | false =>
    rw [Scopes.nextKey_declare name htop] at hkey
    exact declareLocal_meets h htop hkey

theorem extends_scopesOf {b : Scopes} (h : a.Extends b) :
    (T.scopesOf a).Extends (T.scopesOf b) where
  frame := congrArg T.frameOf h.frame
  nextFrame := Nat.add_le_add_right h.nextFrame _
  nextKey := Nat.add_le_add_right h.nextKey _
  stack := by
    rcases h.stack with ⟨ha, hb⟩ | ⟨scope, rest, more, ha, hb⟩
    · exact .inl (by simp [scopesOf, ha, hb])
    · refine .inr ⟨T.scopeOf scope, rest.map T.scopeOf,
        more.map fun entry => (entry.1, entry.2 + T.keys), ?_, ?_⟩
      · simp [scopesOf, ha]
      · simp [scopesOf, scopeOf, hb]

theorem Together.push (h : T.Together l l' m m' sc X) :
    T.Together l l' { m with scopes := m.scopes.push } { m' with scopes := m'.scopes.push } sc.push
      X where
  twins := { h.twins with
    tidy := (push_executes h.twins.tidy).tidy
    tidy' := (push_executes h.twins.tidy').tidy
    scopes := congrArg Scopes.push h.twins.scopes }
  grows := h.grows.trans (push_executes h.twins.tidy).grows
  grows' := h.grows'.trans (push_executes h.twins.tidy').grows
  scopes := congrArg Scopes.push h.scopes
  ends hE := h.ends (.of_grows (push_executes h.twins.tidy).grows
    (push_executes h.twins.tidy').grows
    h.twins.tidy h.twins.tidy' hE)

theorem Together.block (h : T.Twins l l')
    (hb : T.Together { l with scopes := l.scopes.push }
      { l' with scopes := l'.scopes.push } m m' sc X)
    (hext : l.scopes.push.Extends sc) :
    T.Together l l' { m with scopes := m.scopes.pop } { m' with scopes := m'.scopes.pop } sc.pop
      X := by
  obtain rfl := hb.scopes
  have hext' : l'.scopes.push.Extends m'.scopes := by
    rw [h.scopes, hb.twins.scopes]
    exact extends_scopesOf hext
  have hpop := pop_executes hb.twins.tidy hext h.tidy.top
  have hpop' := pop_executes hb.twins.tidy' hext' h.tidy'.top
  refine ⟨{ hb.twins with tidy := hpop.tidy, tidy' := hpop'.tidy, scopes := ?_ },
    (push_executes h.tidy).grows.trans (hb.grows.trans hpop.grows),
    (push_executes h.tidy').grows.trans (hb.grows'.trans hpop'.grows), rfl, fun hE => ?_⟩
  · rw [hb.twins.scopes, scopesOf_pop]
  · exact hb.ends (.of_grows hpop.grows hpop'.grows hb.twins.tidy hb.twins.tidy' hE)

theorem parameters_meets (index : Nat) (params : List String) (h : T.At sc l l')
    (hne : sc.atTop = false)
    (hkey : (params.foldl .declare sc).nextKey ≤ T.bound) :
    T.Steps l l' (params.foldl .declare sc) (·.InstrLists true) (parameters index params)
      (parameters index params) := by
  induction params generalizing l l' sc index with
  | nil => exact .pure ((Together.refl h).mono fun _ => .nil)
  | cons name params ih =>
    have hlt : sc.nextKey < T.bound := by
      have hall := Nat.le_trans (Scopes.Extends.declareAll params (sc.declare name)).nextKey hkey
      rwa [Scopes.nextKey_declare name hne] at hall
    have hne' : (sc.declare name).atTop = false := by
      rw [(Scopes.Extends.declare sc name).atTop, hne]
    refine (declareLocal_meets h hne hlt).bind fun hd => ?_
    refine ((ih (index + 1) hd.here hne' hkey).after hd).bind fun hp => ?_
    exact .pure (hp.mono fun hp => .cons (hp.1 true (.argument index)) hp.2)

theorem enterFunction_meets (name : Ident) (count : Nat) (kind : FunctionKind) :
    T.Meets (fun d m d' m' => Entered l m kind d ∧ Entered l' m' kind d')
      (enterFunction name count kind l) (enterFunction name count kind l') := by
  have hok : ∀ l : Lowering, ∃ d m, enterFunction name count kind l = .ok d m := by
    intro l
    obtain ⟨m, hm, _⟩ := use_ok .stackOverflow
      { l with
        functions := l.functions + 1
        scopes := l.scopes.enter
        current := { kind := kind }
        unit := (l.unit.declare
          ⟨l.unit.name ++ "::" ++ name.name ++ "#" ++ toString l.functions, .internal,
            .words (count + 2)⟩).2 }
    exact ⟨_, m, bind_of_ok hm _⟩
  obtain ⟨d, m, hm⟩ := hok l
  obtain ⟨d', m', hm'⟩ := hok l'
  rw [hm, hm']
  exact .ok ⟨enterFunction_entered hm, enterFunction_entered hm'⟩

theorem Twins.entered (h : T.Twins l l') (hk : kind ≠ .script) (he : Entered l m kind d)
    (he' : Entered l' m' kind d') :
    T.Twins { m with scopes := m.scopes.push } { m' with scopes := m'.scopes.push } := by
  have hne : m.scopes.frame ≠ 0 := by
    rw [he.scopes]
    exact Nat.ne_of_gt (Nat.zero_lt_of_lt h.tidy.frame_lt)
  constructor
  · exact he.tidy h.tidy hk
  · exact he'.tidy h.tidy' hk
  · show T.stores m.store m'.store
    rw [he.store, he'.store]
    exact h.store
  · show m'.scopes.push = T.scopesOf m.scopes.push
    rw [he.scopes, he'.scopes, h.scopes, scopesOf_enter h.tidy.frame_lt]
    rfl
  · show ∀ k, m'.bindings.get? (k + T.keys) = (m.bindings.get? k).map T.bindingAt
    rw [he.bindings, he'.bindings]
    exact h.bindings
  · show ∀ k < T.bound, m'.captured.contains (k + T.keys) = m.captured.contains k
    rw [he.captured, he'.captured]
    exact h.captured
  · exact he'.kind.trans he.kind.symm
  · exact fun hf => absurd hf hne
  · show m'.current.upvalues = m.current.upvalues.map _
    rw [he.upvalues, he'.upvalues]
    rfl
  · show m'.current.locals = m.current.locals + if m.scopes.frame = 0 then T.places else 0
    rw [he.locals, he'.locals, if_neg hne]
  · intro k storage hb
    rw [show ({ m with scopes := m.scopes.push } : Lowering).bindings = _ from he.bindings] at hb
    exact h.unbound hb

theorem openScopes_meets {params : List String}
    (h : T.Twins { m with scopes := m.scopes.push } { m' with scopes := m'.scopes.push })
    (hsc : m.scopes = l.scopes.enter)
    (hkey : (l.scopes.openFunction kind.hasReceiver params).nextKey ≤ T.bound) :
    T.Meets (fun is n is' n' => T.Together { m with scopes := m.scopes.push }
        { m' with scopes := m'.scopes.push } n n' (l.scopes.openFunction kind.hasReceiver params)
        fun E => E.InstrLists true is is')
      (openScopes kind params m) (openScopes kind params m') := by
  unfold openScopes receiverScope Scopes.openFunction at *
  cases hr : kind.hasReceiver with
  | false =>
    simp only [hr, Bool.false_eq_true, if_false, ← hsc] at hkey ⊢
    exact (parameters_meets 0 params ⟨h, rfl⟩ rfl hkey).bind fun hp => .pure hp
  | true =>
    simp only [hr, if_true, ← hsc] at hkey ⊢
    have hlt : m.scopes.push.nextKey < T.bound :=
      Nat.le_trans (Scopes.Extends.declareAll params (m.scopes.push.declare "this").push).nextKey
        hkey
    have hthis : T.Meets (fun is n is' n' => T.Together { m with scopes := m.scopes.push }
        { m' with scopes := m'.scopes.push } n n' (m.scopes.push.declare "this")
          fun E => E.InstrLists true is is')
        ((do onScopes .push; return [← declareLocal "this" .receiver] : Lower (List Instr)) m)
        ((do onScopes .push; return [← declareLocal "this" .receiver] : Lower (List Instr)) m') :=
      (declareLocal_meets ⟨h, rfl⟩ rfl hlt).bind fun hd =>
        .pure (hd.mono fun hi => .cons (hi true .receiver) .nil)
    refine hthis.bind fun ht => ?_
    have hpar := parameters_meets 0 params ht.push.here rfl hkey
    refine (hpar.after ht.push).bind fun hp => ?_
    exact .pure (hp.mono fun hp => hp.1.append hp.2)

theorem scopesOf_closeFunction (scs : Scopes) (isMethod : Bool) (frame : Nat) :
    (T.scopesOf scs).closeFunction isMethod (T.frameOf frame) =
      T.scopesOf (scs.closeFunction isMethod frame) := by
  unfold Scopes.closeFunction
  cases isMethod <;> simp [Bool.false_eq_true, scopesOf_pop, scopesOf_backTo]

theorem closureOf_meets {name : String} {count : Nat} {keys : List Key} (h : T.At sc l l')
    (ho : ∀ key ∈ keys, sc.Opens key) :
    T.Steps l l' sc (fun E c c' => E.pair.Functions E.unit E.unit' d d' → E.Codes c c')
      (closureOf name count d keys) (closureOf name count d' (keys.map (· + T.keys))) := by
  refine (addPrototype_meets name count h).bind fun hp => ?_
  refine (refer_meets d d' hp).bind fun hr => ?_
  refine ((cellsOf_meets hr.here ho).after hr).bind fun hc => ?_
  refine (use_meets .makeClosure hc).bind fun hu => ?_
  refine .pure (hu.mono ?_)
  rintro E ⟨hproto, hcells⟩ ⟨hf, hf', hloc, hb⟩
  exact .closure hproto hcells hf hf' hloc hb

theorem bareReturn_codes (kind : FunctionKind) {E : Setting} :
    E.Codes (bareReturn kind) (bareReturn kind) := by
  cases kind with
  | initializer => exact .receiver
  | script | function | method => exact .constant (.inr (.inl rfl))

structure Inside (T : Tandem) (l l' m m' n n' : Lowering) (kind : FunctionKind) (d d' : Nat)
    (sc : Scopes) (X : Setting → Prop) : Prop where
  entered : Entered l m kind d
  entered' : Entered l' m' kind d'
  together : T.Together { m with scopes := m.scopes.push } { m' with scopes := m'.scopes.push } n n'
    sc X
  executes : ∃ code ms P, Executes { m with scopes := m.scopes.push } n sc code ms P
  executes' : ∃ code ms P,
    Executes { m' with scopes := m'.scopes.push } n' (T.scopesOf sc) code ms P

section Leaving

variable {kind : FunctionKind} {d d' : Nat} {params : List String}
  {definition definition' : Definition}

theorem Inside.left_twins (hin : T.Inside l l' m m' n n' kind d d' sc X) (h : T.Twins l l')
    (hext : (l.scopes.openFunction kind.hasReceiver params).Extends sc)
    (hext' : (l'.scopes.openFunction kind.hasReceiver params).Extends (T.scopesOf sc))
    (hd : definition.declaration = d) (hd' : definition'.declaration = d') :
    T.Twins (left l n definition (sc.closeFunction kind.hasReceiver l.scopes.frame))
      (left l' n' definition'
        ((T.scopesOf sc).closeFunction kind.hasReceiver l'.scopes.frame)) := by
  obtain ⟨_, _, _, hex⟩ := hin.executes
  obtain ⟨_, _, _, hex'⟩ := hin.executes'
  have hn := hin.together.twins
  refine ⟨hin.entered.left_tidy h.tidy hex hext hd, hin.entered'.left_tidy h.tidy' hex' hext' hd',
    hn.store, ?_, hn.bindings, hn.captured, h.kind, h.script, h.upvalues, h.locals, hn.unbound⟩
  show (T.scopesOf sc).closeFunction _ _ = _
  rw [h.scopes]
  exact scopesOf_closeFunction sc kind.hasReceiver l.scopes.frame

theorem Inside.toward (hin : T.Inside l l' m m' n n' kind d d' sc X)
    (h : T.Twins l l') {E : Setting}
    {sc1 sc2 : Scopes} (hE : T.Toward (left l n definition sc1) (left l' n' definition' sc2) E) :
    T.Toward n n' { E with view := .whole n.current.locals } := by
  have hfr : n.scopes.frame ≠ 0 := by
    obtain ⟨_, _, _, hex⟩ := hin.executes
    rw [hin.entered.frame hex]
    exact Nat.ne_of_gt (Nat.zero_lt_of_lt h.tidy.frame_lt)
  refine ⟨hE.first, hE.second, fun hb => hE.bodies ?_, fun hb => hE.bodies' ?_, fun _ => ?_,
    Nat.zero_le _, Nat.le_refl _⟩
  · show (n.unit.define definition).body? _ = _
    rw [body?_define, hb, Option.some_or]
  · show (n'.unit.define definition').body? _ = _
    rw [body?_define, hb, Option.some_or]
  · exact (placeOf_of_ne hfr _).symm

theorem Inside.closure_meets (name : String) {code code' : List Instr}
    (hin : T.Inside l l' m m' n n' kind d d' sc fun E => E.InstrLists true code code')
    (h : T.Twins l l') (hext : (l.scopes.openFunction kind.hasReceiver params).Extends sc)
    (hext' : (l'.scopes.openFunction kind.hasReceiver params).Extends (T.scopesOf sc)) :
    T.Meets (fun c k c' k' => T.Together l l' k k'
        (sc.closeFunction kind.hasReceiver l.scopes.frame) fun E => E.Codes c c')
      (closureOf name params.length d n.current.upvalues
        (left l n ⟨d, .words (params.length + 2), n.current.references.map .own,
            .lowered ⟨n.current.locals, code⟩⟩
          (sc.closeFunction kind.hasReceiver l.scopes.frame)))
      (closureOf name params.length d' (n.current.upvalues.map (· + T.keys))
        (left l' n'
          ⟨d', .words (params.length + 2), n'.current.references.map .own,
            .lowered ⟨n'.current.locals, code'⟩⟩
          ((T.scopesOf sc).closeFunction kind.hasReceiver l'.scopes.frame))) := by
  obtain ⟨_, _, _, hex⟩ := hin.executes
  obtain ⟨_, _, _, hex'⟩ := hin.executes'
  generalize hdef : (⟨d, .words (params.length + 2), n.current.references.map .own,
    .lowered ⟨n.current.locals, code⟩⟩ : Definition) = definition
  generalize hdef' : (⟨d', .words (params.length + 2), n'.current.references.map .own,
    .lowered ⟨n'.current.locals, code'⟩⟩ : Definition) = definition'
  have hd : definition.declaration = d := by rw [← hdef]
  have hd' : definition'.declaration = d' := by rw [← hdef']
  have hl := hin.left_twins h hext hext' hd hd'
  have ho : ∀ key ∈ n.current.upvalues,
      (sc.closeFunction kind.hasReceiver l.scopes.frame).Opens key := by
    obtain ⟨_, _, _, _, hstk⟩ := hext.openFunction_stack
    intro key hkey
    show ∃ scope ∈ (sc.closeFunction kind.hasReceiver l.scopes.frame).stack, _
    rw [hstk]
    exact hin.entered.upvalues_declared hex hext key hkey
  refine (closureOf_meets ⟨hl, rfl⟩ ho).mono fun hc => ?_
  refine ⟨hc.twins, (hin.entered.left_grows h.tidy hex hext hd).trans hc.grows,
    (hin.entered'.left_grows h.tidy' hex' hext' hd').trans hc.grows', hc.scopes, fun {E} hE => ?_⟩
  have hE' := Toward.of_grows hc.grows hc.grows' hl.tidy hl.tidy' hE
  have hf : E.unit.function? d = some ⟨n.current.locals, code⟩ := by
    rw [CodeUnit.function?, hE'.bodies (hin.entered.left_body h.tidy hex hd), ← hdef]
  have hf' : E.unit'.function? d' = some ⟨n'.current.locals, code'⟩ := by
    rw [CodeUnit.function?, hE'.bodies' (hin.entered'.left_body h.tidy' hex' hd'), ← hdef']
  have hloc : n'.current.locals = n.current.locals := by
    have hfr : n.scopes.frame ≠ 0 := by
      rw [hin.entered.frame hex]
      exact Nat.ne_of_gt (Nat.zero_lt_of_lt h.tidy.frame_lt)
    rw [hin.together.twins.locals, if_neg hfr, Nat.add_zero]
  exact hc.ends hE (.intro hf hf' hloc (hin.together.ends (hin.toward h hE')))

end Leaving

theorem function_meets (name : Ident) (params : List String) {body : List Stmt}
    (hk : kind ≠ .script) (h : T.At sc l l')
    (hkey : ((FunctionDecl.mk name params body).walk kind.hasReceiver sc).nextKey ≤ T.bound)
    (hbody : ∀ {m m' : Lowering} {sc : Scopes}, T.At sc m m' →
      (walkAll body sc).nextKey ≤ T.bound →
        T.Steps m m' (walkAll body sc) (·.InstrLists true) (stmts body) (stmts body)) :
    T.Steps l l' ((FunctionDecl.mk name params body).walk kind.hasReceiver sc) Setting.Codes
      (function name params kind (stmts body)) (function name params kind (stmts body)) := by
  obtain rfl := h.opened
  have hext := walkAll_extends body (l.scopes.openFunction kind.hasReceiver params)
  have hb : (walkAll body (l.scopes.openFunction kind.hasReceiver params)).nextKey ≤ T.bound := by
    rw [FunctionDecl.walk, Scopes.closeFunction_nextKey] at hkey
    exact hkey
  refine (checkCount_meets h.toTwins rfl).bind ?_
  rintro _ _ _ _ ⟨rfl, rfl⟩
  refine .get_bind ((enterFunction_meets name params.length kind).bind ?_)
  rintro d m d' m' ⟨he, he'⟩
  have hopening := openScopes_meets (h.entered hk he he') he.scopes (Nat.le_trans hext.nextKey hb)
  refine hopening.noting.bind ?_
  rintro start n1 start' n1' ⟨⟨ho, ho'⟩, hsta⟩
  refine ((hbody hsta.here hb).after hsta).noting.bind ?_
  rintro rest n rest' n' ⟨⟨hr, hr'⟩, hn⟩
  have hopen := openScopes_executes he h.tidy hk ho
  have hopen' := openScopes_executes he' h.tidy' hk ho'
  have hex := hopen.seq (stmts_yields body hopen.tidy hr)
  have hex' := hopen'.seq (stmts_yields body hopen'.tidy hr')
  have hsc' : walkAll body n1'.scopes =
      T.scopesOf (walkAll body (l.scopes.openFunction kind.hasReceiver params)) := by
    rw [← hex'.scopes_eq, hn.twins.scopes, hn.scopes]
  have hext' := walkAll_extends body n1'.scopes
  rw [hopen.scopes_eq] at hex
  rw [hsc'] at hex' hext'
  rw [hopen'.scopes_eq] at hext'
  have hall := hn.mono fun hp => (hp.1.append hp.2).append
    (.cons (.leave (bareReturn_codes kind)) .nil)
  have hin : T.Inside l l' m m' n n' kind d d' _ _ :=
    ⟨he, he', hall, ⟨_, _, _, hex⟩, ⟨_, _, _, hex'⟩⟩
  have hclo := hin.closure_meets name.name h.toTwins hext hext'
  rw [← hn.twins.upvalues, ← hn.scopes, ← hn.twins.scopes] at hclo
  rw [FunctionDecl.walk, ← hn.scopes]
  exact hclo

theorem declareClass_meets (name : String) (h : T.At sc l l')
    (hkey : (sc.declare name).nextKey ≤ T.bound) :
    T.Steps l l' (sc.declare name) (fun E is is' => ∀ leaves, E.InstrLists leaves is is')
      (declareClass sc.atTop name) (declareClass sc.atTop name) := by
  cases htop : sc.atTop with
  | true =>
    rw [Scopes.declare_of_nil name (sc.atTop_iff.mp htop)]
    exact .pure ((Together.refl h).mono fun _ _ => .nil)
  | false =>
    rw [Scopes.nextKey_declare name htop] at hkey
    refine (declareLocal_meets h htop hkey).bind fun hd => ?_
    exact .pure (hd.mono fun hi leaves => .cons (hi leaves (.constant (.inr (.inl rfl)))) .nil)

theorem superclassVariable_meets (sup : Option Expr) (h : T.At sc l l') :
    T.Steps l l' sc
      (fun E a a' => (∀ leaves, E.InstrLists leaves a.1 a'.1) ∧ Option.Rel E.view.Reads a.2 a'.2 ∧
        a.2.isSome = sup.isSome)
      (superclassVariable (sup.map expr)) (superclassVariable (sup.map expr)) := by
  cases sup with
  | none => exact .pure ((Together.refl h).mono fun _ => ⟨fun _ => .nil, .none, rfl⟩)
  | some e =>
    refine (expr_meets e h).bind fun he => ?_
    refine ((newVariable_meets he.here).after he).bind fun hv => ?_
    refine .pure (hv.mono fun ⟨hc, hr⟩ => ⟨fun leaves => ?_, .some hr, rfl⟩)
    exact .cons (.evaluate (.assignVariable ⟨hr.1, hr.2.2⟩ hc)) .nil

theorem nameClass_meets (name : String) (h : T.At (a.declare name) l l') :
    T.Steps l l' (a.declare name)
      (fun E i i' => ∀ leaves, E.Codes value value' → E.Instrs leaves i i')
      (nameClass a.atTop a.nextKey name value)
      (nameClass a.atTop (a.nextKey + T.keys) name value') := by
  cases htop : a.atTop with
  | true => exact defineGlobal_meets name h
  | false =>
    refine (assignKey_meets h (a.declared_next name htop)).bind fun ha => ?_
    exact .pure (ha.mono fun hc _ hval => .evaluate (hc hval))

theorem classStart_meets (name : String) (sup : Option Expr) (h : T.At sc l l')
    (hkey : (sc.declare name).nextKey ≤ T.bound) :
    T.Steps l l' (sc.declare name)
      (fun E a a' => (∀ leaves, E.InstrLists leaves a.1 a'.1) ∧
        Option.Rel E.view.Reads a.2.1 a'.2.1 ∧
        a.2.1.isSome = sup.isSome ∧ E.view.Reads a.2.2 a'.2.2)
      (classStart name (sup.map expr)) (classStart name (sup.map expr)) := by
  refine .get_bind ?_
  rw [h.atTop, h.nextKey, h.opened]
  refine (declareClass_meets name h hkey).bind fun hd => ?_
  refine ((superclassVariable_meets sup hd.here).after hd).bind ?_
  rintro ⟨evaluated, superVariable⟩ m ⟨evaluated', superVariable'⟩ m' hs
  refine ((name_meets name hs.here).after hs).bind fun hn => ?_
  refine (use_meets .newClass hn).bind fun hu => ?_
  refine ((newVariable_meets hu.here).after hu).bind fun hv => ?_
  refine ((nameClass_meets name hv.here).after hv).bind fun hnamed => ?_
  refine .pure (hnamed.mono ?_)
  rintro E ⟨⟨⟨⟨hdecl, heva, hsuper, hsome⟩, hsym⟩, hr⟩, hname⟩
  refine ⟨fun leaves => ?_, hsuper, hsome, hr⟩
  refine ((hdecl leaves).append (heva leaves)).append (.cons (.evaluate ?_) (.cons ?_ .nil))
  · exact .assignVariable ⟨hr.1, hr.2.2⟩ (.newClass hsym hsuper)
  · exact hname leaves (.readVariable hr)

theorem superScope_meets {u u' : Nat} (h : T.At sc l l')
    (hkey : sc.nextKey < T.bound) :
    T.Meets (fun i m i' m' => T.Together { l with scopes := l.scopes.push }
        { l' with scopes := l'.scopes.push } m m' (sc.push.declare "super")
        fun E => ∀ leaves, E.view.Reads u u' → E.Instrs leaves i i')
      (superScope u l) (superScope u' l') := by
  have hp := (Together.refl h).push
  show T.Meets _ (declareLocal "super" (.readVariable u) { l with scopes := l.scopes.push })
    (declareLocal "super" (.readVariable u') { l' with scopes := l'.scopes.push })
  exact (declareLocal_meets hp.here rfl hkey).mono fun hd =>
    hd.mono fun hi leaves hr => hi leaves (.readVariable hr)

theorem addMethod_meets (v v' : Nat) (name : String) {method method' : Code} (h : T.At sc l l') :
    T.Steps l l' sc
      (fun E i i' => ∀ leaves, E.view.Reads v v' → E.Codes method method' → E.Instrs leaves i i')
      (addMethod v name method) (addMethod v' name method') := by
  refine (name_meets name h).bind fun hn => ?_
  refine (use_meets .addMethod hn).bind fun hu => ?_
  exact .pure (hu.mono fun hsym _ hr hc => .addMethod hr hsym hc)

theorem expression_meets (h : T.At sc l l') :
    T.Steps l l' sc (fun E i i' => ∀ leaves, E.Codes value value' → E.Instrs leaves i i')
      (expression value) (expression value') := by
  refine .get_bind
    (.pure ⟨h.toTwins, .refl l, .refl l', h.opened, fun {E} hE leaves hval => .evaluate ?_⟩)
  have htop' : l'.scopes.atTop = l.scopes.atTop := by rw [h.scopes, scopesOf_atTop]
  rw [h.kind, htop']
  split
  · next hscr =>
    simp only [Bool.and_eq_true, decide_eq_true_eq] at hscr
    have hlt : resultVariable < E.view.total :=
      Nat.lt_of_lt_of_le (h.tidy.result hscr.1) hE.total
    refine .assignVariable ⟨?_, hlt⟩ hval
    rw [hE.place hlt]
    exact (if_neg fun hne => hne.2 rfl).symm
  · exact hval

mutual

theorem stmt_meets : ∀ (s : Stmt) (leaves : Bool) {l l' : Lowering} {sc : Scopes}, T.At sc l l' →
    (s.walk sc).nextKey ≤ T.bound → (leaves = false → s.stays = true) →
      T.Steps l l' (s.walk sc) (·.InstrLists leaves) (stmt s) (stmt s)
  | .expression e, leaves, _, _, _, h, _, _ => by
    refine (expr_meets e h).bind fun he => ?_
    refine ((expression_meets he.here).after he).bind fun hi => ?_
    exact .pure (hi.mono fun hp => .cons (hp.2 leaves hp.1) .nil)
  | .print e, _, _, _, _, h, _, _ => by
    refine (expr_meets e h).bind fun he => ?_
    refine (use_meets .print he).bind fun hu => ?_
    exact .pure (hu.mono fun hp => .cons (.print hp) .nil)
  | .declare name initial, leaves, _, _, _, h, hkey, _ => by
    refine (expr?_meets initial h).bind fun he => ?_
    refine ((declareVariable_meets name he.here hkey).after he).bind fun hi => ?_
    exact .pure (hi.mono fun hp => .cons (hp.2 leaves hp.1) .nil)
  | .block body, leaves, _, _, sc, h, hkey, hstay => by
    have hpush := (Together.refl h).push
    refine (stmts_meets body leaves hpush.here hkey hstay).bind fun hb => ?_
    exact .pure (hb.block h.toTwins (h.opened ▸ walkAll_extends body sc.push))
  | .branch cond yes none, leaves, _, _, _, h, hkey, hstay => by
    refine (expr_meets cond h).bind fun hc => ?_
    refine ((stmt_meets yes leaves hc.here hkey hstay).after hc).bind fun hy => ?_
    exact .pure (hy.mono fun hp => .cons (.branch hp.1 hp.2 .nil) .nil)
  | .branch cond yes (some no), leaves, _, _, sc, h, hkey, hstay => by
    have hboth : leaves = false → yes.stays = true ∧ no.stays = true := by
      intro hl
      simpa [Stmt.stays] using hstay hl
    have hkey' := Nat.le_trans (no.walk_extends (yes.walk sc)).nextKey hkey
    refine (expr_meets cond h).bind fun hc => ?_
    have hyes := stmt_meets yes leaves hc.here hkey' fun hl => (hboth hl).1
    refine (hyes.after hc).bind fun hy => ?_
    have hno := stmt_meets no leaves hy.here hkey fun hl => (hboth hl).2
    refine (hno.after hy).bind fun hn => ?_
    exact .pure (hn.mono fun hp => .cons (.branch hp.1.1 hp.1.2 hp.2) .nil)
  | .loop cond body, leaves, _, _, _, h, hkey, hstay => by
    refine (expr_meets cond h).bind fun hc => ?_
    refine ((stmt_meets body leaves hc.here hkey hstay).after hc).bind fun hb => ?_
    exact .pure (hb.mono fun hp => .cons (.loop hp.1 hp.2) .nil)
  | .function (.mk name params body), leaves, l, l', sc, h, hkey, _ => by
    have hw : (Stmt.function (.mk name params body)).walk sc =
        (FunctionDecl.mk name params body).walk false (sc.declare name.name) := by
      rfl
    have hk : FunctionKind.function ≠ .script := by decide
    have hbody := fun {m m' sc} (hm : T.At sc m m') hkey => stmts_meets body true hm hkey nofun
    rw [hw] at hkey ⊢
    refine .get_bind ?_
    rw [h.atTop, h.opened]
    cases htop : sc.atTop with
    | true =>
      rw [Scopes.declare_of_nil name.name (sc.atTop_iff.mp htop)] at hkey ⊢
      refine (function_meets name params hk h hkey hbody).bind fun hf => ?_
      refine ((defineGlobal_meets name.name hf.here).after hf).bind fun hd => ?_
      exact .pure (hd.mono fun hp => .cons (hp.2 leaves hp.1) .nil)
    | false =>
      refine .get_bind ?_
      rw [h.nextKey, h.opened]
      have hext := (FunctionDecl.mk name params body).walk_extends false (sc.declare name.name)
      have hlt : sc.nextKey < T.bound := by
        have hle := Nat.le_trans hext.nextKey hkey
        rwa [Scopes.nextKey_declare name.name htop] at hle
      refine (declareLocal_meets h htop hlt).bind fun hd => ?_
      refine ((function_meets name params hk hd.here hkey hbody).after hd).bind fun hf => ?_
      have ho := hext.mem (sc.declared_next name.name htop)
      refine ((assignKey_meets hf.here ho).after hf).bind fun ha => ?_
      refine .pure (ha.mono fun ⟨⟨hdecl, hcode⟩, hassi⟩ => ?_)
      exact .cons (hdecl leaves (.constant (.inr (.inl rfl))))
        (.cons (.evaluate (hassi hcode)) .nil)
  | .leave none, leaves, _, _, _, h, _, hstay => by
    obtain rfl : leaves = true := by
      cases leaves with
      | true => rfl
      | false => exact absurd (hstay rfl) (by simp [Stmt.stays])
    refine .get_bind (.pure ((Together.refl h).mono fun _ => ?_))
    rw [h.kind]
    exact .cons (.leave (bareReturn_codes _)) .nil
  | .leave (some e), leaves, _, _, _, h, _, hstay => by
    obtain rfl : leaves = true := by
      cases leaves with
      | true => rfl
      | false => exact absurd (hstay rfl) (by simp [Stmt.stays])
    refine (expr_meets e h).bind fun he => ?_
    exact .pure (he.mono fun hp => .cons (.leave hp) .nil)
  | .classDecl name none ms, leaves, _, _, sc, h, hkey, _ => by
    have hext := walkMethods_extends ms (sc.declare name)
    refine (classStart_meets name none h (Nat.le_trans hext.nextKey hkey)).bind ?_
    rintro ⟨start, u, v⟩ m ⟨start', u', v'⟩ m' hs
    refine ((methods_meets ms v v' leaves hs.here hkey).after hs).bind fun hm => ?_
    exact .pure (hm.mono fun ⟨⟨hsta, _, _, hr⟩, hrest⟩ => (hsta leaves).append (hrest hr))
  | .classDecl name (some sup) ms, leaves, _, _, sc, h, hkey, _ => by
    have hmths := walkMethods_extends ms ((sc.declare name).push.declare "super")
    have hext := (Scopes.Extends.declare (sc.declare name).push "super").trans hmths
    have hlt : (sc.declare name).nextKey < T.bound := Nat.le_trans hmths.nextKey hkey
    refine (classStart_meets name (some sup) h (Nat.le_of_lt hlt)).bind ?_
    rintro ⟨start, u, v⟩ m ⟨start', u', v'⟩ m' hs
    refine (superScope_meets hs.here hlt).bind fun hd => ?_
    refine ((methods_meets ms v v' leaves hd.here hkey).after hd).bind fun hm => ?_
    refine .pure ((hs.seq (hm.block hs.twins (hs.scopes ▸ hext))).mono ?_)
    rintro E ⟨⟨hsta, hsuper, hsome, hr⟩, hdecl, hrest⟩
    refine (hsta leaves).append (.cons (hdecl leaves ?_) (hrest hr))
    cases hsuper with
    | none => cases hsome
    | some hu => exact hu

theorem stmts_meets : ∀ (body : List Stmt) (leaves : Bool) {l l' : Lowering} {sc : Scopes},
    T.At sc l l' → (walkAll body sc).nextKey ≤ T.bound →
      (leaves = false → staysAll body = true) →
        T.Steps l l' (walkAll body sc) (·.InstrLists leaves) (stmts body) (stmts body)
  | [], _, _, _, _, h, _, _ => .pure ((Together.refl h).mono fun _ => .nil)
  | s :: rest, leaves, _, _, sc, h, hkey, hstay => by
    have hb : leaves = false → s.stays = true ∧ staysAll rest = true := by
      intro hl
      simpa [staysAll] using hstay hl
    have hkey' := Nat.le_trans (walkAll_extends rest (s.walk sc)).nextKey hkey
    refine (stmt_meets s leaves h hkey' fun hl => (hb hl).1).bind fun hs => ?_
    have hrest := stmts_meets rest leaves hs.here hkey fun hl => (hb hl).2
    refine (hrest.after hs).bind fun hr => ?_
    exact .pure (hr.mono fun hp => hp.1.append hp.2)

theorem methods_meets : ∀ (ms : List FunctionDecl) (v v' : Nat) (leaves : Bool) {l l' : Lowering}
    {sc : Scopes}, T.At sc l l' → (walkMethods ms sc).nextKey ≤ T.bound →
      T.Steps l l' (walkMethods ms sc)
        (fun E is is' => E.view.Reads v v' → E.InstrLists leaves is is') (methods v ms)
          (methods v' ms)
  | [], _, _, _, _, _, _, h, _ => .pure ((Together.refl h).mono fun _ _ => .nil)
  | .mk name params body :: rest, v, v', leaves, _, _, sc, h, hkey => by
    have hext := walkMethods_extends rest ((FunctionDecl.mk name params body).walk true sc)
    have hfun := function_meets name params (FunctionKind.ofMethod_ne_script name.name) h
      (by rw [FunctionKind.hasReceiver_ofMethod]; exact Nat.le_trans hext.nextKey hkey)
      fun hm hkey => stmts_meets body true hm hkey nofun
    rw [FunctionKind.hasReceiver_ofMethod] at hfun
    refine hfun.bind fun hf => ?_
    refine ((addMethod_meets v v' name.name hf.here).after hf).bind fun ha => ?_
    refine ((methods_meets rest v v' leaves ha.here hkey).after ha).bind fun hr => ?_
    refine .pure (hr.mono fun ⟨⟨hc, hadd⟩, hrest⟩ hreads => ?_)
    exact .cons (hadd leaves hreads hc) (hrest hreads)

end

end Tandem

end ScriptMachine
