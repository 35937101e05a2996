/-
ScriptMachine.Proofs.Lexical.Statements — code of a statement follows the
statement.
-/
import ScriptMachine.Proofs.Lexical.Declarations

namespace ScriptMachine.Lexical

variable {A : Activation} {env : Option Nat} {sc sc' : Scopes} {es : List Nat}
  {locals : Array Word} {last w w' : Word} {p p' : Moment} {K : List Pending} {cs : List Caller}
  {host : Host} {name : String} {key : Key} {e least fuel : Nat} {code more : List Instr}
  {instr : Instr} {value : Code} {call : Word → List Word → Interp Word} {v : Nat}

/-! ## §1 Simple statements -/

theorem Follows.discards (h : At A env sc es locals last p) :
    Follows host least A.base cs p
      ⟨p.store, A.frameWith locals, .discard :: .rest more :: K, cs, .give w⟩
      (Runs A env sc es K cs more) (.ok last p.state) :=
  .step rfl (.step rfl (.runs h.forget.forget))

theorem Follows.resumes {m : Machine} {r : EStateM.Result Exit State Word}
    (h : Follows host least A.base cs p m (Runs A env sc es (.rest more :: K) cs []) r) :
    Follows host least A.base cs p m (Runs A env sc es K cs more) r := by
  refine h.andThen ?_
  rintro last p1 m1 - - ⟨locals1, h1, rfl⟩
  exact .step rfl (.runs h1.forget)

theorem Follows.leaves (h : At A env sc es locals last p) (hw : p.link.Same w w')
    {Q : Word → Moment → Machine → Prop} :
    Follows host least A.base cs p
      ⟨p.store, A.frameWith locals, .leave :: .rest more :: K, cs, .give w'⟩ Q
      (.error (.returned w) p.state) :=
  .step rfl (.returns rfl ⟨h.alive.linked.forget, rfl, rfl⟩ h.alive.calm.forget hw)

section Simple

variable [host.Attached] (hcall : Calls host fuel call) {initial : Option Expr} {c : Code}

include hcall

section

variable (h : At A env sc es locals last p)

include h

theorem expression_follows {e : Expr} (hc : Translate.stmt A.G A.F sc (.expression e) code) :
    FollowsIn host fuel A cs p locals K (.run (code ++ more))
      (Runs A env sc es K cs more)
      ((exec fuel call A.bare env (.expression e) last).run p.state) := by
  obtain ⟨c, hc, rfl⟩ := hc
  rw [exec, h.isNone]
  cases htop : sc.atTop with
  | true =>
    have hk := h.placed.atTop htop
    rw [hk]
    refine .step rfl (.step rfl (.bind (eval_follows hcall e hc h.forget.forget) ?_))
    rintro w p1 m1 - - ⟨locals1, w', h1, hw, rfl⟩
    exact .step rfl (.discards (h1.forget.setResult hk hw))
  | false =>
    rw [Bool.and_false]
    refine .step rfl (.bind (eval_follows hcall e hc h.forget) ?_)
    rintro w p1 m1 - - ⟨locals1, w', h1, hw, rfl⟩
    exact .discards h1

theorem print_follows {e : Expr} (hc : Translate.stmt A.G A.F sc (.print e) code) :
    FollowsIn host fuel A cs p locals K (.run (code ++ more))
      (Runs A env sc es K cs more) ((exec fuel call A.bare env (.print e) last).run p.state) := by
  obtain ⟨c, hc, rfl⟩ := hc
  refine .step rfl (.bind (eval_follows hcall e hc h.forget) ?_)
  rintro w p1 m1 - - ⟨locals1, w', h1, hw, rfl⟩
  refine .bind (.resumed h1 (print_served h1.alive.linked h1.alive.calm hw)) ?_
  rintro _ p2 m2 - - ⟨h2, rfl⟩
  exact .runs h2

theorem return_follows {value : Option Expr}
    (hc : Translate.stmt A.G A.F sc (.leave value) code) {Q : Word → Moment → Machine → Prop} :
    FollowsIn host fuel A cs p locals K (.run (code ++ more)) Q
      ((exec fuel call A.bare env (.leave value) last).run p.state) := by
  cases value with
  | none =>
    cases hc
    have hstep : (⟨p.forget.store, A.frameWith locals, .leave :: .rest more :: K, cs,
          .eval (Lower.bareReturn A.F.kind)⟩ : Machine).searchStep host =
        ⟨p.forget.forget.store, A.frameWith locals, .leave :: .rest more :: K, cs,
          .give (if A.F.kind = .initializer then A.frame.receiver else .nil)⟩ := by
      cases A.F.kind <;> rfl
    exact .step rfl (.stepTo rfl hstep (.leaves h.forget.forget h.alive.bare))
  | some e =>
    obtain ⟨c, hc, rfl⟩ := hc
    refine .step rfl (.bind (eval_follows hcall e hc h.forget) ?_)
    rintro w p1 m1 - - ⟨locals1, w', h1, hw, rfl⟩
    exact .leaves h1 hw

theorem initial_follows (hc : Translate.expr? A.G A.F sc initial c) :
    FollowsIn host fuel A cs p locals K (.eval c)
      (Gives A env sc es last K cs) ((eval? call env initial).run p.state) := by
  cases initial with
  | none =>
    cases hc
    exact .step rfl (.gives h.forget .nil)
  | some e => exact eval_follows hcall e hc h

end

omit hcall in
theorem fills_variable (h : At A env sc es locals last p)
    (hd : (sc.declare name).Distinct)
    (hc : Translate.DeclaresVariable A.G A.F sc name value instr) :
    Fills host A env sc (sc.declare name) es instr value (declare env name) := by
  unfold Translate.DeclaresVariable at hc
  have hn := h.isNone
  split at hc
  · next htop =>
    rw [htop, Option.isNone_iff_eq_none] at hn
    subst hn
    rw [Scopes.declare_of_nil name ((Scopes.atTop_iff sc).mp htop)]
    exact fills_global hc
  · next htop =>
    rw [Bool.not_eq_true] at htop
    obtain ⟨e, es', scope, rest, rfl, rfl, _⟩ := h.top htop
    exact fills_declared htop hd hc

theorem declare_follows (h : At A env sc es locals last p)
    (hc : Translate.stmt A.G A.F sc (.declare name initial) code)
    (hd : (sc.declare name).Distinct) :
    FollowsIn host fuel A cs p locals K (.run (code ++ more))
      (Runs A env (sc.declare name) es K cs more)
      ((exec fuel call A.bare env (.declare name initial) last).run p.state) := by
  obtain ⟨c, instr, hini, hc, rfl⟩ := hc
  rw [exec, ← run_bind_assoc]
  refine .bind ((fills_variable h hd hc).follows fun tasks =>
    initial_follows hcall h.forget hini) ?_
  rintro _ p1 m1 - - ⟨locals1, h1, rfl⟩
  exact .runs h1

omit hcall in
theorem announce_follows (h : At A (some e) sc (e :: es) locals last p)
    (ht : sc.atTop = false) (hd : (sc.declare name).Distinct)
    (hc : Translate.DeclaresLocal A.G A.F sc (.constant .nil) instr) :
    FollowsIn host least A cs p locals K (.run (instr :: more))
      (fun _ => Runs A (some e) (sc.declare name) (e :: es) K cs more last)
      ((announce (some e) name).run p.state) :=
  (fills_declared ht hd hc).follows (x := pure .nil) fun _ =>
    .step rfl (.gives h.forget.forget .nil)

omit hcall in
theorem fills_announced (h : At A env (sc.declare name) es locals last p)
    (hglo : sc.atTop = true → Translate.DefinesGlobal A.G name value instr)
    (hl : sc.atTop = false → instr = .evaluate c ∧
      Translate.AssignsKey A.G A.F sc.frame sc.nextKey value c) :
    Fills host A env (sc.declare name) (sc.declare name) es instr value (declare env name) := by
  have hn := h.isNone
  rw [(Scopes.Extends.declare sc name).atTop] at hn
  cases hs : sc.stack with
  | nil =>
    have htop := (Scopes.atTop_iff sc).mpr hs
    rw [htop, Option.isNone_iff_eq_none] at hn
    subst hn
    exact fills_global (hglo htop)
  | cons scope rest =>
    have htop : sc.atTop = false := by rw [Scopes.atTop, hs]; rfl
    obtain ⟨e, es', _, _, rfl, rfl, _⟩ := h.top ((Scopes.Extends.declare sc name).atTop.trans htop)
    obtain ⟨rfl, ha⟩ := hl htop
    refine fills_assigned (?_ : Declares _ _ _ sc.nextKey e) ?_
    · rw [Scopes.declare_of_cons name hs]
      exact ⟨0, _, rfl, rfl, List.mem_cons_self⟩
    · rw [Scopes.declare_frame]
      exact ha

omit hcall in
theorem function_follows (h : At A env sc es locals last p) {decl : FunctionDecl}
    (hc : Translate.stmt A.G A.F sc (.function decl) code) (hplc : decl.WellPlaced)
    (hd : (sc.declare decl.name.name).Distinct) :
    FollowsIn host fuel A cs p locals K (.run (code ++ more))
      (Runs A env (sc.declare decl.name.name) es K cs more)
      ((exec fuel call A.bare env (.function decl) last).run p.state) := by
  -- the value is made where the name is already declared
  have hm : ∀ {p : Moment} {locals : Array Word} {c : Code} {instr : Instr},
      At A env (sc.declare decl.name.name) es locals last p →
      Translate.closure A.G A.F (sc.declare decl.name.name) .function decl c →
      Fills host A env (sc.declare decl.name.name) (sc.declare decl.name.name) es instr c
        (declare env decl.name.name) →
      FollowsIn host fuel A cs p locals K (.run (instr :: more))
        (Runs A env (sc.declare decl.name.name) es K cs more)
        ((make .function decl env >>= fun f => declare env decl.name.name f >>= fun _ =>
          pure last).run p.state) := by
    intro p locals c instr h hclo hf
    rw [← run_bind_assoc]
    refine .bind (hf.keeps fun tasks => make_follows h.forget hclo hplc nofun) ?_
    rintro _ p1 m1 - - ⟨locals1, h1, -, rfl⟩
    exact .runs h1
  rw [Translate.stmt] at hc
  split at hc
  · next htop =>
    obtain ⟨c, instr, hclo, hdef, rfl⟩ := hc
    have hs := Scopes.declare_of_nil decl.name.name ((Scopes.atTop_iff sc).mp htop)
    have hn := h.isNone
    rw [htop, Option.isNone_iff_eq_none] at hn
    subst hn
    rw [← hs] at h hclo
    exact hm h hclo (fills_announced h (c := c) (fun _ => hdef)
      fun hno => by rw [htop] at hno; cases hno)
  · next htop =>
    rw [Bool.not_eq_true] at htop
    obtain ⟨instr, c, c', hdecl, hclo, ha, rfl⟩ := hc
    obtain ⟨e, es', _, _, rfl, rfl, _⟩ := h.top htop
    refine .bind (announce_follows h htop hd hdecl) ?_
    rintro _ p1 m1 - - ⟨locals1, h1, rfl⟩
    exact hm h1 hclo (fills_announced h1
      (fun hno => by rw [htop] at hno; cases hno) fun _ => ⟨rfl, ha⟩)

end Simple

/-! ## §2 Classes -/

theorem Activation.value_of_getElem? (A : Activation) (h : locals[v]? = some w) :
    (A.frameWith locals).value v = w := by
  simp [Frame.value, frameWith, h]

theorem Follows.readsVariable (h : At A env sc es locals last p) (hv : locals[v]? = some w')
    (hw : p.link.Same w w') :
    FollowsIn host least A cs p locals K (.eval (.readVariable v))
      (GivesKeeping A env sc es locals last K cs) (.ok w p.state) := by
  refine .stepTo rfl (show _ = ⟨p.forget.store, A.frameWith locals, K, cs,
    .give ((A.frameWith locals).value v)⟩ from rfl) ?_
  rw [A.value_of_getElem? hv]
  exact .done rfl ⟨w', h.forget, hw, rfl⟩

section Classes

variable [host.Attached] {v : Nat} {methods : List FunctionDecl}

omit [host.Attached] in
theorem spare_follows {c : Code} {x : Interp Word} {P : Array Word → Prop}
    (hv : Translate.Spare A.G A.F sc.frame v)
    (hx : ∀ tasks, Follows host least A.base cs p.forget
      ⟨p.forget.store, A.frameWith locals, tasks, cs, .eval c⟩
      (fun w p' m' => ∃ locals' w', P locals' ∧ At A env sc es locals' last p' ∧
        p'.link.Same w w' ∧ m' = ⟨p'.store, A.frameWith locals', tasks, cs, .give w'⟩)
      (x.run p.state)) :
    FollowsIn host least A cs p locals K (.run (.evaluate (.assignVariable v c) :: more))
      (fun w p' m' => ∃ locals' w', P locals' ∧
        At A env sc es (locals'.setIfInBounds v w') last p' ∧
        (locals'.setIfInBounds v w')[v]? = some w' ∧ p'.link.Same w w' ∧
        m' = ⟨p'.store, A.frameWith (locals'.setIfInBounds v w'), K, cs, .run more⟩)
      (x.run p.state) := by
  refine .reach (reaches_evaluate p _ fun _ => rfl) (p.advances_forget A.base) ((hx _).andThen ?_)
  rintro w p1 m1 - - ⟨locals1, w', hP, h1, hw, rfl⟩
  refine .step rfl (.reach (reaches_discard p1.forget _ w') (Moment.advances_forget _ _)
    (.done rfl ⟨locals1, w', hP, (h1.forget.setSpare hv w').forget, ?_, hw, rfl⟩))
  exact Array.getElem?_setIfInBounds_self_of_lt (by rw [h1.alive.size]; exact hv.lt)

theorem makeClass_follows (h : At A env (sc.declare name) es locals last p)
    {sup : Option Word} {u : Option Nat} {symbol : Symbol} {named : Instr}
    (hu : Option.Rel p.link.Same sup (u.map (A.frameWith locals).value))
    (hn : Translate.Named A.G name symbol) (hv : Translate.Spare A.G A.F sc.frame v)
    (hnamed : Translate.namesClass A.G A.F sc name (.readVariable v) named) :
    FollowsIn host least A cs p locals K
      (.run (.evaluate (.assignVariable v (.newClass symbol u)) :: named :: more))
      (fun c p' m' => ∃ locals' c', At A env (sc.declare name) es locals' last p' ∧
        locals'[v]? = some c' ∧ p'.link.Same c c' ∧
        (∀ {i}, Translate.Spare A.G A.F sc.frame i → i ≠ v → locals'[i]? = locals[i]?) ∧
        m' = ⟨p'.store, A.frameWith locals', K, cs, .run more⟩)
      ((makeClass env name sup).run p.state) := by
  have hs : Translate.Spare A.G A.F (sc.declare name).frame v := by
    rw [Scopes.declare_frame]
    exact hv
  have hf : Fills host A env (sc.declare name) (sc.declare name) es named
      (.readVariable v) (declare env name) := by
    unfold Translate.namesClass at hnamed
    by_cases htop : sc.atTop = true
    · rw [if_pos htop] at hnamed
      exact fills_announced h (c := .readVariable v) (fun _ => hnamed) fun hno => by
        rw [htop] at hno
        cases hno
    · rw [if_neg htop] at hnamed
      obtain ⟨code, hassi, rfl⟩ := hnamed
      exact fills_announced h (fun hno => absurd hno htop) fun _ => ⟨rfl, hassi⟩
  unfold makeClass
  rw [run_bind_of_ok (h.run_symbol hn)]
  refine .bind (spare_follows hs fun tasks =>
    (Follows.answered h.forget (newClass_follows h.forget.alive.linked h.forget.alive.calm
      symbol hu)).imp fun _ ⟨c', hat, hc, hm⟩ => ⟨locals, c', rfl, hat, hc, hm⟩) ?_
  rintro c p1 m1 - - ⟨_, c', rfl, h1, hval, hc, rfl⟩
  refine .bind (hf.keeps (x := pure c) fun _ => .readsVariable h1.forget hval hc) ?_
  rintro _ p2 m2 ha - ⟨locals2, h2, hk, rfl⟩
  rw [Scopes.declare_frame] at hk
  refine .done rfl ⟨locals2, c', h2, (hk hv.unbound).trans hval,
    hc.mono ha.object, fun hi hne => (hk hi.unbound).trans ?_, rfl⟩
  exact Array.getElem?_setIfInBounds_ne hne.symm

theorem methods_follow : ∀ (methods : List FunctionDecl) {sc : Scopes}
    {code : List Instr} {p : Moment} {c c' : Word},
    Translate.methods A.G A.F v sc methods code → wellPlacedMethods methods →
    At A env sc es locals last p → locals[v]? = some c' → p.link.Same c c' →
    FollowsIn host least A cs p locals K (.run (code ++ more))
      (fun _ => Runs A env (walkMethods methods sc) es K cs more last)
      ((addMethods env c methods).run p.state)
  | [], sc, code, p, c, c', hc, _, h, _, _ => by
    cases hc
    exact .done rfl ⟨locals, h, rfl⟩
  | m :: rest, sc, code, p, c, c', hcode, hplc, h, hv, hc => by
    obtain ⟨closure, symbol, code', hclo, hn, hr, rfl⟩ := hcode
    refine .step rfl (.bind (make_follows h.forget hclo hplc.1
      (FunctionKind.ofMethod_ne_script _)) ?_)
    rintro f p1 m1 ha - ⟨f', h1, hf, rfl⟩
    rw [run_bind_of_ok (h1.run_symbol hn)]
    have hcls : p1.link.Same c ((A.frameWith locals).value v) := by
      rw [A.value_of_getElem? hv]
      exact hc.mono ha.object
    refine .bind (.resumed h1 (addMethod_served h1.alive.linked h1.alive.calm hf symbol hcls)) ?_
    rintro _ p2 m2 ha' - ⟨h2, rfl⟩
    have hext := m.walk_extends true sc
    have h3 := h2.later (Scopes.stack_walk true m sc) hext.frame hext.nextFrame hext.nextKey
    exact methods_follow rest hr hplc.2 h3 hv (hc.mono fun ho => ha'.object (ha.object ho))

theorem announceClass_follows (h : At A env sc es locals last p)
    (hd : (sc.declare name).Distinct) (hc : Translate.declaresClass A.G A.F sc code) :
    FollowsIn host least A cs p locals K (.run (code ++ more))
      (fun _ => Runs A env (sc.declare name) es K cs more last)
      ((announce env name).run p.state) := by
  unfold Translate.declaresClass at hc
  have hn := h.isNone
  split at hc
  · next htop =>
    subst hc
    rw [htop, Option.isNone_iff_eq_none] at hn
    subst hn
    rw [Scopes.declare_of_nil name ((Scopes.atTop_iff sc).mp htop)]
    exact .done rfl ⟨locals, h, rfl⟩
  · next htop =>
    rw [Bool.not_eq_true] at htop
    obtain ⟨instr, hc, rfl⟩ := hc
    obtain ⟨e, es', _, _, rfl, rfl, _⟩ := h.top htop
    exact announce_follows h htop hd hc

theorem class_follows (h : At A env sc es locals last p)
    (hc : Translate.stmt A.G A.F sc (.classDecl name none methods) code)
    (hplc : wellPlacedMethods methods) (hd : (sc.declare name).Distinct) :
    FollowsIn host fuel A cs p locals K (.run (code ++ more))
      (Runs A env (walkMethods methods (sc.declare name)) es K cs more)
      ((exec fuel call A.bare env (.classDecl name none methods) last).run p.state) := by
  obtain ⟨declared, symbol, v, named, rest, hdecl, hn, hv, hnamed, hm, rfl⟩ := hc
  rw [exec, List.append_assoc]
  refine .bind (announceClass_follows h hd hdecl) ?_
  rintro _ p1 m1 - - ⟨locals1, h1, rfl⟩
  refine .bind (makeClass_follows h1 .none hn hv hnamed) ?_
  rintro c p2 m2 - - ⟨locals2, c', h2, hval, hc, -, rfl⟩
  refine .bind (methods_follow methods hm hplc h2 hval hc) ?_
  rintro _ p3 m3 - - ⟨locals3, h3, rfl⟩
  exact .runs h3

theorem subclass_follows (hcall : Calls host fuel call) (h : At A env sc es locals last p)
    {sup : Expr}
    (hc : Translate.stmt A.G A.F sc (.classDecl name (some sup) methods) code)
    (hplc : wellPlacedMethods methods) (hd : (sc.declare name).Distinct) :
    FollowsIn host fuel A cs p locals K (.run (code ++ more))
      (Runs A env (walkMethods methods ((sc.declare name).push.declare "super")).pop es K cs more)
      ((exec fuel call A.bare env (.classDecl name (some sup) methods) last).run p.state) := by
  obtain ⟨declared, c, u, symbol, v, named, opened, rest, hdecl, hsuper, hu, hn, hv, huv, hnamed,
    hopened, hmths, rfl⟩ := hc
  have hu' : Translate.Spare A.G A.F (sc.declare name).frame u := by
    rw [Scopes.declare_frame]
    exact hu
  rw [exec, List.append_assoc]
  refine .bind (announceClass_follows h hd hdecl) ?_
  rintro _ p1 m1 - - ⟨locals1, h1, rfl⟩
  refine .bind (spare_follows hu' fun tasks =>
    (eval_follows hcall sup hsuper h1.forget).imp
      fun _ ⟨locals', w', hat, hw, hm⟩ => ⟨locals', w', trivial, hat, hw, hm⟩) ?_
  rintro parent p2 m2 - - ⟨locals2, parent', -, h2, hpar, hs, rfl⟩
  refine .bind (makeClass_follows h2 (.some ?_) hn hv hnamed) ?_
  · rw [A.value_of_getElem? hpar]
    exact hs
  rintro c p3 m3 ha3 - ⟨locals3, c', h3, hval, hc, hspare, rfl⟩
  have h4 := h3.push
  have ho : p3.Advances A.base (p3.openEnv env) :=
    (p3.advances_openEnv env).weaken h3.alive.base_le
  have hf : Fills host A (some p3.state.envs.size) (sc.declare name).push
      ((sc.declare name).push.declare "super") (p3.state.envs.size :: es) opened
      (.readVariable u)
      (put p3.state.envs.size "super") :=
    fills_declared rfl (h3.placed.regular.names.push_declare "super") hopened
  show Follows host fuel A.base cs p3 _ _ ((put p3.state.envs.size "super" parent >>= fun _ =>
    addMethods (some p3.state.envs.size) c methods >>= fun _ => pure last).run
      (p3.openEnv env).state)
  refine .of_advances ho (.bind (hf.keeps (x := pure parent) fun _ =>
    .readsVariable h4.forget ((hspare hu huv).trans hpar) (hs.mono ha3.object)) ?_)
  rintro _ p4 m4 ha4 - ⟨locals4, h5, hk, rfl⟩
  refine .bind (methods_follow methods hmths hplc h5 ((hk ?_).trans hval) (hc.mono ha4.object)) ?_
  · rw [Scopes.declare_frame, show (sc.declare name).push.frame = sc.frame from
      Scopes.declare_frame sc name]
    exact hv.unbound
  rintro _ p5 m5 ha5 - ⟨locals5, h6, rfl⟩
  have hchain := h3.holds.chain.mono ((ho.trans ha4).trans ha5).parents
  exact .runs (h6.pop h3.placed hchain
    ((Scopes.Extends.declare _ "super").trans (walkMethods_extends methods _)))

end Classes

/-! ## §3 Loops -/

theorem iterate_follows {test : Interp Word} {body : Word → Interp Word} {c : Code} {b : List Instr}
    (ht : ∀ {p : Moment} {locals : Array Word} {last : Word} {K : List Pending},
      At A env sc es locals last p →
      FollowsIn host fuel A cs p locals K (.eval c)
        (Gives A env sc es last K cs) (test.run p.state))
    (hb : ∀ {p : Moment} {locals : Array Word} {last : Word} {K : List Pending},
      At A env sc es locals last p →
      FollowsIn host fuel A cs p locals K (.run b)
        (Runs A env sc es K cs []) ((body last).run p.state)) :
    ∀ (turns : Nat) {p : Moment} {locals : Array Word} {last : Word} {m : Machine}, turns ≤ fuel →
      At A env sc es locals last p → m.store = p.store → m.stop? = none →
      m.searchStep host =
        ⟨p.forget.store, A.frameWith locals, .loopTest c b :: K, cs, .eval c⟩ →
      Follows host turns A.base cs p m (Runs A env sc es K cs [])
        ((iterate test body turns last).run p.state)
  | 0, p, locals, last, m, _, h, hm, hs, _ => by
    exact .unfinished (Nat.zero_le 0) (.refl m) hs (by rw [hm]; exact h.alive.linked.stores.printed)
  | turns + 1, p, locals, last, m, hle, h, hm, hs, hstep => by
    have hle' : turns ≤ fuel := Nat.le_of_succ_le hle
    refine .stepCounted hs ?_
    rw [hstep]
    refine .bind ((ht h.forget).atLeast hle') ?_
    rintro w p1 m1 - - ⟨locals1, w', h1, hw, rfl⟩
    refine .stepTo rfl (show _ = if w'.isFalsy then
      ⟨p1.forget.store, A.frameWith locals1, K, cs, .run []⟩
      else ⟨p1.forget.store, A.frameWith locals1, .again c b :: K, cs, .run b⟩ from rfl) ?_
    rw [hw.isFalsy_eq]
    split
    · exact .runs h1.forget
    · refine .bind ((hb h1.forget).atLeast hle') ?_
      rintro last2 p2 m2 - - ⟨locals2, h2, rfl⟩
      exact iterate_follows ht hb turns hle' h2 rfl rfl rfl

/-! ## §4 Statements -/

theorem At.walk (h : At A env sc es locals last p) {s : Stmt} (hs : s.declares = []) :
    At A env (s.walk sc) es locals last p :=
  have hext := s.walk_extends sc
  h.later (s.stack_walk hs sc) hext.frame hext.nextFrame hext.nextKey

theorem At.back (h : At A env sc' es locals last p) (hplc : Placed A sc)
    (hs : sc'.stack = sc.stack) (hf : sc'.frame = sc.frame) :
    At A env sc es locals last p :=
  ⟨hplc, h.alive, h.holds.later hs.symm hf.symm⟩

mutual

theorem exec_follows [host.Attached] (hcall : Calls host fuel call) :
    ∀ (s : Stmt) {env : Option Nat} {sc : Scopes} {es : List Nat} {code more : List Instr}
    {locals : Array Word} {last : Word} {p : Moment} {K : List Pending},
    Translate.stmt A.G A.F sc s code → s.WellPlaced → (s.walk sc).Distinct →
    At A env sc es locals last p →
    FollowsIn host fuel A cs p locals K (.run (code ++ more))
      (Runs A env (s.walk sc) es K cs more) ((exec fuel call A.bare env s last).run p.state)
  | .expression _, _, _, _, _, _, _, _, _, _, hc, _, _, h => expression_follows hcall h hc
  | .print _, _, _, _, _, _, _, _, _, _, hc, _, _, h => print_follows hcall h hc
  | .declare _ _, _, _, _, _, _, _, _, _, _, hc, _, hd, h => declare_follows hcall h hc hd
  | .block body, env, sc, es, code, more, locals, last, p, K, hc, hplc, _, h => by
    have ho : p.Advances A.base (p.openEnv env) :=
      (p.advances_openEnv env).weaken h.alive.base_le
    show Follows host fuel A.base cs p _ _
      ((execAll fuel call A.bare (some p.state.envs.size) body last).run (p.openEnv env).state)
    refine .of_advances ho ((execAll_follows hcall body hc hplc.2
      (h.placed.regular.names.block hplc.1) h.push).imp ?_)
    rintro _ p1 m1 ha ⟨locals1, h1, rfl⟩
    exact ⟨locals1, h1.pop h.placed (h.holds.chain.mono (ho.trans ha).parents)
      (walkAll_extends body sc.push), rfl⟩
  | .branch cond yes none, env, sc, es, code, more, locals, last, p, K, hc, hplc, hd, h => by
    obtain ⟨c, y, hcond, hyes, rfl⟩ := hc
    refine .step rfl (.bind (eval_follows hcall cond hcond h.forget) ?_)
    rintro w p1 m1 - - ⟨locals1, w', h1, hw, rfl⟩
    refine .stepTo rfl (show _ = ⟨p1.forget.store, A.frameWith locals1, .rest more :: K, cs,
      .run (if w'.isFalsy then [] else y)⟩ from rfl) (.resumes ?_)
    rw [hw.isFalsy_eq]
    split
    · exact .runs (h1.forget.walk hplc.1)
    · rw [← List.append_nil y]
      exact exec_follows hcall yes hyes hplc.2 hd h1.forget
  | .branch cond yes (some no), env, sc, es, code, more, locals, last, p, K, hc, hplc, hd, h => by
    obtain ⟨c, y, n, hcond, hyes, hno, rfl⟩ := hc
    obtain ⟨hy, hn, hypl, hnpl⟩ := hplc
    refine .step rfl (.bind (eval_follows hcall cond hcond h.forget) ?_)
    rintro w p1 m1 - - ⟨locals1, w', h1, hw, rfl⟩
    refine .stepTo rfl (show _ = ⟨p1.forget.store, A.frameWith locals1, .rest more :: K, cs,
      .run (if w'.isFalsy then n else y)⟩ from rfl) (.resumes ?_)
    rw [hw.isFalsy_eq]
    split
    · rw [← List.append_nil n]
      exact exec_follows hcall no hno hnpl hd (h1.forget.walk hy)
    · rw [← List.append_nil y]
      refine (exec_follows hcall yes hyes hypl (hd.of_extends (no.walk_extends _)) h1.forget).imp ?_
      rintro _ p2 m2 - ⟨locals2, h2, rfl⟩
      exact ⟨locals2, h2.walk hn, rfl⟩
  | .loop cond body, env, sc, es, code, more, locals, last, p, K, hc, hplc, hd, h => by
    obtain ⟨c, b, hcond, hb, rfl⟩ := hc
    have hback := body.stack_walk hplc.1 sc
    refine .resumes ((iterate_follows
      (fun h => eval_follows hcall cond hcond h) (fun {p locals last K} h' => ?_) fuel
      (Nat.le_refl _) h rfl rfl rfl).imp ?_)
    · rw [← List.append_nil b]
      refine (exec_follows hcall body hb hplc.2 hd h').imp ?_
      rintro _ p1 m1 - ⟨locals1, h1, rfl⟩
      exact ⟨locals1, h1.back h.placed hback (body.walk_extends sc).frame, rfl⟩
    · rintro _ p1 m1 - ⟨locals1, h1, rfl⟩
      exact ⟨locals1, h1.walk hplc.1, rfl⟩
  | .function decl, env, sc, es, code, more, locals, last, p, K, hc, hplc, hd, h => by
    have hext := decl.walk_extends false (sc.declare decl.name.name)
    refine (function_follows h hc hplc (hd.of_extends hext)).imp ?_
    rintro _ p1 m1 - ⟨locals1, h1, rfl⟩
    exact ⟨locals1, h1.later (Scopes.stack_walk false decl _) hext.frame hext.nextFrame
      hext.nextKey, rfl⟩
  | .leave _, _, _, _, _, _, _, _, _, _, hc, _, _, h => return_follows hcall h hc
  | .classDecl _ none methods, _, _, _, _, _, _, _, _, _, hc, hplc, hd, h =>
    class_follows h hc hplc (hd.of_extends (walkMethods_extends methods _))
  | .classDecl _ (some _) methods, _, _, _, _, _, _, _, _, _, hc, hplc, hd, h =>
    subclass_follows hcall h hc hplc <| hd.of_extends <|
      Scopes.Extends.block <|
        (Scopes.Extends.declare _ "super").trans (walkMethods_extends methods _)

theorem execAll_follows [host.Attached] (hcall : Calls host fuel call) :
    ∀ (body : List Stmt) {env : Option Nat} {sc : Scopes} {es : List Nat}
    {code more : List Instr} {locals : Array Word} {last : Word} {p : Moment} {K : List Pending},
    Translate.stmts A.G A.F sc body code → wellPlacedAll body → (walkAll body sc).Distinct →
    At A env sc es locals last p →
    FollowsIn host fuel A cs p locals K (.run (code ++ more))
      (Runs A env (walkAll body sc) es K cs more)
      ((execAll fuel call A.bare env body last).run p.state)
  | [], _, _, _, _, _, _, _, _, _, hc, _, _, h => by
    cases hc
    exact .runs h
  | s :: rest, env, sc, es, code, more, locals, last, p, K, hc, hplc, hd, h => by
    obtain ⟨first, next, hs, hr, rfl⟩ := hc
    rw [execAll, List.append_assoc]
    refine .bind (exec_follows hcall s hs hplc.1
      (hd.of_extends (walkAll_extends rest _)) h) ?_
    rintro _ p1 m1 - - ⟨locals1, h1, rfl⟩
    exact execAll_follows hcall rest hr hplc.2 hd h1

end

end ScriptMachine.Lexical
