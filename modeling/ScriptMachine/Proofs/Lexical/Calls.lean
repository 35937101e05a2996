/-
ScriptMachine.Proofs.Lexical.Calls — a call of compiled code follows a call of
the function that was made.
-/
import ScriptMachine.Proofs.Lexical.Earlier
import ScriptMachine.Proofs.Lexical.Statements

namespace ScriptMachine

theorem Machine.call_eq {host : Host} [host.Attached] (m : Machine) (f : Word)
    (ws : List Word) : m.call host f ws =
      match m.store.prepareCall f ws.length with
      | (.ok target, s) => { m with store := s }.callTarget host target ws
      | (.error e, s) => { m with store := s.raise e, control := .leave .nil } := by
  unfold call Serve.prepareCall
  rw [if_pos host.attached_eq]
  rcases m.store.prepareCall f ws.length with ⟨_ | target, s⟩ <;> rfl

namespace Lexical

variable {A : Activation} {env : Option Nat} {sc : Scopes} {es : List Nat}
  {locals : Array Word} {last w w' : Word} {p p' : Moment} {K : List Pending} {cs : List Caller}
  {host : Host} {e least fuel base : Nat} {code more : List Instr} {m : Machine} {fr : Frame}

/-! ## §1 Leaving -/

def Left (cs : List Caller) (w : Word) (p : Moment) (m : Machine) : Prop :=
  ∃ w', p.Leaves m cs w' ∧ p.Calm ∧ p.link.Same w w'

theorem Follows.left {α : Type} {Q : α → Moment → Machine → Prop} {σ : State}
    (h : Follows host least base cs p m Q (.error (.returned w) σ)) :
    Follows host least base cs p m (Left cs) (.ok w σ) := by
  cases h with
  | exhausted he => exact .exhausted he
  | returned hg hlvs hc hw => exact .ok hg ⟨_, hlvs, hc, hw⟩

theorem Follows.returning {α : Type} {Q : α → Moment → Machine → Prop} {body : Interp α}
    {otherwise : α → Word} (h : Follows host least base cs p m Q (body.run p.state))
      (hQ : ∀ {a p' m'}, Q a p' m' →
      Follows host least base cs p' m' Q (.error (.returned (otherwise a)) p'.state)) :
    Follows host least base cs p m (Left cs) ((Lexical.returning otherwise body).run p.state) := by
  unfold Lexical.returning
  dsimp only
  generalize body.run p.state = r at h
  cases h with
  | exhausted he => exact .exhausted he
  | ok hg hq =>
    obtain ⟨n, hn⟩ := hg.reaches
    exact reach hn hg.advances (hQ hq).left
  | returned hg hlvs hc hw => exact .ok hg ⟨_, hlvs, hc, hw⟩
  | raised hg hlvs hp he => exact .raised hg hlvs hp he
  | unfinished hn hr hs hprt => exact .unfinished hn hr hs hprt

def Moment.withDepth (p : Moment) (f : Nat → Nat) : Moment :=
  p.withStores p.link { p.state.store with depth := f p.state.store.depth }
    { p.store with depth := f p.store.depth }

theorem Moment.advances_withDepth (p : Moment) (f : Nat → Nat) (base : Nat) :
    p.Advances base (p.withDepth f) :=
  ⟨id, id, fun _ => id, Nat.le_refl _, .refl _, fun _ _ => rfl,
    .of_heap rfl (fun _ => rfl) rfl rfl id⟩

theorem Moment.Linked.withDepth (h : p.Linked) (f : Nat → Nat) : (p.withDepth f).Linked :=
  h.advance (p.advances_withDepth f 0) { h.stores with depth := congrArg f h.stores.depth } h.cells
    h.cell_unique h.cell_injective rfl rfl (Nat.le_refl _)

theorem Moment.Leaves.unwind (h : p.Leaves m (⟨fr, K⟩ :: cs) w) (hs : p.store = m.store)
    (host : Host) : m.stop? = none ∧ m.searchStep host =
      if p.store.pending then
        ⟨(p.forget.withDepth (· - 1)).store, fr, K, cs, .leave .nil⟩
      else ⟨(p.forget.withDepth (· - 1)).store, fr, K, cs, .give w⟩ := by
  obtain ⟨store, frame, stack, callers, control⟩ := m
  obtain ⟨_, hctl, hcs⟩ := h
  subst hctl hcs hs
  refine ⟨rfl, ?_⟩
  show (if p.store.pending then _ else _) = _
  rfl

def shallower (σ : State) : State :=
  { σ with store := { σ.store with depth := σ.store.depth - 1 } }

def atDepthResult : EStateM.Result Exit State Word → EStateM.Result Exit State Word
  | .ok w σ => .ok w (shallower σ)
  | .error e σ => .error e (shallower σ)

theorem run_atDepth (body : Interp Word) (p : Moment) : (atDepth body).run p.state =
    atDepthResult (if p.state.store.maxDepth < p.state.store.depth + 1 then
      .error (.raised .stackOverflow) (p.withDepth (· + 1)).state
      else body.run (p.withDepth (· + 1)).state) := by
  show (if _ then _ else _) = _
  split
  · rfl
  · show _ = atDepthResult (body.run (p.withDepth (· + 1)).state)
    rfl

/-- A function that is left hands its word to the one that called it. -/
theorem Follows.unwinds {r : EStateM.Result Exit State Word}
    (hbody : Follows host least base (⟨fr, K⟩ :: cs) (p.withDepth (· + 1)) m
      (Left (⟨fr, K⟩ :: cs)) r) (hnever : ∀ {w σ}, r ≠ .error (.returned w) σ) :
    Follows host least base cs p m (Answers fr K cs) (atDepthResult r) := by
  -- the caller is where it was
  have hb : ∀ {p' m'}, Got host base (p.withDepth (· + 1)) m p' m' →
      p.Advances base (p'.forget.withDepth (· - 1)) := fun hg =>
    (((p.advances_withDepth _ _).trans hg.advances).trans (Moment.advances_forget _ _)).trans
      (Moment.advances_withDepth _ _ _)
  cases hbody with
  | exhausted he => exact .exhausted he
  | @ok w p' m' hg hq =>
    obtain ⟨w', hlvs, hc, hw⟩ := hq
    obtain ⟨n, hn⟩ := hg.reaches
    obtain ⟨hstop, hstep⟩ := hlvs.unwind hg.store host
    rw [if_neg (by rw [hc.1]; nofun)] at hstep
    exact reach (hn.trans (.stepTo hstop hstep (.refl _))) (hb hg)
      (done rfl ⟨hlvs.linked.forget.withDepth _, hc, w', hw, rfl⟩)
  | returned => exact absurd rfl hnever
  | @raised e w p' m' hg hlvs hp he =>
    obtain ⟨n, hn⟩ := hg.reaches
    obtain ⟨hstop, hstep⟩ := hlvs.unwind hg.store host
    rw [if_pos hp] at hstep
    exact reach (hn.trans (.stepTo hstop hstep (.refl _))) (hb hg)
      (raises rfl ⟨hlvs.linked.forget.withDepth _, rfl, rfl⟩ hp he)
  | unfinished hn hr hs hprt => exact .unfinished hn hr hs hprt

/-! ## §2 Opening -/

theorem parameters_follow [host.Attached] : ∀ (params : List String)
    {sc : Scopes} {index : Nat} {code : List Instr} {locals : Array Word} {p : Moment}
    {ws ws' : List Word}, Translate.parameters A.G A.F index params sc code →
    sc.atTop = false → (params.foldl Scopes.declare sc).Distinct →
    At A (some e) sc (e :: es) locals last p → A.frame.arguments.drop index = ws' →
    List.Forall₂ p.link.Same ws ws' → params.length = ws.length →
    FollowsIn host least A cs p locals K (.run (code ++ more))
      (fun _ => Runs A (some e) (params.foldl Scopes.declare sc) (e :: es) K cs more last)
      ((bindAll e params ws).run p.state)
  | [], sc, index, code, locals, p, ws, ws', hc, _, _, h, _, _, hlen => by
    cases hc
    exact .done rfl ⟨locals, h, rfl⟩
  | name :: rest, sc, index, code, locals, p, ws, ws', hc, ht, hd, h, hdrop, hws, hlen => by
    obtain ⟨instr, code', hdecl, hr, rfl⟩ := hc
    cases hws with
    | nil => cases hlen
    | @cons w w' ws ws' hw hws =>
      have hval : A.frame.arguments[index]? = some w' := by
        rw [← List.head?_drop, hdrop, List.head?_cons]
      have hdrop' : A.frame.arguments.drop (index + 1) = ws' := by
        rw [← List.tail_drop, hdrop, List.tail_cons]
      have harg : ∀ tasks, (⟨p.forget.store, A.frameWith locals, tasks, cs,
          .eval (.argument index)⟩ : Machine).searchStep host =
          ⟨p.forget.forget.store, A.frameWith locals, tasks, cs, .give w'⟩ := fun tasks => by
        show (⟨_, _, _, _, .give (A.frame.arguments[index]?.getD .zero)⟩ : Machine) = _
        rw [hval]
        rfl
      refine .bind ((fills_declared ht (hd.of_extends (.declareAll rest _)) hdecl).follows
        (x := pure w) fun tasks => .stepTo rfl (harg tasks) (.gives h.forget.forget hw)) ?_
      rintro _ p1 m1 ha - ⟨locals1, h1, rfl⟩
      exact parameters_follow rest hr ((Scopes.Extends.declare sc name).atTop.trans ht) hd h1 hdrop'
        (hws.imp fun _ _ hs => hs.mono ha.object) (Nat.succ.inj hlen)

section Opening

variable {kind : FunctionKind} {decl : FunctionDecl} {declaration : Nat}

theorem Alive.start (h : Alive A locals last p) (hb : Body A.G A.F sc kind decl declaration)
    (ha : Around p sc A.F.upvalues A.cells env es) (hu : A.frame.unit = A.G.unit) :
    At A (some p.state.envs.size) sc.enter.push (p.state.envs.size :: es) locals last
      (p.openEnv env) where
  placed :=
    { regular := hb.regular.enter.push
      top := fun hs => by
        cases hs
        rfl
      binds := fun scope name key hs hm => by
        rcases List.mem_cons.mp hs with rfl | hs
        · cases hm
        · exact hb.binds hs hm
      separate := hb.separate
      unit := hu
      atTop := nofun
      result := fun hk => absurd (hb.kind_eq.symm.trans hk) hb.ne_script }
  alive := h.advance (p.advances_openEnv env) (h.linked.openEnv env) h.calm
  holds := (ha.holds hb.regular hb.binds locals).push h.linked h.base_le

theorem opening_follows [host.Attached] (h : Alive A locals last p)
    (hb : Body A.G A.F sc kind decl declaration)
    (ha : Around p sc A.F.upvalues A.cells env es) (hu : A.frame.unit = A.G.unit)
    (hc : Translate.opening A.G A.F sc kind decl.params code) {recv : Word} {ws : List Word}
    (hr : p.link.Same recv A.frame.receiver)
    (hws : List.Forall₂ p.link.Same ws A.frame.arguments) (hlen : decl.params.length = ws.length) :
    FollowsIn host least A cs p locals K (.run (code ++ more))
      (fun e p' m' => ∃ es, Runs A (some e) (sc.openFunction kind.hasReceiver decl.params) (e :: es)
        K cs more last p' m')
      ((openCall ⟨kind, decl, env⟩ recv ws).run p.state) := by
  obtain ⟨name, params, body⟩ := decl
  have hdist := (hb.regular.names.function hb.wellPlaced.1 kind.hasReceiver).of_extends
    (walkAll_extends body _)
  have ho : p.Advances A.base (p.openEnv env) := (p.advances_openEnv env).weaken h.base_le
  have hsta := h.start hb ha hu
  -- the innermost environment is open, and the parameters are next
  have hpar : ∀ {sc : Scopes} {code : List Instr} {e : Nat} {es : List Nat}
      {locals : Array Word} {p : Moment}, Translate.parameters A.G A.F 0 params sc code →
      sc.atTop = false → (params.foldl Scopes.declare sc).Distinct →
      At A (some e) sc (e :: es) locals last p → List.Forall₂ p.link.Same ws A.frame.arguments →
      FollowsIn host least A cs p locals K (.run (code ++ more))
        (fun e p' m' => ∃ es, Runs A (some e) (params.foldl Scopes.declare sc) (e :: es) K cs more
          last p' m') ((bindAll e params ws >>= fun _ => pure e).run p.state) := by
    intro sc code e es locals p hc ht hd h hws
    refine .bind (parameters_follow params hc ht hd h rfl hws hlen) ?_
    rintro _ p1 m1 - hs ⟨locals1, h1, rfl⟩
    exact .done hs ⟨es, locals1, h1, rfl⟩
  unfold openCall
  unfold Translate.opening at hc
  cases hk : kind.hasReceiver with
  | false =>
    rw [hk] at hc hdist
    exact .of_advances ho (hpar hc rfl hdist hsta hws)
  | true =>
    rw [hk] at hc hdist
    obtain ⟨instr, code', hdecl, hp, rfl⟩ := hc
    show Follows host least A.base cs p _ _ ((put p.state.envs.size "this" recv >>= fun _ =>
      openEnv (some p.state.envs.size) >>= fun e => bindAll e params ws >>= fun _ =>
        pure e).run (p.openEnv env).state)
    refine .of_advances ho (.bind ((fills_declared rfl
      (hb.regular.enter.names.push_declare "this") hdecl).follows (x := pure recv) fun _ =>
        .step rfl (.gives hsta.forget.forget hr)) ?_)
    rintro _ p1 m1 ha1 - ⟨locals1, h1, rfl⟩
    exact .of_advances ((p1.advances_openEnv _).weaken h1.alive.base_le) (hpar hp rfl
      hdist h1.push (hws.imp fun _ _ hs => hs.mono ha1.object))

end Opening

/-! ## §3 Functions -/

theorem exists_run_bindAll (e : Nat) : ∀ (names : List String) (ws : List Word) (σ : State),
    ∃ σ', (bindAll e names ws).run σ = .ok () σ'
  | name :: names, w :: ws, σ => by
    exact exists_run_bindAll e names ws _
  | [], _, σ => ⟨σ, by rw [bindAll]; rfl; nofun⟩
  | _ :: _, [], σ => ⟨σ, by rw [bindAll]; rfl; nofun⟩

theorem exists_run_openCall (made : Made) (recv : Word) (ws : List Word) (σ : State) :
    ∃ e σ', (openCall made recv ws).run σ = .ok e σ' := by
  have hb : ∀ (e : Nat) (σ : State), ∃ e' σ',
      (bindAll e made.decl.params ws >>= fun _ => (pure e : Interp Nat)).run σ = .ok e' σ' := by
    intro e σ
    obtain ⟨σ', hσ'⟩ := exists_run_bindAll e made.decl.params ws σ
    exact ⟨e, σ', by rw [run_bind_of_ok hσ']; rfl⟩
  unfold openCall
  cases made.kind.hasReceiver with
  | false => exact hb _ _
  | true => exact hb _ _

theorem returning_ne_returned {α : Type} (otherwise : α → Word) (body : Interp α) (σ σ' : State) :
    (returning otherwise body).run σ ≠ .error (.returned w) σ' := by
  unfold returning
  dsimp only
  split
  · rintro ⟨⟩
  · rintro ⟨⟩
  · next hne _ =>
    intro heq
    cases heq
    exact hne _ rfl

section Functions

variable {ws ws' : List Word} {control : Control}

/-- Code that is entered follows a body that is run one level deeper. Both find
out in the same way that this is too deep. -/
theorem enter_follows [host.Attached] (hl : p.Linked) (hc : p.Calm) {body : Interp Word}
    {unit : CodeUnit} {d : Nat} {f : Function} {closure recv : Word}
    (hfn : unit.function? d = some f)
    (hb : Follows host least base (⟨fr, K⟩ :: cs) (p.withDepth (· + 1))
      ⟨(p.withDepth (· + 1)).store, ⟨unit, closure, recv, ws', .replicate f.locals .zero⟩, [],
        ⟨fr, K⟩ :: cs, .run f.body⟩
      (Left (⟨fr, K⟩ :: cs)) (body.run (p.withDepth (· + 1)).state))
    (hn : ∀ {w σ}, body.run (p.withDepth (· + 1)).state ≠ .error (.returned w) σ) :
    Follows host least base cs p
      ((⟨p.store, fr, K, cs, control⟩ : Machine).callTarget host
        ⟨.compiled unit d, closure, recv⟩ ws')
      (Answers fr K cs) ((atDepth body).run p.state) := by
  let m : Machine := ⟨(p.withDepth (· + 1)).store,
    ⟨unit, closure, recv, ws', .replicate f.locals .zero⟩, [], ⟨fr, K⟩ :: cs, control⟩
  have he : (⟨p.store, fr, K, cs, control⟩ : Machine).callTarget host
      ⟨.compiled unit d, closure, recv⟩ ws' =
      if p.store.maxDepth < p.store.depth + 1 then
        { m with store := m.store.raise .stackOverflow, control := .leave .nil }
      else { m with control := .run f.body } := by
    simp only [Machine.callTarget, hfn, Machine.enter, Machine.serve, host.attached_eq, if_true]
    rfl
  rw [he, run_atDepth, hl.stores.maxDepth, hl.stores.depth]
  split
  · exact .unwinds (.raise (hl.withDepth (· + 1)) hc .stackOverflow .nil) (by rintro _ _ ⟨⟩)
  · exact .unwinds hb hn

theorem made_follows [host.Attached] {call : Word → List Word → Interp Word}
    (hc : Calls host fuel call) (hl : p.Linked) (hcalm : p.Calm) {made : Made} {c : Closure}
    (hm : p.Makes made c) {j : Nat} (hj : j < 0x100000000)
    (hobj : p.store.heap.objects[j]? = some (.closure c)) (hw : p.link.Same w w')
    (hws : List.Forall₂ p.link.Same ws ws') (hcnt : c.arity = ws.length) :
    Follows host fuel p.state.envs.size cs p
      ((⟨p.store, fr, K, cs, control⟩ : Machine).callTarget host ⟨c.entry, .ofIndex j, w'⟩ ws')
      (Answers fr K cs)
      ((atDepth (openCall made w ws >>= fun e => returning (fun _ => bareReturn made.kind w)
        (execAll fuel call (bareReturn made.kind w) (some e) made.decl.body .nil))).run
          p.state) := by
  obtain ⟨G, inner, around, declaration, es', hent, ha, hb, hf, haro⟩ := hm
  obtain ⟨kind, ⟨name, params, body⟩, env'⟩ := made
  obtain ⟨start, rest, hfn, hopening, hs⟩ := hb.code
  obtain rfl := hb.kind_eq
  let frame : Frame := { unit := G.unit, closure := .ofIndex j, receiver := w', arguments := ws' }
  let B : Activation := ⟨G, inner, frame, c.cells, p.state.envs.size, bareReturn inner.kind w⟩
  have halive : Alive B (.replicate inner.locals .zero) .nil (p.withDepth (· + 1)) :=
    { linked := hl.withDepth (· + 1)
      calm := hcalm
      fits := hf.trans (p.advances_withDepth (· + 1) 0).later
      carried := .inr ⟨c, (Heap.deref?_ofIndex _ hj).trans hobj, rfl⟩
      base_le := Nat.le_refl _
      bare := by
        show p.link.Same (if inner.kind = .initializer then w else .nil) _
        split
        · exact hw
        · exact .nil
      size := Array.size_replicate
      result := fun hk => absurd hk hb.ne_script }
  have haro' : Around (p.withDepth (· + 1)) around inner.upvalues c.cells env' es' :=
    { haro with }
  rw [hent]
  refine enter_follows hl hcalm hfn ?_ ?_
  · show Follows host fuel B.base _ (p.withDepth (· + 1))
      ⟨(p.withDepth (· + 1)).store, B.frameWith _, [], _, .run (start ++ rest ++ [_])⟩ _ _
    rw [List.append_assoc]
    refine .bind (opening_follows halive hb haro' rfl hopening hw hws (ha.symm.trans hcnt)) ?_
    rintro e p1 m1 - - ⟨es1, locals1, h1, rfl⟩
    refine .returning (execAll_follows hc body hs hb.wellPlaced.2
      (hb.regular.names.function hb.wellPlaced.1 _) h1) ?_
    rintro _ p2 m2 ⟨locals2, h2, rfl⟩
    -- the code ends with the return that a body without one needs
    exact return_follows hc h2
      (show Translate.stmt B.G B.F _ (.leave none)
        [.leave (Lower.bareReturn inner.kind)] from rfl)
  · intro w' σ hret
    obtain ⟨e, σ', ho⟩ := exists_run_openCall ⟨inner.kind, ⟨name, params, body⟩, env'⟩ w ws
      (p.withDepth (· + 1)).state
    rw [run_bind_of_ok ho] at hret
    exact returning_ne_returned _ _ _ _ hret

/-- A function that was there before is called: its code is run by both. -/
theorem shared_follows [host.Attached] {call : Word → List Word → Interp Word}
    (hcall : Calls host fuel call) (hl : p.Linked) (hc : p.Calm) {c c' : Closure} {i j : Nat}
    {unit : CodeUnit} {d : Nat} {f : Function} (hfn : unit.function? d = some f)
    {closure : Nat → Nat → Prop} {n : Nat}
    (ht : typedCode (p.link.known.scheme closure f.body n) f.body)
    (hu : ∀ {d n}, closure d n → unit.Typed p.link.known d n)
    (hcells : p.link.object.Slots c.cells c'.cells) (hj : j < 0x100000000)
    (hobj : p.store.heap.objects[j]? = some (.closure c')) (hw : p.link.Same w w')
    (hws : List.Forall₂ p.link.Same ws ws') :
    Follows host fuel p.state.envs.size cs p
      ((⟨p.store, fr, K, cs, control⟩ : Machine).callTarget host
        ⟨.compiled unit d, .ofIndex j, w'⟩ ws')
      (Answers fr K cs)
      ((atDepth (returning (fun _ => .nil) (runCode call c.cells fuel f.body
        ⟨unit, .ofIndex i, w, ws, .replicate f.locals .zero⟩))).run p.state) := by
  have hz : p.link.Same .zero .zero := .atom (.canonical (.inl (by decide)))
  have hloc : p.link.object.Slots (Array.replicate f.locals .zero)
      (Array.replicate f.locals .zero) := by
    refine ⟨rfl, fun k => ?_⟩
    rw [Array.getElem?_replicate]
    split
    · exact .some hz
    · exact .none
  have hear : Earlier (p.link.known.scheme closure f.body n) p.state.envs.size c.cells
      ⟨unit, .ofIndex i, w, ws, .replicate f.locals .zero⟩
      ⟨unit, .ofIndex j, w', ws', .replicate f.locals .zero⟩ (p.withDepth (· + 1)) :=
    { linked := hl.withDepth (· + 1)
      calm := hc
      base_le := Nat.le_refl _
      frames := ⟨rfl, hw, hws, hloc⟩
      carried := ⟨c', (Heap.deref?_ofIndex _ hj).trans hobj, hcells⟩
      constant := id
      closure := hu }
  refine enter_follows hl hc hfn ?_ fun hret =>
    returning_ne_returned _ _ _ _ hret
  refine .returning (runCode_follows hcall f.body ht hear) ?_
  rintro _ p1 m1 ⟨fr1, h1, rfl⟩
  -- a function without a return at its end returns nil
  exact .step rfl (.returns rfl ⟨h1.linked.forget, rfl, rfl⟩ h1.calm.forget .nil)

theorem call_follows [host.Attached] (hnow : host.now.Atomic)
    (hcall : Calls host fuel (invoke host.now fuel)) (hl : p.Linked) (hc : p.Calm)
    {f f' : Word} (hf : p.link.Same f f') (hws : List.Forall₂ p.link.Same ws ws') :
    Follows host fuel p.state.envs.size cs p
      ((⟨p.store, fr, K, cs, control⟩ : Machine).call host f' ws')
      (Answers fr K cs) ((invoke host.now (fuel + 1) f ws).run p.state) := by
  have ha := Link.lawful.prepareCall hl.stores hf ws.length
  rw [invoke, Machine.call_eq, ← hws.length_eq]
  generalize hres : p.state.store.prepareCall f ws.length = result at ha
  generalize p.store.prepareCall f' ws.length = answer at ha
  cases ha with
  | @exhausted _ e t' _ hs =>
    refine .exhausted ⟨0, _, e, .refl _, ?_⟩
    show some (t'.error.getD (.heap e)) = _
    rw [Store.error_of_signals hs, hc.2]
    rfl
  | @error L t t' e hm hs =>
    rw [run_bind_of_error (run_onStore_error _ hres)]
    exact .of_advances (p.advances_moved hm _) (.raise (hl.moved hm hs) (hc.moved hm) e .nil)
  | @ok L t t' a b hm hs htar =>
    have hlink := hl.moved hm hs
    have hcalm : (p.withStores L t t').Calm := hc.moved hm
    rw [run_bind_of_ok (run_onStore_ok _ hres)]
    refine .of_advances (p.advances_moved (t := t) hm _) ?_
    have hg : ∀ w, (⟨t', fr, K, cs, control⟩ : Machine).giveUnlessPending w =
        ⟨t', fr, K, cs, .give w⟩ := fun w => by
      unfold Machine.giveUnlessPending
      rw [show t'.pending = false from hcalm.1]
      rfl
    have hws' : List.Forall₂ L.Same ws ws' := hws.imp fun _ _ hs => hs.mono hm.object
    cases htar with
    | clock =>
      show Follows host fuel _ cs _ (Machine.giveUnlessPending _ host.now) _ _
      rw [hg]
      exact .done rfl ⟨hlink, hcalm, _, .atom hnow, rfl⟩
    | @construct v v' w w' hw =>
      show Follows host fuel _ cs _ (Machine.giveUnlessPending _ w') _ _
      rw [hg]
      exact .done rfl ⟨hlink, hcalm, _, hw, rfl⟩
    | @closure i j c c' w w' hi hj ho hfst hobj hcode hcnt hw =>
      cases hcode with
      | @made number hent hmade =>
        obtain ⟨made, hget, hmakes⟩ := hlink.functions hmade
        have hlook : (look fun σ => σ.functions[number.toNat]?).run (p.withStores L t t').state =
            .ok (some made) (p.withStores L t t').state := congrArg (EStateM.Result.ok · _) hget
        rw [hent]
        show Follows host fuel _ cs _ _ _ ((look (fun σ => σ.functions[number.toNat]?) >>=
          _).run (p.withStores L t t').state)
        rw [run_bind_of_ok hlook]
        exact made_follows hcall hlink hcalm hmakes hj hobj hw hws' hcnt
      | @shared unit d hent hent' ht hcells =>
        obtain ⟨closure, hd, hu⟩ := ht
        obtain ⟨f, hfn, hb⟩ := hu hd
        have hcar : t.carried (.ofIndex i) = c.cells := by
          unfold Store.carried
          rw [t.heap.deref?_ofIndex hi, hfst]
        have hlook : (look (·.store.carried (.ofIndex i))).run (p.withStores L t t').state =
            .ok c.cells (p.withStores L t t').state := congrArg (EStateM.Result.ok · _) hcar
        rw [hent, hent']
        dsimp only
        rw [hfn]
        show Follows host fuel _ cs _ _ _ ((look (·.store.carried (.ofIndex i)) >>=
          _).run (p.withStores L t t').state)
        rw [run_bind_of_ok hlook]
        exact shared_follows hcall hlink hcalm hfn hb (fun hd => ⟨closure, hd, hu⟩)
          hcells hj hobj hw hws'

theorem invoke_follows [host.Attached] (hnow : host.now.Atomic) :
    ∀ fuel, Calls host fuel (invoke host.now fuel)
  | 0 => by
    intro hl _ _ _ hm hs _
    exact .unfinished (Nat.zero_le 0) (.refl _) hs (by rw [hm]; exact hl.stores.printed)
  | fuel + 1 => by
    intro hl hc hf hws _ hs hstep
    refine .stepCounted hs ?_
    rw [hstep]
    exact call_follows hnow (invoke_follows hnow fuel) hl.forget hc.forget hf hws

end Functions

end Lexical

end ScriptMachine
