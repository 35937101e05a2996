/-
ScriptMachine.Proofs.Lexical.Expressions — code of an expression follows the
expression.
-/
import ScriptMachine.Proofs.Lexical.Following

namespace ScriptMachine

/-! ## §1 Routines -/

namespace Machine

variable {m : Machine} {host : Host} {cell : CellRef} {c : Nat} {v : Word}

theorem getProperty_of_blank (h : Blank m.store.sites) (object : Word)
    (name : Symbol) (site : Nat) :
    m.getProperty host object name site = m.checked host (Serve.getProperty object name site) := by
  unfold getProperty
  rw [Store.cached?_of_blank h]

theorem setProperty_of_blank (h : Blank m.store.sites) (object : Word) (name : Symbol) (w : Word)
    (site : Nat) :
    m.setProperty host object name w site =
      m.checked host (Serve.setProperty object name w site) := by
  unfold setProperty
  rw [Store.cached?_of_blank h]

theorem receive_assignGlobal [host.Attached] (slot : Nat) (w : Word) :
    m.receive host w (.assignGlobal slot) = m.checked host (Serve.globalSet slot w) := by
  cases hv : m.store.slotValue? slot with
  | some v =>
    simp [receive, checked, serve, Serve.globalSet, Store.setGlobal, hv, Serve.report]
  | none =>
    simp [receive, checked, serve, Serve.globalSet, Store.setGlobal, hv, Serve.report,
      Store.raise, giveUnlessPending]

theorem eval_readCell [host.Attached] (hword : m.cellWord host cell = .ofIndex c)
    (hc : c < 0x100000000) (hobj : m.store.heap.objects[c]? = some (.cell v)) :
    m.eval host (.readCell cell) = m.give v := by
  have hd := (m.store.heap.deref?_ofIndex hc).trans hobj
  simp [eval, serve, Serve.cellGet, Store.cellValue, hword, hd]

theorem receive_assignCell [host.Attached] {w : Word}
    (hword : m.cellWord host cell = .ofIndex c) (hc : c < 0x100000000)
    (hobj : m.store.heap.objects[c]? = some (.cell v)) :
    m.receive host w (.assignCell cell) =
      { m with store := { m.store with heap := m.store.heap.put c (.cell w) } }.give w := by
  have hd := (m.store.heap.deref?_ofIndex hc).trans hobj
  simp [receive, serve, Serve.cellSet, Store.setCell, Heap.setCell, hword, hd,
    Word.objectIndex_ofIndex hc]

end Machine

namespace Lexical

variable {A : Activation} {env : Option Nat} {sc : Scopes} {es : List Nat} {locals : Array Word}
  {last w w' : Word} {p : Moment} {K : List Pending} {cs : List Caller} {host : Host}
  {name : String} {key : Key} {e least : Nat} {σ : State} {symbol : Symbol} {slot : Nat} {c : Code}
  {task : Pending} {depth : UInt64} {target : Resolution}

/-! ## §2 Operations

What code hands to a routine is followed wherever the code runs. -/

section Operations

variable {fr : Frame} {base site : Nat} {v v' : Word} [host.Attached] (hl : p.Linked) (hc : p.Calm)

include hl hc

theorem readSlot_follows (slot : Nat) :
    Follows host least base cs p ⟨p.store, fr, K, cs, .eval (.readGlobal slot)⟩
      (Answers fr K cs) ((readSlot slot).run p.state) :=
  .step rfl (.asked hl.forget hc.forget (Serve.globalGet slot) rfl _ rfl
    (Link.getGlobal_agree hl.forget.stores slot))

theorem newClass_follows (symbol : Symbol) {superclass : Option Word} {u : Option Nat}
    (hu : Option.Rel p.link.Same superclass (u.map fr.value)) :
    Follows host least base cs p ⟨p.store, fr, K, cs, .eval (.newClass symbol u)⟩
      (Answers fr K cs) ((newClass symbol superclass).run p.state) :=
  .step rfl (.asked hl.forget hc.forget (Serve.newClass symbol (u.map fr.value)) rfl _ rfl
    (Link.lawful.newClass hl.forget.stores rfl hu))

section

variable (hw : p.link.Same w w')

include hw

theorem assignSlot_follows (slot : Nat) :
    Follows host least base cs p ⟨p.store, fr, .assignGlobal slot :: K, cs, .give w'⟩
      (Answers fr K cs) ((assignSlot slot w).run p.state) :=
  .step rfl (.asked hl.forget hc.forget (Serve.globalSet slot w')
    (Machine.receive_assignGlobal slot w') _ rfl
    (Link.setGlobal_agree hl.forget.stores slot hw))

theorem negate_follows :
    Follows host least base cs p ⟨p.store, fr, .negate :: K, cs, .give w'⟩
      (Answers fr K cs) ((negate w).run p.state) := by
  have hstep : (⟨p.store, fr, .negate :: K, cs, .give w'⟩ : Machine).searchStep host =
      (⟨p.forget.store, fr, K, cs, .give w'⟩ : Machine).negate host w' := rfl
  unfold Machine.negate at hstep
  rw [hw.isPlain_eq] at hstep
  unfold Lexical.negate
  split at hstep
  · next hp =>
    rw [if_pos hp]
    exact .stepTo rfl hstep (.done rfl ⟨hl.forget, hc.forget, _, hw.flipSign hp, rfl⟩)
  · next hp =>
    rw [if_neg hp]
    exact .stepTo rfl hstep (.asked hl.forget hc.forget (Serve.negate w') rfl _ rfl
      (Link.lawful.negate hl.forget.stores hw))

theorem binary_follows (op : BinaryOp) (hv : p.link.Same v v') :
    Follows host least base cs p ⟨p.store, fr, .rightOperand op v' :: K, cs, .give w'⟩
      (Answers fr K cs) ((binary op v w).run p.state) :=
  .step rfl (.asked hl.forget hc.forget (Serve.binary op v' w')
    (Machine.binary_eq_checked hc.1 op v' w') _ rfl
    (Link.lawful.binary hl.forget.stores op hv hw))

theorem getSymbol_follows (symbol : Symbol) :
    Follows host least base cs p ⟨p.store, fr, .getProperty symbol site :: K, cs, .give w'⟩
      (Answers fr K cs) ((getSymbol w symbol).run p.state) :=
  .step rfl (.asked hl.forget hc.forget (Serve.getProperty w' symbol site)
    (Machine.getProperty_of_blank (blank_forget _) w' symbol site) _ rfl
    (Link.lawful.getProperty hl.forget.stores hw rfl _ site))

theorem setSymbol_follows (symbol : Symbol) (hv : p.link.Same v v') :
    Follows host least base cs p ⟨p.store, fr, .setProperty v' symbol site :: K, cs, .give w'⟩
      (Answers fr K cs) ((setSymbol v symbol w).run p.state) :=
  .step rfl (.asked hl.forget hc.forget (Serve.setProperty v' symbol w' site)
    (Machine.setProperty_of_blank (blank_forget _) v' symbol w' site) _ rfl
    (Link.lawful.setProperty hl.forget.stores hv hw rfl _ site))

theorem superSymbol_follows (symbol : Symbol) (hv : p.link.Same v v') :
    Follows host least base cs p ⟨p.store, fr, .superReceiver v' symbol :: K, cs, .give w'⟩
      (Answers fr K cs) ((superSymbol v w symbol).run p.state) :=
  .step rfl (.asked hl.forget hc.forget (Serve.getSuper v' w' symbol) rfl _ rfl
    (Link.lawful.getSuper hl.forget.stores hv hw rfl))

end

end Operations

/-! ## §3 Variables -/

theorem run_symbol (h : σ.store.names.find? name = some symbol) :
    (Lexical.symbol name).run σ = .ok symbol σ := by
  refine run_onStore_ok _ ?_
  simp [Store.intern, Names.intern_of_some h]

theorem run_slot (h : σ.store.slotOf? name = some slot) :
    (Lexical.slot name).run σ = .ok slot σ := by
  refine run_onStore_ok _ ?_
  obtain ⟨symbol, hf, hs⟩ := Option.bind_eq_some_iff.mp h
  have hint : σ.store.intern name = (symbol, σ.store) := by
    simp [Store.intern, Names.intern_of_some hf]
  rw [Store.globalSlot_eq, hint]
  rw [hs]

theorem At.run_symbol (h : At A env sc es locals last p)
    (hn : Translate.Named A.G name symbol) : (Lexical.symbol name).run p.state = .ok
      symbol p.state :=
  Lexical.run_symbol (h.alive.linked.stores.names ▸ h.alive.fits.names.find hn)

theorem At.run_slot (h : At A env sc es locals last p) (hs : A.G.store.slotOf? name = some slot) :
      (Lexical.slot name).run p.state = .ok slot p.state := by
  refine Lexical.run_slot ?_
  have hslot := h.alive.fits.slotOf? hs
  obtain ⟨symbol, hf, hglo⟩ := Option.bind_eq_some_iff.mp hslot
  rw [h.alive.linked.stores.names] at hf
  rw [h.alive.linked.stores.globalSlot?] at hglo
  exact Option.bind_eq_some_iff.mpr ⟨symbol, hf, hglo⟩

def Declares (sc : Scopes) (es : List Nat) (name : String) (key : Key) (e : Nat) : Prop :=
  ∃ (d : Nat) (scope : Scope), sc.stack[d]? = some scope ∧ es[d]? = some e ∧
    (name, key) ∈ scope.entries

theorem At.reads (host : Host) [host.Attached] (h : At A env sc es locals last p)
    (hd : Declares sc es name key e) (hr : Translate.ReadsKey A.G A.F sc.frame key c) :
    ∃ w w',
      value? p.state.envs e name = some w ∧ p.link.Same w w' ∧ ∀ K cs,
        (⟨p.store, A.frameWith locals, K, cs, .eval c⟩ : Machine).searchStep host =
          ⟨p.forget.store, A.frameWith locals, K, cs, .give w'⟩ := by
  obtain ⟨d, scope, hs, he, hm⟩ := hd
  rcases hr with ⟨index, hb, rfl⟩ | ⟨cell, hcell, rfl⟩
  · obtain ⟨w, w', hv, hl, hw, _⟩ := h.direct hs he hm hb
    refine ⟨w, w', hv, hw, fun K cs => ?_⟩
    show (_ : Machine).give (Frame.value (A.frameWith locals) index) = _
    simp only [Frame.value, Activation.frameWith, hl]
    rfl
  · obtain ⟨c, hc, hword⟩ := h.cell hs he hm hcell
    obtain ⟨w, w', hv, hobj, hw, _⟩ := h.alive.linked.cells hc
    refine ⟨w, w', hv, hw, fun K cs => ?_⟩
    exact Machine.eval_readCell (hword rfl rfl host.attached_eq) (h.alive.linked.cell_lt hc).2 hobj

def Assigns (A : Activation) (frame : Nat) (key : Key) (task : Pending) : Prop :=
  (∃ index, A.G.bindings.get? key = some ⟨frame, .direct index⟩ ∧ task = .assignVariable index) ∨
    ∃ cell, Translate.CellAt A.G A.F frame key cell ∧ task = .assignCell cell

theorem assigns_of_assignsKey {frame : Nat} {value : Code}
    (h : Translate.AssignsKey A.G A.F frame key value c) : ∃ task, Assigns A frame key task ∧
      ∀ (m : Machine) (host : Host), m.eval host c = m.evalFor task value := by
  rcases h with ⟨index, hb, rfl⟩ | ⟨cell, hcell, rfl⟩
  · exact ⟨.assignVariable index, .inl ⟨index, hb, rfl⟩, fun _ _ => rfl⟩
  · exact ⟨.assignCell cell, .inr ⟨cell, hcell, rfl⟩, fun _ _ => rfl⟩

theorem At.assigned (host : Host) [host.Attached] (h : At A env sc es locals last p)
    (hd : Declares sc es name key e) (ht : Assigns A sc.frame key task)
    (hw : p.link.Same w w') : ∃ p' locals', At A env sc es locals' last p' ∧
      Keeps A sc.frame locals locals' ∧ p.Advances A.base p' ∧
        p'.state = (p.write e name w).state ∧ p'.link.Same w w' ∧ ∀ K cs,
        (⟨p.store, A.frameWith locals, task :: K, cs, .give w'⟩ : Machine).searchStep host =
          ⟨p'.store, A.frameWith locals', K, cs, .give w'⟩ := by
  obtain ⟨d, scope, hs, he, hm⟩ := hd
  rcases ht with ⟨index, hb, rfl⟩ | ⟨cell, hcell, rfl⟩
  · obtain ⟨hat, hadv⟩ := h.assignDirect hs he hm hb hw
    exact ⟨(p.write e name w).forget, locals.setIfInBounds index w', hat.forget,
      .set hb locals w', hadv.trans (Moment.advances_forget _ _), rfl, hw, fun K cs => rfl⟩
  · obtain ⟨c, hc, hword⟩ := h.cell hs he hm hcell
    obtain ⟨_, v', _, hobj, _, _⟩ := h.alive.linked.cells hc
    have hlink := h.alive.linked.assignCell hc hw
    have hadv := Moment.advances_assignCell h.alive.linked hc w w'
    have hat := h.advance (hadv _) hlink h.alive.calm
    refine ⟨(p.assignCell e name w c w').forget, locals, hat.forget, .refl A _ locals,
      (hadv _).trans (Moment.advances_forget _ _), rfl, hw, fun K cs => ?_⟩
    exact Machine.receive_assignCell (hword rfl rfl host.attached_eq)
      (h.alive.linked.cell_lt hc).2 hobj

theorem At.declares (h : At A env sc es locals last p)
    (hr : Translate.Resolves A.G sc name depth key) : ∃ e, Declares sc es name key e ∧
      ancestor p.state.envs env depth.toNat = some e := by
  obtain ⟨e, scope, storage, hs, he, hm, _⟩ := h.resolve hr
  exact ⟨e, ⟨_, scope, hs, he, hm⟩, (h.holds.chain.ancestor _).trans he⟩

theorem run_locate (ha : ancestor σ.envs env depth.toNat = some e)
    (hv : value? σ.envs e name = some w) : (locate env name depth).run σ = .ok (e, w) σ := by
  have hlook : (look fun σ => do
      let e ← ancestor σ.envs env depth.toNat
      let w ← value? σ.envs e name
      return (e, w)).run σ = .ok (some (e, w)) σ := by simp [look, ha, hv]
  unfold locate
  rw [run_bind_of_ok hlook]
  rfl

theorem At.readsLocal (host : Host) [host.Attached] (h : At A env sc es locals last p)
    (hr : Translate.ReadsLocal A.G A.F sc name depth c) :
    ∃ e w w', (locate env name depth).run p.state = .ok (e, w) p.state ∧ p.link.Same w w' ∧
      ∀ K cs, (⟨p.store, A.frameWith locals, K, cs, .eval c⟩ : Machine).searchStep host =
        ⟨p.forget.store, A.frameWith locals, K, cs, .give w'⟩ := by
  obtain ⟨key, hres, hreads⟩ := hr
  obtain ⟨e, hd, ha⟩ := h.declares hres
  obtain ⟨w, w', hv, hw, hstep⟩ := h.reads host hd hreads
  exact ⟨e, w, w', run_locate ha hv, hw, hstep⟩

theorem At.assignsLocal (host : Host) [host.Attached] (h : At A env sc es locals last p)
    (hr : Translate.Resolves A.G sc name depth key) (ht : Assigns A sc.frame key task) :
    ∃ e v, Declares sc es name key e ∧
      (locate env name depth).run p.state = .ok (e, v) p.state := by
  obtain ⟨e, hd, ha⟩ := h.declares hr
  have hreads : ∃ c, Translate.ReadsKey A.G A.F sc.frame key c := by
    rcases ht with ⟨index, hb, _⟩ | ⟨cell, hcell, _⟩
    · exact ⟨_, .inl ⟨index, hb, rfl⟩⟩
    · exact ⟨_, .inr ⟨cell, hcell, rfl⟩⟩
  obtain ⟨c, hreads⟩ := hreads
  obtain ⟨v, _, hv, _⟩ := h.reads host hd hreads
  exact ⟨e, v, hd, run_locate ha hv⟩

/-! ## §4 Expressions -/

def Calls (host : Host) (fuel : Nat) (call : Word → List Word → Interp Word) : Prop :=
  ∀ {p : Moment} {fr : Frame} {K : List Pending} {cs : List Caller} {control : Control}
    {m : Machine} {f f' : Word} {ws ws' : List Word}, p.Linked → p.Calm →
    p.link.Same f f' → List.Forall₂ p.link.Same ws ws' → m.store = p.store → m.stop? = none →
      m.searchStep host = (⟨p.forget.store, fr, K, cs, control⟩ : Machine).call host f' ws' →
      Follows host fuel p.state.envs.size cs p m (Answers fr K cs) ((call f ws).run p.state)

theorem Follows.answers (h : At A env sc es locals last p) {m : Machine}
    {r : EStateM.Result Exit State Word}
    (hf : Follows host least p.state.envs.size cs p m (Answers (A.frameWith locals) K cs) r) :
    Follows host least A.base cs p m (Gives A env sc es last K cs) r :=
  (hf.answered h).imp fun _ ⟨w', hat, hw, heq⟩ => ⟨locals, w', hat, hw, heq⟩

theorem Follows.gives (h : At A env sc es locals last p) (hw : p.link.Same w w') :
    FollowsIn host least A cs p locals K (.give w') (Gives A env sc es last K cs) (.ok w p.state) :=
  .done rfl ⟨locals, w', h, hw, rfl⟩

theorem literal_follows (h : At A env sc es locals last p) {value : Literal}
    (hc : Translate.literal A.G value c) :
    FollowsIn host least A cs p locals K (.eval c)
      (Gives A env sc es last K cs) ((literal value).run p.state) := by
  have hatom : ∀ {w : Word}, w.Atomic → FollowsIn host least A cs p locals K (.eval (.constant w))
      (Gives A env sc es last K cs) (.ok w p.state) := fun ha =>
    .step rfl (.gives h.forget (.atom ha))
  cases value with
  | nil =>
    cases hc
    exact hatom .nil
  | bool b =>
    cases hc
    exact hatom (.ofBool b)
  | number bits =>
    cases hc
    exact hatom (.canonical (.of_number bits))
  | text text =>
    obtain ⟨j, hj, rfl⟩ := hc
    have hint := h.alive.linked.stores.heap.interned text
    rw [h.alive.fits.interned hj] at hint
    generalize hi : p.state.store.heap.interned.get? text = found at hint
    cases hint with
    | @some i _ ho =>
      have hrun : (literal (.text text)).run p.state = .ok (.ofIndex i) p.state := by
        rw [literal]
        refine run_onStore_ok _ ?_
        simp only [Store.internText, Heap.internText, hi]
        rfl
      rw [hrun]
      exact .step rfl (.gives h.forget (h.alive.linked.stores.heap.same ho))

theorem read_follows (h : At A env sc es locals last p) [host.Attached]
    (hc : Translate.read A.G A.F sc name target c) :
    FollowsIn host least A cs p locals K (.eval c)
      (Gives A env sc es last K cs) ((read env name target).run p.state) := by
  cases target with
  | global =>
    obtain ⟨slot, hs, rfl⟩ := hc
    rw [read, run_bind_of_ok (h.run_slot hs)]
    exact .answers h (readSlot_follows h.alive.linked h.alive.calm slot)
  | scope depth =>
    obtain ⟨e, w, w', hloc, hw, hstep⟩ := h.readsLocal host hc
    rw [read, run_bind_of_ok hloc]
    exact .stepTo rfl (hstep K cs) (.gives h.forget hw)

theorem Follows.gives_of_step {m : Machine} {p' : Moment} {locals' : Array Word}
    (hs : m.stop? = none) (h : At A env sc es locals' last p') (ha : p.Advances A.base p')
    (hw : p'.link.Same w w')
    (hstep : m.searchStep host = ⟨p'.store, A.frameWith locals', K, cs, .give w'⟩) :
    Follows host least A.base cs p m (Gives A env sc es last K cs) (.ok w p'.state) :=
  .ok ⟨⟨1, .step hs (hstep ▸ .refl _)⟩, ha, rfl⟩ ⟨locals', w', h, hw, rfl⟩

theorem assign_follows (host : Host) [host.Attached] {value : Code}
    (hc : Translate.assign A.G A.F sc name value target c) :
    ∃ task, (∀ m : Machine, m.eval host c = m.evalFor task value) ∧
      ∀ {p : Moment} {locals : Array Word} {w w' : Word}, At A env sc es locals last p →
        p.link.Same w w' →
        FollowsIn host least A cs p locals (task :: K) (.give w')
          (Gives A env sc es last K cs)
          ((assign env name w target).run p.state) := by
  cases target with
  | global =>
    obtain ⟨slot, hslot, rfl⟩ := hc
    refine ⟨.assignGlobal slot, fun _ => rfl, fun {p locals w w'} h hw => ?_⟩
    rw [assign, run_bind_of_ok (h.run_slot hslot)]
    exact .answers h (assignSlot_follows h.alive.linked h.alive.calm hw slot)
  | scope depth =>
    obtain ⟨key, hres, ha⟩ := hc
    obtain ⟨task, ht, he⟩ := assigns_of_assignsKey ha
    refine ⟨task, fun m => he m host, fun {p locals w w'} h hw => ?_⟩
    obtain ⟨e, v, hd, hloc⟩ := h.assignsLocal host hres ht
    obtain ⟨p', locals', hat, _, hadv, hs, hsame, hstep⟩ := h.assigned host hd ht hw
    have hrun : (assign env name w (.scope depth)).run p.state = .ok w p'.state := by
      rw [assign, run_bind_of_ok hloc, hs]
      rfl
    rw [hrun]
    exact .gives_of_step rfl hat hadv hsame (hstep K cs)

theorem getSuper_follows (h : At A env sc es locals last p) [host.Attached]
    {s r : Code} (hs : Translate.ReadsLocal A.G A.F sc "super" depth s)
    (hr : Translate.ReadsLocal A.G A.F sc "this" (depth - 1) r)
    (hn : Translate.Named A.G name symbol) :
    FollowsIn host least A cs p locals K (.eval (.getSuper s r symbol))
      (Gives A env sc es last K cs) ((getSuper env name depth).run p.state) := by
  obtain ⟨_, v, v', hloc, hv, hstep⟩ := h.forget.readsLocal host hs
  obtain ⟨_, w, w', hloc', hw, hstep'⟩ := h.forget.forget.forget.readsLocal host hr
  have hrun : (getSuper env name depth).run p.state = (superSymbol v w symbol).run p.state := by
    replace hloc : (locate env "super" depth).run p.state = .ok (_, v) p.state := hloc
    replace hloc' : (locate env "this" (depth - 1)).run p.state = .ok (_, w) p.state := hloc'
    unfold getSuper
    rw [run_bind_of_ok hloc, run_bind_of_ok hloc', run_bind_of_ok (h.run_symbol hn)]
  rw [hrun]
  refine .step rfl (.stepTo rfl (hstep _ _) (.step rfl (.stepTo rfl (hstep' _ _) ?_)))
  have h' := h.forget.forget.forget.forget
  exact .answers h' (superSymbol_follows h'.alive.linked h'.alive.calm hw symbol hv)

mutual

theorem eval_follows {fuel : Nat} {call : Word → List Word → Interp Word}
    [host.Attached] (hcall : Calls host fuel call) :
    ∀ (e : Expr) {c : Code} {locals : Array Word} {p : Moment} {K : List Pending},
      Translate.expr A.G A.F sc e c → At A env sc es locals last p →
      FollowsIn host fuel A cs p locals K (.eval c)
        (Gives A env sc es last K cs) ((eval call env e).run p.state)
  | .literal value, c, locals, p, K, hc, h => by
    exact literal_follows h hc
  | .group inner, c, locals, p, K, hc, h => by
    exact eval_follows hcall inner hc h
  | .unary .negate operand, c, locals, p, K, hc, h => by
    obtain ⟨o, ho, rfl⟩ := hc
    refine .step rfl (.bind (eval_follows hcall operand ho h.forget) ?_)
    rintro w p1 m1 - - ⟨locals1, w', h1, hw, rfl⟩
    exact .answers h1 (negate_follows h1.alive.linked h1.alive.calm hw)
  | .unary .not operand, c, locals, p, K, hc, h => by
    obtain ⟨o, ho, rfl⟩ := hc
    refine .step rfl (.bind (eval_follows hcall operand ho h.forget) ?_)
    rintro w p1 m1 - - ⟨locals1, w', h1, hw, rfl⟩
    have hnot : p1.link.Same (.ofBool w.isFalsy) (.ofBool w'.isFalsy) := by
      rw [hw.isFalsy_eq]
      exact .atom (.ofBool _)
    exact .step rfl (.gives h1.forget hnot)
  | .binary op left right, c, locals, p, K, hc, h => by
    obtain ⟨l, r, hl, hr, rfl⟩ := hc
    refine .step rfl (.bind (eval_follows hcall left hl h.forget) ?_)
    rintro v p1 m1 - - ⟨locals1, v', h1, hv, rfl⟩
    refine .step rfl (.bind (eval_follows hcall right hr h1.forget) ?_)
    rintro w p2 m2 ha - ⟨locals2, w', h2, hw, rfl⟩
    exact .answers h2 (binary_follows h2.alive.linked h2.alive.calm hw op (hv.mono ha.object))
  | .logical .and left right, c, locals, p, K, hc, h => by
    obtain ⟨l, r, hl, hr, rfl⟩ := hc
    refine .step rfl (.bind (eval_follows hcall left hl h.forget) ?_)
    rintro v p1 m1 - - ⟨locals1, v', h1, hv, rfl⟩
    refine .stepTo rfl (show _ = if v'.isFalsy then
      ⟨p1.forget.store, A.frameWith locals1, K, cs, .give v'⟩
      else ⟨p1.forget.store, A.frameWith locals1, K, cs, .eval r⟩ from rfl) ?_
    rw [hv.isFalsy_eq]
    split
    · exact .gives h1.forget hv
    · exact eval_follows hcall right hr h1.forget
  | .logical .or left right, c, locals, p, K, hc, h => by
    obtain ⟨l, r, hl, hr, rfl⟩ := hc
    refine .step rfl (.bind (eval_follows hcall left hl h.forget) ?_)
    rintro v p1 m1 - - ⟨locals1, v', h1, hv, rfl⟩
    refine .stepTo rfl (show _ = if v'.isFalsy then
      ⟨p1.forget.store, A.frameWith locals1, K, cs, .eval r⟩
      else ⟨p1.forget.store, A.frameWith locals1, K, cs, .give v'⟩ from rfl) ?_
    rw [hv.isFalsy_eq]
    split
    · exact eval_follows hcall right hr h1.forget
    · exact .gives h1.forget hv
  | .read name target, c, locals, p, K, hc, h => by
    exact read_follows h hc
  | .assign name target value, c, locals, p, K, hc, h => by
    obtain ⟨v, hv, hassi⟩ := hc
    obtain ⟨task, he, hfol⟩ := assign_follows host hassi
    refine .stepTo rfl (he _) (.bind (eval_follows hcall value hv h.forget) ?_)
    rintro w p1 m1 - - ⟨locals1, w', h1, hw, rfl⟩
    exact hfol h1 hw
  | .call callee arguments _, c, locals, p, K, hc, h => by
    obtain ⟨f, as, hf, has, rfl⟩ := hc
    refine .step rfl (.bind (eval_follows hcall callee hf h.forget) ?_)
    rintro v p1 m1 - - ⟨locals1, v', h1, hv, rfl⟩
    exact arguments_follow hcall arguments has h1 hv .nil rfl rfl rfl
  | .get object name, c, locals, p, K, hc, h => by
    obtain ⟨o, symbol, site, ho, hn, _, rfl⟩ := hc
    refine .step rfl (.bind (eval_follows hcall object ho h.forget) ?_)
    rintro v p1 m1 - - ⟨locals1, v', h1, hv, rfl⟩
    rw [run_bind_of_ok (h1.run_symbol hn)]
    exact .answers h1 (getSymbol_follows h1.alive.linked h1.alive.calm hv symbol)
  | .set object name value, c, locals, p, K, hc, h => by
    obtain ⟨o, u, symbol, site, ho, hu, hn, _, rfl⟩ := hc
    refine .step rfl (.bind (eval_follows hcall object ho h.forget) ?_)
    rintro v p1 m1 - - ⟨locals1, v', h1, hv, rfl⟩
    refine .step rfl (.bind (eval_follows hcall value hu h1.forget) ?_)
    rintro w p2 m2 ha - ⟨locals2, w', h2, hw, rfl⟩
    rw [run_bind_of_ok (h2.run_symbol hn)]
    exact .answers h2 (setSymbol_follows h2.alive.linked h2.alive.calm hw symbol
      (hv.mono ha.object))
  | .self _ target, c, locals, p, K, hc, h => by
    obtain ⟨depth, rfl, hr⟩ := hc
    exact read_follows h hr
  | .super _ method target, c, locals, p, K, hc, h => by
    obtain ⟨depth, s, r, symbol, rfl, _, hs, hr, hn, rfl⟩ := hc
    exact getSuper_follows h hs hr hn

theorem arguments_follow {fuel : Nat} {call : Word → List Word → Interp Word}
    [host.Attached] (hcall : Calls host fuel call) :
    ∀ (arguments : List Expr) {as : List Code} {locals : Array Word} {p : Moment}
      {K : List Pending} {m : Machine} {control : Control} {f f' : Word} {done done' : List Word},
      Translate.exprs A.G A.F sc arguments as → At A env sc es locals last p →
      p.link.Same f f' → List.Forall₂ p.link.Same done done' → m.store = p.store →
      m.stop? = none →
      m.searchStep host =
        (⟨p.forget.store, A.frameWith locals, K, cs, control⟩ : Machine).callWith host f' done' as →
      Follows host fuel A.base cs p m (Gives A env sc es last K cs)
        ((evalAll call env arguments >>= fun ws => call f (done ++ ws)).run p.state)
  | [], as, locals, p, K, m, control, f, f', done, done', has, h, hf, hd, hm, hstop, hstep => by
    cases has
    have hn : (pure [] : Interp (List Word)).run p.state = .ok [] p.state := rfl
    rw [evalAll, run_bind_of_ok hn, List.append_nil]
    exact .answers h (hcall h.alive.linked h.alive.calm hf hd hm hstop hstep)
  | e :: rest, as, locals, p, K, m, control, f, f', done, done', has, h, hf, hd, hm, hstop,
      hstep => by
    obtain ⟨c, as', hc, has', rfl⟩ := has
    rw [evalAll, run_bind_assoc]
    refine .stepTo hstop hstep (.bind (eval_follows hcall e hc h.forget) ?_)
    rintro w p1 m1 ha - ⟨locals1, w', h1, hw, rfl⟩
    have hd1 : List.Forall₂ p1.link.Same (done ++ [w]) (done' ++ [w']) :=
      List.rel_append (hd.imp fun _ _ hs => hs.mono ha.object) (.cons hw .nil)
    have hr := arguments_follow hcall rest has' h1 (hf.mono ha.object) hd1
      (m := ⟨p1.store, A.frameWith locals1, .argument f' done' as' :: K, cs, .give w'⟩) rfl rfl rfl
    rw [run_bind_assoc]
    simp only [List.append_assoc, List.singleton_append] at hr
    exact hr

end

end Lexical

end ScriptMachine
