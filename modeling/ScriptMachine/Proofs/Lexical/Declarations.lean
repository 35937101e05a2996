/-
ScriptMachine.Proofs.Lexical.Declarations — code that gives variables their
values, and code that makes functions.
-/
import ScriptMachine.Proofs.Lexical.Expressions

namespace ScriptMachine

theorem Machine.checked_alloc {m : Machine} (host : Host) [host.Attached]
    (routine : Store → Word × Store) {o : Object}
    (hrtn : routine m.store = Serve.report (m.store.alloc o))
    (hcalm : m.store.pending = false ∧ m.store.error = none) :
    (m.store.heap.size < m.store.heap.limit ∧
      m.checked host routine =
        { m with
          store := { m.store with heap := m.store.heap.push o }
          control := .give (.ofIndex m.store.heap.size) }) ∨
      ∃ e, (m.checked host routine).store.error = some (.heap e) := by
  rcases m.store.alloc_cases o with ⟨hr, heq⟩ | ⟨_, heq⟩ <;> rw [heq] at hrtn
  · refine .inl ⟨hr, ?_⟩
    rw [checked_attached hrtn]
    simp [hcalm.1]
  · rw [checked_attached hrtn]
    simp [Store.raise, hcalm.2]

namespace Lexical

variable {A : Activation} {env : Option Nat} {sc sc' : Scopes} {es : List Nat}
  {locals : Array Word} {last w w' : Word} {p p' : Moment} {K : List Pending} {cs : List Caller}
  {host : Host} {name : String} {key : Key} {e least : Nat} {more : List Instr} {instr : Instr}
  {value : Code} {c : Code}

/-! ## §1 Filling -/

def Runs (A : Activation) (env : Option Nat) (sc : Scopes) (es : List Nat) (K : List Pending)
    (cs : List Caller) (more : List Instr) (last : Word) (p : Moment) (m : Machine) : Prop :=
  ∃ locals, At A env sc es locals last p ∧
    m = ⟨p.store, A.frameWith locals, K, cs, .run more⟩

def RunsKeeping (A : Activation) (env : Option Nat) (sc : Scopes) (es : List Nat)
    (locals : Array Word) (last : Word) (K : List Pending) (cs : List Caller) (more : List Instr)
    (p : Moment) (m : Machine) : Prop :=
  ∃ locals', At A env sc es locals' last p ∧ Keeps A sc.frame locals locals' ∧
    m = ⟨p.store, A.frameWith locals', K, cs, .run more⟩

theorem Follows.runs (h : At A env sc es locals last p) :
    FollowsIn host least A cs p locals K (.run more)
      (Runs A env sc es K cs more) (.ok last p.state) :=
  .done rfl ⟨locals, h, rfl⟩

def Fills (host : Host) (A : Activation) (env : Option Nat) (sc sc' : Scopes)
    (es : List Nat) (instr : Instr) (value : Code) (act : Word → Interp Unit) : Prop :=
  ∀ (K : List Pending) (cs : List Caller) (more : List Instr), ∃ tasks n,
    (∀ (p : Moment) (locals : Array Word),
      Reaches host n ⟨p.store, A.frameWith locals, K, cs, .run (instr :: more)⟩
        ⟨p.forget.store, A.frameWith locals, tasks, cs, .eval value⟩) ∧
    ∀ {least : Nat} {p : Moment} {locals : Array Word} {last w w' : Word},
      At A env sc es locals last p → p.link.Same w w' →
      Follows host least A.base cs p ⟨p.store, A.frameWith locals, tasks, cs, .give w'⟩
        (fun _ => RunsKeeping A env sc' es locals last K cs more) ((act w).run p.state)

section Fills

variable {act : Word → Interp Unit} {x : Interp Word}

theorem Fills.keeps (hf : Fills host A env sc sc' es instr value act)
    (hx : ∀ tasks, Follows host least A.base cs p.forget
      ⟨p.forget.store, A.frameWith locals, tasks, cs, .eval value⟩
      (GivesKeeping A env sc es locals last tasks cs) (x.run p.state)) :
    FollowsIn host least A cs p locals K (.run (instr :: more))
      (fun _ => RunsKeeping A env sc' es locals last K cs more) ((x >>= act).run p.state) := by
  obtain ⟨tasks, n, hr, hfill⟩ := hf K cs more
  refine .reach (hr p locals) (p.advances_forget A.base) (.bind (hx tasks) ?_)
  rintro w p1 m1 - - ⟨w', h1, hw, rfl⟩
  exact hfill h1 hw

theorem Fills.follows (hf : Fills host A env sc sc' es instr value act)
    (hx : ∀ tasks, Follows host least A.base cs p.forget
      ⟨p.forget.store, A.frameWith locals, tasks, cs, .eval value⟩
      (Gives A env sc es last tasks cs) (x.run p.state)) :
    FollowsIn host least A cs p locals K (.run (instr :: more))
      (fun _ => Runs A env sc' es K cs more last) ((x >>= act).run p.state) := by
  obtain ⟨tasks, n, hr, hfill⟩ := hf K cs more
  refine .reach (hr p locals) (p.advances_forget A.base) (.bind (hx tasks) ?_)
  rintro w p1 m1 - - ⟨locals1, w', h1, hw, rfl⟩
  refine (hfill h1 hw).imp ?_
  rintro _ p2 m2 - ⟨locals2, h2, -, rfl⟩
  exact ⟨locals2, h2, rfl⟩

end Fills

theorem reaches_discard (p : Moment) (fr : Frame) (w : Word) :
    Reaches host 2 ⟨p.store, fr, .discard :: .rest more :: K, cs, .give w⟩
      ⟨p.forget.store, fr, K, cs, .run more⟩ := by
  have hr : Reaches host 2 ⟨p.store, fr, .discard :: .rest more :: K, cs, .give w⟩
      ⟨p.forget.forget.store, fr, K, cs, .run more⟩ := .step rfl (.step rfl (.refl _))
  rwa [p.forget_forget] at hr

theorem reaches_evaluate {task : Pending} (p : Moment) (fr : Frame)
    (he : ∀ m : Machine, m.eval host c = m.evalFor task value) :
    Reaches host 2 ⟨p.store, fr, K, cs, .run (.evaluate c :: more)⟩
      ⟨p.forget.store, fr, task :: .discard :: .rest more :: K, cs, .eval value⟩ := by
  have hr : Reaches host 2 ⟨p.store, fr, K, cs, .run (.evaluate c :: more)⟩
      ⟨p.forget.forget.store, fr, task :: .discard :: .rest more :: K, cs, .eval value⟩ :=
    .step rfl (.stepTo rfl (he _) (.refl _))
  rwa [p.forget_forget] at hr

/-! ### Statements that hand a value to a routine -/

def Resumes (fr : Frame) (K : List Pending) (cs : List Caller) (more : List Instr) (p : Moment)
    (m : Machine) : Prop :=
  p.Linked ∧ p.Calm ∧ m = ⟨p.store, fr, K, cs, .run more⟩

theorem Follows.serves {fr : Frame} {base : Nat} {t t' : Store} {task : Pending} (hl : p.Linked)
    (hc : p.Calm) (hm : p.link.Moves p.link p.forget.store t') (hs : p.link.Stores t t')
    (hstep : (⟨p.store, fr, task :: .rest more :: K, cs, .give w'⟩ : Machine).searchStep host =
      ⟨t', fr, .rest more :: K, cs, .run []⟩) :
    Follows host least base cs p ⟨p.store, fr, task :: .rest more :: K, cs, .give w'⟩
      (fun _ => Resumes fr K cs more) (.ok () { p.state with store := t }) := by
  refine .reach (.stepTo rfl hstep (.step rfl (.refl _))) ?_
    (.done (p := (p.forget.withStores p.link t t').forget) rfl
      ⟨(hl.forget.moved hm hs).forget, (hc.forget.moved hm).forget, rfl⟩)
  exact ((p.advances_forget base).trans (p.forget.advances_moved hm base)).trans
    (Moment.advances_forget (p.forget.withStores p.link t t') base)

theorem Follows.resumed {m : Machine} {r : EStateM.Result Exit State Unit}
    (h : At A env sc es locals last p)
    (hf : Follows host least p.state.envs.size cs p m
      (fun _ => Resumes (A.frameWith locals) K cs more) r) :
    Follows host least A.base cs p m (fun _ p' m' => At A env sc es locals last p' ∧
      m' = ⟨p'.store, A.frameWith locals, K, cs, .run more⟩) r :=
  (hf.imp fun ha ⟨hl, hc, hm⟩ => ⟨h.advance ha hl hc, hm⟩).weaken h.alive.base_le

variable [host.Attached]

theorem serve_next (routine : Store → Word × Store) (m : Machine) :
    (m.serve host routine).2.next =
      { m with store := (routine m.store).2, control := .run [] } := by
  simp only [Machine.serve, host.attached_eq, if_true]
  rfl

section Served

variable {fr : Frame} {base : Nat} (hl : p.Linked) (hc : p.Calm) (hw : p.link.Same w w')

include hl hc hw

theorem print_served :
    Follows host least base cs p ⟨p.store, fr, .print :: .rest more :: K, cs, .give w'⟩
      (fun _ => Resumes fr K cs more) ((print w).run p.state) :=
  .serves hl hc (Link.print_moves w') (Link.print_stores hl.forget.stores hw)
    (serve_next (Serve.print w') _)

theorem defineSlot_served (slot : Nat) :
    Follows host least base cs p
      ⟨p.store, fr, .defineGlobal slot :: .rest more :: K, cs, .give w'⟩
      (fun _ => Resumes fr K cs more) ((defineSlot slot w).run p.state) :=
  .serves hl hc (Link.putSlot_moves slot w') (Link.putSlot_stores hl.forget.stores slot hw)
    (serve_next (Serve.globalDefine slot w') _)

theorem addMethod_served {v : Nat} {c : Word} (symbol : Symbol)
    (hv : p.link.Same c (fr.value v)) :
    Follows host least base cs p
      ⟨p.store, fr, .addMethod v symbol :: .rest more :: K, cs, .give w'⟩
      (fun _ => Resumes fr K cs more) ((addMethod c symbol w).run p.state) := by
  have hadd := Link.lawful.addMethod hl.forget.stores hv (rfl : symbol = symbol) hw
  exact .serves hl hc hadd.2 hadd.1 (serve_next (Serve.addMethod (fr.value v) symbol w') _)

end Served

theorem fills_global (hc : Translate.DefinesGlobal A.G name value instr) :
    Fills host A none sc sc es instr value (declare none name) := by
  obtain ⟨slot, hs, rfl⟩ := hc
  refine fun K cs more => ⟨.defineGlobal slot :: .rest more :: K, 1, fun p locals =>
    .step rfl (.refl _), fun {least p locals last w w'} h hw => ?_⟩
  have hrun : (declare none name w).run p.state = (defineSlot slot w).run p.state :=
    run_bind_of_ok (h.run_slot hs)
  rw [hrun]
  exact (Follows.resumed h (defineSlot_served h.alive.linked h.alive.calm hw slot)).imp
    fun _ ⟨hat, hm⟩ => ⟨locals, hat, .refl A _ locals, hm⟩

theorem fills_assigned (hd : Declares sc es name key e)
    (hc : Translate.AssignsKey A.G A.F sc.frame key value c) :
    Fills host A env sc sc es (.evaluate c) value (put e name) := by
  obtain ⟨task, ht, he⟩ := assigns_of_assignsKey hc
  refine fun K cs more => ⟨task :: .discard :: .rest more :: K, 2,
    fun p locals => reaches_evaluate p _ (he · host), fun {least p locals last w w'} h hw => ?_⟩
  obtain ⟨p', locals', hat, hk, hadv, hs, -, hstep⟩ := h.assigned host hd ht hw
  show Follows _ _ _ _ _ _ _ (.ok () (p.write e name w).state)
  rw [← hs]
  exact .reach (.stepTo rfl (hstep _ cs) (reaches_discard p' _ w'))
    (hadv.trans (p'.advances_forget A.base)) (.done rfl ⟨locals', hat.forget, hk, rfl⟩)

theorem fills_declared (ht : sc.atTop = false) (hd : (sc.declare name).Distinct)
    (hc : Translate.DeclaresLocal A.G A.F sc value instr) :
    Fills host A (some e) sc (sc.declare name) (e :: es) instr value (put e name) := by
  obtain ⟨storage, hb, hlt, rfl⟩ := hc
  have hk : ∀ (locals : Array Word) (w : Word), Keeps A (sc.declare name).frame locals
      (locals.setIfInBounds storage.index w) := by
    rw [Scopes.declare_frame]
    exact .set hb
  cases storage with
  | direct index =>
    refine fun K cs more => ⟨.assignVariable index :: .discard :: .rest more :: K, 2,
      fun p locals => reaches_evaluate p _ fun _ => rfl, fun {least p locals last w w'} h hw => ?_⟩
    obtain ⟨hat, hadv⟩ := h.declareDirect ht hd hb hlt hw
    exact .reach (.step rfl (reaches_discard (p.write e name w).forget _ w'))
      ((hadv.trans (Moment.advances_forget _ _)).trans (Moment.advances_forget _ _))
      (.done rfl ⟨_, hat.forget.forget, hk locals w', rfl⟩)
  | boxed index =>
    refine fun K cs more => ⟨.newCell :: .assignVariable index :: .discard :: .rest more :: K, 3,
      fun p locals => ?_, fun {least p locals last w w'} h hw => ?_⟩
    · have hr : Reaches host 3 ⟨p.store, A.frameWith locals, K, cs,
            .run (.evaluate (.assignVariable index (.newCell value)) :: more)⟩
          ⟨p.forget.forget.forget.store, A.frameWith locals,
            .newCell :: .assignVariable index :: .discard :: .rest more :: K, cs, .eval value⟩ :=
        .step rfl (.step rfl (.step rfl (.refl _)))
      rwa [p.forget_forget, p.forget_forget] at hr
    · have hcell := Machine.checked_alloc host (Serve.newCell w')
        (m := ⟨p.forget.store, A.frameWith locals,
          .assignVariable index :: .discard :: .rest more :: K, cs, .give w'⟩) rfl h.alive.calm
      rcases hcell with ⟨hroom, heq⟩ | ⟨failure, hf⟩
      · obtain ⟨hat, hadv⟩ := h.declareBoxed ht hd hb hlt hw hroom
        have hadv' := ((hadv.trans (Moment.advances_forget _ _)).trans
          (Moment.advances_forget _ _)).trans (Moment.advances_forget _ _)
        exact .reach (.stepTo rfl heq (.step rfl (reaches_discard
          (p.declareCell e name w w').forget.forget _ _))) hadv'
          (.done rfl ⟨_, hat.forget.forget.forget, hk locals _, rfl⟩)
      · exact .exhausted ⟨1, _, failure, .step rfl (.refl _), hf⟩

/-! ## §2 Closures -/

theorem At.around (h : At A env sc es locals last p) {inner : FunctionState}
    {cells : List CellRef} (hcells : Translate.CellsAt A.G A.F sc.frame inner.upvalues cells)
    {m : Machine} (hs : m.store.heap = p.store.heap) (hf : m.frame = A.frameWith locals) :
    Around p sc inner.upvalues (cells.map (m.cellWord host)).toArray env es where
  chain := h.holds.chain
  length := h.holds.length
  nodup := h.holds.nodup
  carries {d e scope name key} hd he hm position hp := by
    obtain ⟨hpos, rfl⟩ := List.getElem?_eq_some_iff.mp hp
    have hlt : position < cells.length := hcells.length_eq ▸ hpos
    obtain ⟨c, hc, hword⟩ := h.cell hd he hm (hcells.get hpos hlt)
    refine ⟨c, ?_, hc⟩
    rw [List.getElem?_toArray, List.getElem?_map, List.getElem?_eq_getElem hlt, Option.map_some]
    exact congrArg some (hword hs hf host.attached_eq)

theorem make_follows (h : At A env sc es locals last p)
    {kind : FunctionKind} {decl : FunctionDecl} (hc : Translate.closure A.G A.F sc kind decl c)
    (hplc : decl.WellPlaced) (hk : kind ≠ .script) :
    FollowsIn host least A cs p locals K (.eval c)
      (GivesKeeping A env sc es locals last K cs) ((make kind decl env).run p.state) := by
  obtain ⟨name, params, body⟩ := decl
  obtain ⟨inner, start, rest, ho, hb, hclo⟩ := hc
  obtain ⟨declaration, prototype, cells, symbol, rfl, hfn, hpro, hn, hcells⟩ :=
    hclo.exists_code
  have hat := h.forget
  let m : Machine := ⟨p.forget.store, A.frameWith locals, K, cs,
    .eval (.closure declaration prototype cells)⟩
  let words := (cells.map (m.cellWord host)).toArray
  let entry : Entry := .compiled A.frame.unit declaration
  have hrtn : Serve.makeClosure prototype entry words p.forget.store =
      Serve.report (p.forget.store.alloc (.closure ⟨symbol, params.length, entry, words⟩)) := by
    simp [Serve.makeClosure, Store.makeClosure, hat.alive.fits.prototypes hpro]
  rcases Machine.checked_alloc (m := m) host (Serve.makeClosure prototype entry words) hrtn
    hat.alive.calm with ⟨hr, heq⟩ | ⟨failure, hf⟩
  · have hm : p.forget.Makes ⟨kind, .mk name params body, env⟩
        ⟨symbol, params.length, entry, words⟩ := by
      refine ⟨A.G, inner, sc, declaration, es, congrArg (Entry.compiled · _) h.placed.unit, rfl, ?_,
        hat.alive.fits, hat.around hcells rfl rfl⟩
      exact ⟨hclo.kind_eq, hk, ⟨start, rest, hfn, ho, hb⟩, hplc,
        h.placed.regular, h.placed.binds, h.placed.separate⟩
    have hlink := hat.alive.linked.makeClosure hm hr
    have hat' := hat.advance (Moment.advances_makeClosure _) hlink hat.alive.calm
    have hrun : (make kind (.mk name params body) env).run p.state =
        .ok (.ofIndex p.state.store.heap.size)
          (p.forget.makeClosure ⟨kind, .mk name params body, env⟩
            ⟨symbol, params.length, entry, words⟩).state := by
      have hsts := hat.alive.linked.stores.heap
      have hs : p.state.store.heap.size < p.state.store.heap.limit :=
        Nat.lt_of_le_of_lt hsts.size_le (hsts.limit ▸ hr)
      have ha := (p.state.store.alloc_cases (.closure ⟨symbol, params.length,
        .address (.ofNat p.state.functions.size), #[]⟩)).resolve_right fun hno => hno.1 hs
      have hsym : (Lexical.symbol (FunctionDecl.mk name params body).name.name).run p.state =
        .ok symbol p.state := h.run_symbol hn
      have hnum : (look (·.functions.size)).run p.state = .ok p.state.functions.size p.state := rfl
      unfold make
      rw [run_bind_of_ok hsym, run_bind_of_ok hnum, run_bind_of_ok (run_onStore_ok _ ha.2)]
      rfl
    rw [hrun]
    refine .ok ⟨⟨1, .stepTo rfl heq (.refl _)⟩,
      (p.advances_forget _).trans (Moment.advances_makeClosure _), rfl⟩ ⟨_, hat', ?_, rfl⟩
    exact hlink.stores.heap.same (.inr ⟨rfl, rfl⟩)
  · exact .exhausted ⟨1, _, failure, .step rfl (.refl _), hf⟩

end Lexical

end ScriptMachine
