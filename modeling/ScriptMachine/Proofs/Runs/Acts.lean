/-
ScriptMachine.Proofs.Runs.Acts — what one step does, said once.
-/
import ScriptMachine.Proofs.Evolution
import ScriptMachine.Proofs.Runs.Steps

namespace ScriptMachine

/-! ## §1 Acts -/

def CallTarget.function? (target : CallTarget) : Option Function :=
  match target.entry with
  | .compiled unit decl => unit.function? decl
  | _ => none

def Store.entered (s : Store) : Store :=
  let deeper := { s with depth := s.depth + 1 }
  if s.maxDepth < s.depth + 1 then deeper.raise .stackOverflow else deeper

/-- What a step does to the store. -/
inductive Act where
  | nothing
  | print (w : Word)
  | binary (op : BinaryOp) (left right : Word)
  | negate (operand : Word)
  | getGlobal (slot : Nat)
  | setGlobal (slot : Nat) (value : Word)
  | defineGlobal (slot : Nat) (value : Word)
  | newCell (value : Word)
  | setCell (cell value : Word)
  | makeClosure (proto : Nat) (entry : Entry) (cells : Array Word)
  | getProperty (object : Word) (name : Symbol) (site : Nat)
  | setProperty (object : Word) (name : Symbol) (value : Word) (site : Nat)
  | newClass (name : Symbol) (sup : Option Word)
  | addMethod (target : Word) (name : Symbol) (method : Word)
  | getSuper (sup recv : Word) (name : Symbol)
  | call (callee : Word) (args : List Word)
  | leave

def Store.SameTables (s t : Store) : Prop := t.globals = s.globals ∧ t.sites = s.sites

theorem Store.sameTables_alloc (s : Store) (o : Object) : s.SameTables (s.alloc o).2 := by
  rcases s.alloc_cases o with ⟨_, h⟩ | ⟨_, h⟩ <;> rw [h] <;> exact ⟨rfl, rfl⟩

namespace Store.SameTables

variable {s : Store} {r : Except Failure Word × Store}

theorem report (h : s.SameTables r.2) : s.SameTables (Serve.report r).2 := by
  obtain ⟨_ | _, _⟩ := r <;> exact h

theorem makes {fresh : Object → Prop} (h : s.Makes fresh r) : s.SameTables (Serve.report r).2 :=
  report (h.store ⟨rfl, rfl⟩ fun _ => s.sameTables_alloc _)

end Store.SameTables

namespace Act

variable {s : Store} {a : Act}

def apply (s : Store) : Act → Store
  | .nothing => s
  | .print w => (Serve.print w s).2
  | .binary op left right => (Serve.binary op left right s).2
  | .negate operand => (Serve.negate operand s).2
  | .getGlobal slot => (Serve.globalGet slot s).2
  | .setGlobal slot value => (Serve.globalSet slot value s).2
  | .defineGlobal slot value => (Serve.globalDefine slot value s).2
  | .newCell value => (Serve.newCell value s).2
  | .setCell cell value => (Serve.cellSet cell value s).2
  | .makeClosure proto entry cells => (Serve.makeClosure proto entry cells s).2
  | .getProperty object name site =>
    match s.cached? object site with
    | some (i, slot) => (s.getCached i slot site).2
    | none => (Serve.getProperty object name site s).2
  | .setProperty object name value site =>
    match s.cached? object site with
    | some (i, slot) => s.setCached object i slot value site
    | none => (Serve.setProperty object name value site s).2
  | .newClass name sup => (Serve.newClass name sup s).2
  | .addMethod target name method => (Serve.addMethod target name method s).2
  | .getSuper sup recv name => (Serve.getSuper sup recv name s).2
  | .call callee args =>
    match Serve.prepareCall callee args.length s with
    | (some target, s) => if target.function?.isSome then s.entered else s
    | (none, s) => s
  | .leave => { s with depth := s.depth - 1 }

/-- The function an act enters. -/
def entered? (s : Store) : Act → Option Function
  | .call callee args => (Serve.prepareCall callee args.length s).1.bind (·.function?)
  | _ => none

/-- The store once a call is resolved, before its function starts. -/
def prepared (s : Store) : Act → Store
  | .call callee args => (Serve.prepareCall callee args.length s).2
  | _ => s

theorem apply_of_entered {f : Function} (h : a.entered? s = some f) :
    a.apply s = (a.prepared s).entered := by
  cases a with
  | call callee args =>
    obtain ⟨target, htgt, hf⟩ := Option.bind_eq_some_iff.mp h
    simp only [apply, prepared]
    generalize Serve.prepareCall callee args.length s = r at htgt
    obtain ⟨_, t⟩ := r
    cases htgt
    simp [hf]
  | _ => cases h

theorem apply_call {callee : Word} {args : List Word}
    (h : (Act.call callee args).entered? s = none) :
    (Act.call callee args).apply s = (Act.call callee args).prepared s := by
  simp only [entered?] at h
  simp only [apply, prepared]
  generalize Serve.prepareCall callee args.length s = r at h
  obtain ⟨_ | target, t⟩ := r
  · rfl
  · simp only [Option.bind_some] at h
    simp [h]

theorem evolves_prepared (s : Store) (a : Act) :
    s.Evolves (∃ i, · = .ofInstance i) (a.prepared s) := by
  cases a with
  | call callee args => exact Serve.evolves_prepareCall callee args.length
  | _ => exact .refl _ s

def Adds (s : Store) : Act → Object → Prop
  | .binary _ _ _, o => ∃ t, o = .text t
  | .newCell value, o => o = .cell value
  | .makeClosure _ entry cells, o => ∃ name arity, o = .closure ⟨name, arity, entry, cells⟩
  | .getProperty _ _ _, o => ∃ b, o = .bound b
  | .newClass name sup, o =>
    ∃ methods, s.inherited sup = .ok methods ∧ o = .ofClass ⟨name, methods⟩
  | .getSuper _ _ _, o => ∃ b, o = .bound b
  | .call _ _, o => ∃ i, o = .ofInstance i
  | _, _ => False

theorem evolves_stays (h : a.entered? s = none) (hl : a ≠ .leave) :
    s.Evolves (a.Adds s) (a.apply s) := by
  cases a with
  | nothing => exact .refl _ s
  | print w => exact Serve.evolves_print w _
  | binary op left right => exact Serve.evolves_binary op left right
  | negate operand => exact Serve.evolves_negate operand _
  | getGlobal slot => exact Serve.evolves_globalGet slot _
  | setGlobal slot value => exact Serve.evolves_globalSet slot value _
  | defineGlobal slot value => exact Serve.evolves_globalDefine slot value _
  | newCell value => exact Serve.evolves_newCell value
  | setCell cell value => exact Serve.evolves_cellSet cell value _
  | makeClosure proto entry cells => exact Serve.evolves_makeClosure proto entry cells
  | getProperty object name site =>
    simp only [apply]
    split
    · exact (Store.Evolves.refl _ s).modifySite site _
    · exact Serve.evolves_getProperty object name site
  | setProperty object name value site =>
    simp only [apply]
    split
    · next hcch => exact Store.evolves_setCached hcch value _
    · exact Serve.evolves_setProperty object name value site _
  | newClass name sup => exact Serve.evolves_newClass name sup
  | addMethod target name method => exact Serve.evolves_addMethod target name method _
  | getSuper sup recv name => exact Serve.evolves_getSuper sup recv name
  | call callee args =>
    rw [apply_call h]
    exact evolves_prepared s _
  | leave => exact absurd rfl hl

theorem evolves (s : Store) (a : Act) :
    s.Evolves (a.Adds s) { a.apply s with depth := s.depth } := by
  cases he : a.entered? s with
  | some f =>
    have hp : s.Evolves (a.Adds s) (a.prepared s) := by
      cases a with
      | call callee args => exact evolves_prepared s _
      | _ => cases he
    rw [apply_of_entered he]
    unfold Store.entered
    split
    · exact { hp.raise .stackOverflow with depth := rfl }
    · exact { hp with depth := rfl }
  | none =>
    by_cases hl : a = .leave
    · subst hl
      exact { Store.Evolves.refl (Adds s .leave) s with depth := rfl }
    · exact { evolves_stays he hl with depth := rfl }

/-- The site of a property access, and what kind of access it is. -/
def access? : Act → Option (Nat × SiteKind)
  | .getProperty _ _ site => some (site, .get)
  | .setProperty _ _ _ site => some (site, .set)
  | _ => none

def assigns : Act → Bool
  | .setGlobal _ _ | .defineGlobal _ _ => true
  | _ => false

theorem tables_apply (s : Store) (a : Act) :
    (a.assigns = false → (a.apply s).globals = s.globals) ∧
      (a.access? = none → (a.apply s).sites = s.sites) := by
  have both {t : Store} (h : s.SameTables t) : (a.assigns = false → t.globals = s.globals) ∧
      (a.access? = none → t.sites = s.sites) := ⟨fun _ => h.1, fun _ => h.2⟩
  have hs : s.SameTables s := ⟨rfl, rfl⟩
  cases a with
  | nothing | setCell | leave => exact both hs
  | print w =>
    refine both ?_
    show s.SameTables (s.print w)
    unfold Store.print
    split <;> exact hs
  | binary op left right => exact both (.makes (s.binary_makes op left right))
  | negate | getGlobal => exact both (.report hs)
  | setGlobal slot w =>
    refine ⟨nofun, fun _ => ?_⟩
    simp only [apply, Serve.globalSet, Store.setGlobal]
    split <;> rfl
  | defineGlobal => exact ⟨nofun, fun _ => rfl⟩
  | newCell w => exact both (.report (s.sameTables_alloc _))
  | makeClosure proto entry cells =>
    exact both (.makes (s.makeClosure_makes proto entry cells))
  | getProperty object name site =>
    refine ⟨fun _ => ?_, nofun⟩
    simp only [apply]
    split
    · rfl
    · rcases s.getProperty_cases object name site with ⟨_, _, _, _, heq⟩ | hm
      · rw [Serve.getProperty, heq]
        rfl
      · exact (Store.SameTables.makes hm).1
  | setProperty object name w site =>
    refine ⟨fun _ => ?_, nofun⟩
    simp only [apply, Serve.setProperty, Store.setProperty]
    split
    · rfl
    · split
      · rfl
      · split <;> rfl
  | newClass name sup => exact both (.makes (s.newClass_makes name sup))
  | addMethod target name method =>
    refine both ?_
    show s.SameTables (s.addMethod target name method)
    rw [Store.addMethod_eq]
    split <;> exact hs
  | getSuper sup recv name =>
    exact both (.makes (s.getSuper_makes sup recv name))
  | call callee args =>
    have hc : s.SameTables (Serve.prepareCall callee args.length s).2 :=
      Serve.prepareCall_store _ hs (s.sameTables_alloc _) fun _ ht => ht
    refine both ?_
    cases he : (Act.call callee args).entered? s with
    | none => exact apply_call he ▸ hc
    | some f =>
      rw [apply_of_entered he]
      unfold Store.entered
      split <;> exact hc

inductive Occasion where
  | evaluation
  | handover
  | departure

def occasion : Act → Option Occasion
  | .nothing => none
  | .getGlobal _ | .makeClosure _ _ _ | .newClass _ _ => some .evaluation
  | .leave => some .departure
  | _ => some .handover

end Act

/-! ## §2 Steps -/

namespace Machine

variable {w : Word}

def evalAct (m : Machine) (host : Host) : Code → Act
  | .readGlobal slot => .getGlobal slot
  | .closure decl proto cells =>
    .makeClosure proto (.compiled m.frame.unit decl) (cells.map (m.cellWord host)).toArray
  | .newClass name sup => .newClass name (sup.map m.frame.value)
  | _ => .nothing

def receiveAct (m : Machine) (host : Host) (w : Word) : Pending → Act
  | .newCell => .newCell w
  | .assignCell cell => .setCell (m.cellWord host cell) w
  | .assignGlobal slot => .setGlobal slot w
  | .negate => if w.isPlain then .nothing else .negate w
  | .rightOperand op left =>
    if left.isPlain && w.isPlain then .nothing
    else
      match op with
      | .equal | .notEqual => .nothing
      | op => .binary op left w
  | .callee [] => .call w []
  | .argument callee done [] => .call callee (done ++ [w])
  | .getProperty name site => .getProperty w name site
  | .setProperty object name site => .setProperty object name w site
  | .superReceiver sup name => .getSuper sup w name
  | .print => .print w
  | .defineGlobal slot => .defineGlobal slot w
  | .addMethod classVariable name => .addMethod (m.frame.value classVariable) name w
  | _ => .nothing

/-- What the next step does. -/
def act (m : Machine) (host : Host) : Act :=
  match m.control, m.stack with
  | .leave _, _ => .leave
  | .eval e, _ => m.evalAct host e
  | .run [], task :: _ => m.receiveAct host .nil task
  | .give w, task :: _ => m.receiveAct host w task
  | _, _ => .nothing

structure Did (m : Machine) (a : Act) (m' : Machine) : Prop where
  store : m'.store = a.apply m.store
  callers : m'.callers =
    if (a.entered? m.store).isSome then ⟨m.frame, m.stack⟩ :: m.callers else m.callers

variable {m m' : Machine} {host : Host}

namespace Did

variable {a : Act}

theorem nothing (hs : m'.store = m.store) (hc : m'.callers = m.callers) : m.Did .nothing m' :=
  ⟨hs, hc⟩

theorem serve [host.Attached] (routine : Store → Word × Store) (a : Act)
    (ha : (routine m.store).2 = a.apply m.store) (he : a.entered? m.store = none) :
    m.Did a (m.serve host routine).2 := by
  unfold Machine.serve
  rw [if_pos host.attached_eq]
  exact ⟨ha, by rw [he]; rfl⟩

theorem goes {m'' : Machine} (h : m.Did a m') (hs : m''.store = m'.store)
    (hc : m''.callers = m'.callers) : m.Did a m'' :=
  ⟨hs.trans h.store, hc.trans h.callers⟩

theorem giveUnlessPending (h : m.Did a m') (w : Word) : m.Did a (m'.giveUnlessPending w) :=
  h.goes (m'.store_giveUnlessPending w) (m'.callers_giveUnlessPending w)

theorem checked [host.Attached] (routine : Store → Word × Store) (a : Act)
    (ha : (routine m.store).2 = a.apply m.store) (he : a.entered? m.store = none) :
    m.Did a (m.checked host routine) :=
  (serve routine a ha he).giveUnlessPending _

end Did

theorem enter_store [host.Attached] (m : Machine) (frame : Frame) (f : Function) :
    (m.enter host frame f).store = m.store.entered := by
  unfold enter Store.entered Machine.serve
  dsimp only
  rw [if_pos host.attached_eq]
  split <;> rfl

theorem enter_callers (m : Machine) (host : Host) (frame : Frame) (f : Function) :
    (m.enter host frame f).callers = m.callers := by
  unfold enter Machine.serve
  dsimp only
  split
  · split <;> rfl
  · rfl

theorem callTarget_stays {target : CallTarget} (h : target.function? = none) (m : Machine)
    (args : List Word) : (m.callTarget host target args).store = m.store ∧
      (m.callTarget host target args).callers = m.callers := by
  unfold callTarget
  unfold CallTarget.function? at h
  split at h
  · next hent =>
    rw [hent]
    dsimp only
    rw [h]
    exact ⟨rfl, rfl⟩
  · next hent =>
    split
    · split <;> exact ⟨rfl, rfl⟩
    · exact ⟨m.store_giveUnlessPending _, m.callers_giveUnlessPending _⟩
    · exact ⟨m.store_giveUnlessPending _, m.callers_giveUnlessPending _⟩
    · next unit decl heq => exact absurd heq (hent unit decl)

theorem callTarget_enters {target : CallTarget} {f : Function} (h : target.function? = some f)
    (m : Machine) (args : List Word) : ∃ unit decl,
      target.entry = .compiled unit decl ∧ unit.function? decl = some f ∧
        m.callTarget host target args =
          { m with callers := ⟨m.frame, m.stack⟩ :: m.callers }.enter host
            { unit := unit
              closure := target.closure
              receiver := target.receiver
              arguments := args } f := by
  unfold CallTarget.function? at h
  split at h
  · next unit decl hent =>
    refine ⟨unit, decl, hent, h, ?_⟩
    simp [callTarget, hent, h]
  · cases h

section

variable [host.Attached]

theorem did_callTarget (m : Machine) (target : CallTarget) (args : List Word) :
    (m.callTarget host target args).store =
        (if target.function?.isSome then m.store.entered else m.store) ∧
      (m.callTarget host target args).callers =
        if target.function?.isSome then ⟨m.frame, m.stack⟩ :: m.callers else m.callers := by
  cases hf : target.function? with
  | none => exact callTarget_stays hf m args
  | some f =>
    obtain ⟨_, _, _, _, heq⟩ := @callTarget_enters host _ _ hf m args
    rw [heq]
    exact ⟨enter_store _ _ f, enter_callers _ host _ f⟩

theorem did_call (m : Machine) (callee : Word)
    (args : List Word) : m.Did (.call callee args) (m.call host callee args) := by
  cases hp : Serve.prepareCall callee args.length m.store with
  | mk target s =>
    cases target with
    | none => constructor <;> simp [call, Act.apply, Act.entered?, hp, Machine.leave]
    | some target =>
      have hdid := @did_callTarget host _ { m with store := s } target args
      constructor
      · simpa only [call, host.attached_eq, if_true, Act.apply, hp] using hdid.1
      · simpa only [call, host.attached_eq, if_true, Act.entered?, hp,
          Option.bind_some] using hdid.2

theorem did_eval (m : Machine) (e : Code) : m.Did (m.evalAct host e) (m.eval host e) := by
  cases e with
  | readCell cell =>
    exact (Did.serve (Serve.cellGet (m.cellWord host cell)) .nothing rfl rfl).goes rfl rfl
  | readGlobal slot => exact Did.checked (Serve.globalGet slot) (.getGlobal slot) rfl rfl
  | closure decl proto cells =>
    exact Did.checked (Serve.makeClosure proto _ _) (.makeClosure proto _ _) rfl rfl
  | newClass name sup =>
    exact Did.checked (Serve.newClass name _) (.newClass name _) rfl rfl
  | _ => exact .nothing rfl rfl

theorem entered?_evalAct (m : Machine) (host : Host) (e : Code) (s : Store) :
    (m.evalAct host e).entered? s = none := by
  cases e <;> rfl

theorem did_binary (m : Machine) (op : BinaryOp) (left right : Word) :
    m.Did (m.receiveAct host right (.rightOperand op left)) (m.binary host op left right) := by
  have he : m.Did .nothing (m.serve host (Serve.valuesEqual left right)).2 :=
    .serve _ _ rfl rfl
  unfold binary
  simp only [receiveAct]
  split
  · exact .nothing rfl rfl
  · cases op with
    | equal | notEqual => exact he.goes rfl rfl
    | _ => exact Did.checked (Serve.binary _ left right) (.binary _ left right) rfl rfl

theorem did_getProperty (m : Machine) (object : Word) (name : Symbol) (site : Nat) :
    m.Did (.getProperty object name site) (m.getProperty host object name site) := by
  unfold getProperty
  cases hcch : m.store.cached? object site with
  | none =>
    refine Did.checked (Serve.getProperty object name site) _ ?_ rfl
    simp [Act.apply, hcch]
  | some found =>
    refine ⟨?_, rfl⟩
    simp only [Act.apply, hcch]
    rfl

theorem did_setProperty (m : Machine) (object : Word) (name : Symbol) (value : Word) (site : Nat) :
    m.Did (.setProperty object name value site) (m.setProperty host object name value site) := by
  unfold setProperty
  cases hcch : m.store.cached? object site with
  | none =>
    refine Did.checked (Serve.setProperty object name value site) _ ?_ rfl
    simp [Act.apply, hcch]
  | some found =>
    refine ⟨?_, rfl⟩
    simp only [Act.apply, hcch]
    rfl

theorem did_receive (m : Machine) (w : Word) (task : Pending) :
    m.Did (m.receiveAct host w task) (m.receive host w task) := by
  cases task with
  | newCell => exact Did.checked (Serve.newCell w) (.newCell w) rfl rfl
  | assignCell cell =>
    exact (Did.serve (Serve.cellSet _ w) (.setCell _ w) rfl rfl).goes rfl rfl
  | assignGlobal slot =>
    exact (Did.serve (Serve.globalSet slot w) (.setGlobal slot w) rfl rfl).giveUnlessPending w
  | negate =>
    show m.Did (if w.isPlain then .nothing else .negate w) (m.negate host w)
    unfold negate
    split
    · exact .nothing rfl rfl
    · exact Did.checked (Serve.negate w) (.negate w) rfl rfl
  | rightOperand op left => exact did_binary m op left w
  | logical op right =>
    cases op with
    | and | or =>
      dsimp only [receive]
      split <;> exact .nothing rfl rfl
  | callee args =>
    cases args with
    | nil => exact did_call m w []
    | cons e rest => exact .nothing rfl rfl
  | argument callee done rest =>
    cases rest with
    | nil => exact did_call m callee (done ++ [w])
    | cons e rest => exact .nothing rfl rfl
  | getProperty name site => exact did_getProperty m w name site
  | setProperty object name site => exact did_setProperty m object name w site
  | superReceiver sup name =>
    exact Did.checked (Serve.getSuper sup w name) (.getSuper sup w name) rfl rfl
  | print => exact (Did.serve (Serve.print w) (.print w) rfl rfl).goes rfl rfl
  | defineGlobal slot =>
    exact (Did.serve (Serve.globalDefine slot w) (.defineGlobal slot w) rfl rfl).goes rfl rfl
  | loopTest condition body =>
    dsimp only [receive]
    split <;> exact .nothing rfl rfl
  | addMethod classVariable name =>
    exact (Did.serve (Serve.addMethod _ name w) (.addMethod _ name w) rfl rfl).goes rfl rfl
  | _ => exact .nothing rfl rfl

end

theorem cellWord_stack (m : Machine) (host : Host) (stack : List Pending) (cell : CellRef) :
    { m with stack := stack }.cellWord host cell = m.cellWord host cell := by
  cases cell with
  | own index => rfl
  | captured index =>
    unfold cellWord serve
    cases host.attached <;> rfl

theorem receiveAct_stack (m : Machine) (host : Host) (stack : List Pending) (w : Word)
    (task : Pending) :
    { m with stack := stack }.receiveAct host w task = m.receiveAct host w task := by
  cases task with
  | assignCell cell => exact congrArg (Act.setCell · w) (m.cellWord_stack host stack cell)
  | callee args => cases args <;> rfl
  | argument callee done rest => cases rest <;> rfl
  | _ => rfl

theorem act_offers {task : Pending} {stack : List Pending} (hs : m.stack = task :: stack)
    (hc : m.Offers w) : m.act host = m.receiveAct host w task := by
  rcases hc with hc | ⟨hc, rfl⟩ <;> simp [act, hc, hs]

theorem act_ends (hs : m.stack = []) (hc : m.Offers w) : m.act host = .nothing := by
  rcases hc with hc | ⟨hc, rfl⟩ <;> simp [act, hc, hs]

theorem did_step [host.Attached] (m : Machine)
    (hstays : ∀ w, m.control ≠ .leave w) :
    Did { m with stack := m.stack.tail } (m.act host) (m.step host) := by
  cases m.turn with
  | stopped hc =>
    rw [step_stopped hc]
    simp only [act, hc]
    exact .nothing rfl rfl
  | leaves hc => exact absurd hc (hstays _)
  | @executes i rest hc =>
    rw [step_run_cons hc]
    simp only [act, hc]
    cases i <;> exact Did.nothing rfl rfl
  | @evaluates e hc =>
    have hdid := @did_eval host _ m e
    rw [step_eval hc]
    simp only [act, hc]
    refine ⟨hdid.store, ?_⟩
    rw [hdid.callers, m.entered?_evalAct host e]
    rfl
  | ends hs hc =>
    rw [step_ends hs hc, act_ends hs hc]
    exact .nothing rfl rfl
  | @receives w task stack hs hc =>
    rw [step_receives hs hc, act_offers hs hc, ← m.receiveAct_stack host stack, hs]
    exact did_receive { m with stack := stack } w task

theorem step_store [host.Attached] (m : Machine) :
    (m.step host).store = (m.act host).apply m.store := by
  cases hc : m.control with
  | leave w =>
    have hact : m.act host = .leave := by simp [act, hc]
    rw [step_leave hc, hact]
    unfold unwind
    dsimp only
    split
    · rfl
    · exact store_giveUnlessPending _ w
  | _ => exact (did_step m (by rw [hc]; nofun)).store

theorem continues_step (m : Machine) (host : Host) [host.Attached] :
    m.store.Continues (m.step host).store := by
  rw [step_store]
  exact ((m.act host).evolves m.store).printed

theorem continues_run [host.Attached] (m : Machine) (n : Nat) :
    m.store.Continues (m.run host n).store :=
  run_induction (P := fun m' => m.store.Continues m'.store)
    (fun {m'} h => h.trans (m'.continues_step host)) n (.of_eq rfl)

theorem enter_printed [host.Attached] (m : Machine) (frame : Frame)
    (f : Function) : (m.enter host frame f).store.printed = m.store.printed := by
  rw [enter_store]
  unfold Store.entered
  split <;> rfl

theorem step_callers (host : Host) [host.Attached] (hs : ∀ w, m.control ≠ .leave w) :
    (m.step host).callers =
      if ((m.act host).entered? m.store).isSome then ⟨m.frame, m.stack.tail⟩ :: m.callers
      else m.callers :=
  (did_step m hs).callers

theorem step_callers_leave (h : m.control = .leave w) : (m.step host).callers = m.callers.tail := by
  rw [step_leave h]
  unfold unwind
  dsimp only
  split
  · next hnil => rw [hnil]; rfl
  · next caller rest hc =>
    rw [callers_giveUnlessPending, hc]
    rfl

theorem evalAct_occasion (m : Machine) (host : Host) (e : Code) :
    (m.evalAct host e).occasion = none ∨ (m.evalAct host e).occasion = some .evaluation := by
  cases e with
  | readGlobal | closure | newClass => exact .inr rfl
  | _ => exact .inl rfl

theorem receiveAct_occasion (m : Machine) (host : Host) (w : Word) (task : Pending) :
    (m.receiveAct host w task).occasion = none ∨
      (m.receiveAct host w task).occasion = some .handover := by
  cases task with
  | callee rest =>
    cases rest with
    | nil => exact .inr rfl
    | cons => exact .inl rfl
  | argument function done rest =>
    cases rest with
    | nil => exact .inr rfl
    | cons => exact .inl rfl
  | negate =>
    simp only [receiveAct]
    split
    · exact .inl rfl
    · exact .inr rfl
  | rightOperand op left =>
    simp only [receiveAct]
    split
    · exact .inl rfl
    · cases op with
      | equal | notEqual => exact .inl rfl
      | _ => exact .inr rfl
  | newCell | assignCell | assignGlobal | getProperty | setProperty | superReceiver | print
  | defineGlobal | addMethod => exact .inr rfl
  | _ => exact .inl rfl

theorem act_occasion (m : Machine) (host : Host) :
    match (m.act host).occasion with
    | none => True
    | some .evaluation => ∃ e, m.control = .eval e ∧ m.act host = m.evalAct host e
    | some .handover => ∃ w task stack, m.stack = task :: stack ∧ m.Offers w ∧
        m.act host = m.receiveAct host w task
    | some .departure => ∃ w, m.control = .leave w := by
  cases m.turn with
  | stopped hc | executes hc => simp [act, hc, Act.occasion]
  | leaves hc => simp [act, hc, Act.occasion]
  | @evaluates e hc =>
    have hact : m.act host = m.evalAct host e := by simp [act, hc]
    rw [hact]
    rcases m.evalAct_occasion host e with h | h <;> rw [h]
    · trivial
    · exact ⟨e, hc, rfl⟩
  | ends hs hc =>
    rw [act_ends hs hc]
    trivial
  | @receives w task stack hs hc =>
    rw [act_offers hs hc]
    rcases m.receiveAct_occasion host w task with h | h <;> rw [h]
    · trivial
    · exact ⟨w, task, stack, hs, hc, rfl⟩

theorem act_evaluates (h : (m.act host).occasion = some .evaluation) :
    ∃ e, m.control = .eval e ∧ m.act host = m.evalAct host e := by
  have := m.act_occasion host
  rwa [h] at this

theorem act_receives (h : (m.act host).occasion = some .handover) :
    ∃ w task stack, m.stack = task :: stack ∧ m.Offers w ∧
      m.act host = m.receiveAct host w task := by
  have := m.act_occasion host
  rwa [h] at this

theorem control_of_leave (h : m.act host = .leave) : ∃ w, m.control = .leave w := by
  have := m.act_occasion host
  rwa [h] at this

/-! ## §3 Calls -/

theorem step_call {callee : Word} {args : List Word} (h : m.act host = .call callee args) :
    m.step host = { m with stack := m.stack.tail }.call host callee args := by
  obtain ⟨w, task, stack, hs, hc, hact⟩ : ∃ w task stack, m.stack = task :: stack ∧ _ ∧ _ :=
    act_receives (by rw [h]; rfl)
  rw [step_receives hs hc, hs]
  rw [h] at hact
  cases task with
  | callee rest =>
    cases rest with
    | nil => cases hact; rfl
    | cons => cases hact
  | argument function done rest =>
    cases rest with
    | nil => cases hact; rfl
    | cons => cases hact
  | negate =>
    simp only [receiveAct] at hact
    split at hact <;> cases hact
  | rightOperand op left =>
    simp only [receiveAct] at hact
    split at hact
    · cases hact
    · split at hact <;> cases hact
  | _ => cases hact

theorem step_enters [host.Attached] {f : Function}
    (h : (m.act host).entered? m.store = some f) :
    ∃ (target : CallTarget) (unit : CodeUnit) (decl : Nat) (args : List Word),
      target.entry = .compiled unit decl ∧ unit.function? decl = some f ∧ m.step host =
          { m with
            store := (m.act host).prepared m.store
            stack := m.stack.tail
            callers := ⟨m.frame, m.stack.tail⟩ :: m.callers }.enter host
            { unit := unit
              closure := target.closure
              receiver := target.receiver
              arguments := args } f := by
  cases ha : m.act host with
  | call callee args =>
    rw [ha] at h
    obtain ⟨target, htgt, hf⟩ := Option.bind_eq_some_iff.mp h
    rw [step_call ha]
    unfold call
    rw [if_pos host.attached_eq]
    simp only [Act.prepared]
    generalize Serve.prepareCall callee args.length m.store = r at htgt
    obtain ⟨_, t⟩ := r
    cases htgt
    obtain ⟨unit, decl, hent, hf, heq⟩ := callTarget_enters hf _ args
    exact ⟨target, unit, decl, args, hent, hf, heq⟩
  | _ =>
    rw [ha] at h
    cases h

end Machine

end ScriptMachine
