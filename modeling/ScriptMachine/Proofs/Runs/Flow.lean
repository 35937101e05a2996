/-
ScriptMachine.Proofs.Runs.Flow — which code a step goes on with.
-/
import ScriptMachine.Proofs.Runs.Acts

namespace ScriptMachine

/-! ## §1 Order -/

variable {w callee : Word} {task : Pending}

def Code.first : Code → Option (Pending × Code)
  | .assignVariable index value => some (.assignVariable index, value)
  | .newCell value => some (.newCell, value)
  | .assignCell cell value => some (.assignCell cell, value)
  | .assignGlobal slot value => some (.assignGlobal slot, value)
  | .negate operand => some (.negate, operand)
  | .not operand => some (.not, operand)
  | .binary op left right => some (.leftOperand op right, left)
  | .logical op left right => some (.logical op right, left)
  | .call callee args => some (.callee args, callee)
  | .getProperty object name site => some (.getProperty name site, object)
  | .setProperty object name value site => some (.setObject name value site, object)
  | .getSuper superclass self name => some (.superclass self name, superclass)
  | _ => none

def Instr.first : Instr → Pending × Code
  | .evaluate e => (.discard, e)
  | .print e => (.print, e)
  | .defineGlobal slot e => (.defineGlobal slot, e)
  | .branch cond yes no => (.branch yes no, cond)
  | .loop cond body => (.loopTest cond body, cond)
  | .addMethod classVariable name method => (.addMethod classVariable name, method)
  | .leave e => (.leave, e)

inductive Follow where
  | value
  | eval (tasks : List Pending) (e : Code)
  | run (tasks : List Pending) (code : List Instr)
  | call (callee : Word) (args : List Word)
  | leave

def Pending.follow (w : Word) : Pending → Follow
  | .leftOperand op right => .eval [.rightOperand op w] right
  | .logical .and right => if w.isFalsy then .value else .eval [] right
  | .logical .or right => if w.isFalsy then .eval [] right else .value
  | .callee [] => .call w []
  | .callee (e :: others) => .eval [.argument w [] others] e
  | .argument function done [] => .call function (done ++ [w])
  | .argument function done (e :: others) => .eval [.argument function (done ++ [w]) others] e
  | .setObject name value site => .eval [.setProperty w name site] value
  | .superclass self name => .eval [.superReceiver w name] self
  | .discard | .print | .defineGlobal _ | .addMethod _ _ => .run [] []
  | .branch yes no => .run [] (if w.isFalsy then no else yes)
  | .loopTest cond body => if w.isFalsy then .run [] [] else .run [.again cond body] body
  | .leave => .leave
  | .rest code => .run [] code
  | .again cond body => .eval [.loopTest cond body] cond
  | _ => .value

theorem Pending.follow_eq_call {args : List Word} (h : task.follow w = .call callee args) :
    task = .callee [] ∧ callee = w ∧ args = [] ∨
      ∃ done, task = .argument callee done [] ∧ args = done ++ [w] := by
  cases task with
  | callee others =>
    cases others with
    | nil =>
      cases h
      exact .inl ⟨rfl, rfl, rfl⟩
    | cons => cases h
  | argument function done others =>
    cases others with
    | nil =>
      cases h
      exact .inr ⟨done, rfl, rfl⟩
    | cons => cases h
  | logical op right =>
    cases op <;>
    · simp only [Pending.follow] at h
      split at h <;> cases h
  | loopTest cond body =>
    simp only [Pending.follow] at h
    split at h <;> cases h
  | _ => cases h

theorem Pending.follow_eq_leave (h : task.follow w = .leave) : task = .leave := by
  cases task with
  | leave => rfl
  | callee others => cases others <;> cases h
  | argument function done others => cases others <;> cases h
  | logical op right =>
    cases op <;>
    · simp only [Pending.follow] at h
      split at h <;> cases h
  | loopTest cond body =>
    simp only [Pending.follow] at h
    split at h <;> cases h
  | _ => cases h

/-! ## §2 Steps -/

def Control.Hands (store : Store) (control : Control) : Prop :=
  (∃ w, control = .give w) ∨ control = .leave .nil ∧ store.pending = true

def CallTarget.Astray (target : CallTarget) : Prop :=
  match target.entry with
  | .address _ => True
  | .compiled unit decl => unit.function? decl = none
  | _ => False

theorem Serve.prepareCall_none {count : Nat} {s : Store}
    (h : (Serve.prepareCall callee count s).1 = none) :
    (Serve.prepareCall callee count s).2.pending = true := by
  unfold Serve.prepareCall at h ⊢
  split
  · next heq =>
    rw [heq] at h
    cases h
  · rfl

namespace Machine

variable {e : Code}

def flow (m : Machine) : Option Follow :=
  match m.control, m.stack with
  | .eval e, _ =>
    match e.first with
    | some (task, e) => some (.eval [task] e)
    | none => some .value
  | .run (i :: rest), _ => some (.eval [i.first.1, .rest rest] i.first.2)
  | .run [], task :: _ => some (task.follow .nil)
  | .give w, task :: _ => some (task.follow w)
  | .run [], [] | .give _, [] => some .leave
  | .leave _, _ | .stopped _, _ => none

def below (m : Machine) : List Pending :=
  match m.control with
  | .run [] | .give _ => m.stack.tail
  | _ => m.stack

def Moved (m : Machine) (tasks : List Pending) (control : Control) (m' : Machine) : Prop :=
  ∃ store locals, locals.size = m.frame.locals.size ∧ m' =
    { m with
      store := store, frame := { m.frame with locals := locals }
      stack := tasks ++ m.stack, control := control }

def Served (m m' : Machine) : Prop :=
  ∃ store control, Control.Hands store control ∧ m' = { m with store := store, control := control }

def Flows (m : Machine) (host : Host) : Follow → Machine → Prop
  | .value, m' => ∃ control : Control, control.Hands m'.store ∧ m.Moved [] control m'
  | .eval tasks e, m' => m.Moved tasks (.eval e) m'
  | .run tasks code, m' => m.Moved tasks (.run code) m'
  | .call callee args, m' => m' = m.call host callee args
  | .leave, m' => ∃ w, m.Moved [] (.leave w) m'

variable {m m' : Machine} {host : Host}

theorem exists_flow (hl : ∀ {w}, m.control ≠ .leave w)
    (hs : ∀ {stop}, m.control ≠ .stopped stop) : ∃ next, m.flow = some next := by
  unfold flow
  split
  · split <;> exact ⟨_, rfl⟩
  · exact ⟨_, rfl⟩
  · exact ⟨_, rfl⟩
  · exact ⟨_, rfl⟩
  · exact ⟨_, rfl⟩
  · exact ⟨_, rfl⟩
  · next hc => exact absurd hc hl
  · next hc => exact absurd hc hs

theorem Served.flows (h : m.Served m') (host : Host) : m.Flows host .value m' := by
  obtain ⟨store, control, hh, rfl⟩ := h
  exact ⟨control, hh, store, m.frame.locals, rfl, rfl⟩

theorem served_give (m : Machine) (store : Store) (w : Word) :
    m.Served ({ m with store := store }.give w) :=
  ⟨store, _, .inl ⟨w, rfl⟩, rfl⟩

theorem served_giveUnlessPending (m : Machine) (store : Store) (w : Word) :
    m.Served ({ m with store := store }.giveUnlessPending w) := by
  unfold giveUnlessPending
  split
  · next hp => exact ⟨store, _, .inr ⟨rfl, hp⟩, rfl⟩
  · exact m.served_give store w

theorem serve_snd (m : Machine) (host : Host) (routine : Store → Word × Store) :
    ∃ store, (m.serve host routine).2 = { m with store := store } := by
  unfold serve
  split
  · exact ⟨_, rfl⟩
  · exact ⟨m.store, rfl⟩

theorem served_checked (m : Machine) (host : Host) (routine : Store → Word × Store) :
    m.Served (m.checked host routine) := by
  obtain ⟨store, hs⟩ := m.serve_snd host routine
  unfold checked
  dsimp only
  rw [hs]
  exact m.served_giveUnlessPending store _

theorem eval_leaf (h : e.first = none) : m.Served (m.eval host e) := by
  cases e with
  | constant | receiver | argument | readVariable => exact m.served_give m.store _
  | readCell cell =>
    obtain ⟨store, hs⟩ := m.serve_snd host (Serve.cellGet (m.cellWord host cell))
    simp only [eval, hs]
    exact m.served_give store _
  | readGlobal slot => exact m.served_checked host (Serve.globalGet slot)
  | closure decl prototype cells =>
    exact m.served_checked host (Serve.makeClosure prototype _ _)
  | newClass name superclass => exact m.served_checked host (Serve.newClass name _)
  | _ => cases h

theorem eval_first {e' : Code} (h : e.first = some (task, e')) :
    m.eval host e = m.evalFor task e' := by
  cases e <;> cases h <;> rfl

theorem exec_first (m : Machine) (i : Instr) : m.exec i = m.evalFor i.first.1 i.first.2 := by
  cases i <;> rfl

theorem served_binary (m : Machine) (host : Host) (op : BinaryOp) (left right : Word) :
    m.Served (m.binary host op left right) := by
  obtain ⟨store, hs⟩ := m.serve_snd host (Serve.valuesEqual left right)
  unfold binary
  split
  · exact m.served_give m.store _
  · split
    · simp only [hs]
      exact m.served_give store _
    · simp only [hs]
      exact m.served_give store _
    · exact m.served_checked host _

theorem served_negate (m : Machine) (host : Host) (w : Word) : m.Served (m.negate host w) := by
  unfold negate
  split
  · exact m.served_give m.store _
  · exact m.served_checked host _

theorem served_getProperty (m : Machine) (host : Host) (object : Word)
    (name : Symbol) (site : Nat) :
    m.Served (m.getProperty host object name site) := by
  unfold getProperty
  split
  · exact m.served_give _ _
  · exact m.served_checked host _

theorem served_setProperty (m : Machine) (host : Host) (object : Word) (name : Symbol) (w : Word)
    (site : Nat) : m.Served (m.setProperty host object name w site) := by
  unfold setProperty
  split
  · exact m.served_give _ _
  · exact m.served_checked host _

theorem moved_next (m : Machine) (host : Host) (routine : Store → Word × Store) :
    m.Flows host (.run [] []) (m.serve host routine).2.next := by
  obtain ⟨store, hs⟩ := m.serve_snd host routine
  rw [hs]
  exact ⟨store, m.frame.locals, rfl, rfl⟩

theorem receive_follow (m : Machine) (host : Host) (w : Word) (task : Pending) :
    m.Flows host (task.follow w) (m.receive host w task) := by
  cases task with
  | assignVariable index =>
    exact ⟨_, .inl ⟨w, rfl⟩, m.store, _, Array.size_setIfInBounds, rfl⟩
  | newCell => exact (m.served_checked host (Serve.newCell w)).flows host
  | assignCell cell =>
    obtain ⟨store, hs⟩ := m.serve_snd host (Serve.cellSet (m.cellWord host cell) w)
    simp only [receive, hs]
    exact (m.served_give store w).flows host
  | assignGlobal slot =>
    obtain ⟨store, hs⟩ := m.serve_snd host (Serve.globalSet slot w)
    simp only [receive, hs]
    exact (m.served_giveUnlessPending store w).flows host
  | negate => exact (m.served_negate host w).flows host
  | not => exact (m.served_give m.store _).flows host
  | rightOperand op left => exact (m.served_binary host op left w).flows host
  | logical op right =>
    have hg : m.Flows host .value (m.give w) := (m.served_give m.store w).flows host
    have he : m.Flows host (.eval [] right) { m with control := .eval right } :=
      ⟨m.store, m.frame.locals, rfl, rfl⟩
    cases op with
    | and | or =>
      simp only [Pending.follow, receive]
      split <;> assumption
  | callee args =>
    cases args with
    | nil => rfl
    | cons e rest => exact ⟨m.store, m.frame.locals, rfl, rfl⟩
  | argument callee done rest =>
    cases rest with
    | nil => rfl
    | cons e rest => exact ⟨m.store, m.frame.locals, rfl, rfl⟩
  | getProperty name site => exact (m.served_getProperty host w name site).flows host
  | setProperty object name site => exact (m.served_setProperty host object name w site).flows host
  | superReceiver superclass name =>
    exact (m.served_checked host (Serve.getSuper superclass w name)).flows host
  | print => exact m.moved_next host (Serve.print w)
  | defineGlobal slot => exact m.moved_next host (Serve.globalDefine slot w)
  | addMethod v name => exact m.moved_next host (Serve.addMethod (m.frame.value v) name w)
  | loopTest cond body =>
    simp only [Pending.follow, receive]
    split <;> exact ⟨m.store, m.frame.locals, rfl, rfl⟩
  | leave => exact ⟨w, m.store, m.frame.locals, rfl, rfl⟩
  | leftOperand | setObject | superclass | discard | branch | rest | again =>
    exact ⟨m.store, m.frame.locals, rfl, rfl⟩

theorem flow_offers {stack : List Pending}
    (hs : m.stack = task :: stack) (hc : m.Offers w) :
    m.flow = some (task.follow w) ∧ m.below = stack := by
  rcases hc with hc | ⟨hc, rfl⟩ <;> simp [flow, below, hc, hs]

theorem flow_ends (hs : m.stack = []) (hc : m.Offers w) :
    m.flow = some .leave ∧ m.below = [] := by
  rcases hc with hc | ⟨hc, rfl⟩ <;> simp [flow, below, hc, hs]

theorem step_flow {next : Follow} (h : m.flow = some next) :
    { m with stack := m.below }.Flows host next (m.step host) := by
  cases m.turn with
  | stopped hc | leaves hc => simp only [flow, hc] at h; cases h
  | @evaluates e hc =>
    rw [step_eval hc]
    cases hfst : e.first with
    | none =>
      simp only [flow, hc, hfst] at h
      cases h
      simp only [below, hc]
      obtain ⟨store, control, hh, heq⟩ : m.Served (m.eval host e) := eval_leaf hfst
      refine ⟨control, ?_, store, m.frame.locals, rfl, heq⟩
      rw [heq]
      exact hh
    | some operand =>
      simp only [flow, hc, hfst] at h
      cases h
      simp only [below, hc]
      rw [eval_first hfst]
      exact ⟨m.store, m.frame.locals, rfl, rfl⟩
  | executes hc =>
    simp only [flow, hc] at h
    cases h
    rw [step_run_cons hc, exec_first]
    simp only [below, hc]
    exact ⟨m.store, m.frame.locals, rfl, rfl⟩
  | @ends w hs hc =>
    obtain ⟨hf, hb⟩ := flow_ends hs hc
    cases hf.symm.trans h
    rw [step_ends hs hc, hb, ← hs]
    exact ⟨w, m.store, m.frame.locals, rfl, rfl⟩
  | @receives w task stack hs hc =>
    obtain ⟨hf, hb⟩ := flow_offers hs hc
    cases hf.symm.trans h
    rw [step_receives hs hc, hb]
    exact receive_follow _ host w task

theorem act_of_flow {args : List Word}
    (h : m.flow = some (.call callee args)) :
    m.act host = .call callee args ∧ m.below = m.stack.tail := by
  have hfol : ∀ {w : Word} {task : Pending}, task.follow w = .call callee args →
      m.receiveAct host w task = .call callee args := by
    intro w task h
    rcases Pending.follow_eq_call h with ⟨rfl, rfl, rfl⟩ | ⟨done, rfl, rfl⟩ <;> rfl
  cases m.turn with
  | stopped hc | leaves hc | executes hc => simp [flow, hc] at h
  | @evaluates e hc => cases hfst : e.first <;> simp [flow, hc, hfst] at h
  | ends hs hc => cases (flow_ends hs hc).1.symm.trans h
  | receives hs hc =>
    obtain ⟨hf, hb⟩ := flow_offers hs hc
    rw [act_offers hs hc, hb, hs]
    exact ⟨hfol (Option.some.inj (hf.symm.trans h)), rfl⟩

theorem flow_eq_leave (h : m.flow = some .leave) :
    m.stack = [] ∨ ∃ stack, m.stack = .leave :: stack ∧ m.below = stack := by
  cases m.turn with
  | stopped hc | leaves hc | executes hc => simp [flow, hc] at h
  | @evaluates e hc => cases hfst : e.first <;> simp [flow, hc, hfst] at h
  | ends hs => exact .inl hs
  | receives hs hc =>
    obtain ⟨hf, hb⟩ := flow_offers hs hc
    obtain rfl := Pending.follow_eq_leave (Option.some.inj (hf.symm.trans h))
    exact .inr ⟨_, hs, hb⟩

theorem hands_of_below (h : m.below ≠ m.stack) : ∃ w, m.Offers w := by
  unfold below at h
  split at h
  · next hc => exact ⟨.nil, .inr ⟨hc, rfl⟩⟩
  · next w hc => exact ⟨w, .inl hc⟩
  · exact absurd rfl h

theorem call_cases (host : Host) [host.Attached] (m : Machine) (callee : Word) (args : List Word) :
    m.Served (m.call host callee args) ∨
      (∃ target, (Serve.prepareCall callee args.length m.store).1 = some target ∧ target.Astray) ∨
      ∃ (target : CallTarget) (unit : CodeUnit) (decl : Nat) (f : Function),
        (Serve.prepareCall callee args.length m.store).1 = some target ∧
          target.entry = .compiled unit decl ∧ unit.function? decl = some f ∧
          m.call host callee args =
            { m with
              store := (Serve.prepareCall callee args.length m.store).2
              callers := ⟨m.frame, m.stack⟩ :: m.callers }.enter host
              { unit := unit
                closure := target.closure
                receiver := target.receiver
                arguments := args } f := by
  unfold call
  rw [if_pos host.attached_eq]
  have hn : (Serve.prepareCall callee args.length m.store).1 = none →
      (Serve.prepareCall callee args.length m.store).2.pending = true := Serve.prepareCall_none
  generalize Serve.prepareCall callee args.length m.store = r at hn
  obtain ⟨_ | target, store⟩ := r
  · exact .inl ⟨store, _, .inr ⟨rfl, hn rfl⟩, rfl⟩
  · dsimp only
    unfold callTarget
    cases hent : target.entry with
    | address n =>
      refine .inr (.inl ⟨target, rfl, ?_⟩)
      rw [CallTarget.Astray, hent]
      trivial
    | clock | construct => exact .inl (m.served_giveUnlessPending store _)
    | compiled unit decl =>
      dsimp only
      cases hf : unit.function? decl with
      | none =>
        refine .inr (.inl ⟨target, rfl, ?_⟩)
        rw [CallTarget.Astray, hent]
        exact hf
      | some f => exact .inr (.inr ⟨target, unit, decl, f, rfl, hent, hf, rfl⟩)

end Machine

/-! ## §3 Fragments -/

structure Fragment where
  code : Code → Prop
  task : Pending → Prop
  block : List Instr → Prop

namespace Fragment

variable {F : Fragment} {task : Pending}

def Allows (F : Fragment) : Follow → Prop
  | .eval tasks e => (∀ task ∈ tasks, F.task task) ∧ F.code e
  | .run tasks code => (∀ task ∈ tasks, F.task task) ∧ F.block code
  | _ => True

structure Closed (F : Fragment) : Prop where
  first : ∀ {e e' : Code} {task : Pending}, F.code e → e.first = some (task, e') →
    F.task task ∧ F.code e'
  follow : ∀ {task : Pending} (w : Word), F.task task → F.Allows (task.follow w)

theorem mem_one (h : F.task task) : ∀ t ∈ [task], F.task t :=
  fun _ hmem => List.mem_singleton.mp hmem ▸ h

theorem mem_none : ∀ task ∈ ([] : List Pending), F.task task :=
  fun _ hmem => absurd hmem List.not_mem_nil

def Covers (F : Fragment) (base stack : List Pending) : Prop :=
  ∃ tasks, stack = tasks ++ base ∧ ∀ task ∈ tasks, F.task task

structure Holds (F : Fragment) (base : List Pending) (m : Machine) : Prop where
  stack : F.Covers base m.stack
  code : ∀ {e}, m.control = .eval e → F.code e
  block : ∀ {code}, m.control = .run code → F.block code

variable {base stack : List Pending}

theorem Covers.nil : F.Covers base base := ⟨[], rfl, fun _ hmem => absurd hmem List.not_mem_nil⟩

theorem Covers.append (h : F.Covers base stack) {tasks : List Pending}
    (ht : ∀ task ∈ tasks, F.task task) : F.Covers base (tasks ++ stack) := by
  obtain ⟨top, rfl, htop⟩ := h
  refine ⟨tasks ++ top, (List.append_assoc ..).symm, fun task hmem => ?_⟩
  rcases List.mem_append.mp hmem with hmem | hmem
  · exact ht task hmem
  · exact htop task hmem

theorem Covers.cons (h : F.Covers base stack) (ht : F.task task) : F.Covers base (task :: stack) :=
  h.append fun _ hmem => List.mem_singleton.mp hmem ▸ ht

theorem Covers.top (h : F.Covers base (task :: stack)) :
    F.task task ∧ F.Covers base stack ∨ base = task :: stack := by
  obtain ⟨tasks, heq, htasks⟩ := h
  cases tasks with
  | nil => exact .inr heq.symm
  | cons first rest =>
    obtain ⟨rfl, rfl⟩ := List.cons.inj heq
    have hr : ∀ t ∈ rest, F.task t := fun t ht => htasks t (List.mem_cons_of_mem _ ht)
    exact .inl ⟨htasks _ List.mem_cons_self, rest, rfl, hr⟩

theorem Covers.tail (h : F.Covers base stack) (hne : stack ≠ base) : F.Covers base stack.tail := by
  cases stack with
  | nil => exact h
  | cons task stack =>
    rcases h.top with ⟨_, h⟩ | heq
    · exact h
    · exact absurd heq.symm hne

theorem covers_nil : F.Covers [] stack ↔ ∀ task ∈ stack, F.task task := by
  constructor
  · rintro ⟨tasks, rfl, ht⟩
    rwa [List.append_nil]
  · exact fun h => ⟨stack, (List.append_nil _).symm, h⟩

theorem Holds.tasks {m : Machine} (h : F.Holds [] m) : ∀ task ∈ m.stack, F.task task :=
  covers_nil.mp h.stack

end Fragment

theorem Machine.below_nil {m : Machine} (h : m.stack = []) : m.below = [] := by
  unfold Machine.below
  split <;> rw [h] <;> rfl

structure Machine.Same (m m' : Machine) : Prop where
  callers : m'.callers = m.callers
  frame : ∃ locals, locals.size = m.frame.locals.size ∧ m'.frame = { m.frame with locals := locals }

def Pending.Operand : Pending → Prop
  | .discard | .print | .defineGlobal _ | .branch _ _ | .loopTest _ _ | .addMethod _ _ | .leave
  | .rest _ | .again _ _ => False
  | _ => True

def Pending.Calls : Pending → Prop
  | .callee _ | .argument _ _ _ => True
  | _ => False

namespace Machine

variable {m m' : Machine} {host : Host} {stack : List Pending}

theorem Moved.same {tasks : List Pending} {control : Control}
    (h : Moved { m with stack := stack } tasks control m') : m.Same m' := by
  obtain ⟨store, locals, hs, rfl⟩ := h
  exact ⟨rfl, locals, hs, rfl⟩

theorem step_same {next : Follow} (h : m.flow = some next)
    (hc : ∀ callee args, next ≠ .call callee args) : m.Same (m.step host) := by
  have hf : Flows { m with stack := m.below } host next (m.step host) := step_flow h
  cases next with
  | value =>
    obtain ⟨control, _, hm⟩ := hf
    exact hm.same
  | eval tasks e => exact Moved.same hf
  | run tasks code => exact Moved.same hf
  | leave =>
    obtain ⟨w, hm⟩ := hf
    exact hm.same
  | call callee args => exact absurd rfl (hc callee args)

theorem step_same_of_eval {e : Code} (hc : m.control = .eval e) : m.Same (m.step host) := by
  cases hfst : e.first with
  | none => exact step_same (show m.flow = some .value by simp [flow, hc, hfst]) nofun
  | some operand =>
    have hf : m.flow = some (.eval [operand.1] operand.2) := by simp [flow, hc, hfst]
    exact step_same hf nofun

theorem step_same_of_run {i : Instr} {rest : List Instr} (hc : m.control = .run (i :: rest)) :
    m.Same (m.step host) := by
  have hf : m.flow = some (.eval [i.first.1, .rest rest] i.first.2) := by simp [flow, hc]
  exact step_same hf nofun

theorem step_same_of_receives (hs : m.stack = task :: stack)
    (hc : m.Offers w) (ht : ¬task.Calls) : m.Same (m.step host) := by
  refine step_same (flow_offers hs hc).1 fun callee args h => ht ?_
  rcases Pending.follow_eq_call h with ⟨rfl, _⟩ | ⟨done, rfl, _⟩ <;> trivial

end Machine

inductive Fragment.Goes (F : Fragment) (host : Host) (base : List Pending) (m m' : Machine) : Prop
  | stays : m.Same m' → F.Holds base m' → (∀ {stop}, m'.control ≠ .stopped stop) →
      (∀ {w}, m'.control = .leave w → m'.store.pending = true ∨ m.flow = some .leave) →
        Goes F host base m m'
  | strays {target : CallTarget} {callee : Word} {args : List Word} :
      (Serve.prepareCall callee args.length m.store).1 = some target → target.Astray →
        Goes F host base m m'
  | enters {target : CallTarget} {unit : CodeUnit} {decl : Nat} {f : Function}
      {callee : Word} {args : List Word} : m.act host = .call callee args →
      (Serve.prepareCall callee args.length m.store).1 = some target →
        target.entry = .compiled unit decl → unit.function? decl = some f →
          F.Covers base m.stack.tail →
            m' = { m with
              store := (Serve.prepareCall callee args.length m.store).2
              stack := m.stack.tail
              callers := ⟨m.frame, m.stack.tail⟩ :: m.callers }.enter host
              { unit := unit
                closure := target.closure
                receiver := target.receiver
                arguments := args } f → Goes F host base m m'

namespace Fragment

variable {F : Fragment} {base : List Pending} {m m' : Machine} {host : Host}

theorem Goes.of_moved {tasks : List Pending} {control : Control}
    (h : { m with stack := m.below }.Moved tasks control m') (hstk : F.Covers base m.below)
    (ht : ∀ task ∈ tasks, F.task task) (hc : ∀ {e}, control = .eval e → F.code e)
    (hb : ∀ {code}, control = .run code → F.block code)
    (hs : ∀ {stop}, control ≠ .stopped stop)
    (hl : ∀ {w}, control = .leave w → m'.store.pending = true ∨ m.flow = some .leave) :
    F.Goes host base m m' := by
  obtain ⟨store, locals, hsize, rfl⟩ := h
  exact .stays ⟨rfl, locals, hsize, rfl⟩ ⟨hstk.append ht, hc, hb⟩ hs hl

theorem Goes.of_value (h : { m with stack := m.below }.Flows host .value m')
    (hstk : F.Covers base m.below) : F.Goes host base m m' := by
  obtain ⟨control, hh, hm⟩ := h
  refine .of_moved hm hstk (fun _ hmem => absurd hmem List.not_mem_nil) ?_ ?_ ?_ ?_ <;>
  rintro _ rfl
  · rcases hh with ⟨_, h⟩ | ⟨h, _⟩ <;> cases h
  · rcases hh with ⟨_, h⟩ | ⟨h, _⟩ <;> cases h
  · rcases hh with ⟨_, h⟩ | ⟨h, _⟩ <;> cases h
  · rcases hh with ⟨_, h⟩ | ⟨_, hp⟩
    · cases h
    · exact .inl hp

theorem Closed.allows (hF : F.Closed) (h : F.Holds base m) (hbase : m.stack = base → m.below = base)
    {next : Follow} (hn : m.flow = some next)
    (hb : ∀ {i rest}, m.control = .run (i :: rest) →
      F.task i.first.1 ∧ F.task (.rest rest) ∧ F.code i.first.2) : F.Allows next := by
  have htop : ∀ {task stack} (w : Word), m.stack = task :: stack → m.below = stack →
      F.Allows (task.follow w) := by
    intro task stack w hs hbelow
    rcases (hs ▸ h.stack).top with ⟨ht, _⟩ | rfl
    · exact hF.follow w ht
    · exact absurd ((hbase hs).symm.trans hbelow) (List.cons_ne_self _ _)
  unfold Machine.flow at hn
  split at hn
  · next e _ hc =>
    split at hn
    · next task e' hfst =>
      cases hn
      obtain ⟨htask, hcode⟩ := hF.first (h.code hc) hfst
      exact ⟨fun _ hmem => List.mem_singleton.mp hmem ▸ htask, hcode⟩
    · cases hn
      trivial
  · next i rest _ hc =>
    cases hn
    obtain ⟨htask, hr, hcode⟩ := hb hc
    refine ⟨fun task hmem => ?_, hcode⟩
    rcases List.mem_cons.mp hmem with rfl | hmem
    · exact htask
    · exact List.mem_singleton.mp hmem ▸ hr
  · next hc hs =>
    cases hn
    exact htop .nil hs (by rw [Machine.below, hc, hs]; rfl)
  · next w _ _ hc hs =>
    cases hn
    exact htop w hs (by rw [Machine.below, hc, hs]; rfl)
  · cases hn
    trivial
  · cases hn
    trivial
  · cases hn
  · cases hn

theorem Closed.of_operands (hc : ∀ e, F.code e)
    (htask : ∀ {task : Pending}, task.Operand → F.task task)
    (hfol : ∀ {task : Pending} (w : Word), ¬task.Operand → F.task task →
      F.Allows (task.follow w)) : F.Closed where
  first {e e' task} _ hfst := by
    refine ⟨htask ?_, hc e'⟩
    cases e <;> cases hfst <;> trivial
  follow {task} w ht := by
    have hone : ∀ {t : Pending} {e : Code}, t.Operand → F.Allows (.eval [t] e) :=
      fun ht => ⟨fun _ hmem => List.mem_singleton.mp hmem ▸ htask ht, hc _⟩
    have hn : ∀ {e : Code}, F.Allows (.eval [] e) :=
      ⟨fun _ hmem => absurd hmem List.not_mem_nil, hc _⟩
    cases task with
    | leftOperand | setObject | superclass => exact hone trivial
    | logical op right =>
      cases op with
      | and | or =>
        simp only [Pending.follow]
        split
        · first | trivial | exact hn
        · first | trivial | exact hn
    | callee args =>
      cases args with
      | nil => trivial
      | cons => exact hone trivial
    | argument function done others =>
      cases others with
      | nil => trivial
      | cons => exact hone trivial
    | discard | print | defineGlobal | branch | loopTest | addMethod | leave | rest | again =>
      exact hfol w id ht
    | _ => trivial

theorem Closed.step (hF : F.Closed) (host : Host) [host.Attached] (h : F.Holds base m)
    (hbase : m.stack = base → m.below = base) (hg : ∃ next, m.flow = some next)
    (hblock : ∀ {i rest}, m.control = .run (i :: rest) →
      F.task i.first.1 ∧ F.task (.rest rest) ∧ F.code i.first.2) :
    F.Goes host base m (m.step host) := by
  have hb : F.Covers base m.below := by
    by_cases hs : m.stack = base
    · rw [hbase hs]
      exact .nil
    · unfold Machine.below
      split
      · exact h.stack.tail hs
      · exact h.stack.tail hs
      · exact h.stack
  obtain ⟨next, hn⟩ := hg
  have hall := hF.allows h hbase hn hblock
  have hflow : Machine.Flows { m with stack := m.below } host next (m.step host) :=
    Machine.step_flow hn
  cases next with
  | value => exact .of_value hflow hb
  | eval tasks e =>
    refine .of_moved hflow hb hall.1 ?_ nofun nofun nofun
    rintro _ ⟨⟩
    exact hall.2
  | run tasks code =>
    refine .of_moved hflow hb hall.1 nofun ?_ nofun nofun
    rintro _ ⟨⟩
    exact hall.2
  | leave =>
    obtain ⟨w, hm⟩ := hflow
    exact .of_moved hm hb (fun _ hmem => absurd hmem List.not_mem_nil) nofun nofun nofun
      fun _ => .inr hn
  | call callee args =>
    obtain ⟨hact, ht⟩ : m.act host = .call callee args ∧ m.below = m.stack.tail :=
      Machine.act_of_flow hn
    have hc : m.step host = { m with stack := m.below }.call host callee args := hflow
    rw [hc]
    rcases Machine.call_cases host { m with stack := m.below } callee args with
      hval | ⟨target, htgt, hast⟩ | ⟨target, unit, decl, f, htgt, hent, hf, heq⟩
    · exact .of_value (hval.flows host) hb
    · exact .strays htgt hast
    · rw [ht] at hb heq
      rw [ht]
      exact .enters hact htgt hent hf hb heq

end Fragment

end ScriptMachine
