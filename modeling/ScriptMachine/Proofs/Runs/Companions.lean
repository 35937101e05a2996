/-
ScriptMachine.Proofs.Runs.Companions — two machines side by side whose stores
are fitted out differently.
-/
import ScriptMachine.Proofs.Fittings
import ScriptMachine.Proofs.Runs.Acts
import ScriptMachine.Proofs.Runs.Raising

namespace ScriptMachine

/-! ## §1 Companions -/

structure Store.Companions (R E : Store → Store → Prop) : Prop where
  pending : ∀ {s s' : Store}, R s s' → s'.pending = s.pending
  closureCell : ∀ {s s' : Store}, R s s' → s'.closureCell = s.closureCell
  serves : ∀ {s s' : Store}, R s s' → ∀ {α : Type} {routine : Store → α × Store}, Serves routine →
    ((routine s).1 = (routine s').1 ∧ R (routine s).2 (routine s').2) ∨ E s (routine s).2
  enters : ∀ {s s' : Store}, R s s' →
    ((s.maxDepth < s.depth + 1 ↔ s'.maxDepth < s'.depth + 1) ∧ R s.entered s'.entered) ∨
      E s s.entered
  leaves : ∀ {s s' : Store}, R s s' →
    R { s with depth := s.depth - 1 } { s' with depth := s'.depth - 1 }
  since : ∀ {s t u : Store}, t.signals = s.signals → t.printed = s.printed → E t u → E s u
  shows : ∀ {s t u : Store}, t.signals = s.signals → E s t → E s u

def Pending.isAccess : Pending → Bool
  | .getProperty _ _ | .setProperty _ _ _ => true
  | _ => false

theorem Serve.prepareCall_printed (s : Store) (callee : Word) (count : Nat) :
    (Serve.prepareCall callee count s).2.printed = s.printed := by
  refine prepareCall_store (P := (·.printed = s.printed)) count rfl ?_ fun _ h => h
  rcases s.alloc_cases (.ofInstance { classHandle := ⟨callee.payload⟩ }) with ⟨_, h⟩ | ⟨_, h⟩ <;>
    rw [h]

namespace Machine

/-! ## §2 Machines -/

def Beside (R : Store → Store → Prop) (m m' : Machine) : Prop :=
  ∃ s, R m.store s ∧ m' = { m with store := s }

def Parts (R E : Store → Store → Prop) (s : Store) (m m' : Machine) : Prop :=
  Beside R m m' ∨ E s m.store

variable {R E : Store → Store → Prop} {m m' : Machine} {host : Host}

namespace Beside

theorem frame_eq (h : Beside R m m') : m'.frame = m.frame := by
  obtain ⟨_, _, rfl⟩ := h
  rfl

theorem stack_eq (h : Beside R m m') : m'.stack = m.stack := by
  obtain ⟨_, _, rfl⟩ := h
  rfl

theorem control_eq (h : Beside R m m') : m'.control = m.control := by
  obtain ⟨_, _, rfl⟩ := h
  rfl

end Beside

section Steps

variable (C : Store.Companions R E) [host.Attached]
include C

namespace Beside

variable {routine : Store → Word × Store} (h : Beside R m m')

include h

theorem giveUnlessPending (w : Word) :
    Beside R (m.giveUnlessPending w) (m'.giveUnlessPending w) := by
  obtain ⟨s, hs, rfl⟩ := h
  unfold Machine.giveUnlessPending
  rw [C.pending hs]
  split <;> exact ⟨s, hs, rfl⟩

theorem unwind (w : Word) : Beside R (m.unwind w) (m'.unwind w) := by
  obtain ⟨s, hs, rfl⟩ := h
  unfold Machine.unwind
  dsimp only
  split
  · exact ⟨_, C.leaves hs, rfl⟩
  · exact giveUnlessPending C ⟨_, C.leaves hs, rfl⟩ w

theorem cellWord : m'.cellWord host = m.cellWord host := by
  obtain ⟨s, hs, rfl⟩ := h
  funext cell
  cases cell with
  | own index => rfl
  | captured index =>
    show (Machine.serve _ host _).1 = (Machine.serve m host _).1
    rw [serve_attached, serve_attached]
    exact congrFun (congrFun (C.closureCell hs) _) index

theorem serveThen (hr : Serves routine) (next : Word → Machine → Machine)
    (hn : ∀ w {m m' : Machine}, Beside R m m' → Beside R (next w m) (next w m'))
    (hst : ∀ w m, (next w m).store = m.store) :
    Parts R E m.store (next (m.serve host routine).1 (m.serve host routine).2)
      (next (m'.serve host routine).1 (m'.serve host routine).2) := by
  obtain ⟨s, hs, rfl⟩ := h
  rw [serve_attached, serve_attached]
  rcases C.serves hs hr with ⟨hw, hs'⟩ | hend
  · rw [← hw]
    exact .inl (hn _ ⟨_, hs', rfl⟩)
  · right
    rw [hst]
    exact hend

theorem checked (hr : Serves routine) :
    Parts R E m.store (m.checked host routine) (m'.checked host routine) :=
  h.serveThen C hr (fun w m => m.giveUnlessPending w)
    (fun w _ _ hm => hm.giveUnlessPending C w) fun w m => m.store_giveUnlessPending w

theorem gives (hr : Serves routine) (f : Word → Word) :
    Parts R E m.store ((m.serve host routine).2.give (f (m.serve host routine).1))
      ((m'.serve host routine).2.give (f (m'.serve host routine).1)) := by
  refine h.serveThen C hr (fun w m => m.give (f w)) (fun w m m' hm => ?_) fun _ _ => rfl
  obtain ⟨s, hs, rfl⟩ := hm
  exact ⟨s, hs, rfl⟩

theorem completes (hr : Serves routine) :
    Parts R E m.store (m.serve host routine).2.next (m'.serve host routine).2.next := by
  refine h.serveThen C hr (fun _ m => m.next) (fun _ m m' hm => ?_) fun _ _ => rfl
  obtain ⟨s, hs, rfl⟩ := hm
  exact ⟨s, hs, rfl⟩

theorem enter (frame : Frame) (f : Function) :
    Parts R E m.store (m.enter host frame f) (m'.enter host frame f) := by
  obtain ⟨s, hs, rfl⟩ := h
  rcases C.enters hs with ⟨hdeep, hs'⟩ | hend
  · left
    refine ⟨s.entered, by rw [enter_store]; exact hs', ?_⟩
    unfold Machine.enter Store.entered
    by_cases hd : m.store.maxDepth < m.store.depth + 1
    · rw [if_pos hd, if_pos (hdeep.mp hd), serve_attached, serve_attached,
        if_pos (hdeep.mp hd)]
      rfl
    · have hd' := mt hdeep.mpr hd
      rw [if_neg hd, if_neg hd', if_neg hd']
  · right
    rw [enter_store]
    exact hend

theorem callTarget (target : CallTarget) (args : List Word) :
    Parts R E m.store (m.callTarget host target args) (m'.callTarget host target args) := by
  have hg := h.giveUnlessPending C
  unfold Machine.callTarget
  cases target.entry with
  | address n =>
    dsimp only
    obtain ⟨s, hs, rfl⟩ := h
    split <;> exact .inl ⟨s, hs, rfl⟩
  | clock => exact .inl (hg _)
  | construct => exact .inl (hg _)
  | compiled unit declaration =>
    dsimp only
    obtain ⟨s, hs, rfl⟩ := h
    cases unit.function? declaration with
    | none => exact .inl ⟨s, hs, rfl⟩
    | some f =>
      exact enter (m := { m with callers := ⟨m.frame, m.stack⟩ :: m.callers }) C
        ⟨s, hs, rfl⟩ _ f

theorem call (callee : Word) (args : List Word) :
    Parts R E m.store (m.call host callee args) (m'.call host callee args) := by
  obtain ⟨s, hs, rfl⟩ := h
  have hc := (m.store.reports_prepareCall callee args.length).2
  have hprt := Serve.prepareCall_printed m.store callee args.length
  unfold Machine.call
  rw [if_pos host.attached_eq, if_pos host.attached_eq]
  dsimp only
  rcases C.serves hs (.prepareCall callee args.length) with ⟨htgt, hs'⟩ | hend
  · rw [← htgt]
    cases ht : (Serve.prepareCall callee args.length m.store).1 with
    | none => exact .inl ⟨_, hs', rfl⟩
    | some target =>
      exact (callTarget C ⟨_, hs', rfl⟩ target args).imp_right (C.since (hc (by rw [ht]; rfl)) hprt)
  · right
    cases ht : (Serve.prepareCall callee args.length m.store).1 with
    | none => exact hend
    | some target => exact C.shows (hc (by rw [ht]; rfl)) hend

theorem callWith (callee : Word) (done : List Word) (rest : List Code) :
    Parts R E m.store (m.callWith host callee done rest) (m'.callWith host callee done rest) := by
  cases rest with
  | nil => exact h.call C callee done
  | cons e rest =>
    obtain ⟨s, hs, rfl⟩ := h
    exact .inl ⟨s, hs, rfl⟩

/-! ## §3 Steps -/

theorem eval (e : Code) : Parts R E m.store (m.eval host e) (m'.eval host e) := by
  have hc : m'.cellWord host = m.cellWord host := h.cellWord C
  have hfr := h.frame_eq
  cases e with
  | readCell cell =>
    simp only [Machine.eval, hc]
    exact h.gives C (.cellGet _) id
  | readGlobal slot => exact h.checked C (.globalGet slot)
  | closure declaration prototype cells =>
    simp only [Machine.eval, hc, hfr]
    exact h.checked C (.makeClosure prototype _ _)
  | newClass name superclass =>
    simp only [Machine.eval, hfr]
    exact h.checked C (.newClass name _)
  | constant | receiver | argument | readVariable | assignVariable | newCell | assignCell
  | assignGlobal | negate | not | binary | logical | call | getProperty | setProperty
  | getSuper =>
    obtain ⟨s, hs, rfl⟩ := h
    exact .inl ⟨s, hs, rfl⟩

theorem negate (w : Word) : Parts R E m.store (m.negate host w) (m'.negate host w) := by
  unfold Machine.negate
  split
  · obtain ⟨s, hs, rfl⟩ := h
    exact .inl ⟨s, hs, rfl⟩
  · exact h.checked C (.negate w)

theorem binary (op : BinaryOp) (left right : Word) :
    Parts R E m.store (m.binary host op left right) (m'.binary host op left right) := by
  unfold Machine.binary
  split
  · obtain ⟨s, hs, rfl⟩ := h
    exact .inl ⟨s, hs, rfl⟩
  · cases op with
    | equal => exact h.gives C (.valuesEqual left right) id
    | notEqual => exact h.gives C (.valuesEqual left right) fun w => ⟨w.bits ^^^ 1⟩
    | add | subtract | multiply | divide | less | lessEqual | greater | greaterEqual =>
      exact h.checked C (.binary _ left right)

theorem receive (w : Word) {task : Pending} (hacc : task.isAccess = false) :
    Parts R E m.store (m.receive host w task) (m'.receive host w task) := by
  have hc : m'.cellWord host = m.cellWord host := h.cellWord C
  have hfr := h.frame_eq
  cases task with
  | newCell => exact h.checked C (.newCell w)
  | assignCell cell =>
    simp only [Machine.receive, hc]
    exact h.gives C (.cellSet _ w) fun _ => w
  | assignGlobal slot =>
    exact h.serveThen C (.globalSet slot w) (fun _ m => m.giveUnlessPending w)
      (fun _ _ _ hm => hm.giveUnlessPending C w) fun _ m => m.store_giveUnlessPending w
  | negate => exact h.negate C w
  | rightOperand op left => exact h.binary C op left w
  | logical op right =>
    obtain ⟨s, hs, rfl⟩ := h
    cases op with
    | and | or =>
      dsimp only [Machine.receive]
      split <;> exact .inl ⟨s, hs, rfl⟩
  | callee args => exact h.callWith C w [] args
  | argument callee done rest => exact h.callWith C callee (done ++ [w]) rest
  | superReceiver superclass name => exact h.checked C (.getSuper superclass w name)
  | print => exact h.completes C (.print w)
  | defineGlobal slot => exact h.completes C (.globalDefine slot w)
  | addMethod classVariable name =>
    simp only [Machine.receive, hfr]
    exact h.completes C (.addMethod _ name w)
  | loopTest condition body =>
    obtain ⟨s, hs, rfl⟩ := h
    dsimp only [Machine.receive]
    split <;> exact .inl ⟨s, hs, rfl⟩
  | getProperty | setProperty => cases hacc
  | assignVariable | not | leftOperand | setObject | superclass | discard | branch | leave | rest
  | again =>
    obtain ⟨s, hs, rfl⟩ := h
    exact .inl ⟨s, hs, rfl⟩

theorem step (hacc : ∀ {w task stack}, m.stack = task :: stack → m.Offers w →
      task.isAccess = true → Parts R E m.store ({ m with stack := stack }.receive host w task)
        ({ m' with stack := stack }.receive host w task)) :
    Parts R E m.store (m.step host) (m'.step host) := by
  have hoff : ∀ {w}, m.Offers w → m'.Offers w := fun hc => by rwa [Offers, h.control_eq]
  cases m.turn with
  | stopped hc =>
    rw [step_stopped hc, step_stopped (h.control_eq.trans hc)]
    exact .inl h
  | leaves hc =>
    rw [step_leave hc, step_leave (h.control_eq.trans hc)]
    exact .inl (h.unwind C _)
  | @executes i rest hc =>
    rw [step_run_cons hc, step_run_cons (h.control_eq.trans hc)]
    obtain ⟨s, hs, rfl⟩ := h
    cases i <;> exact .inl ⟨s, hs, rfl⟩
  | evaluates hc =>
    rw [step_eval hc, step_eval (h.control_eq.trans hc)]
    exact h.eval C _
  | ends hs hc =>
    rw [step_ends hs hc, step_ends (h.stack_eq.trans hs) (hoff hc)]
    obtain ⟨s, hr, rfl⟩ := h
    exact .inl ⟨s, hr, rfl⟩
  | @receives w task stack hs hc =>
    rw [step_receives hs hc, step_receives (h.stack_eq.trans hs) (hoff hc)]
    cases hk : task.isAccess with
    | true => exact hacc hs hc hk
    | false =>
      obtain ⟨s, hr, rfl⟩ := h
      exact receive (m := { m with stack := stack }) C ⟨s, hr, rfl⟩ w hk

end Beside

end Steps

end Machine

end ScriptMachine
