/-
ScriptMachine.Proofs.Runs.Typed — running typed code stays within typed code.
-/
import ScriptMachine.Proofs.Evolution
import ScriptMachine.Proofs.Runs.Operators
import ScriptMachine.Proofs.Typing

namespace ScriptMachine

/-! ## §1 Tasks -/

variable {K : Known} {o : Object}

inductive Mode where
  | value
  | cell
  | closure
  | done
deriving DecidableEq

structure Discipline where
  Keeps : Store → Prop
  Fits : Heap → Mode → Word → Prop
  Boxes : Heap → Word → Prop

def Code.Yields (T : Scheme) (e : Code) : Mode → Prop
  | .value => e.Typed T
  | .cell => e.TypedCell T ∨ e.TypedBox T
  | .closure => e.TypedClosure T
  | .done => False

inductive Pending.Awaits (D : Discipline) (heap : Heap) (T : Scheme) :
    Mode → Pending → Mode → Prop
  | assignVariable {i : Nat} : ¬T.boxed i → Awaits D heap T .value (.assignVariable i) .value
  | assignCellVariable {i : Nat} : T.boxed i → Awaits D heap T .cell (.assignVariable i) .cell
  | newCell : Awaits D heap T .value .newCell .cell
  | assignCell {c : CellRef} : T.Cell c → Awaits D heap T .value (.assignCell c) .value
  | assignGlobal {slot : Nat} : Awaits D heap T .value (.assignGlobal slot) .value
  | negate : Awaits D heap T .value .negate .value
  | not : Awaits D heap T .value .not .value
  | leftOperand {op : BinaryOp} {right : Code} : right.Typed T →
      Awaits D heap T .value (.leftOperand op right) .value
  | rightOperand {op : BinaryOp} {left : Word} : D.Fits heap .value left →
      Awaits D heap T .value (.rightOperand op left) .value
  | logical {op : LogicalOp} {right : Code} : right.Typed T →
      Awaits D heap T .value (.logical op right) .value
  | callee {args : List Code} : typedArguments T args → Awaits D heap T .value (.callee args) .value
  | argument {callee : Word} {done : List Word} {rest : List Code} : D.Fits heap .value callee →
      (∀ w ∈ done, D.Fits heap .value w) → typedArguments T rest →
        Awaits D heap T .value (.argument callee done rest) .value
  | getProperty {name : Symbol} {site : Nat} : T.site site .get name →
      Awaits D heap T .value (.getProperty name site) .value
  | setObject {name : Symbol} {value : Code} {site : Nat} : value.Typed T → T.site site .set name →
      Awaits D heap T .value (.setObject name value site) .value
  | setProperty {object : Word} {name : Symbol} {site : Nat} : D.Fits heap .value object →
      T.site site .set name → Awaits D heap T .value (.setProperty object name site) .value
  | superclass {self : Code} {name : Symbol} : self.Typed T →
      Awaits D heap T .value (.superclass self name) .value
  | superReceiver {sup : Word} {name : Symbol} : D.Fits heap .value sup →
      Awaits D heap T .value (.superReceiver sup name) .value
  | discard : Awaits D heap T .value .discard .done
  | discardCell : Awaits D heap T .cell .discard .done
  | print : Awaits D heap T .value .print .done
  | defineGlobal {slot : Nat} : Awaits D heap T .value (.defineGlobal slot) .done
  | branch {yes no : List Instr} : typedCode T yes → typedCode T no →
      Awaits D heap T .value (.branch yes no) .done
  | loopTest {cond : Code} {body : List Instr} : cond.Typed T → typedCode T body →
      Awaits D heap T .value (.loopTest cond body) .done
  | addMethod {v : Nat} {name : Symbol} : ¬T.boxed v →
      Awaits D heap T .closure (.addMethod v name) .done
  | leave : Awaits D heap T .value .leave .done
  | rest {code : List Instr} : typedCode T code → Awaits D heap T .done (.rest code) .done
  | again {cond : Code} {body : List Instr} : cond.Typed T → typedCode T body →
      Awaits D heap T .done (.again cond body) .done

def typedStack (D : Discipline) (heap : Heap) (T : Scheme) (mode : Mode) : List Pending → Prop
  | [] => mode = .value ∨ mode = .done
  | task :: rest => ∃ next, task.Awaits D heap T mode next ∧ typedStack D heap T next rest

/-! ## §2 Machines -/

def Object.Typed (K : Known) : Object → Prop
  | .closure c => ∃ unit decl, c.entry = .compiled unit decl ∧ unit.Typed K decl c.cells.size
  | .native n => n.entry = .clock
  | _ => True

def Heap.Typed (K : Known) (heap : Heap) : Prop :=
  ∀ (i : Nat) (o : Object), heap.objects[i]? = some o → o.Typed K

theorem Object.Typed.becomes {o' : Object} (h : o.Typed K) (hb : o.Becomes o') : o'.Typed K := by
  cases hb with
  | same => exact h
  | cell | ofClass | ofInstance => trivial

theorem Heap.Typed.evolves {h h' : Heap} (ht : h.Typed K) (he : h.Evolves (Object.Typed K) h') :
    h'.Typed K := by
  intro i o ho
  rcases he.added ho with ⟨o0, ho0, hb⟩ | hf
  · exact (ht i o0 ho0).becomes hb
  · exact hf

theorem Heap.Typed.deref? {heap : Heap} (ht : heap.Typed K) {w : Word}
    (h : heap.deref? w = some o) : o.Typed K :=
  ht _ o (Heap.getElem?_objectIndex h)

def Frame.Calls (heap : Heap) (frame : Frame) (decl cells : Nat) : Prop :=
  (∃ c, heap.deref? frame.closure = some (.closure c) ∧
      c.entry = .compiled frame.unit decl ∧ c.cells.size = cells) ∨
    (frame.closure = .nil ∧ decl = 0 ∧ cells = 0)

structure Frame.Relies (K : Known) (D : Discipline) (heap : Heap) (frame : Frame) (T : Scheme) :
    Prop where
  function : ∃ decl cells f, frame.Calls heap decl cells ∧
    frame.unit.function? decl = some f ∧ T = K.scheme T.closure f.body cells
  closure : ∀ {d n}, T.closure d n → frame.unit.Typed K d n
  receiver : D.Fits heap .value frame.receiver
  arguments : ∀ w ∈ frame.arguments, D.Fits heap .value w
  values : ∀ {i : Nat} {w : Word}, frame.locals[i]? = some w → ¬T.boxed i → D.Fits heap .value w
  boxes : ∀ {i : Nat} {w : Word}, frame.locals[i]? = some w → T.boxed i → D.Boxes heap w

def Caller.Typed (K : Known) (D : Discipline) (heap : Heap) (caller : Caller) : Prop :=
  ∃ T, caller.frame.Relies K D heap T ∧ typedStack D heap T .value caller.stack

namespace Machine

structure Base (K : Known) (D : Discipline) (T : Scheme) (m : Machine) : Prop where
  heap : m.store.heap.Typed K
  store : D.Keeps m.store
  frame : m.frame.Relies K D m.store.heap T
  callers : ∀ caller ∈ m.callers, caller.Typed K D m.store.heap

structure Active (K : Known) (D : Discipline) (T : Scheme) (m : Machine) : Prop
    extends Base K D T m where
  calm : m.store.pending = false

def Awaits (D : Discipline) (T : Scheme) (m : Machine) (mode : Mode) : Prop :=
  typedStack D m.store.heap T mode m.stack

def Proceeds (D : Discipline) (T : Scheme) (m : Machine) : Prop :=
  match m.control with
  | .run code => m.store.pending = false ∧ typedCode T code ∧ m.Awaits D T .done
  | .eval e => m.store.pending = false ∧ ∃ mode, e.Yields T mode ∧ m.Awaits D T mode
  | .give w => m.store.pending = false ∧
      ∃ mode, mode ≠ .done ∧ D.Fits m.store.heap mode w ∧ m.Awaits D T mode
  | .leave w => D.Fits m.store.heap .value w ∧ ∃ mode, m.Awaits D T mode
  | .stopped stop => ∃ w, stop = .returned w ∧ D.Fits m.store.heap .value w ∧
      ∃ mode, m.Awaits D T mode

def Typed (K : Known) (D : Discipline) (m : Machine) : Prop :=
  ∃ T, m.Base K D T ∧ m.Proceeds D T

end Machine

/-! ## §3 Laws -/

structure Discipline.Serves (D : Discipline) (mode : Mode) (r : Word × Store) : Prop where
  keeps : D.Keeps r.2
  fits : r.2.pending = false → D.Fits r.2.heap mode r.1

structure Discipline.Lawful (D : Discipline) (K : Known) (host : Host) : Prop where
  attached : host.attached = true
  evolves : ∀ {fresh h h' mode w}, h.Evolves fresh h' → D.Fits h mode w → D.Fits h' mode w
  boxes_evolves : ∀ {fresh h h' w}, h.Evolves fresh h' → D.Boxes h w → D.Boxes h' w
  -- words that fit everywhere
  done : ∀ {h w}, D.Fits h .done w
  nil : ∀ {h}, D.Fits h .value .nil
  zero : ∀ {h}, D.Fits h .value .zero
  truth : ∀ {h b}, D.Fits h .value (.ofBool b)
  now : ∀ {h}, D.Fits h .value host.now
  arithmetic : ∀ {h op} {left right : Word}, D.Fits h .value (arithmetic op left.bits right.bits)
  flipSign : ∀ {h} {w : Word}, w.isPlain = true → D.Fits h .value w →
    D.Fits h .value ⟨Number.flipSign w.bits⟩
  constant : ∀ {s w}, D.Keeps s → K.constant w → D.Fits s.heap .value w
  closure_value : ∀ {h w}, D.Fits h .closure w → D.Fits h .value w
  cell_boxes : ∀ {h w}, D.Fits h .cell w → D.Boxes h w
  zero_boxes : ∀ {h}, D.Boxes h .zero
  -- routines
  depth : ∀ {s} depth, D.Keeps s → D.Keeps { s with depth := depth }
  raise : ∀ {s} e, D.Keeps s → D.Keeps (s.raise e)
  print : ∀ {s w}, D.Keeps s → D.Keeps (Serve.print w s).2
  binary : ∀ {s op left right}, D.Keeps s → D.Serves .value (Serve.binary op left right s)
  negate : ∀ {s w}, D.Keeps s → D.Serves .value (Serve.negate w s)
  globalGet : ∀ {s slot}, D.Keeps s → D.Serves .value (Serve.globalGet slot s)
  globalSet : ∀ {s slot w}, D.Keeps s → D.Fits s.heap .value w →
    D.Keeps (Serve.globalSet slot w s).2
  globalDefine : ∀ {s slot w}, D.Keeps s → D.Fits s.heap .value w →
    D.Keeps (Serve.globalDefine slot w s).2
  newCell : ∀ {s w}, D.Keeps s → D.Fits s.heap .value w → D.Serves .cell (Serve.newCell w s)
  cellGet : ∀ {s c}, D.Keeps s → D.Boxes s.heap c → D.Fits s.heap .value (s.cellValue c)
  cellSet : ∀ {s c w}, D.Keeps s → D.Boxes s.heap c → D.Fits s.heap .value w →
    D.Keeps (Serve.cellSet c w s).2
  closureCell : ∀ {s w c} {i : Nat} {v : Word}, D.Keeps s →
    s.heap.deref? w = some (.closure c) → c.cells[i]? = some v → D.Boxes s.heap v
  makeClosure : ∀ {s proto entry} {cells : Array Word}, D.Keeps s →
    (∀ c ∈ cells, D.Boxes s.heap c) → D.Serves .closure (Serve.makeClosure proto entry cells s)
  prepareCall : ∀ {s callee count}, D.Keeps s → D.Fits s.heap .value callee →
    D.Keeps (Serve.prepareCall callee count s).2 ∧
      ∀ {target}, (Serve.prepareCall callee count s).1 = some target →
        D.Fits (Serve.prepareCall callee count s).2.heap .value target.receiver
  getProperty : ∀ {s object name site}, D.Keeps s → K.site site .get name →
    D.Fits s.heap .value object → D.Serves .value (Serve.getProperty object name site s)
  getCached : ∀ {s object site i slot}, D.Keeps s → s.cached? object site = some (i, slot) →
    D.Keeps (s.getCached i slot site).2 ∧ D.Fits s.heap .value (s.getCached i slot site).1
  setProperty : ∀ {s object name w site}, D.Keeps s → K.site site .set name →
    D.Fits s.heap .value w → D.Serves .value (Serve.setProperty object name w site s)
  setCached : ∀ {s object w site i slot}, D.Keeps s → s.cached? object site = some (i, slot) →
    D.Fits s.heap .value w → D.Keeps (s.setCached object i slot w site)
  newClass : ∀ {s name sup}, D.Keeps s →
    D.Serves .value (Serve.newClass name sup s)
  addMethod : ∀ {s w name method}, D.Keeps s → D.Fits s.heap .closure method →
    D.Keeps (Serve.addMethod w name method s).2
  getSuper : ∀ {s sup receiver name}, D.Keeps s → D.Fits s.heap .value receiver →
    D.Serves .value (Serve.getSuper sup receiver name s)

section Evolution

variable {K : Known} {D : Discipline} {host : Host} {fresh : Object → Prop} {heap heap' : Heap}
  {T : Scheme} {mode : Mode} {frame : Frame}

theorem Frame.Calls.evolves {d n : Nat} (h : frame.Calls heap d n) (he : heap.Evolves fresh heap') :
    frame.Calls heap' d n := by
  rcases h with ⟨c, hc, hr⟩ | h
  · exact .inl ⟨c, he.deref?_closure hc, hr⟩
  · exact .inr h

variable (L : D.Lawful K host) (he : heap.Evolves fresh heap')

include L he

theorem Pending.Awaits.evolves {task : Pending} {next : Mode} (h : task.Awaits D heap T mode next) :
    task.Awaits D heap' T mode next := by
  cases h with
  | rightOperand hl => exact .rightOperand (L.evolves he hl)
  | argument hc hd hr => exact .argument (L.evolves he hc) (fun w hw => L.evolves he (hd w hw)) hr
  | setProperty ho hs => exact .setProperty (L.evolves he ho) hs
  | superReceiver hs => exact .superReceiver (L.evolves he hs)
  | _ => constructor <;> assumption

theorem typedStack.evolves {stack : List Pending} (h : typedStack D heap T mode stack) :
    typedStack D heap' T mode stack := by
  induction stack generalizing mode with
  | nil => exact h
  | cons task rest ih =>
    obtain ⟨next, ht, hs⟩ := h
    exact ⟨next, ht.evolves L he, ih hs⟩

theorem Frame.Relies.evolves (h : frame.Relies K D heap T) : frame.Relies K D heap' T where
  function := by
    obtain ⟨d, n, f, hc, hr⟩ := h.function
    exact ⟨d, n, f, hc.evolves he, hr⟩
  closure := h.closure
  receiver := L.evolves he h.receiver
  arguments w hw := L.evolves he (h.arguments w hw)
  values hi hb := L.evolves he (h.values hi hb)
  boxes hi hb := L.boxes_evolves he (h.boxes hi hb)

theorem Caller.Typed.evolves {caller : Caller} (h : caller.Typed K D heap) :
    caller.Typed K D heap' := by
  obtain ⟨T, hf, hs⟩ := h
  exact ⟨T, hf.evolves L he, hs.evolves L he⟩

end Evolution

namespace Frame.Relies

variable {K : Known} {D : Discipline} {host : Host} {heap : Heap} {frame : Frame} {T : Scheme}
  {index : Nat}

section

variable (L : D.Lawful K host) (h : frame.Relies K D heap T)

include L h

theorem value (hb : ¬T.boxed index) : D.Fits heap .value (frame.value index) := by
  unfold Frame.value
  cases hi : frame.locals[index]? with
  | none => exact L.zero
  | some w => exact h.values hi hb

theorem box (hb : T.boxed index) : D.Boxes heap (frame.value index) := by
  unfold Frame.value
  cases hi : frame.locals[index]? with
  | none => exact L.zero_boxes
  | some w => exact h.boxes hi hb

theorem argument (index : Nat) : D.Fits heap .value (frame.arguments[index]?.getD .zero) := by
  cases hi : frame.arguments[index]? with
  | none => exact L.zero
  | some w => exact h.arguments w (List.mem_of_getElem? hi)

end

theorem setVariable (h : frame.Relies K D heap T) {w : Word}
    (hv : ¬T.boxed index → D.Fits heap .value w) (hb : T.boxed index → D.Boxes heap w) :
    (frame.setVariable index w).Relies K D heap T := by
  refine { h with values := ?_, boxes := ?_ }
  · intro i v hi hnot
    rcases getElem?_setIfInBounds_cases hi with hi | ⟨rfl, rfl⟩
    · exact h.values hi hnot
    · exact hv hnot
  · intro i v hi hbox
    rcases getElem?_setIfInBounds_cases hi with hi | ⟨rfl, rfl⟩
    · exact h.boxes hi hbox
    · exact hb hbox

end Frame.Relies

/-! ## §4 Moving on -/

namespace Machine

variable {K : Known} {D : Discipline} {T : Scheme} {m : Machine} {host : Host}

namespace Base

variable {mode : Mode} {w : Word}

theorem congr {m' : Machine} (h : m.Base K D T) (hs : m'.store = m.store)
    (hf : m'.frame = m.frame) (hc : m'.callers = m.callers) : m'.Base K D T where
  heap := hs ▸ h.heap
  store := hs ▸ h.store
  frame := by
    rw [hs, hf]
    exact h.frame
  callers := by
    rw [hs, hc]
    exact h.callers

theorem evolves (L : D.Lawful K host) {s : Store} (h : m.Base K D T)
    (he : m.store.heap.Evolves (Object.Typed K) s.heap) (hk : D.Keeps s) :
    Base K D T { m with store := s } where
  heap := h.heap.evolves he
  store := hk
  frame := h.frame.evolves L he
  callers caller hmem := (h.callers caller hmem).evolves L he

theorem leave (h : m.Base K D T) (hs : m.Awaits D T mode) (hw : D.Fits m.store.heap .value w) :
    (m.leave w).Typed K D :=
  ⟨T, h.congr rfl rfl rfl, hw, mode, hs⟩

theorem giveUnlessPending (L : D.Lawful K host) (h : m.Base K D T) (hm : mode ≠ .done)
    (hs : m.Awaits D T mode) (hw : m.store.pending = false → D.Fits m.store.heap mode w) :
    (m.giveUnlessPending w).Typed K D := by
  unfold Machine.giveUnlessPending
  split
  · exact h.leave hs L.nil
  · next hp =>
    have hp := Bool.eq_false_iff.mpr hp
    exact ⟨T, h.congr rfl rfl rfl, hp, mode, hm, hw hp, hs⟩

theorem cellWord (L : D.Lawful K host) (h : m.Base K D T) {c : CellRef} (hc : T.Cell c) :
    D.Boxes m.store.heap (m.cellWord host c) := by
  cases c with
  | own index => exact h.frame.box L hc
  | captured position =>
    show D.Boxes _ (m.serve host _).1
    have := Host.Attached.mk L.attached
    rw [serve_attached]
    obtain ⟨d, n, f, hcalls, _, hT⟩ := h.frame.function
    have hlt : position < n := by
      rw [hT] at hc
      exact hc
    rcases hcalls with ⟨c, hd, _, hsize⟩ | ⟨_, _, rfl⟩
    · rw [← hsize] at hlt
      show D.Boxes _ (m.store.closureCell m.frame.closure position)
      simp only [Store.closureCell, hd, Array.getElem?_eq_getElem hlt, Option.getD_some]
      exact L.closureCell h.store hd (Array.getElem?_eq_getElem hlt)
    · exact absurd hlt (Nat.not_lt_zero _)

end Base

namespace Active

variable {w : Word} {mode : Mode} {e : Code} {routine : Store → Word × Store}

section

variable (h : m.Active K D T)

include h

theorem setVariable {index : Nat} (hv : ¬T.boxed index → D.Fits m.store.heap .value w)
    (hb : T.boxed index → D.Boxes m.store.heap w) :
    Active K D T { m with frame := m.frame.setVariable index w } :=
  { h with frame := h.frame.setVariable hv hb }

theorem giveAs (hm : mode ≠ .done) (hs : m.Awaits D T mode)
    (hw : D.Fits m.store.heap mode w) : (m.give w).Typed K D :=
  ⟨T, h.toBase.congr rfl rfl rfl, h.calm, mode, hm, hw, hs⟩

theorem give (hs : m.Awaits D T .value) (hw : D.Fits m.store.heap .value w) :
    (m.give w).Typed K D :=
  h.giveAs (by decide) hs hw

theorem next (hs : m.Awaits D T .done) : m.next.Typed K D :=
  ⟨T, h.toBase.congr rfl rfl rfl, h.calm, trivial, hs⟩

theorem evalFor {task : Pending} {next : Mode} (he : e.Yields T mode)
    (ht : task.Awaits D m.store.heap T mode next) (hs : m.Awaits D T next) :
    (m.evalFor task e).Typed K D :=
  ⟨T, h.toBase.congr rfl rfl rfl, h.calm, mode, he, next, ht, hs⟩

theorem operand {task : Pending} {next : Mode} (he : e.Typed T)
    (ht : task.Awaits D m.store.heap T .value next) (hs : m.Awaits D T next) :
    (m.evalFor task e).Typed K D :=
  h.evalFor (show e.Yields T .value from he) ht hs

theorem run {code : List Instr} (hc : typedCode T code)
    (hs : m.Awaits D T .done) : Machine.Typed K D { m with control := .run code } :=
  ⟨T, h.toBase.congr rfl rfl rfl, h.calm, hc, hs⟩

theorem eval (he : e.Yields T mode) (hs : m.Awaits D T mode) :
    Machine.Typed K D { m with control := .eval e } :=
  ⟨T, h.toBase.congr rfl rfl rfl, h.calm, mode, he, hs⟩

end

theorem served (L : D.Lawful K host) (h : m.Active K D T)
    (he : m.store.Evolves (Object.Typed K) (routine m.store).2) (hk : D.Keeps (routine m.store).2)
    (hp : (routine m.store).2.pending = m.store.pending) (hs : m.Awaits D T mode) :
    (m.serve host routine).2.Active K D T ∧ (m.serve host routine).2.Awaits D T mode ∧
      ∀ {mode w}, D.Fits m.store.heap mode w →
        D.Fits (m.serve host routine).2.store.heap mode w := by
  have := Host.Attached.mk L.attached
  rw [serve_attached]
  exact ⟨⟨h.evolves L he.heap hk, hp.trans h.calm⟩, hs.evolves L he.heap, L.evolves he.heap⟩

theorem checkedAs (L : D.Lawful K host) (h : m.Active K D T)
    (he : m.store.Evolves (Object.Typed K) (routine m.store).2) (hm : mode ≠ .done)
    (hs : m.Awaits D T mode) (hr : D.Serves mode (routine m.store)) :
    (m.checked host routine).Typed K D := by
  unfold Machine.checked
  have := Host.Attached.mk L.attached
  rw [serve_attached]
  exact (h.evolves L he.heap hr.keeps).giveUnlessPending L hm (hs.evolves L he.heap) hr.fits

theorem checked (L : D.Lawful K host) (h : m.Active K D T)
    (he : m.store.Evolves (Object.Typed K) (routine m.store).2) (hs : m.Awaits D T .value)
    (hr : D.Serves .value (routine m.store)) : (m.checked host routine).Typed K D :=
  h.checkedAs L he (by decide) hs hr

end Active

end Machine

/-! ## §5 Calls -/

namespace Store

variable {s : Store} {count : Nat} {target : CallTarget}

theorem prepareCall_target {s' : Store} {callee : Word} (ht : s.heap.Typed K)
    (h : s.prepareCall callee count = (.ok target, s')) :
    target.entry = .clock ∨ target.entry = .construct ∨
      ∃ c, s'.heap.deref? target.closure = some (.closure c) ∧ c.entry = target.entry := by
  cases prepareCall_prepared h with
  | closure hc | bound _ hc | initialized _ _ _ hc => exact .inr (.inr ⟨_, hc, rfl⟩)
  | native hn => exact .inl (ht.deref? hn)
  | plain => exact .inr (.inl rfl)

end Store

theorem Serve.prepareCall_eq_some {callee : Word} {count : Nat} {s : Store} {target : CallTarget}
    (h : (Serve.prepareCall callee count s).1 = some target) :
    s.prepareCall callee count = (.ok target, (Serve.prepareCall callee count s).2) := by
  unfold Serve.prepareCall at h ⊢
  cases hp : s.prepareCall callee count with
  | mk result s' =>
    rw [hp] at h
    cases result with
    | error e => cases h
    | ok t =>
      cases h
      rfl

theorem Store.print_pending (s : Store) (w : Word) : (s.print w).pending = s.pending := by
  unfold Store.print
  split <;> rfl

theorem Store.addMethod_pending (s : Store) (w : Word) (name : Symbol) (method : Word) :
    (s.addMethod w name method).pending = s.pending := by
  unfold Store.addMethod
  split <;> rfl

theorem Store.alloc_pending (s : Store) (o : Object) : (s.alloc o).2.pending = s.pending := by
  rcases s.alloc_cases o with ⟨_, h⟩ | ⟨_, h⟩ <;> rw [h]

theorem Store.prepareCall_pending (s : Store) (callee : Word) (count : Nat) :
    (s.prepareCall callee count).2.pending = s.pending :=
  prepareCall_store (P := (·.pending = s.pending)) count rfl (s.alloc_pending _)

namespace Machine

variable {K : Known} {D : Discipline} {T : Scheme} {m : Machine} {host : Host} {f : Function}
  {callee w : Word} {mode : Mode} {e : Code} {name : Symbol} {site : Nat}

theorem exec_typed (h : m.Active K D T) {i : Instr} (hi : i.Typed T)
    (hs : m.Awaits D T .done) : (m.exec i).Typed K D := by
  cases i with
  | evaluate e =>
    rcases hi with he | he
    · exact h.operand he .discard hs
    · exact h.evalFor (show e.Yields T .cell from .inr he) .discardCell hs
  | print e => exact h.operand hi .print hs
  | defineGlobal slot e => exact h.operand hi .defineGlobal hs
  | branch cond yes no =>
    exact h.operand hi.1 (.branch hi.2.1 hi.2.2) hs
  | loop cond body =>
    exact h.operand hi.1 (.loopTest hi.1 hi.2) hs
  | addMethod v name method =>
    exact h.evalFor (show method.Yields T .closure from hi.2) (.addMethod hi.1) hs
  | leave e => exact h.operand hi .leave hs

theorem Typed.stop?_cases (h : m.Typed K D) :
    m.stop? = none ∨ ∃ w, m.stop? = some (.returned w) := by
  obtain ⟨T, _, hp⟩ := h
  unfold Proceeds at hp
  unfold stop?
  cases hc : m.control with
  | stopped stop =>
    rw [hc] at hp
    obtain ⟨w, rfl, _⟩ := hp
    exact .inr ⟨w, rfl⟩
  | run | eval | give | leave => exact .inl rfl

section Lawful

variable (L : D.Lawful K host)

include L

theorem enter_typed {frame : Frame} {d n : Nat} (hh : m.store.heap.Typed K)
    (hst : D.Keeps m.store) (hcalm : m.store.pending = false)
    (hcalls : frame.Calls m.store.heap d n) (ht : frame.unit.Typed K d n)
    (hf : frame.unit.function? d = some f) (hr : D.Fits m.store.heap .value frame.receiver)
    (ha : ∀ w ∈ frame.arguments, D.Fits m.store.heap .value w)
    (hcs : ∀ caller ∈ m.callers, caller.Typed K D m.store.heap) :
    (m.enter host frame f).Typed K D := by
  obtain ⟨closure, hd, hall⟩ := ht
  obtain ⟨f', hf', hbody⟩ := hall hd
  obtain rfl : f = f' := by
    rw [hf] at hf'
    exact Option.some.inj hf'
  -- the variables of the new frame all hold the word 0
  have hloc : ∀ {i : Nat} {w : Word},
      (Array.replicate f.locals Word.zero)[i]? = some w → w = .zero := by
    intro i w hi
    rw [Array.getElem?_replicate] at hi
    split at hi
    · exact (Option.some.inj hi).symm
    · cases hi
  have hfr : Frame.Relies K D m.store.heap
      { frame with locals := Array.replicate f.locals .zero } (K.scheme closure f.body n) :=
    { function := ⟨d, n, f, hcalls, hf, rfl⟩
      closure := fun hc => ⟨closure, hc, hall⟩
      receiver := hr
      arguments := ha
      values := fun hi _ => hloc hi ▸ L.zero
      boxes := fun hi _ => hloc hi ▸ L.zero_boxes }
  unfold enter
  dsimp only
  have := Host.Attached.mk L.attached
  rw [serve_attached]
  split
  · have hb : Base K D (K.scheme closure f.body n) { m with
        store := (Serve.stackOverflow { m.store with depth := m.store.depth + 1 }).2
        frame := { frame with locals := Array.replicate f.locals .zero }
        stack := [] } :=
      ⟨hh, L.raise _ (L.depth _ hst), hfr, hcs⟩
    exact hb.leave (show typedStack D _ _ .value [] from .inl rfl) L.nil
  · exact ⟨_, ⟨hh, L.depth _ hst, hfr, hcs⟩, hcalm, hbody, .inr rfl⟩

section

variable (h : m.Active K D T) (hs : m.Awaits D T .value)

include h hs

theorem callTarget_typed
    {target : CallTarget} (htgt : target.entry = .clock ∨ target.entry = .construct ∨
      ∃ c, m.store.heap.deref? target.closure = some (.closure c) ∧ c.entry = target.entry)
    (hr : D.Fits m.store.heap .value target.receiver) {args : List Word}
    (ha : ∀ w ∈ args, D.Fits m.store.heap .value w) :
    (m.callTarget host target args).Typed K D := by
  unfold callTarget
  rcases htgt with he | he | ⟨c, hc, he⟩
  · rw [he]
    exact h.toBase.giveUnlessPending L (by decide) hs fun _ => L.now
  · rw [he]
    exact h.toBase.giveUnlessPending L (by decide) hs fun _ => hr
  · obtain ⟨unit, d, hent, ht⟩ := h.heap.deref? hc
    rw [← he, hent]
    obtain ⟨closure, hd, hall⟩ := ht
    obtain ⟨f, hf, _⟩ := hall hd
    dsimp only
    rw [hf]
    refine enter_typed L h.heap h.store h.calm (.inl ⟨c, hc, hent, rfl⟩) ⟨closure, hd, hall⟩ hf
      hr ha ?_
    intro caller hmem
    rcases List.mem_cons.mp hmem with rfl | hmem
    · exact ⟨T, h.frame, hs⟩
    · exact h.callers caller hmem

theorem call_typed (hfn : D.Fits m.store.heap .value callee) {args : List Word}
    (ha : ∀ w ∈ args, D.Fits m.store.heap .value w) :
    (m.call host callee args).Typed K D := by
  unfold call
  rw [if_pos L.attached]
  have hev : m.store.Evolves (Object.Typed K) (Serve.prepareCall callee args.length m.store).2 :=
    (Serve.evolves_prepareCall callee args.length).mono fun ⟨_, ho⟩ => ho ▸ trivial
  obtain ⟨hk, hr⟩ := L.prepareCall h.store hfn
  have hb := h.evolves L hev.heap hk
  dsimp only
  split
  · next target htgt =>
    have htgt' := Serve.prepareCall_eq_some htgt
    have hc := m.store.prepareCall_pending callee args.length
    rw [htgt', h.calm] at hc
    exact callTarget_typed L ⟨hb, hc⟩ (hs.evolves L hev.heap)
      (Store.prepareCall_target h.heap htgt') (hr htgt)
      fun w hw => L.evolves hev.heap (ha w hw)
  · exact hb.leave (hs.evolves L hev.heap) L.nil

theorem callWith_typed (hfn : D.Fits m.store.heap .value callee) {done : List Word}
    (hd : ∀ w ∈ done, D.Fits m.store.heap .value w) {args : List Code}
    (ha : typedArguments T args) : (m.callWith host callee done args).Typed K D := by
  cases args with
  | nil => exact call_typed L h hs hfn hd
  | cons e rest =>
    exact h.operand ha.1 (.argument hfn hd ha.2) hs

end

theorem unwind_typed (h : m.Base K D T) (hs : m.Awaits D T mode)
    (hw : D.Fits m.store.heap .value w) : (m.unwind w).Typed K D := by
  have hk := L.depth (m.store.depth - 1) h.store
  unfold unwind
  dsimp only
  split
  · exact ⟨T, ⟨h.heap, hk, h.frame, h.callers⟩, w, rfl, hw, mode, hs⟩
  · next caller rest hc =>
    obtain ⟨T', hf, hs⟩ := h.callers caller (by rw [hc]; exact List.mem_cons_self)
    have hb : Base K D T' { m with
        store := { m.store with depth := m.store.depth - 1 }
        frame := caller.frame, stack := caller.stack, callers := rest } :=
      ⟨h.heap, hk, hf, fun other hmem =>
        h.callers other (by rw [hc]; exact List.mem_cons_of_mem _ hmem)⟩
    exact hb.giveUnlessPending L (show Mode.value ≠ .done by decide) hs fun _ => hw

/-! ## §6 Steps -/

section

variable (h : m.Active K D T)

include h

theorem closure_typed {decl proto : Nat}
    {cells : List CellRef} (he : (Code.closure decl proto cells).Typed T)
    (hm : mode = .value ∨ mode = .closure) (hs : m.Awaits D T mode) :
    (m.eval host (.closure decl proto cells)).Typed K D := by
  have hcells : ∀ w ∈ (cells.map (m.cellWord host)).toArray, D.Boxes m.store.heap w := by
    intro w hw
    obtain ⟨c, hc, rfl⟩ := List.mem_map.mp (List.mem_toArray.mp hw)
    exact h.cellWord L (he.2 c hc)
  have hser : D.Serves .closure (Serve.makeClosure proto
      (.compiled m.frame.unit decl) (cells.map (m.cellWord host)).toArray m.store) :=
    L.makeClosure h.store hcells
  refine h.checkedAs L ((Serve.evolves_makeClosure _ _ _).mono ?_) ?_ hs ?_
  · rintro _ ⟨name, arity, rfl⟩
    refine ⟨m.frame.unit, decl, rfl, ?_⟩
    rw [List.size_toArray, List.length_map]
    exact h.frame.closure he.1
  · rcases hm with rfl | rfl <;> decide
  · rcases hm with rfl | rfl
    · exact ⟨hser.keeps, fun hp => L.closure_value (hser.fits hp)⟩
    · exact hser

theorem eval_value_typed (he : e.Typed T)
    (hs : m.Awaits D T .value) : (m.eval host e).Typed K D := by
  cases e with
  | constant w =>
    have hw : K.constant w := by
      obtain ⟨_, _, _, _, _, hT⟩ := h.frame.function
      rw [hT] at he
      exact he
    exact h.give hs (L.constant h.store hw)
  | receiver => exact h.give hs h.frame.receiver
  | argument index => exact h.give hs (h.frame.argument L index)
  | readVariable index => exact h.give hs (h.frame.value L he)
  | assignVariable index value =>
    exact h.operand he.2 (.assignVariable he.1) hs
  | newCell value => exact absurd he id
  | readCell cell =>
    have := Host.Attached.mk L.attached
    rw [Machine.eval, serve_attached]
    exact h.give hs (L.cellGet h.store (h.cellWord L he))
  | assignCell cell value =>
    exact h.operand he.2 (.assignCell he.1) hs
  | readGlobal slot =>
    exact h.checked L (Serve.evolves_globalGet slot _) hs (L.globalGet h.store)
  | assignGlobal slot value => exact h.operand he .assignGlobal hs
  | negate operand => exact h.operand he .negate hs
  | not operand => exact h.operand he .not hs
  | binary op left right =>
    exact h.operand he.1 (.leftOperand he.2) hs
  | logical op left right =>
    exact h.operand he.1 (.logical he.2) hs
  | call callee args =>
    exact h.operand he.1 (.callee he.2) hs
  | getProperty object name site =>
    exact h.operand he.1 (.getProperty he.2) hs
  | setProperty object name value site =>
    exact h.operand he.1 (.setObject he.2.1 he.2.2) hs
  | getSuper sup self name =>
    exact h.operand he.1 (.superclass he.2) hs
  | closure decl proto cells => exact closure_typed L h he (.inl rfl) hs
  | newClass name sup =>
    exact h.checked L ((Serve.evolves_newClass name _).mono fun ⟨_, _, ho⟩ => ho ▸ trivial) hs
      (L.newClass h.store)

theorem eval_typed (he : e.Yields T mode) (hs : m.Awaits D T mode) : (m.eval host e).Typed K D := by
  cases mode with
  | value => exact eval_value_typed L h he hs
  | cell =>
    rcases he with ⟨value, rfl, hv⟩ | ⟨index, value, rfl, hb, hv⟩
    · exact h.operand hv .newCell hs
    · exact h.evalFor (show value.Yields T .cell from .inl hv) (.assignCellVariable hb) hs
  | closure =>
    obtain ⟨d, p, cells, rfl, hc⟩ := he
    exact closure_typed L h hc (.inr rfl) hs
  | done => exact absurd he id

theorem negate_typed (hs : m.Awaits D T .value)
    (hw : D.Fits m.store.heap .value w) : (m.negate host w).Typed K D := by
  unfold negate
  split
  · next hp => exact h.give hs (L.flipSign hp hw)
  · exact h.checked L (Serve.evolves_negate w _) hs (L.negate h.store)

theorem binary_typed (hs : m.Awaits D T .value)
    (op : BinaryOp) (left right : Word) : (m.binary host op left right).Typed K D := by
  unfold binary
  have := Host.Attached.mk L.attached
  simp only [serve_attached]
  split
  · rw [Inline.binary_eq_arithmetic]
    exact h.give hs L.arithmetic
  · split
    · exact h.give hs L.truth
    · refine h.give hs ?_
      show D.Fits _ _ ⟨(Word.ofBool (m.store.valuesEqual left right)).bits ^^^ 1⟩
      rw [Word.ofBool_xor]
      exact L.truth
    · exact h.checked L ((Serve.evolves_binary _ left right).mono fun ⟨_, ho⟩ => ho ▸ trivial) hs
        (L.binary h.store)

theorem getProperty_typed (hs : m.Awaits D T .value)
    {object : Word} (hobj : D.Fits m.store.heap .value object) (hsite : K.site site .get name) :
    (m.getProperty host object name site).Typed K D := by
  unfold getProperty
  split
  · next i slot hc =>
    obtain ⟨hk, hf⟩ := L.getCached h.store hc
    have hb : Active K D T { m with store := (m.store.getCached i slot site).2 } :=
      ⟨h.evolves L (.refl _ _) hk, h.calm⟩
    exact hb.give hs hf
  · exact h.checked L ((Serve.evolves_getProperty object name site).mono fun ⟨_, ho⟩ =>
      ho ▸ trivial)
      hs (L.getProperty h.store hsite hobj)

theorem setProperty_typed (hs : m.Awaits D T .value)
    (object : Word) {value : Word} (hval : D.Fits m.store.heap .value value)
    (hsite : K.site site .set name) : (m.setProperty host object name value site).Typed K D := by
  unfold setProperty
  split
  · next i slot hc =>
    have he := (Store.evolves_setCached hc value (Object.Typed K)).heap
    have hb : Active K D T { m with store := m.store.setCached object i slot value site } :=
      ⟨h.evolves L he (L.setCached h.store hc hval), h.calm⟩
    exact hb.give (hs.evolves L he) (L.evolves he hval)
  · exact h.checked L (Serve.evolves_setProperty object name value site _) hs
      (L.setProperty h.store hsite hval)

theorem receive_typed {task : Pending} {next : Mode}
    (ht : task.Awaits D m.store.heap T mode next) (hs : m.Awaits D T next)
    (hw : D.Fits m.store.heap mode w) : (m.receive host w task).Typed K D := by
  have hsite : ∀ {site kind name}, T.site site kind name → K.site site kind name := by
    obtain ⟨_, _, _, _, _, hT⟩ := h.frame.function
    rw [hT]
    exact id
  cases ht with
  | assignVariable hb =>
    have hset := h.setVariable (fun _ => hw) fun hb' => absurd hb' hb
    exact hset.give hs hw
  | assignCellVariable hb =>
    have hset := h.setVariable (fun hb' => absurd hb hb') fun _ => L.cell_boxes hw
    exact hset.giveAs (by decide) hs hw
  | newCell =>
    exact h.checkedAs L ((Serve.evolves_newCell w).mono fun ho => ho ▸ trivial)
      (show Mode.cell ≠ .done by decide) hs (L.newCell h.store hw)
  | @assignCell cell hc =>
    obtain ⟨hb, hs, hk⟩ := h.served L (Serve.evolves_cellSet (m.cellWord host cell) w _)
      (L.cellSet h.store (h.cellWord L hc) hw) rfl hs
    exact hb.give hs (hk hw)
  | @assignGlobal slot =>
    have he := (Serve.evolves_globalSet (s := m.store) slot w (Object.Typed K)).heap
    have hb := h.evolves L he (L.globalSet h.store hw)
    have := Host.Attached.mk L.attached
    rw [receive, serve_attached]
    exact hb.giveUnlessPending L (by decide) (hs.evolves L he) fun _ => L.evolves he hw
  | negate => exact negate_typed L h hs hw
  | not => exact h.give hs L.truth
  | leftOperand hr => exact h.operand hr (.rightOperand hw) hs
  | @rightOperand op left => exact binary_typed L h hs op left w
  | @logical op right hr =>
    have hg := h.give hs hw
    have heval := h.eval (show right.Yields T .value from hr) hs
    cases op with
    | and | or =>
      rw [receive]
      split <;> assumption
  | callee ha =>
    exact callWith_typed L h hs hw (List.forall_mem_nil _) ha
  | argument hc hd ha =>
    refine callWith_typed L h hs hc (fun v hv => ?_) ha
    rcases List.mem_append.mp hv with hv | hv
    · exact hd v hv
    · exact List.mem_singleton.mp hv ▸ hw
  | getProperty hname => exact getProperty_typed L h hs hw (hsite hname)
  | setObject hv hname =>
    exact h.operand hv (.setProperty hw hname) hs
  | setProperty _ hname => exact setProperty_typed L h hs _ hw (hsite hname)
  | superclass hr => exact h.operand hr (.superReceiver hw) hs
  | superReceiver =>
    exact h.checked L ((Serve.evolves_getSuper _ w _).mono fun ⟨_, ho⟩ => ho ▸ trivial) hs
      (L.getSuper h.store hw)
  | discard => exact h.next hs
  | discardCell => exact h.next hs
  | print =>
    obtain ⟨hb, hs, _⟩ := h.served L (Serve.evolves_print w _) (L.print h.store)
      (m.store.print_pending w) hs
    exact hb.next hs
  | @defineGlobal slot =>
    obtain ⟨hb, hs, _⟩ := h.served L (Serve.evolves_globalDefine slot w _)
      (L.globalDefine h.store hw) rfl hs
    exact hb.next hs
  | @branch yes no hy hn =>
    show Machine.Typed K D { m with control := .run (if w.isFalsy then no else yes) }
    split
    · exact h.run hn hs
    · exact h.run hy hs
  | @loopTest cond body hc hb =>
    show Machine.Typed K D (if w.isFalsy then m.next
      else { m with stack := .again cond body :: m.stack, control := .run body })
    split
    · exact h.next hs
    · exact ⟨T, h.toBase.congr rfl rfl rfl, h.calm, hb, .done, .again hc hb, hs⟩
  | @addMethod v name hv =>
    obtain ⟨hb, hs, _⟩ := h.served L (Serve.evolves_addMethod (m.frame.value v) name w _)
      (L.addMethod h.store hw) (m.store.addMethod_pending _ _ _) hs
    exact hb.next hs
  | leave => exact h.leave hs hw
  | rest hc => exact h.run hc hs
  | again hc hb => exact h.operand hc (.loopTest hc hb) hs

end

theorem Typed.step (h : m.Typed K D) : (m.step host).Typed K D := by
  obtain ⟨T, hb, hp⟩ := h
  have hstk : ∀ stack, m.store.pending = false → Active K D T { m with stack := stack } :=
    fun _ hcalm => ⟨hb.congr rfl rfl rfl, hcalm⟩
  unfold Proceeds at hp
  have hoff : ∀ {w}, m.Offers w → m.store.pending = false ∧
      ∃ mode, (mode ≠ .done ∨ w = .nil) ∧ D.Fits m.store.heap mode w ∧ m.Awaits D T mode := by
    rintro w (hc | ⟨hc, rfl⟩) <;> rw [hc] at hp
    · obtain ⟨hcalm, mode, hm, hw, hs⟩ := hp
      exact ⟨hcalm, mode, .inl hm, hw, hs⟩
    · exact ⟨hp.1, .done, .inr rfl, L.done, hp.2.2⟩
  cases m.turn with
  | stopped hc =>
    rw [step_stopped hc]
    exact ⟨T, hb, hp⟩
  | @executes i rest hc =>
    rw [hc] at hp
    obtain ⟨hcalm, hcode, hs⟩ := hp
    rw [step_run_cons hc]
    exact exec_typed (hstk (.rest rest :: m.stack) hcalm) hcode.1 ⟨.done, .rest hcode.2, hs⟩
  | evaluates hc =>
    rw [hc] at hp
    obtain ⟨hcalm, mode, he, hs⟩ := hp
    rw [step_eval hc]
    exact eval_typed L ⟨hb, hcalm⟩ he hs
  | ends htasks hc =>
    obtain ⟨_, mode, hm, hw, hs⟩ := hoff hc
    rw [step_ends htasks hc]
    refine hb.leave hs ?_
    rcases hm with hm | rfl
    · unfold Awaits at hs
      rw [htasks] at hs
      exact hs.resolve_right hm ▸ hw
    · exact L.nil
  | @receives _ _ stack htasks hc =>
    obtain ⟨hcalm, mode, _, hw, hs⟩ := hoff hc
    unfold Awaits at hs
    rw [htasks] at hs
    obtain ⟨next, ht, hs⟩ := hs
    rw [step_receives htasks hc]
    exact receive_typed L (hstk stack hcalm) ht hs hw
  | leaves hc =>
    rw [hc] at hp
    rw [step_leave hc]
    obtain ⟨hw, mode, hs⟩ := hp
    exact unwind_typed L hb hs hw

theorem Typed.run (h : m.Typed K D) (fuel : Nat) :
    (m.run host fuel).Typed K D :=
  run_induction (fun h => h.step L) fuel h

theorem start_typed {store : Store} {unit : CodeUnit}
    (hh : store.heap.Typed K) (hst : D.Keeps store) (hc : store.pending = false)
    (ht : unit.Typed K 0 0) (hf : unit.function? 0 = some f) :
    (Machine.start host store unit f).Typed K D :=
  enter_typed L hh hst hc (.inr ⟨rfl, rfl, rfl⟩) ht hf L.nil (List.forall_mem_nil _)
    (List.forall_mem_nil _)

end Lawful

end Machine

end ScriptMachine
