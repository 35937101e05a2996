/-
ScriptMachine.Proofs.Classes.Making — methods are attached to the class that was
made last.
-/
import ScriptMachine.Proofs.Classes.Sections
import ScriptMachine.Proofs.Runs.Flow
import ScriptMachine.Proofs.WellFormed

namespace ScriptMachine

variable {M : Symbol → CodeUnit → Nat → Prop} {R : Roster} {target : CallTarget} {heap heap' : Heap}
  {w : Word} {s s' : Store} {count : Nat}

/-! ## §1 Code -/

def Pending.Settled (R : Roster) : Pending → Prop
  | .leftOperand _ right => right.Settled R
  | .logical _ right => right.Settled R
  | .callee args => settledArguments R args
  | .argument _ _ others => settledArguments R others
  | .setObject _ value _ => value.Settled R
  | .superclass self _ => self.Settled R
  | .branch yes no => sectioned R none yes ∧ sectioned R none no
  | .loopTest cond body => cond.Settled R ∧ sectioned R none body
  | .addMethod _ _ => False
  | .rest code => sectioned R none code
  | .again cond body => cond.Settled R ∧ sectioned R none body
  | _ => True

def Roster.outside (R : Roster) : Fragment := ⟨Code.Settled R, Pending.Settled R, sectioned R none⟩

theorem Roster.outside_closed : R.outside.Closed where
  first {e e' task} he hfst := by
    cases e with
    | binary | logical | call | setProperty | getSuper =>
      cases hfst
      exact ⟨he.2, he.1⟩
    | assignVariable | newCell | assignCell | assignGlobal | negate | not | getProperty =>
      cases hfst
      exact ⟨trivial, he⟩
    | _ => cases hfst
  follow {task} w ht := by
    have hone := @Fragment.mem_one R.outside
    have hn := @Fragment.mem_none R.outside
    cases task with
    | leftOperand | setObject | superclass => exact ⟨hone trivial, ht⟩
    | logical op right =>
      cases op with
      | and | or =>
        simp only [Pending.follow]
        split <;> trivial
    | callee args =>
      cases args with
      | nil => trivial
      | cons e rest => exact ⟨hone (show settledArguments R rest from ht.2), ht.1⟩
    | argument function done rest =>
      cases rest with
      | nil => trivial
      | cons e rest => exact ⟨hone (show settledArguments R rest from ht.2), ht.1⟩
    | branch yes no =>
      refine ⟨hn, ?_⟩
      show sectioned R none (if w.isFalsy then no else yes)
      split
      · exact ht.2
      · exact ht.1
    | loopTest cond body =>
      simp only [Pending.follow]
      split
      · exact ⟨hn, trivial⟩
      · exact ⟨hone ht, ht.2⟩
    | addMethod v name => exact absurd ht id
    | rest code => exact ⟨hn, ht⟩
    | again cond body => exact ⟨hone ht, ht.1⟩
    | discard | print | defineGlobal => exact ⟨hn, trivial⟩
    | _ => trivial

theorem Instr.Settled.first {i : Instr} (h : i.Settled R) :
    i.first.1.Settled R ∧ i.first.2.Settled R := by
  cases i with
  | branch => exact ⟨h.2, h.1⟩
  | loop => exact ⟨h, h.1⟩
  | addMethod => exact absurd h id
  | evaluate | print | defineGlobal | leave => exact ⟨trivial, h⟩

/-! ## §2 Heaps -/

def Entry.Sectioned (M : Symbol → CodeUnit → Nat → Prop) : Entry → Prop
  | .compiled unit declaration => unit.Sectioned M declaration
  | .address _ => False
  | .clock | .construct => True

theorem Entry.Sectioned.not_astray (h : target.entry.Sectioned M) : ¬target.Astray := by
  intro hast
  unfold CallTarget.Astray at hast
  split at hast
  · next heq =>
    rw [heq] at h
    exact h
  · next heq =>
    rw [heq] at h
    obtain ⟨_, f, _, hf, _⟩ := h
    cases hf.symm.trans hast
  · exact hast

def Object.Sectioned (M : Symbol → CodeUnit → Nat → Prop) : Object → Prop
  | .closure c => c.entry.Sectioned M
  | .native n => n.entry.Sectioned M
  | _ => True

def Heap.Sectioned (M : Symbol → CodeUnit → Nat → Prop) (heap : Heap) : Prop :=
  ∀ (i : Nat) (o : Object), heap.objects[i]? = some o → o.Sectioned M

theorem Heap.Sectioned.evolves {fresh : Object → Prop} (h : heap.Sectioned M)
    (he : heap.Evolves fresh heap') (hfresh : ∀ {o}, fresh o → o.Sectioned M) :
    heap'.Sectioned M := by
  intro i o ho
  rcases he.added ho with ⟨o0, ho0, hb⟩ | hf
  · have ho0' := h i o0 ho0
    cases hb with
    | same => exact ho0'
    | cell | ofClass | ofInstance => trivial
  · exact hfresh hf

theorem Heap.Sectioned.deref? (h : heap.Sectioned M) {o : Object} (hw : heap.deref? w = some o) :
    o.Sectioned M := by
  exact h _ o (Heap.getElem?_objectIndex hw)

theorem Store.prepareCall_sectioned (h : s.heap.Sectioned M) {callee : Word}
    (hp : s.prepareCall callee count = (.ok target, s')) : target.entry.Sectioned M := by
  have hevo := s.evolves_prepareCall callee count
  rw [hp] at hevo
  have h' : s'.heap.Sectioned M := h.evolves hevo.heap fun ⟨_, ho⟩ => ho ▸ trivial
  cases prepareCall_prepared hp with
  | closure hd | native hd | bound _ hd => exact h.deref? hd
  | plain => trivial
  | initialized _ _ _ hd => exact h'.deref? hd

def Heap.HasClass (heap : Heap) (index : Nat) : Prop :=
  index < 0x100000000 ∧ ∃ c, heap.objects[index]? = some (.ofClass c)

theorem Heap.HasClass.retained {index : Nat} (h : heap.HasClass index) (he : heap.Retains heap') :
    heap'.HasClass index := by
  obtain ⟨hlt, c, hc⟩ := h
  obtain ⟨o', ho', hb⟩ := he.objects hc
  obtain ⟨c', rfl, _⟩ := hb.class_eq
  exact ⟨hlt, c', ho'⟩

def Pending.Passes (v : Nat) : Pending → Prop
  | .assignVariable index => index ≠ v
  | .newCell | .assignCell _ | .discard | .defineGlobal _ => True
  | _ => False

def Control.Passes (v : Nat) : Control → Prop
  | .eval e => e.Passes v
  | .give _ => True
  | .run code => code = []
  | _ => False

def Roster.Resumes (R : Roster) (v : Nat) (stack : List Pending) : Prop :=
  ∃ code below, stack = .rest code :: below ∧ sectioned R (some v) code ∧
    ∀ task ∈ below, task.Settled R

theorem Code.Passes.first {v : Nat} {e e' : Code} {task : Pending} (h : e.Passes v)
    (hfst : e.first = some (task, e')) : task.Passes v ∧ e'.Passes v := by
  cases e with
  | newCell | assignCell =>
    cases hfst
    exact ⟨trivial, h⟩
  | assignVariable =>
    cases hfst
    exact h
  | readVariable => cases hfst
  | _ => exact absurd h id

namespace Machine

def Keeps (latest : Option Nat) (v : Nat) (m : Machine) : Prop :=
  ∃ index, latest = some index ∧ m.frame.value v = .ofIndex index ∧ m.store.heap.HasClass index

inductive Phase (R : Roster) (latest : Option Nat) (m : Machine) : Prop
  | ending : (∃ w, m.control = .leave w) ∨ (∃ stop, m.control = .stopped stop) → Phase R latest m
  | outside : R.outside.Holds [] m → Phase R latest m
  | inside {v : Nat} {code : List Instr} : m.control = .run code → sectioned R (some v) code →
      (∀ task ∈ m.stack, task.Settled R) → m.Keeps latest v → Phase R latest m
  | makes {v : Nat} {name : Symbol} {sup : Option Nat} {stack : List Pending} :
      v < R.locals → m.control = .eval (.assignVariable v (.newClass name sup)) →
        m.stack = .discard :: stack → R.Resumes v stack → Phase R latest m
  | making {v : Nat} {name : Symbol} {sup : Option Nat} {stack : List Pending} :
      v < R.locals → m.control = .eval (.newClass name sup) →
        m.stack = .assignVariable v :: .discard :: stack → R.Resumes v stack → Phase R latest m
  | made {v index : Nat} {stack : List Pending} : v < R.locals → latest = some index →
      m.control = .give (.ofIndex index) → m.store.heap.HasClass index →
        m.stack = .assignVariable v :: .discard :: stack → R.Resumes v stack → Phase R latest m
  | passing {v : Nat} {tasks stack : List Pending} : m.Keeps latest v → m.control.Passes v →
      (∀ task ∈ tasks, task.Passes v) → m.stack = tasks ++ stack → R.Resumes v stack →
        Phase R latest m
  | attaching {v d p : Nat} {cells : List CellRef} {name : Symbol} {stack : List Pending} :
      m.Keeps latest v → m.control = .eval (.closure d p cells) → R.function d → R.method name d →
        m.stack = .addMethod v name :: stack → R.Resumes v stack → Phase R latest m
  | attached {v d : Nat} {w : Word} {c : Closure} {name : Symbol} {stack : List Pending} :
      m.Keeps latest v → m.control = .give w → m.store.heap.deref? w = some (.closure c) →
        c.entry = .compiled m.frame.unit d → R.method name d →
          m.stack = .addMethod v name :: stack → R.Resumes v stack → Phase R latest m

structure Sectioned (M : Symbol → CodeUnit → Nat → Prop) (latest : Option Nat) (m : Machine) :
    Prop where
  heap : m.store.heap.Sectioned M
  running : ∃ R, m.frame.unit.Lists M R ∧ m.frame.locals.size = R.locals ∧ m.Phase R latest
  waiting : ∀ caller ∈ m.callers, ∃ R, caller.frame.unit.Lists M R ∧
    caller.frame.locals.size = R.locals ∧ ∀ task ∈ caller.stack, task.Settled R

end Machine

/-! ## §4 Steps -/

theorem Store.newClass_ok (h : s.heap.Sound .any) {name : Symbol} {sup : Option Word}
    (hnew : s.newClass name sup = (.ok w, s')) :
    ∃ methods, s.inherited sup = .ok methods ∧ s.heap.size < 0x100000000 ∧
      w = .ofIndex s.heap.size ∧
        s' = { s with heap := s.heap.push (.ofClass ⟨name, methods⟩) } := by
  unfold newClass at hnew
  split at hnew
  · next methods hm =>
    rcases s.alloc_cases (.ofClass ⟨name, methods⟩) with ⟨hlt, heq⟩ | ⟨_, heq⟩ <;>
      rw [heq] at hnew <;>
      cases hnew
    exact ⟨methods, hm, h.size_lt hlt, rfl, rfl⟩
  · cases hnew

def Act.made? (s : Store) : Act → Option Nat
  | .newClass name sup =>
    match (s.newClass name sup).1 with
    | .ok w => some w.objectIndex
    | .error _ => none
  | _ => none

theorem Store.makeClosure_ok (h : s.heap.Sound .any) {proto : Nat} {entry : Entry}
    {cells : Array Word} (hm : s.makeClosure proto entry cells = (.ok w, s')) :
    ∃ c, s'.heap.deref? w = some (.closure c) ∧ c.entry = entry := by
  unfold makeClosure at hm
  split at hm
  · next p _ =>
    rcases s.alloc_cases (.closure ⟨p.name, p.arity, entry, cells⟩) with ⟨hlt, heq⟩ | ⟨_, heq⟩ <;>
      rw [heq] at hm <;> cases hm
    refine ⟨⟨p.name, p.arity, entry, cells⟩, ?_, rfl⟩
    rw [Heap.deref?_ofIndex _ (h.size_lt hlt)]
    exact Array.getElem?_push_size
  · cases hm

namespace Machine

variable {latest : Option Nat} {m m' : Machine} {host : Host} {v d p : Nat} {name : Symbol}
  {target method w : Word} {e : Code} {task : Pending} {tasks stack : List Pending}

theorem Keeps.of_step (h : m.Keeps latest v) (hv : m'.frame.value v = m.frame.value v)
    (he : m.store.heap.Retains m'.store.heap) : m'.Keeps latest v := by
  obtain ⟨index, hlat, hval, hcls⟩ := h
  exact ⟨index, hlat, hv.trans hval, hcls.retained he⟩

theorem step_evolves (host : Host) [host.Attached] (m : Machine) :
    m.store.heap.Evolves ((m.act host).Adds m.store) (m.step host).store.heap := by
  rw [step_store]
  exact (Act.evolves m.store (m.act host)).heap

theorem act_makeClosure {proto : Nat} {entry : Entry} {cells : Array Word}
    (h : m.act host = .makeClosure proto entry cells) : ∃ d cells,
      m.control = .eval (.closure d proto cells) ∧ entry = .compiled m.frame.unit d := by
  obtain ⟨e, hc, hact⟩ := act_evaluates (show (m.act host).occasion = _ by rw [h]; rfl)
  rw [h] at hact
  cases e with
  | closure d p refs =>
    cases hact
    exact ⟨d, refs, hc, rfl⟩
  | _ => cases hact

theorem act_newClass {sup : Option Word} (h : m.act host = .newClass name sup) : ∃ index,
      m.control = .eval (.newClass name index) ∧ sup = index.map m.frame.value := by
  obtain ⟨e, hc, hact⟩ := act_evaluates (show (m.act host).occasion = _ by rw [h]; rfl)
  rw [h] at hact
  cases e with
  | newClass name' index =>
    cases hact
    exact ⟨index, hc, rfl⟩
  | _ => cases hact

theorem act_addMethod (h : m.act host = .addMethod target name method) : ∃ v stack,
      m.stack = .addMethod v name :: stack ∧ target = m.frame.value v ∧
        m.Offers method := by
  obtain ⟨w, task, stack, hs, hc, hact⟩ :=
    act_receives (show (m.act host).occasion = _ by rw [h]; rfl)
  rw [h] at hact
  cases task with
  | addMethod v name' =>
    cases hact
    exact ⟨v, stack, hs, rfl, hc⟩
  | callee rest => cases rest <;> cases hact
  | argument function done rest => cases rest <;> cases hact
  | negate =>
    simp only [receiveAct] at hact
    split at hact <;> cases hact
  | rightOperand op left =>
    simp only [receiveAct] at hact
    split at hact
    · cases hact
    · split at hact <;> cases hact
  | _ => cases hact

theorem Phase.of_leave : (m.leave w).Phase R latest := .ending (.inl ⟨w, rfl⟩)

theorem Phase.of_served (h : m.Served m')
    (hg : ∀ {store w}, m' = { m with store := store, control := .give w } →
      m'.Phase R latest) : m'.Phase R latest := by
  obtain ⟨store, control, ⟨w, rfl⟩ | ⟨rfl, _⟩, rfl⟩ := h
  · exact hg rfl
  · exact .ending (.inl ⟨_, rfl⟩)

theorem Phase.of_evalFor (hk : m.Keeps latest v) (ht : task.Passes v) (he : e.Passes v)
    (htasks : ∀ task ∈ tasks, task.Passes v) (hs : m.stack = tasks ++ stack)
    (hres : R.Resumes v stack) : (m.evalFor task e).Phase R latest := by
  refine .passing (show Keeps latest v (m.evalFor task e) from hk) he
    (List.forall_mem_cons.mpr ⟨ht, htasks⟩) ?_ hres
  rw [evalFor, hs]
  rfl

theorem Phase.run_cons {made : Option Nat} {i : Instr} {rest : List Instr}
    (hc : sectioned R made (i :: rest)) (hm : ∀ {v}, made = some v → m.Keeps latest v)
    (hstk : ∀ task ∈ m.stack, task.Settled R) :
    ({ m with stack := .rest rest :: m.stack }.exec i).Phase R latest := by
  have hres : ∀ {v}, sectioned R (some v) rest → R.Resumes v (.rest rest :: m.stack) :=
    fun hr => ⟨rest, m.stack, rfl, hr, hstk⟩
  have hn : ∀ {v : Nat}, ∀ task ∈ ([] : List Pending), task.Passes v :=
    fun _ hmem => absurd hmem List.not_mem_nil
  rcases hc with ⟨hi, hr⟩ | ⟨v, ⟨hlt, name, sup, rfl, _⟩, hr⟩ |
    ⟨v, hv, ⟨e, he, rfl | ⟨slot, rfl⟩⟩ | ⟨name, d, p, cells, rfl, hd, hmth⟩, hr⟩
  · rw [exec_first]
    refine .outside ⟨Fragment.covers_nil.mpr ?_, ?_, nofun⟩
    · exact List.forall_mem_cons.mpr ⟨hi.first.1, List.forall_mem_cons.mpr ⟨hr, hstk⟩⟩
    · rintro _ ⟨⟩
      exact hi.first.2
  · exact .makes hlt rfl rfl (hres hr)
  · exact .of_evalFor (show Keeps latest v _ from hm hv) trivial he hn rfl (hres hr)
  · exact .of_evalFor (show Keeps latest v _ from hm hv) trivial he hn rfl (hres hr)
  · exact .attaching (show Keeps latest v _ from hm hv) rfl hd hmth rfl (hres hr)

theorem Phase.receive_passing (hk : m.Keeps latest v) (ht : task.Passes v)
    (htasks : ∀ task ∈ tasks, task.Passes v) (hs : m.stack = tasks ++ stack)
    (hres : R.Resumes v stack) (he : m.store.heap.Retains (m.receive host w task).store.heap) :
    (m.receive host w task).Phase R latest := by
  cases task with
  | assignVariable index =>
    have hval : (m.frame.setVariable index w).value v = m.frame.value v := by
      rw [Frame.value_setVariable, if_neg fun h => ht h.1]
    exact .passing (hk.of_step hval he) trivial htasks hs hres
  | newCell =>
    refine .of_served (m.served_checked host (Serve.newCell w)) fun heq => ?_
    rw [heq] at he ⊢
    exact .passing (hk.of_step rfl he) trivial htasks hs hres
  | assignCell cell =>
    obtain ⟨store, hst⟩ := m.serve_snd host (Serve.cellSet (m.cellWord host cell) w)
    simp only [receive, hst] at he ⊢
    exact .passing (hk.of_step rfl he) trivial htasks hs hres
  | discard => exact .passing (hk.of_step rfl he) rfl htasks hs hres
  | defineGlobal slot =>
    obtain ⟨store, hst⟩ := m.serve_snd host (Serve.globalDefine slot w)
    simp only [receive, hst] at he ⊢
    exact .passing (hk.of_step rfl he) rfl htasks hs hres
  | _ => exact absurd ht id

theorem offers_of_passes (hc : m.control.Passes v) :
    (∃ w, m.Offers w) ∨ ∃ e, m.control = .eval e ∧ e.Passes v := by
  cases hctl : m.control with
  | give w => exact .inl ⟨w, .inl hctl⟩
  | run code =>
    rw [hctl] at hc
    obtain rfl : code = [] := hc
    exact .inl ⟨.nil, .inr ⟨hctl, rfl⟩⟩
  | eval e => exact .inr ⟨e, rfl, by rwa [hctl] at hc⟩
  | leave | stopped =>
    rw [hctl] at hc
    exact absurd hc id

theorem Phase.step_passing [host.Attached] (hk : m.Keeps latest v)
    (hc : m.control.Passes v) (htasks : ∀ task ∈ tasks, task.Passes v)
    (hs : m.stack = tasks ++ stack) (hres : R.Resumes v stack) :
    (m.step host).Phase R latest := by
  have he := (step_evolves host m).toRetains
  have hrec : ∀ {w}, m.Offers w → (m.step host).Phase R latest := by
    intro w hg
    cases tasks with
    | nil =>
      obtain ⟨code, below, rfl, hcode, hb⟩ := hres
      rw [step_receives hs hg]
      exact .inside rfl hcode hb hk
    | cons task tasks =>
      rw [step_receives hs hg] at he ⊢
      obtain ⟨ht, htasks⟩ := List.forall_mem_cons.mp htasks
      exact .receive_passing hk ht htasks rfl hres he
  rcases offers_of_passes hc with ⟨w, hg⟩ | ⟨e, hctl, hp⟩
  · exact hrec hg
  · rw [step_eval hctl] at he ⊢
    cases hfst : e.first with
    | some operand =>
      rw [eval_first hfst]
      obtain ⟨ht, he'⟩ := Code.Passes.first hp hfst
      exact .of_evalFor hk ht he' htasks hs hres
    | none =>
      refine .of_served (eval_leaf hfst) fun heq => ?_
      rw [heq] at he ⊢
      exact .passing (hk.of_step rfl he) trivial htasks hs hres

theorem same_of_passing (hc : m.control.Passes v) (htasks : ∀ task ∈ tasks, task.Passes v)
    (hs : m.stack = tasks ++ stack) (hres : R.Resumes v stack) : m.Same (m.step host) := by
  have hrec : ∀ {w}, m.Offers w → m.Same (m.step host) := by
    intro w hg
    cases tasks with
    | nil =>
      obtain ⟨code, below, rfl, _⟩ := hres
      exact step_same_of_receives hs hg id
    | cons task tasks =>
      refine step_same_of_receives hs hg fun hcalls => ?_
      have ht := htasks task List.mem_cons_self
      cases task with
      | callee | argument => exact ht
      | _ => exact hcalls
  rcases offers_of_passes hc with ⟨w, hg⟩ | ⟨e, hctl, _⟩
  · exact hrec hg
  · exact step_same_of_eval hctl

theorem Phase.step_making [host.Attached] (hsound : m.store.heap.Sound .any)
    {sup : Option Nat} (hlt : v < R.locals)
    (hc : m.control = .eval (.newClass name sup))
    (hs : m.stack = .assignVariable v :: .discard :: stack) (hres : R.Resumes v stack) :
    (m.step host).Phase R (((m.act host).made? m.store).or latest) := by
  have hact : m.act host = .newClass name (sup.map m.frame.value) := by
    simp [act, hc, evalAct]
  rw [step_eval hc, hact]
  simp only [eval, checked, serve_attached, Act.made?]
  cases hnew : m.store.newClass name (sup.map m.frame.value) with
  | mk result store =>
    cases result with
    | error e =>
      simp only [Serve.newClass, hnew]
      exact .of_leave
    | ok w =>
      simp only [Serve.newClass, hnew]
      obtain ⟨methods, _, hidx, rfl, rfl⟩ := Store.newClass_ok hsound hnew
      unfold giveUnlessPending
      split
      · exact .of_leave
      · rw [Word.objectIndex_ofIndex hidx]
        exact .made hlt rfl rfl ⟨hidx, ⟨name, methods⟩, Array.getElem?_push_size⟩ hs hres

theorem Phase.step_made (hsize : m.frame.locals.size = R.locals) {index : Nat} (hlt : v < R.locals)
    (hlat : latest = some index) (hc : m.control = .give (.ofIndex index))
    (hcls : m.store.heap.HasClass index) (hs : m.stack = .assignVariable v :: .discard :: stack)
    (hres : R.Resumes v stack) : (m.step host).Phase R latest := by
  have hval : (m.frame.setVariable v (.ofIndex index)).value v = .ofIndex index := by
    rw [Frame.value_setVariable, if_pos ⟨rfl, hsize ▸ hlt⟩]
  rw [step_give_cons hc hs]
  have hk : Keeps latest v (receive { m with stack := .discard :: stack } host (.ofIndex index)
      (.assignVariable v)) := ⟨index, hlat, hval, hcls⟩
  have hdis : ∀ task ∈ [Pending.discard], task.Passes v :=
    fun _ hmem => List.mem_singleton.mp hmem ▸ trivial
  exact .passing hk trivial hdis rfl hres

theorem Phase.step_attaching [host.Attached] (hsound : m.store.heap.Sound .any)
    {cells : List CellRef} (hk : m.Keeps latest v) (hc : m.control = .eval (.closure d p cells))
    (hmth : R.method name d) (hs : m.stack = .addMethod v name :: stack)
    (hres : R.Resumes v stack) : (m.step host).Phase R latest := by
  have he := (step_evolves host m).toRetains
  rw [step_eval hc] at he ⊢
  simp only [eval, checked, serve_attached] at he ⊢
  cases hm : m.store.makeClosure p (.compiled m.frame.unit d)
      (cells.map (m.cellWord host)).toArray with
  | mk result store =>
    cases result with
    | error e =>
      simp only [Serve.makeClosure, hm]
      exact .of_leave
    | ok w =>
      simp only [Serve.makeClosure, hm, store_giveUnlessPending] at he ⊢
      obtain ⟨c, hd, hent⟩ := Store.makeClosure_ok hsound hm
      unfold giveUnlessPending
      split
      · exact .of_leave
      · have hkept : Keeps latest v ({ m with store := store }.give w) := hk.of_step rfl he
        exact .attached hkept rfl hd hent hmth hs hres

theorem Phase.step_attached [host.Attached] (hk : m.Keeps latest v)
    (hc : m.control = .give w) (hs : m.stack = .addMethod v name :: stack)
    (hres : R.Resumes v stack) : (m.step host).Phase R latest := by
  have he := (step_evolves host m).toRetains
  rw [step_give_cons hc hs] at he ⊢
  obtain ⟨store, hst⟩ := serve_snd { m with stack := stack } host
    (Serve.addMethod (m.frame.value v) name w)
  simp only [receive, hst] at he ⊢
  have hkept : Keeps latest v ({ m with store := store, stack := stack }.next) :=
    hk.of_step rfl he
  exact .passing hkept rfl (fun _ hmem => absurd hmem List.not_mem_nil) (List.nil_append _).symm
    hres

theorem Sectioned.stays (h : m.Sectioned M latest) {latest' : Option Nat} (hs : m.Same m')
    (hh : m'.store.heap.Sectioned M) (hl : m.frame.unit.Lists M R)
    (hsize : m.frame.locals.size = R.locals) (hp : m'.Phase R latest') :
    m'.Sectioned M latest' := by
  obtain ⟨locals, hloc, hfr⟩ := hs.frame
  refine ⟨hh, ⟨R, ?_, ?_, hp⟩, ?_⟩
  · rw [hfr]
    exact hl
  · rw [hfr]
    exact hloc.trans hsize
  · rw [hs.callers]
    exact h.waiting

theorem Sectioned.enter [host.Attached] {frame : Frame} {f : Function}
    {declaration : Nat} (hh : m.store.heap.Sectioned M)
    (hu : frame.unit.Sectioned M declaration) (hf : frame.unit.function? declaration = some f)
    (hwai : ∀ caller ∈ m.callers, ∃ R, caller.frame.unit.Lists M R ∧
      caller.frame.locals.size = R.locals ∧ ∀ task ∈ caller.stack, task.Settled R) :
    (m.enter host frame f).Sectioned M latest := by
  obtain ⟨R, f', hl, hf', hloc, hb⟩ := hu
  obtain rfl : f = f' := Option.some.inj (hf.symm.trans hf')
  have hs : (Array.replicate f.locals Word.zero).size = R.locals := by
    rw [Array.size_replicate, hloc]
  unfold Machine.enter
  dsimp only
  split
  · rw [serve_attached]
    exact ⟨hh, ⟨R, hl, hs, .of_leave⟩, hwai⟩
  · refine ⟨hh, ⟨R, hl, hs, .outside ⟨Fragment.Covers.nil, nofun, ?_⟩⟩,
      hwai⟩
    rintro _ ⟨⟩
    exact hb

theorem Sectioned.unwind (h : m.Sectioned M latest) (w : Word) :
    (m.unwind w).Sectioned M latest := by
  unfold Machine.unwind
  dsimp only
  obtain ⟨R, hl, hs, _⟩ := h.running
  split
  · exact ⟨h.heap, ⟨R, hl, hs, .ending (.inr ⟨_, rfl⟩)⟩, h.waiting⟩
  · next caller rest hcs =>
    obtain ⟨⟨R, hl, hs, hstk⟩, hr⟩ := List.forall_mem_cons.mp (hcs ▸ h.waiting)
    unfold giveUnlessPending
    split
    · exact ⟨h.heap, ⟨R, hl, hs, .of_leave⟩, hr⟩
    · exact ⟨h.heap, ⟨R, hl, hs, .outside ⟨Fragment.covers_nil.mpr hstk, nofun, nofun⟩⟩, hr⟩

theorem not_ending (he : (∃ w, m.control = .leave w) ∨ ∃ stop, m.control = .stopped stop) :
    m.control ≠ .eval e := by
  intro hc
  rcases he with ⟨_, h⟩ | ⟨_, h⟩ <;> cases hc.symm.trans h

theorem Phase.function {cells : List CellRef} (h : m.Phase R latest)
    (hc : m.control = .eval (.closure d p cells)) : R.function d := by
  cases h with
  | ending he => exact absurd hc (not_ending he)
  | outside hh => exact hh.code hc
  | inside hc' | makes _ hc' | making _ hc' | made _ _ hc' | attached _ hc' =>
    cases hc.symm.trans hc'
  | passing _ hp =>
    rw [hc] at hp
    exact absurd hp id
  | attaching _ hc' hd =>
    cases hc.symm.trans hc'
    exact hd

theorem Sectioned.step_heap (host : Host) [host.Attached] (h : m.Sectioned M latest) :
    (m.step host).store.heap.Sectioned M := by
  refine h.heap.evolves (step_evolves host m) fun {o} ho => ?_
  cases hact : m.act host with
  | makeClosure proto entry cells =>
    rw [hact] at ho
    obtain ⟨name, arity, rfl⟩ := ho
    obtain ⟨d, refs, hc, rfl⟩ := act_makeClosure hact
    obtain ⟨R, hl, _, hp⟩ := h.running
    exact hl.sectioned (hp.function hc)
  | binary | getProperty | getSuper | call =>
    rw [hact] at ho
    obtain ⟨_, rfl⟩ := ho
    trivial
  | newCell =>
    rw [hact] at ho
    obtain rfl := ho
    trivial
  | newClass =>
    rw [hact] at ho
    obtain ⟨_, _, rfl⟩ := ho
    trivial
  | _ =>
    rw [hact] at ho
    exact absurd ho id

theorem Sectioned.step_outside [host.Attached] (h : m.Sectioned M latest)
    (hl : m.frame.unit.Lists M R) (hs : m.frame.locals.size = R.locals)
    (hh : R.outside.Holds [] m) : (m.step host).Sectioned M latest := by
  have hheap := h.step_heap host
  have hg : (∀ {w}, m.control ≠ .leave w) → (∀ {stop}, m.control ≠ .stopped stop) →
      (∀ {i rest}, m.control ≠ .run (i :: rest)) → (m.step host).Sectioned M latest := by
    intro hleave hstop hb
    cases Roster.outside_closed.step host hh below_nil (exists_flow hleave hstop)
      fun hc => absurd hc hb with
    | stays hsame hh _ _ => exact h.stays hsame hheap hl hs (.outside hh)
    | strays htgt hast =>
      have hp := Serve.prepareCall_eq_some htgt
      exact absurd hast (Store.prepareCall_sectioned h.heap hp).not_astray
    | @enters target unit d f callee args _ htgt hent hf hstk heq =>
      have hp := Serve.prepareCall_eq_some htgt
      have hu := Store.prepareCall_sectioned h.heap hp
      rw [hent] at hu
      have hpre := (Serve.evolves_prepareCall (s := m.store) callee args.length).heap
      rw [heq]
      refine Sectioned.enter (h.heap.evolves hpre ?_) hu hf ?_
      · rintro _ ⟨_, rfl⟩
        trivial
      · exact List.forall_mem_cons.mpr ⟨⟨R, hl, hs, Fragment.covers_nil.mp hstk⟩, h.waiting⟩
  cases hc : m.control with
  | leave w =>
    rw [step_leave hc]
    exact h.unwind w
  | stopped stop =>
    rw [step_stopped hc]
    exact h
  | eval | give => apply hg <;> rw [hc] <;> nofun
  | run code =>
    cases code with
    | nil => apply hg <;> rw [hc] <;> nofun
    | cons i rest =>
      refine h.stays (step_same_of_run hc) hheap hl hs ?_
      rw [step_run_cons hc]
      exact .run_cons (hh.block hc) nofun hh.tasks

theorem made?_of_ne (h : ∀ {name sup}, m.control ≠ .eval (.newClass name sup)) :
    ((m.act host).made? s).or latest = latest := by
  cases hact : m.act host with
  | newClass name sup =>
    obtain ⟨index, hc, _⟩ := act_newClass hact
    exact absurd hc h
  | _ => rfl

theorem Sectioned.step [host.Attached] (hsound : m.store.heap.Sound .any)
    (h : m.Sectioned M latest) :
    (m.step host).Sectioned M (((m.act host).made? m.store).or latest) := by
  have hh := h.step_heap host
  obtain ⟨R, hl, hsize, hphase⟩ := h.running
  cases hphase with
  | ending he =>
    rw [made?_of_ne (not_ending he)]
    rcases he with ⟨w, hc⟩ | ⟨stop, hc⟩
    · rw [step_leave hc]
      exact h.unwind w
    · rw [step_stopped hc]
      exact h
  | outside hholds =>
    rw [made?_of_ne fun hc => hholds.code hc]
    exact h.step_outside hl hsize hholds
  | @inside v code hc hcode hstk hk =>
    rw [made?_of_ne (by rw [hc]; nofun)]
    cases code with
    | nil =>
      refine h.step_outside hl hsize
        ⟨Fragment.covers_nil.mpr hstk, by rw [hc]; nofun, fun hc' => ?_⟩
      cases hc.symm.trans hc'
      trivial
    | cons i rest =>
      refine h.stays (step_same_of_run hc) hh hl hsize ?_
      rw [step_run_cons hc]
      exact .run_cons hcode (fun hv => Option.some.inj hv ▸ hk) hstk
  | makes hlt hc hs hres =>
    refine h.stays (step_same_of_eval hc) hh hl hsize ?_
    rw [step_eval hc]
    exact .making hlt rfl (congrArg (_ :: ·) hs) hres
  | making hlt hc hs hres =>
    exact h.stays (step_same_of_eval hc) hh hl hsize
      (.step_making hsound hlt hc hs hres)
  | made hlt hlat hc hcls hs hres =>
    rw [made?_of_ne (by rw [hc]; nofun)]
    exact h.stays (step_same_of_receives hs (.inl hc) id) hh hl hsize
      (.step_made hsize hlt hlat hc hcls hs hres)
  | passing hk hp ht hs hres =>
    rw [made?_of_ne fun hc => by rw [hc] at hp; exact hp]
    refine h.stays ?_ hh hl hsize (.step_passing hk hp ht hs hres)
    exact same_of_passing hp ht hs hres
  | attaching hk hc _ hmth hs hres =>
    rw [made?_of_ne (by rw [hc]; nofun)]
    exact h.stays (step_same_of_eval hc) hh hl hsize (.step_attaching hsound hk hc hmth hs hres)
  | attached hk hc _ _ _ hs hres =>
    rw [made?_of_ne (by rw [hc]; nofun)]
    exact h.stays (step_same_of_receives hs (.inl hc) id) hh hl hsize (.step_attached hk hc hs hres)

/-! ## §5 Methods -/

theorem Sectioned.attaches (h : m.Sectioned M latest)
    (hact : m.act host = .addMethod target name method) :
    (∃ index, latest = some index ∧ target = .ofIndex index ∧ m.store.heap.HasClass index) ∧
      ∃ c unit d, m.store.heap.deref? method = some (.closure c) ∧ c.entry = .compiled unit d ∧
        M name unit d := by
  obtain ⟨v, stack, hs, rfl, hg⟩ := act_addMethod hact
  have hne : ∀ {e}, m.control ≠ .eval e := by
    intro e hc
    rcases hg with h' | ⟨h', _⟩ <;> cases hc.symm.trans h'
  obtain ⟨R, hl, _, hp⟩ := h.running
  have hset : ¬∀ task ∈ m.stack, task.Settled R := fun hall =>
    hall (.addMethod v name) (hs ▸ List.mem_cons_self)
  have hnot : ∀ {tasks : List Pending} {stack' v'}, (∀ task ∈ tasks, task.Passes v') →
      R.Resumes v' stack' → m.stack ≠ tasks ++ stack' := by
    rintro tasks _ v' ht ⟨code, below, rfl, _⟩ heq
    rw [hs] at heq
    cases tasks with
    | nil => cases heq
    | cons task rest =>
      obtain ⟨rfl, _⟩ := List.cons.inj heq
      exact ht _ List.mem_cons_self
  cases hp with
  | ending he =>
    rcases hg with h' | ⟨h', _⟩ <;> rcases he with ⟨_, hc⟩ | ⟨_, hc⟩ <;> cases h'.symm.trans hc
  | outside hh => exact absurd hh.tasks hset
  | inside _ _ hstk => exact absurd hstk hset
  | makes _ hc | making _ hc | attaching _ hc => exact absurd hc hne
  | made _ _ _ _ hs' => cases hs.symm.trans hs'
  | passing _ _ ht hs' hres => exact absurd hs' (hnot ht hres)
  | @attached v' d w c name' stack' hk hc hd hent hmth hs' =>
    obtain ⟨rfl, rfl⟩ : v = v' ∧ name = name' := by
      cases hs.symm.trans hs'
      exact ⟨rfl, rfl⟩
    rcases hg with h' | ⟨h', _⟩ <;> cases hc.symm.trans h'
    exact ⟨hk, _, _, _, hd, hent, hl.method hmth⟩

end Machine

end ScriptMachine
