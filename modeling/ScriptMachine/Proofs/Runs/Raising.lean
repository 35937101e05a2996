/-
ScriptMachine.Proofs.Runs.Raising — what a raised error does to a run.
-/
import ScriptMachine.Proofs.Evolution
import ScriptMachine.Proofs.Runs.Steps

namespace ScriptMachine

/-! ## §1 Signals -/

namespace Store

variable {r : Except Failure Word × Store}

def signals (s : Store) : Bool × Option Failure × Nat := (s.pending, s.error, s.depth)

def Flagged (s : Store) : Prop := s.pending = s.error.isSome

variable {s s' : Store}

theorem pending_of_signals (h : s'.signals = s.signals) : s'.pending = s.pending :=
  congrArg (·.1) h

theorem error_of_signals (h : s'.signals = s.signals) : s'.error = s.error :=
  congrArg (·.2.1) h

theorem depth_of_signals (h : s'.signals = s.signals) : s'.depth = s.depth :=
  congrArg (·.2.2) h

theorem Flagged.congr (h : s.Flagged) (hs : s'.signals = s.signals) : s'.Flagged := by
  unfold Flagged at h ⊢
  rw [pending_of_signals hs, error_of_signals hs, h]

theorem flagged_raise (s : Store) (e : Failure) : (s.raise e).Flagged := rfl

theorem signals_print (s : Store) (w : Word) : (s.print w).signals = s.signals := by
  unfold print
  split <;> rfl

theorem signals_addMethod (s : Store) (w : Word) (name : Symbol) (method : Word) :
    (s.addMethod w name method).signals = s.signals := by
  unfold addMethod
  split <;> rfl

theorem signals_alloc (s : Store) (o : Object) : (s.alloc o).2.signals = s.signals := by
  rcases s.alloc_cases o with ⟨_, h⟩ | ⟨_, h⟩ <;> rw [h]
  rfl

theorem Makes.signals {fresh : Object → Prop} (h : s.Makes fresh r) : r.2.signals = s.signals :=
  h.store (P := (·.signals = s.signals)) rfl fun _ => s.signals_alloc _

theorem signals_setGlobal (s : Store) (slot : Nat) (w : Word) :
    (s.setGlobal slot w).2.signals = s.signals := by
  unfold setGlobal
  split <;> rfl

theorem signals_getProperty (s : Store) (object : Word) (name : Symbol) (site : Nat) :
    (s.getProperty object name site).2.signals = s.signals := by
  rcases s.getProperty_cases object name site with ⟨_, _, _, _, heq⟩ | hm
  · rw [heq]
    rfl
  · exact hm.signals

theorem signals_setProperty (s : Store) (object : Word) (name : Symbol) (w : Word)
    (site : Nat) : (s.setProperty object name w site).2.signals = s.signals := by
  unfold setProperty
  split
  · rfl
  · dsimp only
    split <;> rfl

theorem signals_prepareCall (s : Store) (callee : Word) (count : Nat) :
    (s.prepareCall callee count).2.signals = s.signals :=
  prepareCall_store (P := (·.signals = s.signals)) count rfl (s.signals_alloc _)

structure Reports (s s' : Store) : Prop where
  flagged : s.Flagged → s'.Flagged
  depth : s'.depth = s.depth

theorem Reports.of_signals (h : s'.signals = s.signals) : s.Reports s' :=
  ⟨fun hf => hf.congr h, depth_of_signals h⟩

theorem Reports.raise (h : s'.signals = s.signals) (e : Failure) : s.Reports (s'.raise e) :=
  ⟨fun _ => flagged_raise s' e, show s'.depth = s.depth from depth_of_signals h⟩

theorem reports_report (h : r.2.signals = s.signals) : s.Reports (Serve.report r).2 := by
  obtain ⟨_ | _, s'⟩ := r
  · exact .raise h _
  · exact .of_signals h

theorem reports_prepareCall (s : Store) (callee : Word) (count : Nat) :
    s.Reports (Serve.prepareCall callee count s).2 ∧
      ((Serve.prepareCall callee count s).1.isSome →
        (Serve.prepareCall callee count s).2.signals = s.signals) := by
  have h := s.signals_prepareCall callee count
  unfold Serve.prepareCall
  split
  · next heq =>
    rw [heq] at h
    exact ⟨.of_signals h, fun _ => h⟩
  · next heq =>
    rw [heq] at h
    exact ⟨.raise h _, nofun⟩

end Store

/-! ## §2 Orderly -/

/-- The running function is about to return, or the run is over. -/
def Control.isExit : Control → Bool
  | .leave _ | .stopped _ => true
  | _ => false

theorem Control.isExit_cases {control : Control} (h : control.isExit = true) :
    (∃ stop, control = .stopped stop) ∨ ∃ w, control = .leave w := by
  cases control with
  | stopped stop => exact .inl ⟨stop, rfl⟩
  | leave w => exact .inr ⟨w, rfl⟩
  | run | eval | give => cases h

namespace Machine

variable {n : Nat} {e : Failure}

/-- How many functions are running. -/
def nesting (m : Machine) : Nat :=
  match m.control with
  | .stopped (.returned _) => 0
  | _ => m.callers.length + 1

structure Orderly (m : Machine) (base : Nat := 0) : Prop where
  depth : m.store.depth = m.nesting + base
  flagged : m.store.Flagged
  exits : m.store.pending = true → m.control.isExit = true

structure Underway (m : Machine) (base : Nat := 0) : Prop where
  depth : m.store.depth = m.callers.length + 1 + base
  flagged : m.store.Flagged

structure Calm (m : Machine) (base : Nat := 0) : Prop extends m.Underway base where
  calm : m.store.pending = false

variable {base : Nat} {m m' : Machine} {host : Host}

namespace Underway

theorem reports (h : m.Underway base) {s : Store} (hs : m.store.Reports s) :
    Underway { m with store := s } base :=
  ⟨hs.depth.trans h.depth, hs.flagged h.flagged⟩

theorem leave (h : m.Underway base) (w : Word) : (m.leave w).Orderly base :=
  ⟨h.depth, h.flagged, fun _ => rfl⟩

theorem giveUnlessPending (h : m.Underway base) (w : Word) :
    (m.giveUnlessPending w).Orderly base := by
  unfold Machine.giveUnlessPending
  split
  · exact h.leave .nil
  · next hc => exact ⟨h.depth, h.flagged, fun hp => absurd hp hc⟩

end Underway

namespace Calm

theorem congr (h : m.Calm base) (hs : m'.store.signals = m.store.signals)
    (hc : m'.callers = m.callers) : m'.Calm base where
  depth := by rw [Store.depth_of_signals hs, hc, h.depth]
  flagged := h.flagged.congr hs
  calm := (Store.pending_of_signals hs).trans h.calm

theorem error (h : m.Calm base) : m.store.error = none := by
  have hf := h.flagged
  unfold Store.Flagged at hf
  rw [h.calm] at hf
  exact Option.isSome_eq_false_iff.mp hf.symm |> Option.isNone_iff_eq_none.mp

theorem goes (h : m.Calm base) (hs : m'.store.signals = m.store.signals)
    (hc : m'.callers = m.callers)
    (hrun : ∀ w, m'.control ≠ .stopped (.returned w)) : m'.Orderly base := by
  have h' := h.congr hs hc
  refine ⟨?_, h'.flagged, fun hp => ?_⟩
  · unfold nesting
    split
    · next w heq => exact absurd heq (hrun w)
    · exact h'.depth
  · rw [h'.calm] at hp
    cases hp

theorem served (h : m.Calm base) (routine : Store → Word × Store)
    (hr : (routine m.store).2.signals = m.store.signals) : (m.serve host routine).2.Calm base := by
  unfold serve
  split
  · exact h.congr hr rfl
  · exact h

theorem reported (h : m.Calm base) (routine : Store → Word × Store)
    (hr : m.store.Reports (routine m.store).2) : (m.serve host routine).2.Underway base := by
  unfold serve
  split
  · exact h.toUnderway.reports hr
  · exact h.toUnderway

theorem checked (h : m.Calm base) (routine : Store → Word × Store)
    (hr : m.store.Reports (routine m.store).2) : (m.checked host routine).Orderly base :=
  (h.reported routine hr).giveUnlessPending _

end Calm

/-! ## §3 Steps -/

theorem enter_orderly (hd : m.store.depth = m.callers.length + base) (hf : m.store.Flagged)
    (hc : m.store.pending = false) (frame : Frame) (f : Function) :
    (m.enter host frame f).Orderly base := by
  unfold enter
  dsimp only
  have hent : Calm
      { m with
        store := { m.store with depth := m.store.depth + 1 }
        frame := { frame with locals := Array.replicate f.locals .zero }
        stack := [] } base :=
    ⟨⟨(congrArg (· + 1) hd).trans (Nat.add_right_comm ..), hf⟩, hc⟩
  split
  · exact (hent.reported Serve.stackOverflow (.raise rfl _)).leave .nil
  · exact hent.goes rfl rfl nofun

theorem Underway.unwind (h : m.Underway base) (w : Word) : (m.unwind w).Orderly base := by
  obtain ⟨hd, hf⟩ := h
  unfold Machine.unwind
  dsimp only
  split
  · next hnil =>
    refine ⟨?_, hf, fun _ => rfl⟩
    rw [hnil] at hd
    show m.store.depth - 1 = 0 + base
    rw [List.length_nil] at hd
    omega
  · next caller rest hc =>
    rw [hc] at hd
    apply Underway.giveUnlessPending
    refine ⟨?_, hf⟩
    show m.store.depth - 1 = rest.length + 1 + base
    rw [List.length_cons] at hd
    omega

namespace Calm

theorem callTarget (h : m.Calm base) (target : CallTarget) (args : List Word) :
    (m.callTarget host target args).Orderly base := by
  unfold Machine.callTarget
  split
  · split
    · exact h.leave .nil
    · exact h.goes rfl rfl nofun
  · exact h.giveUnlessPending _
  · exact h.giveUnlessPending _
  · split
    · exact h.goes rfl rfl nofun
    · apply enter_orderly
      · exact h.depth
      · exact h.flagged
      · exact h.calm

variable (h : m.Calm base)

include h

theorem call (callee : Word) (args : List Word) : (m.call host callee args).Orderly base := by
  unfold Machine.call
  split
  · obtain ⟨hrep, hs⟩ := m.store.reports_prepareCall callee args.length
    dsimp only
    split
    · next target heq =>
      rw [heq] at hs
      have hc : Calm { m with store := (Serve.prepareCall callee args.length m.store).2 }
        base :=
        h.congr (hs rfl) rfl
      exact hc.callTarget target args
    · exact (h.toUnderway.reports hrep).leave .nil
  · exact h.leave .nil

theorem callWith (callee : Word) (done : List Word) (rest : List Code) :
    (m.callWith host callee done rest).Orderly base := by
  cases rest with
  | nil => exact h.call callee done
  | cons e rest => exact h.goes rfl rfl nofun

theorem negate (w : Word) : (m.negate host w).Orderly base := by
  unfold Machine.negate
  split
  · exact h.goes rfl rfl nofun
  · exact h.checked (Serve.negate w) (Store.reports_report rfl)

theorem binary (op : BinaryOp) (left right : Word) :
    (m.binary host op left right).Orderly base := by
  have he : (m.serve host (Serve.valuesEqual left right)).2.Calm base := h.served _ rfl
  unfold Machine.binary
  split
  · exact h.goes rfl rfl nofun
  · split
    · exact he.goes rfl rfl nofun
    · exact he.goes rfl rfl nofun
    · exact h.checked (Serve.binary _ left right)
        (Store.reports_report (m.store.binary_makes ..).signals)

theorem getProperty (object : Word) (name : Symbol) (site : Nat) :
    (m.getProperty host object name site).Orderly base := by
  unfold Machine.getProperty
  split
  · exact h.goes rfl rfl nofun
  · exact h.checked (Serve.getProperty object name site)
      (Store.reports_report (m.store.signals_getProperty ..))

theorem setProperty (object : Word) (name : Symbol) (w : Word) (site : Nat) :
    (m.setProperty host object name w site).Orderly base := by
  unfold Machine.setProperty
  split
  · exact h.goes rfl rfl nofun
  · exact h.checked (Serve.setProperty object name w site)
      (Store.reports_report (m.store.signals_setProperty ..))

theorem eval (e : Code) : (m.eval host e).Orderly base := by
  cases e with
  | readCell cell =>
    have hr : (m.serve host (Serve.cellGet (m.cellWord host cell))).2.Calm base := h.served _ rfl
    exact hr.goes rfl rfl nofun
  | readGlobal slot => exact h.checked (Serve.globalGet slot) (Store.reports_report rfl)
  | closure declaration prototype cells =>
    exact h.checked (Serve.makeClosure prototype _ _)
      (Store.reports_report (m.store.makeClosure_makes ..).signals)
  | newClass name superclass =>
    exact h.checked (Serve.newClass name _) (Store.reports_report
      (m.store.newClass_makes ..).signals)
  | _ => exact h.goes rfl rfl nofun

theorem receive (w : Word) (task : Pending) : (m.receive host w task).Orderly base := by
  cases task with
  | newCell => exact h.checked (Serve.newCell w) (Store.reports_report (m.store.signals_alloc _))
  | assignCell cell =>
    have hset : (m.serve host (Serve.cellSet (m.cellWord host cell) w)).2.Calm base :=
      h.served _ rfl
    exact hset.goes rfl rfl nofun
  | assignGlobal slot =>
    exact (h.reported (Serve.globalSet slot w)
      (Store.reports_report (m.store.signals_setGlobal ..))).giveUnlessPending w
  | negate => exact h.negate w
  | rightOperand op left => exact h.binary op left w
  | logical op right =>
    cases op with
    | and | or =>
      dsimp only [Machine.receive]
      split <;> exact h.goes rfl rfl nofun
  | callee args => exact h.callWith w [] args
  | argument callee done rest => exact h.callWith callee (done ++ [w]) rest
  | getProperty name site => exact h.getProperty w name site
  | setProperty object name site => exact h.setProperty object name w site
  | superReceiver superclass name =>
    exact h.checked (Serve.getSuper superclass w name)
      (Store.reports_report (m.store.getSuper_makes ..).signals)
  | print => exact (h.served (Serve.print w) (m.store.signals_print w)).goes rfl rfl nofun
  | defineGlobal slot => exact (h.served (Serve.globalDefine slot w) rfl).goes rfl rfl nofun
  | loopTest condition body =>
    dsimp only [Machine.receive]
    split <;> exact h.goes rfl rfl nofun
  | addMethod classVariable name =>
    exact (h.served (Serve.addMethod _ name w) (m.store.signals_addMethod ..)).goes rfl rfl nofun
  | leave => exact h.leave w
  | _ => exact h.goes rfl rfl nofun

theorem exec (i : Instr) : (m.exec i).Orderly base := by
  cases i <;> exact h.goes rfl rfl nofun

end Calm

namespace Orderly

theorem underway (h : m.Orderly base) (hrun : ∀ w, m.control ≠ .stopped (.returned w)) :
    m.Underway base := by
  refine ⟨?_, h.flagged⟩
  rw [h.depth]
  unfold nesting
  split
  · next w heq => exact absurd heq (hrun w)
  · rfl

theorem calm (h : m.Orderly base) (he : m.control.isExit = false) : m.Calm base where
  toUnderway := h.underway fun w heq => by simp [heq, Control.isExit] at he
  calm := by
    cases hp : m.store.pending with
    | false => rfl
    | true =>
      rw [h.exits hp] at he
      cases he

theorem step (h : m.Orderly base) : (m.step host).Orderly base := by
  have hstk : ∀ stack, m.Calm base → Calm { m with stack := stack } base :=
    fun stack hcalm => hcalm.congr rfl rfl
  have hoff : ∀ {w}, m.Offers w → m.Calm base := fun hc =>
    h.calm (by rcases hc with hc | ⟨hc, _⟩ <;> rw [hc] <;> rfl)
  cases m.turn with
  | stopped hc =>
    rw [step_stopped hc]
    exact h
  | @leaves w hc =>
    rw [step_leave hc]
    exact (h.underway fun _ heq => by simp [hc] at heq).unwind w
  | @executes i rest hc =>
    rw [step_run_cons hc]
    exact (hstk _ (h.calm (by rw [hc]; rfl))).exec i
  | @evaluates e hc =>
    rw [step_eval hc]
    exact (h.calm (by rw [hc]; rfl)).eval e
  | @ends w hs hc =>
    rw [step_ends hs hc]
    exact (hoff hc).leave w
  | @receives w task stack hs hc =>
    rw [step_receives hs hc]
    exact (hstk stack (hoff hc)).receive w task

theorem run (h : m.Orderly base) (fuel : Nat) : (m.run host fuel).Orderly base :=
  run_induction (P := (·.Orderly base)) (fun h => h.step) fuel h

end Orderly

theorem start_orderly {store : Store} (hd : store.depth = base) (hf : store.Flagged)
    (hc : store.pending = false) (unit : CodeUnit) (f : Function) :
    (start host store unit f).Orderly base :=
  enter_orderly (hd.trans (Nat.zero_add base).symm) hf hc _ f

/-! ## §4 Raises -/

/-- The error one step raises, whatever was raised before. -/
def raises (m : Machine) (host : Host) : Option Failure :=
  ({ m with store := { m.store with error := none } }.step host).store.error

theorem raises_of_error (h : m.store.error = none) : m.raises host = (m.step host).store.error := by
  unfold raises
  rw [← h]

theorem unwind_store (m : Machine) (w : Word) :
    (m.unwind w).store = { m.store with depth := m.store.depth - 1 } := by
  unfold unwind giveUnlessPending
  dsimp only
  split
  · rfl
  · split <;> rfl

namespace Orderly

variable {e : Failure} (h : m.Orderly base)

include h

theorem step_store (hp : m.store.pending = true) :
    (m.step host).store = { m.store with depth := (m.step host).store.depth } := by
  rcases Control.isExit_cases (h.exits hp) with ⟨stop, hc⟩ | ⟨w, hc⟩
  · rw [step_stopped hc]
  · rw [step_leave hc, unwind_store]

theorem run_store (hp : m.store.pending = true) (n : Nat) :
    (m.run host n).store = { m.store with depth := (m.run host n).store.depth } := by
  induction n with
  | zero => rfl
  | succ n ih =>
    have hn : (m.run host n).store.pending = true := by rw [ih]; exact hp
    rw [run_succ, (h.run n).step_store hn, ih]

theorem pending_of_error (he : m.store.error ≠ none) : m.store.pending = true := by
  rw [h.flagged]
  exact Option.isSome_iff_ne_none.mpr he

theorem step_error (he : m.store.error = some e) : (m.step host).store.error = some e := by
  rw [h.step_store (h.pending_of_error (by simp [he]))]
  exact he

theorem stops (he : m.store.error = some e) (host : Host) :
    ∃ n stop, (m.run host n).stop? = some stop ∧ (m.run host n).store.error = some e := by
  induction hcs : m.callers generalizing m with
  | nil =>
    rcases Control.isExit_cases (h.exits (h.pending_of_error (by simp [he]))) with
      ⟨stop, hc⟩ | ⟨w, hc⟩
    · exact ⟨0, stop, by simp [Machine.run, stop?, hc], he⟩
    · refine ⟨1, .returned w, ?_, ?_⟩
      · rw [run_succ]
        show (m.step host).stop? = _
        rw [step_leave hc]
        simp [unwind, hcs, stop?]
      · rw [run_succ]
        exact h.step_error he
  | cons caller rest ih =>
    have hp := h.pending_of_error (by simp [he])
    rcases Control.isExit_cases (h.exits hp) with ⟨stop, hc⟩ | ⟨w, hc⟩
    · exact ⟨0, stop, by simp [Machine.run, stop?, hc], he⟩
    · have hstep : (m.step host).callers = rest := by
        rw [step_leave hc]
        simp [unwind, hcs, giveUnlessPending, hp, Machine.leave]
      obtain ⟨n, hn⟩ := ih h.step (h.step_error he) hstep
      refine ⟨1 + n, ?_⟩
      rw [run_add, run_succ]
      exact hn

end Orderly

def raisesAt (m : Machine) (host : Host) : Nat → Option Failure
  | 0 => m.store.error
  | n + 1 => (m.run host n).raises host

/-- An error is raised in a step, and none in the steps before it. -/
structure RaisesFirst (m : Machine) (host : Host) (n : Nat) (e : Failure) : Prop where
  raised : m.raisesAt host n = some e
  first : ∀ k < n, m.raisesAt host k = none

theorem Orderly.error_eq_none_iff (h : m.Orderly base) (n : Nat) :
    (m.run host n).store.error = none ↔ ∀ k ≤ n, m.raisesAt host k = none := by
  induction n with
  | zero =>
    constructor
    · intro hn k hk
      rw [Nat.le_zero.mp hk]
      exact hn
    · intro hk
      exact hk 0 (Nat.le_refl 0)
  | succ n ih =>
    rw [run_succ]
    constructor
    · intro hn k hk
      have hbef : (m.run host n).store.error = none := by
        cases he : (m.run host n).store.error with
        | none => rfl
        | some e => exact absurd (hn.symm.trans ((h.run n).step_error he)) nofun
      rcases Nat.le_succ_iff.mp hk with hle | rfl
      · exact ih.mp hbef k hle
      · exact (raises_of_error hbef).trans hn
    · intro hk
      have hbef := ih.mpr fun k hle => hk k (Nat.le_succ_of_le hle)
      exact (raises_of_error hbef).symm.trans (hk (n + 1) (Nat.le_refl _))

theorem RaisesFirst.error (h : m.RaisesFirst host n e) (ho : m.Orderly base) :
    (m.run host n).store.error = some e := by
  cases n with
  | zero => exact h.raised
  | succ n =>
    have hbef := (ho.error_eq_none_iff n).mpr fun k hk => h.first k (Nat.lt_succ_of_le hk)
    rw [run_succ, ← raises_of_error hbef]
    exact h.raised

theorem RaisesFirst.store (h : m.RaisesFirst host n e) (ho : m.Orderly base)
    {k : Nat} (hk : n ≤ k) :
    (m.run host k).store = { (m.run host n).store with depth := (m.run host k).store.depth } := by
  obtain ⟨j, rfl⟩ := Nat.exists_eq_add_of_le hk
  rw [run_add]
  exact (ho.run n).run_store ((ho.run n).pending_of_error (by simp [h.error ho])) j

theorem Orderly.error_eq_some_iff (h : m.Orderly base) (n : Nat) (e : Failure) :
    (m.run host n).store.error = some e ↔ ∃ k ≤ n, m.RaisesFirst host k e := by
  constructor
  · intro he
    induction n with
    | zero => exact ⟨0, Nat.le_refl 0, he, nofun⟩
    | succ n ih =>
      cases hbef : (m.run host n).store.error with
      | none =>
        rw [run_succ, ← raises_of_error hbef] at he
        have hn := (h.error_eq_none_iff n).mp hbef
        exact ⟨n + 1, Nat.le_refl _, he, fun k hk => hn k (Nat.le_of_lt_succ hk)⟩
      | some e' =>
        rw [run_succ, (h.run n).step_error hbef] at he
        cases he
        obtain ⟨k, hk, hfst⟩ := ih hbef
        exact ⟨k, Nat.le_succ_of_le hk, hfst⟩
  · rintro ⟨k, hk, hfst⟩
    rw [hfst.store h hk]
    exact hfst.error h

end Machine

end ScriptMachine
