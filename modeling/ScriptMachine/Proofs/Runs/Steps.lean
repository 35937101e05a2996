/-
ScriptMachine.Proofs.Runs.Steps — one equation for each kind of step, and how
runs compose.
-/
import ScriptMachine.Machine.Step

namespace ScriptMachine

/-- The values a task has waiting. -/
def Pending.words : Pending → List Word
  | .rightOperand _ left => [left]
  | .argument function done _ => function :: done
  | .setProperty object _ _ => [object]
  | .superReceiver value _ => [value]
  | _ => []

theorem Frame.value_setVariable (f : Frame) (i k : Nat) (w : Word) :
    (f.setVariable i w).value k = if i = k ∧ k < f.locals.size then w else f.value k := by
  unfold Frame.value Frame.setVariable
  by_cases hik : i = k
  · subst hik
    by_cases hlt : i < f.locals.size
    · simp [hlt]
    · simp [hlt]
  · simp [hik]

class Host.Attached (host : Host) : Prop where
  attached : host.attached = true

@[simp]
theorem Host.attached_eq (host : Host) [h : host.Attached] : host.attached = true :=
  h.attached

namespace Machine

variable {m : Machine} {host : Host} {stop : Stop} {w : Word} {task : Pending}
  {stack : List Pending}

/-! ## §1 Steps -/

theorem step_stopped (h : m.control = .stopped stop) : m.step host = m := by
  simp [step, h]

theorem step_run_cons {i : Instr} {rest : List Instr} (h : m.control = .run (i :: rest)) :
    m.step host = { m with stack := .rest rest :: m.stack }.exec i := by
  simp [step, h]

theorem step_eval {e : Code} (h : m.control = .eval e) : m.step host = m.eval host e := by
  simp [step, h]

theorem step_leave (h : m.control = .leave w) : m.step host = m.unwind w := by
  simp [step, h]

def Offers (m : Machine) (w : Word) : Prop :=
  m.control = .give w ∨ m.control = .run [] ∧ w = .nil

theorem step_receives (hs : m.stack = task :: stack) (hc : m.Offers w) :
    m.step host = { m with stack := stack }.receive host w task := by
  rcases hc with hc | ⟨hc, rfl⟩ <;> simp [step, resume, hc, hs]

theorem step_give_cons (h : m.control = .give w) (hs : m.stack = task :: stack) :
    m.step host = { m with stack := stack }.receive host w task :=
  step_receives hs (.inl h)

theorem step_ends (hs : m.stack = []) (hc : m.Offers w) : m.step host = m.leave w := by
  rcases hc with hc | ⟨hc, rfl⟩ <;> simp [step, resume, hc, hs]

inductive Turn (m : Machine) : Prop
  | stopped {stop : Stop} (hc : m.control = .stopped stop)
  | leaves {w : Word} (hc : m.control = .leave w)
  | executes {i : Instr} {rest : List Instr} (hc : m.control = .run (i :: rest))
  | evaluates {e : Code} (hc : m.control = .eval e)
  | ends {w : Word} (hs : m.stack = []) (hc : m.Offers w)
  | receives {w : Word} {task : Pending} {stack : List Pending} (hs : m.stack = task :: stack)
      (hc : m.Offers w)

theorem turn (m : Machine) : m.Turn := by
  have hoff : ∀ {w}, m.Offers w → m.Turn := by
    intro w hc
    cases hs : m.stack with
    | nil => exact .ends hs hc
    | cons task stack => exact .receives hs hc
  cases hc : m.control with
  | stopped stop => exact .stopped hc
  | leave w => exact .leaves hc
  | eval e => exact .evaluates hc
  | give w => exact hoff (.inl hc)
  | run code =>
    cases code with
    | nil => exact hoff (.inr ⟨hc, rfl⟩)
    | cons i rest => exact .executes hc

theorem serve_attached [host.Attached] (m : Machine) (routine : Store → Word × Store) :
    m.serve host routine = ((routine m.store).1, { m with store := (routine m.store).2 }) := by
  unfold serve
  rw [if_pos host.attached_eq]

theorem checked_attached [host.Attached] {routine : Store → Word × Store} {s : Store}
    (hrtn : routine m.store = (w, s)) :
    m.checked host routine =
      { m with store := s, control := if s.pending then .leave .nil else .give w } := by
  simp only [checked, serve_attached, hrtn, giveUnlessPending]
  split <;> rfl

theorem store_giveUnlessPending (m : Machine) (w : Word) :
    (m.giveUnlessPending w).store = m.store := by
  unfold giveUnlessPending
  split <;> rfl

theorem callers_giveUnlessPending (m : Machine) (w : Word) :
    (m.giveUnlessPending w).callers = m.callers := by
  unfold giveUnlessPending
  split <;> rfl

/-! ## §2 Runs -/

theorem run_induction {P : Machine → Prop} (hstep : ∀ {m}, P m → P (m.step host)) (fuel : Nat)
    (h : P m) : P (m.run host fuel) := by
  induction fuel generalizing m with
  | zero => exact h
  | succ fuel ih =>
    unfold run
    split
    · exact h
    · exact ih (hstep h)

theorem run_of_stop (h : m.control = .stopped stop) (fuel : Nat) : m.run host fuel = m := by
  cases fuel with
  | zero => rfl
  | succ fuel => simp [run, stop?, h]

theorem run_succ (m : Machine) (host : Host) (fuel : Nat) :
    m.run host (fuel + 1) = (m.run host fuel).step host := by
  induction fuel generalizing m with
  | zero =>
    cases hc : m.control with
    | stopped stop => rw [run_of_stop hc, run_of_stop hc, step_stopped hc]
    | _ => simp [run, stop?, hc]
  | succ fuel ih =>
    cases hc : m.control with
    | stopped stop => rw [run_of_stop hc, run_of_stop hc, step_stopped hc]
    | _ =>
      have hg : ∀ n, m.run host (n + 1) = (m.step host).run host n := fun n => by
        simp [run, stop?, hc]
      rw [hg, ih, hg]

theorem run_add (m : Machine) (host : Host) (n k : Nat) :
    m.run host (n + k) = (m.run host n).run host k := by
  induction k with
  | zero => rfl
  | succ k ih => rw [← Nat.add_assoc, run_succ, run_succ, ih]

end Machine

end ScriptMachine
