/-
ScriptMachine.Proofs.Runs.Writes — which object a step writes.
-/
import ScriptMachine.Proofs.Footprints
import ScriptMachine.Proofs.Runs.Searching

namespace ScriptMachine

/-! ## §1 Acts -/

namespace Act

/-- The object an act writes, if properties are looked up by search. -/
def target (s : Store) : Act → Footprint
  | .setCell cell value => s.cellFootprint cell value
  | .setProperty object name value _ => s.fieldFootprint object name value
  | .addMethod target name method => s.methodFootprint target name method
  | _ => none

/-- The object an act writes. -/
def footprint (s : Store) : Act → Footprint
  | .setProperty object name value site =>
    match s.cached? object site with
    | some (_, slot) => some (object.objectIndex, .slot slot value)
    | none => s.fieldFootprint object name value
  | a => a.target s

variable {s : Store}

theorem apply_writesOnly (h : s.Laid) (a : Act) : s.WritesOnly (a.footprint s) (a.apply s) := by
  have hs : s.WritesOnly none s := .refl h
  cases a with
  | nothing => exact hs
  | print w => exact Store.writesOnly_print h w
  | binary op left right => exact .report (Store.writesOnly_binary h op left right)
  | negate operand => exact .report hs
  | getGlobal slot => exact .report hs
  | setGlobal slot value => exact .report (Store.writesOnly_setGlobal h slot value)
  | defineGlobal slot value => exact .nothing h rfl rfl
  | newCell value => exact .report (.alloc h nofun)
  | setCell cell value => exact Store.writesOnly_setCell h cell value
  | makeClosure prototype entry cells =>
    exact .report (Store.writesOnly_makeClosure h prototype entry cells)
  | getProperty object name site =>
    simp only [apply]
    split
    · exact .nothing h rfl rfl
    · exact .report (Store.writesOnly_getProperty h object name site)
  | setProperty object name value site =>
    cases hcch : s.cached? object site with
    | some hit =>
      simp only [apply, footprint, hcch]
      exact Store.writesOnly_setCached h hcch value
    | none =>
      simp only [apply, footprint, hcch]
      exact .report (Store.writesOnly_setProperty h object name value site)
  | newClass name superclass => exact .report (Store.writesOnly_newClass h name superclass)
  | addMethod target name method => exact Store.writesOnly_addMethod h target name method
  | getSuper superclass receiver name =>
    exact .report (Store.writesOnly_getSuper h superclass receiver name)
  | call callee arguments =>
    have hc := Store.writesOnly_servePrepareCall h callee arguments.length
    simp only [apply]
    split
    · next heq =>
      rw [heq] at hc
      split
      · refine hc.congr ?_ ?_ <;> unfold Store.entered <;> dsimp only <;> split <;> rfl
      · exact hc
    · next heq =>
      rw [heq] at hc
      exact hc
  | leave => exact .nothing h rfl rfl

theorem footprint_of_blank (hb : Blank s.sites) (a : Act) : a.footprint s = a.target s := by
  cases a with
  | setProperty object name value site =>
    simp [footprint, target, Store.cached?_of_blank hb]
  | _ => rfl

end Act

/-! ## §2 Steps -/

namespace Machine

variable {m : Machine} {host : Host}

theorem step_writesOnly (host : Host) [host.Attached] (h : m.store.Laid) :
    m.store.WritesOnly ((m.act host).footprint m.store) (m.step host).store := by
  rw [step_store]
  exact (m.act host).apply_writesOnly h

theorem run_laid (host : Host) [host.Attached] (h : m.store.Laid) (n : Nat) :
    (m.run host n).store.Laid := by
  induction n with
  | zero => exact h
  | succ n ih =>
    rw [run_succ]
    exact (step_writesOnly host ih).laid

theorem run_endures (host : Host) [host.Attached] (h : m.store.Laid) (n : Nat) :
    m.store.Endures (m.run host n).store := by
  induction n with
  | zero => exact .refl _
  | succ n ih =>
    have hl := run_laid host h n
    rw [run_succ]
    exact ih.trans ((step_writesOnly host hl).endures hl)

theorem evalAct_withSites (m : Machine) (sites : Array Site) (e : Code) :
    (m.withSites sites).evalAct host e = m.evalAct host e := by
  cases e <;> simp only [evalAct, cellWord_withSites] <;> rfl

theorem receiveAct_withSites (m : Machine) (sites : Array Site) (w : Word) (task : Pending) :
    (m.withSites sites).receiveAct host w task = m.receiveAct host w task := by
  cases task <;> simp only [receiveAct, cellWord_withSites] <;> rfl

theorem act_withSites (m : Machine) (sites : Array Site) :
    (m.withSites sites).act host = m.act host := by
  unfold act
  simp only [evalAct_withSites, receiveAct_withSites]
  rfl

end Machine

end ScriptMachine
