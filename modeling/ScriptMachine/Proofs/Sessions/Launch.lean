/-
ScriptMachine.Proofs.Sessions.Launch — a submission, cut where its code starts
to run.
-/
import ScriptMachine.Proofs.Engines.Acceptance
import ScriptMachine.Proofs.Lowers.Outcomes
import ScriptMachine.Proofs.Lowers.Statements
import ScriptMachine.Proofs.Runs.Steps
import ScriptMachine.Session

namespace ScriptMachine

theorem exists_ok {ε α : Type} {result : Except ε α} (h : result.toOption.isSome = true) :
    ∃ a, result = .ok a := by
  cases result with
  | ok a => exact ⟨a, rfl⟩
  | error e => cases h

theorem Session.create_eq_ok {settings : SessionSettings} {heap : Heap} {session : Session}
    (h : Session.create settings heap = .ok session) :
    ∃ store, Store.create heap settings.maxCallDepth.toNat = .ok store ∧ session =
      { settings := settings, store := store, engine := { settings := settings.engine } } := by
  unfold Session.create at h
  cases hst : Store.create heap settings.maxCallDepth.toNat with
  | error e =>
    rw [hst] at h
    cases h
  | ok store =>
    rw [hst] at h
    cases h
    exact ⟨store, rfl, rfl⟩

/-! ## §1 Engines -/

variable {unit : CodeUnit}

def CodeUnit.ExportsFirst (unit : CodeUnit) (name : String) : Prop :=
  ∃ ds : List Declaration, (∀ d ∈ ds, d.linkage ≠ .exported) ∧
    unit.declarations.toList = ⟨name, .exported, .words 0⟩ :: ds

namespace CodeUnit.ExportsFirst

variable {unit : CodeUnit} {name : String}

theorem exports (h : unit.ExportsFirst name) : unit.exports = [name] := by
  obtain ⟨ds, hds, heq⟩ := h
  have hn : ds.filter (·.linkage = .exported) = [] := by
    rw [List.filter_eq_nil_iff]
    intro d hd
    simpa using hds d hd
  simp [CodeUnit.exports, heq, hn]

theorem entries (h : unit.ExportsFirst name) : Engine.entries unit = [(name, ⟨unit, 0⟩)] := by
  obtain ⟨ds, hds, heq⟩ := h
  have hn : ∀ n, (ds.zipIdx n).filter (·.1.linkage = .exported) = [] := by
    intro n
    rw [List.filter_eq_nil_iff]
    rintro ⟨d, i⟩ hmem
    simpa using hds d (List.fst_mem_of_mem_zipIdx hmem)
  simp [Engine.entries, heq, hn]

end CodeUnit.ExportsFirst

namespace Engine

variable {engine engine' : Engine} {unit : CodeUnit} {name : String} {n : Nat}

theorem drain_of_nil (h : engine.queue = []) : engine.drain = engine := by
  unfold drain
  cases engine
  simp_all

theorem settle_queue (engine : Engine) (job : Job) : (engine.settle job).queue = engine.queue := by
  unfold settle
  split <;> rfl

theorem add_eq (h : engine.queue = []) (hadd : engine.add unit = (.ok n, engine')) :
    ∃ job engine0, engine.register unit = .ok (job, engine0) ∧ engine0.queue = [] ∧
      engine' = engine0.settle job := by
  obtain ⟨hreg, -, rfl⟩ := add_eq_ok hadd
  have hque : (engine.reserve unit).queue = [] := h
  refine ⟨_, _, hreg, hque, ?_⟩
  generalize engine.reserve unit = engine0 at hque ⊢
  unfold drain enqueue
  cases engine0
  simp_all

theorem queue_add (h : engine.queue = []) : (engine.add unit).2.queue = [] := by
  cases hadd : engine.add unit with
  | mk result engine' =>
    cases result with
    | ok n =>
      obtain ⟨job, engine0, _, hque, rfl⟩ := add_eq h hadd
      exact (settle_queue engine0 job).trans hque
    | error e =>
      simp only [add, submit] at hadd
      split at hadd
      · next heq =>
        split at heq <;> cases heq
        cases hadd
        exact h
      · cases hadd

theorem resolve_of_add (h : engine.queue = []) (hu : unit.ExportsFirst name)
    (hadd : engine.add unit = (.ok n, engine')) {entry : EntryPoint}
    (hr : engine'.resolve name = .ok entry) : entry = ⟨unit, 0⟩ := by
  obtain ⟨job, engine0, hreg, hque, rfl⟩ := add_eq h hadd
  have hjob : job.unit = unit ∧ engine0.symbols.get? name = some (.pending job.id) := by
    obtain ⟨_, _, rfl, rfl⟩ := register_ok hreg
    exact ⟨rfl, (engine.get?_reserve unit name).trans (if_pos (by simp [hu.exports]))⟩
  obtain ⟨rfl, hpend⟩ := hjob
  unfold resolve at hr
  rw [drain_of_nil ((settle_queue engine0 job).trans hque)] at hr
  unfold settle at hr
  cases hp : prepare engine0.routines job.unit with
  | ok u =>
    have hready : (engine0.publish job).symbols.get? name = some (.ready ⟨job.unit, 0⟩) := by
      simp [publish, hu.entries, Table.get?_insert]
    rw [hp, lookup, hready] at hr
    exact (Except.ok.inj hr).symm
  | error reason =>
    have hfai : (engine0.fail job reason).symbols.get? name = some (.pending job.id) := hpend
    rw [hp, lookup, hfai] at hr
    dsimp only at hr
    split at hr <;> cases hr

end Engine

/-! ## §2 Launches -/

namespace Session

/-- The surroundings of a submission. -/
def host (now : Word) : Host := { now := now }

instance (now : Word) : (host now).Attached := ⟨rfl⟩

/-- What a submission does before its code runs: the machine that is about
to run it, or why there is none. -/
def launch (session : Session) (now : Word) (program : Program) :
    Except SessionError Machine × Session :=
  let name := session.unitName
  let (unit, store) := session.store.compile name program
  let session := { session with store := store, submissions := session.submissions + 1 }
  match unit with
  | .error e => (.error (.compile e), session)
  | .ok unit =>
    match session.engine.add unit with
    | (.error e, engine) => (.error (.engine e), { session with engine := engine })
    | (.ok _, engine) =>
      let session := { session with engine := engine }
      match engine.resolve name with
      | .error e => (.error (.engine e), session)
      | .ok entry =>
        match entry.unit.function? entry.declaration with
        | some f => (.ok (Machine.start (host now) store entry.unit f), session)
        | none => (.error (.strayed 0), session)

def finish (session : Session) (drive : Nat → Machine → Machine) (m : Machine) :
    Nat → Except SessionError Word × Session
  | 0 => session.conclude none
  | fuel + 1 => { session with store := (drive fuel m).store }.conclude (drive fuel m).stop?

/-- Runs a program by a way to run code. -/
def runBy (drive : Host → Nat → Machine → Machine) (session : Session) (now : Word) (fuel : Nat)
    (program : Program) : Except SessionError Word × Session :=
  match session.launch now program with
  | (.error e, session) => (.error e, session)
  | (.ok m, session) => session.finish (drive (host now)) m fuel

end Session

/-! ## §3 Runs -/

theorem CodeUnit.function?_eq_some {d : Nat} {f : Function} (h : unit.function? d = some f) :
    unit.body? d = some (.lowered f) := by
  unfold CodeUnit.function? at h
  split at h
  · next f' hb =>
    cases h
    exact hb
  · cases h

theorem Store.compile_script {s s' : Store} {name : String} {program : Program}
    (h : s.compile name program = (.ok unit, s')) :
    unit.ExportsFirst name ∧ ∃ f, unit.function? 0 = some f := by
  obtain ⟨G, F, code, _, _, rfl, hscr⟩ := (Store.compile_yields h).2 fun _ => 0
  exact ⟨Store.compile_exports h, _, hscr.function⟩

namespace Session

variable {session : Session}

theorem run_eq_runBy (h : session.engine.queue = []) (now : Word) (fuel : Nat) (program : Program) :
    session.run now fuel program = session.runBy Machine.run now fuel program := by
  unfold run submit stage runBy launch
  dsimp only
  cases hc : session.store.compile session.unitName program with
  | mk result store =>
    cases result with
    | error e => rfl
    | ok unit =>
      obtain ⟨hu, f, hf⟩ := Store.compile_script hc
      unfold load
      dsimp only
      cases hadd : session.engine.add unit with
      | mk added engine =>
        cases added with
        | error e => rfl
        | ok n =>
          dsimp only
          cases hrsv : engine.resolve session.unitName with
          | error e => rfl
          | ok entry =>
            obtain rfl := Engine.resolve_of_add h hu hadd hrsv
            have hb := CodeUnit.function?_eq_some hf
            dsimp only
            rw [hf]
            cases fuel with
            | zero => rfl
            | succ fuel =>
              unfold perform Engine.invoke
              rw [EntryPoint.call]
              rw [hb]
              rfl

theorem launch_ok {after : Session} {now : Word} {program : Program} {m : Machine}
    (h : session.engine.queue = []) (hl : session.launch now program = (.ok m, after)) :
    ∃ unit f, session.store.compile session.unitName program = (.ok unit, after.store) ∧
      unit.function? 0 = some f ∧ m = Machine.start (host now) after.store unit f := by
  unfold launch at hl
  dsimp only at hl
  cases hc : session.store.compile session.unitName program with
  | mk result store =>
    rw [hc] at hl
    cases result with
    | error e => cases hl
    | ok unit =>
      obtain ⟨hu, f, hf⟩ := Store.compile_script hc
      dsimp only at hl
      cases hadd : session.engine.add unit with
      | mk added engine =>
        rw [hadd] at hl
        cases added with
        | error e => cases hl
        | ok n =>
          dsimp only at hl
          cases hrsv : engine.resolve session.unitName with
          | error e =>
            rw [hrsv] at hl
            cases hl
          | ok entry =>
            obtain rfl := Engine.resolve_of_add h hu hadd hrsv
            rw [hrsv] at hl
            dsimp only at hl
            rw [hf] at hl
            cases hl
            exact ⟨unit, f, rfl, hf, rfl⟩

theorem exists_launch {α : Type} {f : Machine → α} {a : α} {now : Word} {program : Program}
    (h : (session.launch now program).1.toOption.map f = some a) :
    ∃ m after, session.launch now program = (.ok m, after) ∧ f m = a := by
  cases hl : session.launch now program with
  | mk result after =>
    rw [hl] at h
    cases result with
    | error e => cases h
    | ok m => exact ⟨m, after, rfl, Option.some.inj h⟩

theorem launch_store (session : Session) (now : Word) (program : Program) :
    (session.launch now program).2.store =
      (session.store.compile session.unitName program).2 := by
  unfold launch
  dsimp only
  split
  · rfl
  · split
    · rfl
    · split
      · rfl
      · split <;> rfl

theorem launch_queue (h : session.engine.queue = []) (now : Word) (program : Program) :
    (session.launch now program).2.engine.queue = [] := by
  have hadd : ∀ unit, (session.engine.add unit).2.queue = [] := fun _ => Engine.queue_add h
  unfold launch
  dsimp only
  split
  · exact h
  · next unit _ =>
    have hu := hadd unit
    split
    · next heq =>
      rw [heq] at hu
      exact hu
    · next heq =>
      rw [heq] at hu
      split
      · exact hu
      · split <;> exact hu

end Session

end ScriptMachine
