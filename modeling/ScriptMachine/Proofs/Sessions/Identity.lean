/-
ScriptMachine.Proofs.Sessions.Identity — objects keep their identity and what
makes them up.
-/
import ScriptMachine.Proofs.Runs.Writes
import ScriptMachine.Proofs.Sessions.Answers

namespace ScriptMachine

/-! ## §1 Sessions -/

namespace Session

variable {session : Session} {time : UInt64} {program : Program} {m : Machine} {after : Session}

theorem ReachableBy.searchStep_alike (h : session.ReachableBy .issued)
    (hl : session.launch (.ofNumber time) program = (.ok m, after)) (n : Nat) :
    ((m.run (host (.ofNumber time)) n).searchStep (host (.ofNumber time))).Alike
      ((m.run (host (.ofNumber time)) n).step (host (.ofNumber time))) := by
  obtain ⟨names, ht⟩ := h.tracks
  obtain ⟨names', _, htyped⟩ := ht.launch (.ofNumber time) program
  rw [hl] at htyped
  exact Machine.searchStep_alike ((htyped rfl).run (Discipline.caching_lawful _) n)
    (h.sound.launch_typed hl n).issued (.refl _)

theorem ReachableBy.step_writesOnly (h : session.ReachableBy .issued)
    (hl : session.launch (.ofNumber time) program = (.ok m, after)) (n : Nat)
    (hlaid : (m.run (host (.ofNumber time)) n).store.Laid) :
    (m.run (host (.ofNumber time)) n).store.WritesOnly
      (((m.run (host (.ofNumber time)) n).act (host (.ofNumber time))).target
        (m.run (host (.ofNumber time)) n).store)
      ((m.run (host (.ofNumber time)) n).step (host (.ofNumber time))).store := by
  obtain ⟨sites, _, heq⟩ := h.searchStep_alike hl n
  generalize m.run (host (.ofNumber time)) n = m at hlaid heq ⊢
  -- The step is the one of the machine whose sites remember nothing.
  have hfor : m.forget.store.WritesOnly
      (((m.forget).act (host (.ofNumber time))).footprint m.forget.store)
      (m.forget.step (host (.ofNumber time))).store :=
    Machine.step_writesOnly _ ⟨hlaid.linked, hlaid.instances⟩
  rw [Act.footprint_of_blank (blank_forget _)] at hfor
  have hact : m.forget.act (host (.ofNumber time)) = m.act (host (.ofNumber time)) :=
    Machine.act_withSites m _
  have hs : (m.forget.step (host (.ofNumber time))).store =
      (m.step (host (.ofNumber time))).store.withSites sites := congrArg Machine.store heq
  rw [hs] at hfor
  have htgt : ∀ a : Act, a.target m.forget.store = a.target m.store := by
    intro a
    cases a <;> rfl
  have hk : m.store.WritesOnly ((m.act (host (.ofNumber time))).target m.store)
      ((m.step (host (.ofNumber time))).store.withSites sites) := hfor.after rfl rfl
  exact hk.congr rfl rfl

theorem launch_writesOnly (h : session.engine.queue = []) (hlaid : session.store.Laid) {now : Word}
    (hl : session.launch now program = (.ok m, after)) : session.store.WritesOnly none m.store := by
  obtain ⟨unit, f, hc, _, rfl⟩ := launch_ok h hl
  have hp := session.store.compile_prepares session.unitName program
  rw [hc] at hp
  rw [Machine.start, Machine.enter_store]
  refine (Store.WritesOnly.prepares hlaid hp).congr ?_ ?_ <;>
  · unfold Store.entered
    split <;> rfl

theorem run_endures (h : session.engine.queue = []) (hlaid : session.store.Laid) (now : Word)
    (fuel : Nat) (program : Program) :
    (session.run now fuel program).2.store.Laid ∧
      session.store.Endures (session.run now fuel program).2.store := by
  rcases run_cases h now fuel program with ⟨heq, _⟩ | ⟨m, after, error, pending, hl, heq⟩
  · rw [heq, launch_store]
    have hw := Store.WritesOnly.prepares hlaid
      (session.store.compile_prepares session.unitName program)
    exact ⟨hw.laid, hw.endures hlaid⟩
  · rw [heq]
    have hw := launch_writesOnly h hlaid hl
    have hrun := Machine.run_laid (host now) hw.laid (fuel - 1)
    have he : session.store.Endures (m.run (host now) (fuel - 1)).store :=
      (hw.endures hlaid).trans (Machine.run_endures _ hw.laid (fuel - 1))
    exact ⟨⟨hrun.linked, hrun.instances⟩, ⟨he.get?⟩⟩

theorem ReachableBy.laid {V : Vocabulary} (h : session.ReachableBy V) : session.store.Laid := by
  induction h with
  | create hcre =>
    obtain ⟨store, hst, rfl⟩ := Session.create_eq_ok hcre
    exact Store.create_laid rfl hst
  | serve request hbef _ ih =>
    cases request with
    | mention m => exact (Operation.apply_writesOnly ih (.mention m)).laid
    | define name w => exact (Operation.apply_writesOnly ih (.define name w)).laid
    | mute muted => exact (Operation.apply_writesOnly ih (.mute muted)).laid
    | run now fuel program => exact (run_endures hbef.sound.queue ih now fuel program).1

/-! ## §2 Main -/

/-- **Objects keep their identity.** Whatever a host does with a store, its own
or that of a session, it writes one object at most, and what handles refer to
endures. The same goes for a step of any machine on such a store and of every
machine a session runs, where a field that is written is the one the program
names, be its slot remembered or not. Hence objects endure a submission, also
one that fails. -/
theorem objects_keep_identity (h : session.ReachableBy .issued) :
    session.store.Laid ∧ (∀ {s : Store}, s.Hosted → s.Laid) ∧
    (∀ {s : Store}, s.Laid → ∀ op : Operation,
      s.WritesOnly (op.footprint s) (op.apply s) ∧ s.Endures (op.apply s)) ∧
    (∀ {m : Machine} {host : Host}, m.store.Laid → host.attached = true →
      m.store.WritesOnly ((m.act host).footprint m.store) (m.step host).store ∧
        m.store.Endures (m.step host).store) ∧
    ∀ time program,
      (∀ {m after}, session.launch (.ofNumber time) program = (.ok m, after) →
        session.store.WritesOnly none m.store ∧ ∀ n,
          (m.run (host (.ofNumber time)) n).store.WritesOnly
            (((m.run (host (.ofNumber time)) n).act (host (.ofNumber time))).target
              (m.run (host (.ofNumber time)) n).store)
            (m.run (host (.ofNumber time)) (n + 1)).store ∧
          (m.run (host (.ofNumber time)) n).store.Endures
            (m.run (host (.ofNumber time)) (n + 1)).store) ∧
      ∀ fuel, session.store.Endures (session.run (.ofNumber time) fuel program).2.store := by
  refine ⟨h.laid, fun hs => hs.laid, fun hlaid op => ?_, fun {_ host} hlaid hatt => ?_,
    fun time program => ⟨fun {m after} hl => ?_, fun fuel => ?_⟩⟩
  · have hw := op.apply_writesOnly hlaid
    exact ⟨hw, hw.endures hlaid⟩
  · have := Host.Attached.mk hatt
    have hw := Machine.step_writesOnly host hlaid
    exact ⟨hw, hw.endures hlaid⟩
  · have hlau := launch_writesOnly h.sound.queue h.laid hl
    refine ⟨hlau, fun n => ?_⟩
    have hlaid := Machine.run_laid (host (.ofNumber time)) hlau.laid n
    have hw := h.step_writesOnly hl n hlaid
    rw [Machine.run_succ]
    exact ⟨hw, hw.endures hlaid⟩
  · exact (run_endures h.sound.queue h.laid (.ofNumber time) fuel program).2

/-- A field of one instance is written twice, the second time by a method that
remembers its slot. -/
theorem objects_keep_identity_flipper : small.ReachableBy .issued ∧
    ∃ m after, small.launch (.ofNumber 0) flipper = (.ok m, after) ∧
      (∀ n, (m.run (host (.ofNumber 0)) n).store.WritesOnly
        (((m.run (host (.ofNumber 0)) n).act (host (.ofNumber 0))).target
          (m.run (host (.ofNumber 0)) n).store) (m.run (host (.ofNumber 0)) (n + 1)).store) ∧
      (((m.run (host (.ofNumber 0)) 63).act (host (.ofNumber 0))).target
        (m.run (host (.ofNumber 0)) 63).store).map (·.1) = some 5 ∧
      (((m.run (host (.ofNumber 0)) 112).act (host (.ofNumber 0))).target
        (m.run (host (.ofNumber 0)) 112).store).map (·.1) = some 5 ∧
      small.store.Endures (small.run (.ofNumber 0) 200 flipper).2.store := by
  have hk := (objects_keep_identity reachable_small).2.2.2.2 0 flipper
  have hwr : (small.launch (.ofNumber 0) flipper).1.toOption.map (fun m =>
      ((((m.run (host (.ofNumber 0)) 63).act (host (.ofNumber 0))).target
          (m.run (host (.ofNumber 0)) 63).store).map (·.1),
        (((m.run (host (.ofNumber 0)) 112).act (host (.ofNumber 0))).target
          (m.run (host (.ofNumber 0)) 112).store).map (·.1))) = some (some 5, some 5) := by
    decide +kernel
  obtain ⟨m, after, hl, hr⟩ := exists_launch hwr
  obtain ⟨hfst, hsnd⟩ := Prod.mk.inj hr
  exact ⟨reachable_small, m, after, hl, fun n => ((hk.1 hl).2 n).1, hfst, hsnd,
    hk.2 200⟩

end Session

end ScriptMachine
