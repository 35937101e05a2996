/-
ScriptMachine.Proofs.Runs.Limits — running the same code with more room.
-/
import ScriptMachine.Proofs.Limits
import ScriptMachine.Proofs.Runs.Companions

namespace ScriptMachine

/-! ## §1 Steps -/

theorem Store.companions_roomier : Companions Roomier Exhausts where
  pending := by
    rintro _ _ ⟨_, _, _, _, rfl⟩
    rfl
  closureCell := by
    rintro _ _ ⟨_, _, _, _, rfl⟩
    rfl
  serves hs _ _ hr := hr.roomier hs
  enters := by
    rintro s _ ⟨limit, depth, hl, hd, rfl⟩
    unfold entered
    by_cases hdeep : s.maxDepth < s.depth + 1
    · right
      rw [if_pos hdeep]
      exact exhausts_raise rfl rfl rfl
    · have hdeep' : ¬(s.withLimits limit depth).maxDepth < (s.withLimits limit depth).depth + 1 :=
        fun hlt => hdeep (Nat.lt_of_le_of_lt hd hlt)
      rw [if_neg hdeep, if_neg hdeep']
      exact .inl ⟨iff_of_false hdeep hdeep', limit, depth, hl, hd, rfl⟩
  leaves := by
    rintro _ _ ⟨limit, depth, hl, hd, rfl⟩
    exact ⟨limit, depth, hl, hd, rfl⟩
  since hsig hprt hend he := by
    obtain ⟨herr, hsame⟩ := hend ((error_of_signals hsig).trans he)
    exact ⟨herr, hsame.trans hprt⟩
  shows hsig hend he := by
    obtain ⟨⟨e, herr, _⟩, _⟩ := hend he
    rw [error_of_signals hsig, he] at herr
    cases herr

namespace Machine

abbrev Roomier : Machine → Machine → Prop := Beside Store.Roomier

abbrev Truncated : Store → Machine → Machine → Prop := Parts Store.Roomier Store.Exhausts

variable {m m' : Machine} {host : Host} {s : Store}

namespace Roomier

theorem cached? (h : m.Roomier m') (object : Word) (site : Nat) :
    m'.store.cached? object site = m.store.cached? object site := by
  obtain ⟨s, ⟨_, _, _, _, rfl⟩, rfl⟩ := h
  rfl

theorem access [host.Attached] (h : m.Roomier m') (w : Word) {task : Pending}
    (ht : task.isAccess = true) :
    Truncated m.store (m.receive host w task) (m'.receive host w task) := by
  cases task with
  | getProperty name site =>
    dsimp only [Machine.receive]
    unfold Machine.getProperty
    rw [h.cached?]
    split
    · obtain ⟨s, ⟨limit, depth, hl, hd, rfl⟩, rfl⟩ := h
      exact .inl ⟨_, ⟨limit, depth, hl, hd, rfl⟩, rfl⟩
    · exact h.checked Store.companions_roomier (.getProperty w name site)
  | setProperty object name site =>
    dsimp only [Machine.receive]
    unfold Machine.setProperty
    rw [h.cached?]
    split
    · obtain ⟨s, ⟨limit, depth, hl, hd, rfl⟩, rfl⟩ := h
      exact .inl ⟨_, ⟨limit, depth, hl, hd, rfl⟩, rfl⟩
    · exact h.checked Store.companions_roomier (.setProperty object name w site)
  | _ => cases ht

theorem step [host.Attached] (h : m.Roomier m') :
    Truncated m.store (m.step host) (m'.step host) := by
  refine Beside.step Store.companions_roomier h fun {w task stack} _ _ ht => ?_
  obtain ⟨s, hs, rfl⟩ := h
  exact access (m := { m with stack := stack }) ⟨s, hs, rfl⟩ w ht

end Roomier

/-! ## §2 Runs -/

def Trails (m m' : Machine) : Prop :=
  m.Roomier m' ∨
    ((∃ e, m.store.error = some e ∧ e.isLimit = true) ∧ m.store.Continues m'.store)

theorem Truncated.trails (h : Truncated s m m') (he : s.error = none) (hs : s.Continues m'.store) :
    m.Trails m' :=
  h.imp_right fun hf => ⟨(hf he).1, .trans (.of_eq (hf he).2.symm) hs⟩

namespace Trails

theorem step [host.Attached] (h : m.Trails m') (ho : m.Orderly) :
    (m.step host).Trails (m'.step host) := by
  have hcon := m'.continues_step host
  rcases h with hs | ⟨⟨e, he, hlim⟩, hbeg⟩
  · have hprt : m'.store.printed = m.store.printed := by
      obtain ⟨s, ⟨_, _, _, _, rfl⟩, rfl⟩ := hs
      rfl
    cases hexit : m.control.isExit with
    | false =>
      exact Truncated.trails (Roomier.step hs) (ho.calm hexit).error (.trans (.of_eq hprt) hcon)
    | true =>
      rcases Control.isExit_cases hexit with ⟨stop, hc⟩ | ⟨w, hc⟩
      · rw [step_stopped hc, step_stopped (hs.control_eq.trans hc)]
        exact .inl hs
      · rw [step_leave hc, step_leave (hs.control_eq.trans hc)]
        exact .inl (hs.unwind Store.companions_roomier w)
  · -- the run that ran into a limit is left function by function
    have hp : m.store.pending = true := ho.pending_of_error (by simp [he])
    refine .inr ⟨⟨e, ho.step_error he, hlim⟩, .trans (.of_eq ?_) (hbeg.trans hcon)⟩
    rw [ho.step_store hp]

theorem run [host.Attached] (h : m.Trails m') (ho : m.Orderly) (n : Nat) :
    (m.run host n).Trails (m'.run host n) := by
  induction n with
  | zero => exact h
  | succ n ih =>
    rw [run_succ, run_succ]
    exact ih.step (ho.run n)

end Trails

theorem start_trails [host.Attached] {s' : Store} (h : s.Roomier s')
    (he : s.error = none) (unit : CodeUnit) (f : Function) :
    (start host s unit f).Trails (start host s' unit f) := by
  have hprt : s'.printed = s.printed := by
    obtain ⟨_, _, _, _, rfl⟩ := h
    rfl
  let m : Machine := { store := s, frame := { unit := unit }, control := .run [] }
  let m' : Machine := { store := s', frame := { unit := unit }, control := .run [] }
  have henter : Truncated s (m.enter host { unit := unit } f) (m'.enter host { unit := unit } f) :=
    Beside.enter Store.companions_roomier ⟨s', h, rfl⟩ _ f
  exact Truncated.trails henter he (.of_eq ((enter_printed m' _ f).trans hprt))

end Machine

end ScriptMachine
