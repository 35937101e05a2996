/-
ScriptMachine.Proofs.Sessions.Depth — the limit on calls is exact.
-/
import ScriptMachine.Proofs.Runs.Acts
import ScriptMachine.Proofs.Sessions.Quiescence

namespace ScriptMachine

/-! ## §1 Errors -/

variable {s : Store}

namespace Store

theorem alloc_ne_overflow (s : Store) (o : Object) : (s.alloc o).1 ≠ .error .stackOverflow := by
  rcases s.alloc_cases o with ⟨_, h⟩ | ⟨_, h⟩ <;> rw [h] <;> nofun

theorem Makes.ne_overflow {fresh : Object → Prop} {r : Except Failure Word × Store}
    (h : s.Makes fresh r) : r.1 ≠ .error .stackOverflow := by
  cases h with
  | done => nofun
  | fails he => exact fun heq => he (Except.error.inj heq)
  | made => exact s.alloc_ne_overflow _

theorem getGlobal_ne_overflow (s : Store) (slot : Nat) :
    s.getGlobal slot ≠ .error .stackOverflow := by
  unfold getGlobal undefinedGlobal
  split
  · nofun
  · split <;> nofun

theorem setGlobal_ne_overflow (s : Store) (slot : Nat) (w : Word) :
    (s.setGlobal slot w).1 ≠ .error .stackOverflow := by
  unfold setGlobal undefinedGlobal
  split
  · nofun
  · split <;> nofun

theorem getProperty_ne_overflow (s : Store) (object : Word) (name : Symbol) (site : Nat) :
    (s.getProperty object name site).1 ≠ .error .stackOverflow := by
  rcases s.getProperty_cases object name site with ⟨_, _, _, _, heq⟩ | hm
  · rw [heq]
    nofun
  · exact hm.ne_overflow

theorem setProperty_ne_overflow (s : Store) (object : Word) (name : Symbol) (w : Word)
    (site : Nat) : (s.setProperty object name w site).1 ≠ .error .stackOverflow := by
  unfold setProperty
  split <;> nofun

theorem bindCall_ne_overflow (s : Store) (method receiver : Word) (count : Nat) :
    s.bindCall method receiver count ≠ .error .stackOverflow := by
  unfold bindCall
  split
  · split <;> nofun
  · nofun

theorem prepareCall_ne_overflow (s : Store) (callee : Word) (count : Nat) :
    (s.prepareCall callee count).1 ≠ .error .stackOverflow := by
  unfold prepareCall
  split
  · split <;> nofun
  · split <;> nofun
  · exact s.bindCall_ne_overflow _ _ _
  · next c _ =>
    have ha := s.alloc_ne_overflow (.ofInstance { classHandle := ⟨callee.payload⟩ })
    unfold prepareConstruction
    dsimp only
    split
    · nofun
    · split
      · next e _ heq =>
        rw [heq] at ha
        intro h
        cases h
        exact ha rfl
      · split
        · exact bindCall_ne_overflow _ _ _ _
        · nofun
  · nofun

end Store

namespace Serve

variable {s : Store} {r : Except Failure Word × Store}

theorem report_ne_overflow (hs : s.error = none) (hsig : r.2.signals = s.signals)
    (hne : r.1 ≠ .error .stackOverflow) : (report r).2.error ≠ some .stackOverflow := by
  obtain ⟨_ | _, t⟩ := r
  · have ht : t.error = none := (Store.error_of_signals hsig).trans hs
    simpa [report, Store.raise, ht] using hne
  · have ht : t.error = none := (Store.error_of_signals hsig).trans hs
    simp [report, ht]

theorem makes_ne_overflow {fresh : Object → Prop} (hs : s.error = none) (h : s.Makes fresh r) :
    (report r).2.error ≠ some .stackOverflow :=
  report_ne_overflow hs h.signals h.ne_overflow

theorem prepareCall_ne_overflow (hs : s.error = none) (callee : Word) (count : Nat) :
    (prepareCall callee count s).2.error ≠ some .stackOverflow := by
  have hsig := s.signals_prepareCall callee count
  have hne := s.prepareCall_ne_overflow callee count
  unfold prepareCall
  split
  · next t heq =>
    rw [heq] at hsig
    have ht : t.error = none := (Store.error_of_signals hsig).trans hs
    simp [ht]
  · next e t heq =>
    rw [heq] at hsig hne
    have ht : t.error = none := (Store.error_of_signals hsig).trans hs
    simpa [Store.raise, ht] using hne

end Serve

theorem Act.apply_ne_overflow {a : Act} (hs : s.error = none) (h : a.entered? s = none) :
    (a.apply s).error ≠ some .stackOverflow := by
  have hsame : ∀ {t : Store}, t.signals = s.signals → t.error ≠ some .stackOverflow := by
    intro t ht
    rw [Store.error_of_signals ht, hs]
    nofun
  cases a with
  | nothing => exact hsame rfl
  | print w => exact hsame (s.signals_print w)
  | binary op left right => exact Serve.makes_ne_overflow hs (s.binary_makes op left right)
  | negate operand =>
    refine Serve.report_ne_overflow hs rfl ?_
    unfold Store.negate
    split <;> nofun
  | getGlobal slot => exact Serve.report_ne_overflow hs rfl (s.getGlobal_ne_overflow slot)
  | setGlobal slot value =>
    exact Serve.report_ne_overflow hs (s.signals_setGlobal slot value)
      (s.setGlobal_ne_overflow slot value)
  | defineGlobal slot value => exact hsame rfl
  | newCell value => exact Serve.report_ne_overflow hs (s.signals_alloc _) (s.alloc_ne_overflow _)
  | setCell cell value => exact hsame rfl
  | makeClosure prototype entry cells =>
    exact Serve.makes_ne_overflow hs (s.makeClosure_makes prototype entry cells)
  | getProperty object name site =>
    simp only [apply]
    split
    · exact hsame rfl
    · exact Serve.report_ne_overflow hs (s.signals_getProperty ..) (s.getProperty_ne_overflow _ _ _)
  | setProperty object name value site =>
    simp only [apply]
    split
    · exact hsame rfl
    · exact Serve.report_ne_overflow hs (s.signals_setProperty ..)
        (s.setProperty_ne_overflow _ _ _ _)
  | newClass name superclass => exact Serve.makes_ne_overflow hs (s.newClass_makes name superclass)
  | addMethod target name method => exact hsame (s.signals_addMethod ..)
  | getSuper superclass receiver name =>
    exact Serve.makes_ne_overflow hs (s.getSuper_makes superclass receiver name)
  | call callee args =>
    rw [apply_call h]
    exact Serve.prepareCall_ne_overflow hs callee args.length
  | leave =>
    show s.error ≠ some .stackOverflow
    rw [hs]
    nofun

/-! ## §2 Steps -/

namespace Machine

variable {m : Machine} {host : Host} {f : Function} {store : Store}

structure Within (m : Machine) : Prop where
  bounded : m.store.depth ≤ m.store.maxDepth + 1
  allowed : m.control.isExit = false → m.store.depth ≤ m.store.maxDepth

theorem step_maxDepth (host : Host) [host.Attached] (m : Machine) :
    (m.step host).store.maxDepth = m.store.maxDepth := by
  rw [step_store]
  exact ((m.act host).evolves m.store).maxDepth

theorem prepared_depth (s : Store) (a : Act) :
    (a.prepared s).depth = s.depth ∧ (a.prepared s).maxDepth = s.maxDepth := by
  cases a with
  | call callee args =>
    have h := Serve.evolves_prepareCall (s := s) callee args.length
    exact ⟨h.depth, h.maxDepth⟩
  | _ => exact ⟨rfl, rfl⟩

theorem entered_maxDepth (s : Store) : s.entered.maxDepth = s.maxDepth := by
  unfold Store.entered
  split <;> rfl

theorem entered_depth (s : Store) : s.entered.depth = s.depth + 1 := by
  unfold Store.entered
  split <;> rfl

theorem step_depth_enters [host.Attached]
    (h : (m.act host).entered? m.store = some f) :
    (m.step host).store.depth = m.store.depth + 1 := by
  rw [step_store, Act.apply_of_entered h, entered_depth, (prepared_depth _ _).1]

theorem step_depth_leaves {w : Word} (h : m.control = .leave w) :
    (m.step host).store.depth = m.store.depth - 1 := by
  rw [step_leave h, unwind_store]

theorem step_depth_stays [host.Attached]
    (h : (m.act host).entered? m.store = none) (hs : ∀ w, m.control ≠ .leave w) :
    (m.step host).store.depth = m.store.depth := by
  rw [step_store]
  refine (Act.evolves_stays h fun hl => ?_).depth
  obtain ⟨w, hw⟩ := control_of_leave hl
  exact hs w hw

theorem step_entered [host.Attached] (h : (m.act host).entered? m.store = some f) :
    (m.step host).store = ((m.act host).prepared m.store).entered ∧
      (m.step host).control =
        if m.store.maxDepth < m.store.depth + 1 then .leave .nil else .run f.body := by
  constructor
  · rw [step_store, Act.apply_of_entered h]
  · obtain ⟨target, unit, declaration, args, _, _, hstep⟩ := step_enters h
    obtain ⟨hd, hlim⟩ := prepared_depth m.store (m.act host)
    rw [hstep]
    unfold enter serve
    dsimp only
    rw [hd, hlim]
    split <;> rfl

theorem Within.depth_eq (h : m.Within) (he : m.control.isExit = false) :
    m.store.maxDepth < m.store.depth + 1 ↔ m.store.depth = m.store.maxDepth := by
  have := h.allowed he
  omega

theorem isExit_of_entered (h : (m.act host).entered? m.store = some f) :
    m.control.isExit = false := by
  cases hc : m.control with
  | run code => rfl
  | eval e => rfl
  | give w => rfl
  | leave w =>
    simp only [act, hc] at h
    cases h
  | stopped stop =>
    simp only [act, hc] at h
    cases h

theorem Within.step [host.Attached] (h : m.Within) : (m.step host).Within := by
  have hlim := step_maxDepth host m
  cases he : (m.act host).entered? m.store with
  | some f =>
    have hexit := isExit_of_entered he
    have hbef := h.allowed hexit
    have hd := step_depth_enters he
    refine ⟨by omega, fun hr => ?_⟩
    rw [(step_entered he).2] at hr
    split at hr
    · cases hr
    · omega
  | none =>
    by_cases hl : ∃ w, m.control = .leave w
    · obtain ⟨w, hw⟩ := hl
      have hd : (m.step host).store.depth = _ := step_depth_leaves hw
      have hbou := h.bounded
      exact ⟨by omega, fun _ => by omega⟩
    · have hs : ∀ w, m.control ≠ .leave w := fun w hw => hl ⟨w, hw⟩
      have hd := step_depth_stays he hs
      cases hexit : m.control.isExit with
      | false =>
        have hbef := h.allowed hexit
        exact ⟨by omega, fun _ => by omega⟩
      | true =>
        rcases Control.isExit_cases hexit with ⟨stop, hc⟩ | ⟨w, hc⟩
        · rw [step_stopped hc]
          exact h
        · exact absurd hc (hs w)

/-! ## §3 Runs -/

/-- How the depth and the limit bear on the next step. -/
structure Metered (host : Host) (m : Machine) : Prop where
  depth : m.store.depth = m.nesting
  bounded : m.store.depth ≤ m.store.maxDepth + 1
  overflows : m.raises host = some .stackOverflow ↔
    ((m.act host).entered? m.store).isSome ∧ m.nesting = m.store.maxDepth
  enters : ∀ {f}, (m.act host).entered? m.store = some f →
    (m.step host).callers = ⟨m.frame, m.stack.tail⟩ :: m.callers ∧
      (m.step host).store = (if m.nesting = m.store.maxDepth then
        { (m.act host).prepared m.store with
          depth := m.nesting + 1, pending := true, error := some .stackOverflow }
        else { (m.act host).prepared m.store with depth := m.nesting + 1 }) ∧
      (m.step host).control = if m.nesting = m.store.maxDepth then .leave .nil else .run f.body
  leaves : ∀ {w}, m.control = .leave w →
    (m.step host).callers = m.callers.tail ∧ (m.step host).store.depth + 1 = m.store.depth
  stays : (m.act host).entered? m.store = none → (∀ w, m.control ≠ .leave w) →
    (m.step host).callers = m.callers ∧ (m.step host).store.depth = m.store.depth

theorem prepared_signals (h : (m.act host).entered? m.store = some f) :
    ((m.act host).prepared m.store).signals = m.store.signals := by
  cases ha : m.act host with
  | call callee args =>
    rw [ha] at h
    obtain ⟨target, htgt, _⟩ := Option.bind_eq_some_iff.mp h
    refine (m.store.reports_prepareCall callee args.length).2 ?_
    rw [htgt]
    rfl
  | _ => rfl

theorem Orderly.entered_store (ho : m.Orderly) (hw : m.Within)
    (h : (m.act host).entered? m.store = some f) :
    ((m.act host).prepared m.store).entered =
      if m.nesting = m.store.maxDepth then
        { (m.act host).prepared m.store with
          depth := m.nesting + 1, pending := true, error := some .stackOverflow }
      else { (m.act host).prepared m.store with depth := m.nesting + 1 } := by
  have he := isExit_of_entered h
  have hlim := hw.depth_eq he
  rw [ho.depth, Nat.add_zero] at hlim
  obtain ⟨hd, hmax⟩ := prepared_depth m.store (m.act host)
  have herr : ((m.act host).prepared m.store).error = none :=
    (Store.error_of_signals (prepared_signals h)).trans (ho.calm he).error
  unfold Store.entered Store.raise
  simp [hd, hmax, hlim, herr, ho.depth]

theorem raises_of_exit (h : m.control.isExit = true) : m.raises host = none := by
  unfold raises
  rcases Control.isExit_cases h with ⟨stop, hc⟩ | ⟨w, hc⟩
  · rw [step_stopped (by exact hc)]
  · rw [step_leave (by exact hc), unwind_store]

theorem Orderly.overflows_iff (ho : m.Orderly) (hw : m.Within) [host.Attached] :
    m.raises host = some .stackOverflow ↔
      ((m.act host).entered? m.store).isSome ∧ m.nesting = m.store.maxDepth := by
  cases hexit : m.control.isExit with
  | true =>
    rw [raises_of_exit hexit]
    refine ⟨nofun, fun ⟨hent, _⟩ => ?_⟩
    obtain ⟨f, hf⟩ := Option.isSome_iff_exists.mp hent
    rw [isExit_of_entered hf] at hexit
    cases hexit
  | false =>
    have hn := (ho.calm hexit).error
    rw [raises_of_error hn, Machine.step_store]
    cases he : (m.act host).entered? m.store with
    | none => exact ⟨fun h => absurd h (Act.apply_ne_overflow hn he), nofun⟩
    | some f =>
      rw [Act.apply_of_entered he, ho.entered_store hw he]
      split
      · next heq => exact ⟨fun _ => ⟨rfl, heq⟩, fun _ => rfl⟩
      · next hne =>
        have herr : ((m.act host).prepared m.store).error = none :=
          (Store.error_of_signals (prepared_signals he)).trans hn
        exact ⟨fun h => absurd (herr.symm.trans h) nofun, fun h => absurd h.2 hne⟩

theorem Orderly.metered (ho : m.Orderly) (hw : m.Within) [host.Attached] :
    m.Metered host where
  depth := ho.depth
  bounded := hw.bounded
  overflows := ho.overflows_iff hw
  enters {f} he := by
    have hexit := isExit_of_entered he
    have hs : ∀ w, m.control ≠ .leave w := by
      intro w hc
      rw [hc] at hexit
      cases hexit
    obtain ⟨hst, hctl⟩ := step_entered he
    refine ⟨?_, hst.trans (ho.entered_store hw he), ?_⟩
    · rw [step_callers host hs, he]
      rfl
    · have hlim := hw.depth_eq hexit
      rw [ho.depth] at hlim
      rw [hctl]
      simp [ho.depth, hlim]
  leaves {w} hc := by
    have hu := ho.underway fun v hv => by rw [hc] at hv; cases hv
    refine ⟨step_callers_leave hc, ?_⟩
    rw [step_depth_leaves hc, hu.depth]
    rfl
  stays he hs := by
    refine ⟨?_, step_depth_stays he hs⟩
    rw [step_callers host hs, he]
    rfl

theorem Within.run [host.Attached] (h : m.Within) (n : Nat) :
    (m.run host n).Within :=
  run_induction (fun h => h.step) n h

theorem run_maxDepth [host.Attached] (m : Machine) (n : Nat) :
    (m.run host n).store.maxDepth = m.store.maxDepth := by
  induction n with
  | zero => rfl
  | succ n ih => rw [run_succ, step_maxDepth, ih]

theorem start_entered (host : Host) [host.Attached] (hd : store.depth = 0)
    (he : store.error = none) (unit : CodeUnit) (f : Function) :
    (start host store unit f).store =
        (if store.maxDepth = 0 then
          { store with depth := 1, pending := true, error := some .stackOverflow }
        else { store with depth := 1 }) ∧
      (start host store unit f).control = if store.maxDepth = 0 then .leave .nil else
        .run f.body := by
  constructor
  · unfold start
    rw [enter_store]
    unfold Store.entered Store.raise
    simp [hd, he]
  · unfold start enter serve
    simp only [hd, Nat.zero_add, Nat.lt_one_iff]
    split <;> rfl

theorem start_within [host.Attached] (hd : store.depth = 0)
    (he : store.error = none) (unit : CodeUnit) (f : Function) :
    (start host store unit f).Within := by
  obtain ⟨hst, hctl⟩ := start_entered host hd he unit f
  constructor
  · rw [hst]
    split <;> exact Nat.le_add_left _ _
  · intro hr
    rw [hctl] at hr
    rw [hst]
    split at hr
    · cases hr
    · next hne =>
      rw [if_neg hne]
      exact Nat.one_le_iff_ne_zero.mpr hne

end Machine

/-! ## §4 Main -/

theorem Store.create_maxDepth {heap : Heap} {maxDepth : Nat}
    (h : Store.create heap maxDepth = .ok s) : s.maxDepth = maxDepth := by
  obtain ⟨_, t, _, ht, rfl⟩ := Store.create_eq_ok h
  exact (t.prepares_globalSlot "clock").maxDepth.trans (congrArg Store.maxDepth ht)

namespace Session

variable {session : Session}

theorem launch_settings (session : Session) (now : Word) (program : Program) :
    (session.launch now program).2.settings = session.settings := by
  unfold launch
  dsimp only
  split
  · rfl
  · split
    · rfl
    · split
      · rfl
      · split <;> rfl

theorem run_settings (h : session.engine.queue = []) (now : Word) (fuel : Nat) (program : Program) :
    (session.run now fuel program).2.settings = session.settings ∧
      (session.run now fuel program).2.store.maxDepth = session.store.maxDepth := by
  have hset := session.launch_settings now program
  have hlim : (session.launch now program).2.store.maxDepth = session.store.maxDepth := by
    rw [launch_store]
    exact (session.store.compile_prepares session.unitName program).maxDepth
  rcases run_cases h now fuel program with ⟨heq, _⟩ | ⟨m, after, error, pending, hl, heq⟩
  · rw [heq]
    exact ⟨hset, hlim⟩
  · obtain ⟨unit, f, _, _, rfl⟩ := launch_ok h hl
    rw [hl] at hset hlim
    rw [heq]
    refine ⟨hset, ?_⟩
    show ((Machine.start (host now) after.store unit f).run (host now) _).store.maxDepth = _
    rw [Machine.run_maxDepth, Machine.start, Machine.enter_store, Machine.entered_maxDepth]
    exact hlim

theorem ReachableBy.maxDepth {V : Vocabulary} (h : session.ReachableBy V) :
    session.store.maxDepth = session.settings.maxCallDepth.toNat := by
  induction h with
  | create hcre =>
    obtain ⟨store, hst, rfl⟩ := Session.create_eq_ok hcre
    exact Store.create_maxDepth hst
  | @serve before request hbef _ ih =>
    cases request with
    | mention m => exact (before.store.prepares_mention m).maxDepth.trans ih
    | define name w => exact (before.store.prepares_globalSlot name).maxDepth.trans ih
    | mute muted => exact ih
    | run now fuel program =>
      obtain ⟨hset, hlim⟩ := run_settings hbef.sound.queue now fuel program
      rw [Session.serve, hset, hlim, ih]

theorem ReachableBy.launch_within {V : Vocabulary} (h : session.ReachableBy V) {now : Word}
    {program : Program} {m : Machine}
    {after : Session} (hl : session.launch now program = (.ok m, after)) : m.Within := by
  obtain ⟨unit, f, hc, _, rfl⟩ := launch_ok h.sound.queue hl
  have hp := session.store.compile_prepares session.unitName program
  rw [hc] at hp
  have hsta := hp.quiescent h.quiescent
  exact Machine.start_within hsta.depth hsta.error unit f

/-- **The limit on calls is exact.** Between submissions no function runs.
A submission that is not rejected enters its script, which overflows the stack
if and only if the limit is 0. At any later point the depth is the number of
functions that run, and it is at most one more than the limit. A step overflows
the stack if and only if it enters a function while as many run as the limit
says, and then the function is left with nothing done but counting it. What
enters a function takes one level, what leaves one gives one back, and nothing
else has to do with the depth. -/
theorem depth_limit_exact (h : session.Reachable) (time : UInt64) (program : Program) :
    session.store.depth = 0 ∧ session.store.maxDepth = session.settings.maxCallDepth.toNat ∧
      ∀ {m after}, session.launch (.ofNumber time) program = (.ok m, after) →
        (∃ f : Function, m.callers = [] ∧
          m.store = (if session.store.maxDepth = 0 then
            { after.store with depth := 1, pending := true, error := some .stackOverflow }
            else { after.store with depth := 1 }) ∧
          m.control = if session.store.maxDepth = 0 then .leave .nil else .run f.body) ∧
        ∀ n, (m.run (host (.ofNumber time)) n).Metered (host (.ofNumber time)) ∧
          (m.run (host (.ofNumber time)) n).store.maxDepth = session.store.maxDepth := by
  have hq := h.quiescent
  refine ⟨hq.depth, h.maxDepth, fun {m after} hl => ?_⟩
  have ho := launch_orderly h.sound.queue hq hl
  have hw := h.launch_within hl
  obtain ⟨unit, f, hc, _, rfl⟩ := launch_ok h.sound.queue hl
  have hp := session.store.compile_prepares session.unitName program
  rw [hc] at hp
  have hsta := hp.quiescent hq
  have hlim : after.store.maxDepth = session.store.maxDepth := hp.maxDepth
  obtain ⟨hst, hctl⟩ := Machine.start_entered (host (.ofNumber time)) hsta.depth hsta.error unit f
  rw [← hlim]
  refine ⟨⟨f, Machine.enter_callers _ _ _ f, hst, hctl⟩, fun n => ⟨?_, ?_⟩⟩
  · exact (ho.run n).metered (hw.run n)
  · rw [Machine.run_maxDepth, Machine.start, Machine.enter_store, Machine.entered_maxDepth]

def shallow : Session := created { maxCallDepth := 3 } 16

theorem reachable_shallow : shallow.Reachable := .create (create_created (by decide +kernel))

def diving : Program :=
  let again := Stmt.expression (.call (.read ⟨"dive", 1⟩ .global) [] 1)
  [.function (.mk ⟨"dive", 1⟩ [] [again]), again]

/-- The script and two calls fill the three levels, and the third call
overflows the stack. Then all levels are given back. -/
theorem depth_limit_exact_diving : shallow.Reachable ∧ shallow.store.maxDepth = 3 ∧
    ∃ m after, shallow.launch (.ofNumber 0) diving = (.ok m, after) ∧
      (∀ n, (m.run (host (.ofNumber 0)) n).Metered (host (.ofNumber 0))) ∧
      (m.run (host (.ofNumber 0)) 22).raises (host (.ofNumber 0)) = some .stackOverflow ∧
      (m.run (host (.ofNumber 0)) 23).store.depth = 4 ∧
      (m.run (host (.ofNumber 0)) 27).store.depth = 0 := by
  have he := depth_limit_exact reachable_shallow 0 diving
  have hd : (shallow.launch (.ofNumber 0) diving).1.toOption.map (fun m =>
      ((m.run (host (.ofNumber 0)) 22).raises (host (.ofNumber 0)),
        (m.run (host (.ofNumber 0)) 23).store.depth,
        (m.run (host (.ofNumber 0)) 27).store.depth)) = some (some .stackOverflow, 4, 0) := by
    decide +kernel
  obtain ⟨m, after, hl, hr⟩ := exists_launch hd
  obtain ⟨hrai, hdep⟩ := Prod.mk.inj hr
  obtain ⟨hdeep, hg⟩ := Prod.mk.inj hdep
  exact ⟨reachable_shallow, he.2.1, m, after, hl, fun n => ((he.2.2 hl).2 n).1, hrai, hdeep, hg⟩

end Session

end ScriptMachine
