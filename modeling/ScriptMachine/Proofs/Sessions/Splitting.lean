/-
ScriptMachine.Proofs.Sessions.Splitting — a program does the same in one
submission and in two.
-/
import Mathlib.Data.Nat.Find
import ScriptMachine.Proofs.Sessions.Depth
import ScriptMachine.Proofs.Sessions.Rejections
import ScriptMachine.Proofs.Twins.Halves

namespace ScriptMachine

/-! ## §1 Effects -/

/-- What a submission did: the error it came to, the text that was printed so
far, and how the globals that are defined print. -/
structure Effect where
  error : Option SessionError
  printed : String
  globals : String → Option String

def Store.effect (s : Store) (error : Option SessionError) : Effect :=
  ⟨error, s.printed, fun name => (s.global? name).map s.render⟩

/-- What a submission did, from what it returned. -/
def Session.effect (r : Except SessionError Word × Session) : Effect :=
  r.2.store.effect (match r.1 with
    | .ok _ => none
    | .error e => some e)

def Machine.effect (m : Machine) : Effect :=
  m.store.effect (match m.stop? with
    | none => some .unfinished
    | some _ => m.store.error.map .runtime)

namespace Kin

variable {K : Kin} {s s' : Store} {S0 : Scene} {m m' : Machine}

theorem Stores.effect (h : K.Stores s s') (error : Option SessionError) :
    s'.effect error = s.effect error := by
  unfold Store.effect
  rw [h.printed]
  exact congrArg _ (funext h.render_global)

theorem Twins.effect (h : K.Twins S0 m m') : m'.effect = m.effect := by
  have hstops := h.stops
  obtain ⟨S, hstage, _⟩ := h
  unfold Machine.effect
  rw [hstage.stores.error, hstage.stores.effect]
  rcases hstops with ⟨hs, hs'⟩ | ⟨w, w', hs, hs', _⟩ <;> rw [hs, hs']

end Kin

namespace Session

variable {session after : Session} {time : UInt64} {program : Program} {m : Machine}

theorem ReachableBy.effect_run (h : session.ReachableBy .issued)
    (hl : session.launch (.ofNumber time) program = (.ok m, after)) (n : Nat) :
    effect (session.run (.ofNumber time) (n + 1) program) =
      (m.searchRun (host (.ofNumber time)) n).effect := by
  have ha := h.searchRun_alike hl n
  have hs := (h.sound.launch_typed hl n).stop?_cases
  obtain ⟨sites, _, hst⟩ := ha.store
  rw [run_launched h.sound.queue hl]
  unfold Machine.effect
  rw [ha.stop?_eq]
  generalize m.run (host (.ofNumber time)) n = driven at hs hst
  rcases hs with hs | ⟨w, hs⟩
  · rw [hs, hst]
    rfl
  · unfold effect
    rw [hs, conclude_answer, conclude_returned_store, hst]
    show _ = driven.store.effect (driven.store.error.map .runtime)
    cases driven.store.error <;> rfl

end Session

/-! ## §2 Scripts -/

def Store.atRest (s : Store) : Store := { s with depth := 0, error := none, pending := false }

def Lower.scriptStart : Instr := .evaluate (.assignVariable 0 (.constant .nil))

namespace Machine

variable {m m' : Machine} {host : Host} {n : Nat}

inductive Idles (host : Host) : Nat → Machine → Machine → Prop
  | refl (m : Machine) : m.stop? = none → Idles host 0 m m
  | step {n : Nat} {m m' : Machine} : m.stop? = none →
      (∃ sites, (m.searchStep host).store = m.store.withSites sites) →
        Idles host n (m.searchStep host) m' → Idles host (n + 1) m m'

namespace Idles

theorem searchRun (h : m.Idles host n m') (k : Nat) :
    m.searchRun host (n + k) = m'.searchRun host k := by
  induction h with
  | refl => rw [Nat.zero_add]
  | step hs _ _ ih => rw [Nat.succ_add, searchRun_succ hs, ih]

theorem effect (h : m.Idles host n m') {k : Nat} (hk : k ≤ n) :
    (m.searchRun host k).effect = m.store.effect (some .unfinished) := by
  induction h generalizing k with
  | @refl m hstop =>
    cases Nat.le_zero.mp hk
    rw [Machine.searchRun, Machine.effect, hstop]
  | @step n m m' hstop hs _ ih =>
    cases k with
    | zero => rw [Machine.searchRun, Machine.effect, hstop]
    | succ k =>
      obtain ⟨sites, hs⟩ := hs
      rw [searchRun_succ hstop, ih (Nat.le_of_succ_le_succ hk), hs]
      rfl

end Idles

theorem start_of_fits {store : Store} (hd : store.depth = 0) (hlim : 0 < store.maxDepth)
    (unit : CodeUnit) (f : Function) :
    start host store unit f =
      { store := { store with depth := 1 }
        frame := { unit := unit, locals := Array.replicate f.locals .zero }
        control := .run f.body } := by
  unfold start enter
  dsimp only
  rw [hd, if_neg (Nat.not_lt.mpr hlim)]

theorem effect_start (store : Store) (unit : CodeUnit) (f : Function)
    (error : Option SessionError) :
    (start host store unit f).store.effect error = store.effect error := by
  unfold start enter serve
  dsimp only
  split
  · cases host.attached <;> rfl
  · rfl

theorem idles_scriptStart (hstk : m.stack = []) {is : List Instr}
    (hctl : m.control = .run (Lower.scriptStart :: is)) :
    ∃ sites, m.Idles host 6
      { m with
        store := m.store.withSites sites
        frame := m.frame.setVariable 0 .nil
        control := .run is } := by
  obtain ⟨store, frame, stack, callers, control⟩ := m
  cases hstk
  cases hctl
  apply Exists.intro
  refine .step rfl ⟨_, rfl⟩ ?_
  refine .step rfl ⟨_, rfl⟩ ?_
  refine .step rfl ⟨_, rfl⟩ ?_
  change Idles host 3 ⟨store.withSites _, frame, [.assignVariable 0, .discard, .rest is], callers,
    .give _⟩ _
  refine .step rfl ⟨_, rfl⟩ ?_
  refine .step rfl ⟨_, rfl⟩ ?_
  change Idles host 1 ⟨store.withSites _, frame.setVariable 0 .nil, [.rest is], callers, .run []⟩ _
  refine .step rfl ⟨_, rfl⟩ ?_
  exact .refl _ rfl

theorem idles_scriptEnd (host : Host) (hstk : m.stack = [])
    (hctl : m.control = .run Lower.scriptEnd) :
    ∃ sites, m.Idles host 3
      { m with
        store := m.store.withSites sites
        stack := [.rest []]
        control := .leave (m.frame.value 0) } := by
  obtain ⟨store, frame, stack, callers, control⟩ := m
  cases hstk
  cases hctl
  exact ⟨_, .step rfl ⟨_, rfl⟩ (.step rfl ⟨_, rfl⟩ (.step rfl ⟨_, rfl⟩ (.refl _ rfl)))⟩

theorem Orderly.store_eq (ho : m.Orderly) (hcs : m.callers = [])
    (he : m.control.isExit = false) : m.store = { m.store.atRest with depth := 1 } := by
  have hcalm := ho.calm he
  have hd : m.store.depth = 1 := by
    rw [ho.depth, nesting]
    split
    · next hc =>
      rw [hc] at he
      cases he
    · rw [hcs]
      rfl
  unfold Store.atRest
  rw [← hcalm.error, ← hcalm.calm, ← hd]

theorem Within.searchRun [host.Attached] (h : m.Within) (n : Nat) :
    (m.searchRun host n).Within := by
  induction n generalizing m with
  | zero => exact h
  | succ n ih =>
    cases hs : m.stop? with
    | none =>
      rw [searchRun_succ hs]
      exact ih (Within.step ⟨h.bounded, h.allowed⟩)
    | some stop =>
      rw [searchRun_of_stop hs]
      exact h

structure AtScriptEnd (m : Machine) : Prop where
  callers : m.callers = []
  stack : m.stack = []
  control : m.control = .run Lower.scriptEnd

namespace AtScriptEnd

variable {k : Nat} (h : m.AtScriptEnd)

include h

theorem returns (host : Host) : ∃ sites, ∀ k, m.searchRun host (4 + k) =
      { m with
        store := { m.store with sites := sites, depth := m.store.depth - 1 }
        stack := [.rest []]
        control := .stopped (.returned (m.frame.value 0)) } := by
  obtain ⟨sites, hi⟩ := idles_scriptEnd host h.stack h.control
  refine ⟨sites.map Site.forget, fun k => ?_⟩
  rw [show 4 + k = 3 + (k + 1) by omega, hi.searchRun, searchRun_succ rfl]
  refine (congrArg (Machine.searchRun host k) ?_).trans (searchRun_of_stop rfl k)
  show Machine.unwind _ _ = _
  simp only [h.callers]
  rfl

theorem effect_eq : m.effect = m.store.effect (some .unfinished) := by
  unfold effect stop?
  rw [h.control]

theorem effect_of_le (hk : k ≤ 3) :
    (m.searchRun host k).effect = m.store.effect (some .unfinished) := by
  obtain ⟨_, hi⟩ := idles_scriptEnd host h.stack h.control
  exact hi.effect hk

theorem isExit : m.control.isExit = false := by
  rw [h.control]
  rfl

theorem returned (ho : m.Orderly) (hl : (m.searchRun host 4).Alike m') :
    (∃ w, m'.stop? = some (.returned w)) ∧ m'.store.error = none ∧
      ∃ sites, m'.store = { m.store with sites := sites, depth := 0 } := by
  obtain ⟨sites, hret⟩ := h.returns host
  rw [hret 0] at hl
  have hd : m.store.depth = 1 := congrArg Store.depth (ho.store_eq h.callers h.isExit)
  have hs := hl.stop?_eq
  obtain ⟨sites', _, hst⟩ := hl.store
  have hst' : m'.store = { m.store with sites := m'.store.sites, depth := m.store.depth - 1 } :=
    congrArg (Store.withSites · m'.store.sites) hst.symm
  rw [hd] at hst'
  refine ⟨⟨_, hs.symm⟩, ?_, _, hst'⟩
  rw [hst']
  exact (ho.calm h.isExit).error

theorem effect_of_lt (ho : m.Orderly) (hk : 3 < k) :
    (m.searchRun host k).effect = m.store.effect none := by
  have herr := (ho.calm h.isExit).error
  obtain ⟨sites, hret⟩ := h.returns host
  obtain ⟨k, rfl⟩ := Nat.exists_eq_add_of_le hk
  rw [hret]
  show Store.effect _ (m.store.error.map _) = _
  rw [herr]
  rfl

end AtScriptEnd

end Machine

/-! ## §3 In step -/

structure InStep (host : Host) (S : Scene) (m m' : Machine) : Prop where
  twins : ∃ K : Kin, K.Twins S m m'
  orderly : m.Orderly
  orderly' : m'.Orderly
  room : ∀ n e, (m'.searchRun host n).store.error ≠ some (.heap e)

namespace InStep

variable {host : Host} {S : Scene} {m m' : Machine} (h : InStep host S m m')

include h

theorem run [host.Attached] (hnow : host.now.Atomic)
    {n : Nat} (hend : ∀ k < n, ¬(m.searchRun host k).AtEnd S) :
    InStep host S (m.searchRun host n) (m'.searchRun host n) := by
  obtain ⟨K, ht⟩ := h.twins
  refine ⟨?_, h.orderly.searchRun n, h.orderly'.searchRun n, fun k e => ?_⟩
  · rcases ht.run h.orderly h.orderly' hnow n fun k hk => .inr (hend k hk) with
      ⟨K', _, ht'⟩ | ⟨_, k, _, e, he⟩
    · exact ⟨K', ht'⟩
    · exact absurd he (h.room k e)
  · rw [← Machine.searchRun_add]
    exact h.room (n + k) e

theorem effect : m'.effect = m.effect := by
  obtain ⟨K, ht⟩ := h.twins
  exact ht.effect

theorem effect_error (hlvs : S.leaves = false) : m.effect.error ≠ none := by
  obtain ⟨K, ht⟩ := h.twins
  rcases ht.stops with ⟨hs, _⟩ | ⟨w, _, hs, _, _, hl | hp⟩
  · unfold Machine.effect
    rw [hs]
    nofun
  · rw [hlvs] at hl
    cases hl
  · have hf := h.orderly.flagged
    unfold Store.Flagged at hf
    rw [hp] at hf
    obtain ⟨e, he⟩ := Option.isSome_iff_exists.mp hf.symm
    unfold Machine.effect
    rw [hs, he]
    nofun

theorem effect_run [host.Attached]
    (hnow : host.now.Atomic) (hr : S.rest = Lower.scriptEnd) (hr' : S.rest' = Lower.scriptEnd)
    (n : Nat) : (m'.searchRun host n).effect = (m.searchRun host n).effect := by
  classical
  by_cases he : ∃ k < n, (m.searchRun host k).AtEnd S
  · obtain ⟨k, ⟨hk, hat⟩, hl⟩ := Nat.findX he
    have hend := h.run hnow fun j hj hj' => hl j hj ⟨Nat.lt_trans hj hk, hj'⟩
    obtain ⟨K, ht⟩ := hend.twins
    obtain ⟨hs, hcs, hstk, hctl⟩ := ht.atEnd hat
    have hfst : (m.searchRun host k).AtScriptEnd := ⟨hat.callers, hat.stack, hr ▸ hat.control⟩
    have hsnd : (m'.searchRun host k).AtScriptEnd := ⟨hcs, hstk, hr' ▸ hctl⟩
    obtain ⟨j, rfl⟩ := Nat.exists_eq_add_of_lt hk
    rw [Nat.add_assoc, m.searchRun_add k, m'.searchRun_add k]
    rcases Nat.lt_or_ge 3 (j + 1) with hj | hj
    · rw [hfst.effect_of_lt hend.orderly hj, hsnd.effect_of_lt hend.orderly' hj]
      exact hs.stores.effect _
    · rw [hfst.effect_of_le hj, hsnd.effect_of_le hj]
      exact hs.stores.effect _
  · exact (h.run hnow fun k hk hat => he ⟨k, hk, hat⟩).effect

end InStep

/-! ## §4 Halves -/

namespace Session

open Lower

variable {session : Session} {time : UInt64} {program rest : Program} {l n : Lowering}
  {body more : List Instr}

abbrev firstScene (k n : Lowering) (code body more : List Instr) : Scene :=
  .before ⟨k.store, n.store⟩ (scriptUnit k code) (scriptUnit n (body ++ more)) k.current.locals
    n.current.locals more

abbrev secondScene (k l n : Lowering) (r : Store) (code body more : List Instr) : Scene :=
  .after ⟨k.store, r⟩ (scriptUnit k code) (scriptUnit n (body ++ more)) (l.current.locals - 1)
    k.current.locals

def scriptMachine (time : UInt64) (k : Lowering) (code : List Instr) : Machine :=
  .start (host (.ofNumber time)) k.store (scriptUnit k code) (scriptOf k.current.locals code)

def startedMachine (k : Lowering) (code : List Instr) (sites : Array Site) : Machine where
  store := { k.store with depth := 1, sites := sites }
  frame := Frame.setVariable
    { unit := scriptUnit k code, locals := Array.replicate k.current.locals .zero } 0 .nil
  control := .run (code ++ scriptEnd)

theorem scriptMachine_idles {k : Lowering} (hd : k.store.depth = 0) (hlim : 0 < k.store.maxDepth)
    (time : UInt64) (code : List Instr) :
    ∃ sites, (scriptMachine time k code).Idles (host (.ofNumber time)) 6
      (startedMachine k code sites) := by
  unfold scriptMachine
  rw [Machine.start_of_fits hd hlim]
  exact Machine.idles_scriptStart rfl rfl

theorem ReachableBy.first_inStep (h : session.ReachableBy .issued)
    (hh : Halfway program rest session.store l n body more)
    (hc : session.store.compile session.unitName (program ++ rest) =
      (.ok (scriptUnit n (body ++ more)), n.store))
    (hstays : staysAll program = true)
    (hn : session.NeverFull (.ofNumber time) (program ++ rest)) :
    ∃ k code after after', after.store = k.store ∧ after'.store = n.store ∧
      session.launch (.ofNumber time) program = (.ok (scriptMachine time k code), after) ∧
      session.launch (.ofNumber time) (program ++ rest) =
        (.ok (scriptMachine time n (body ++ more)), after') ∧
      k.current.locals = l.current.locals ∧ (∃ K : Kin, K.Stores k.store n.store) ∧
      InStep (host (.ofNumber time)) (firstScene k n code body more) (scriptMachine time k code)
        (scriptMachine time n (body ++ more)) := by
  obtain ⟨K, _, hself⟩ := h.likeItself
  obtain ⟨k, code, hfst, hscr, hloc, ⟨K1, hs⟩, hcode⟩ :=
    hh.first hself hstays session.unitName
  obtain ⟨after, ha, hl⟩ := h.launch_of_ok hfst hscr (.ofNumber time)
  obtain ⟨after', ha', hl'⟩ := h.launch_of_ok hc hh.function? (.ofNumber time)
  refine ⟨k, code, after, after', ha, ha', hl, hl', hloc, ⟨K1, hs⟩, ?_⟩
  obtain ⟨_, hs2⟩ := hs.renew
  have hpos : 0 < k.current.locals := hloc ▸ hh.middle.2.2.2.1
  have hle : k.current.locals ≤ n.current.locals := hloc ▸ hh.grows.current.locals
  have hsame : (firstScene k n code body more).InstrLists false (scriptStart :: code)
      (scriptStart :: body) :=
    .cons (.evaluate (.assignVariable ⟨rfl, hpos⟩ (.constant .nil))) (hcode more)
  have ht : Kin.Twins { K1 with pair := ⟨k.store, n.store⟩ } (firstScene k n code body more)
      (scriptMachine time k code) (scriptMachine time n (body ++ more)) := by
    refine Kin.enter_twins (by exact hs2) (Kin.frames_start (.refl _) rfl rfl hle .nil .nil
      .nil fun _ => ⟨rfl, rfl, rfl⟩) .nil hsame rfl ?_
    simp [scriptOf, Scene.before, scriptEnd, scriptStart]
  refine ⟨⟨_, ht⟩, launch_orderly h.sound.queue h.quiescent hl,
    launch_orderly h.sound.queue h.quiescent hl', fun steps e he => ?_⟩
  obtain ⟨fuel, hf⟩ := h.reports_full hl' he
  have hnot := hn fuel
  rw [hf] at hnot
  cases hnot

theorem ReachableBy.ends (h : session.ReachableBy .issued) {m : Machine} {after : Session} {k : Nat}
    (hl : session.launch (.ofNumber time) program = (.ok m, after))
    (hat : (m.searchRun (host (.ofNumber time)) k).AtScriptEnd) :
    ∃ w done, (∀ j, session.run (.ofNumber time) (k + j + 5) program = (.ok w, done)) ∧
      done.ReachableBy .issued ∧
      ∃ sites, done.store =
        { (m.searchRun (host (.ofNumber time)) k).store.atRest with sites := sites } := by
  have ho : (m.searchRun (host (.ofNumber time)) k).Orderly :=
    (launch_orderly h.sound.queue h.quiescent hl).searchRun k
  have ha := h.searchRun_alike hl (k + 4)
  rw [Machine.searchRun_add] at ha
  obtain ⟨⟨w, hs⟩, herr, sites, hst⟩ := hat.returned ho ha
  have hrun := run_launched h.sound.queue hl (k + 4)
  rw [hs] at hrun
  have hans : (session.run (.ofNumber time) (k + 4 + 1) program).1 = .ok w := by
    rw [hrun, conclude_answer, herr]
  have hne : (session.run (.ofNumber time) (k + 4 + 1) program).1 ≠ .error .unfinished := by
    rw [hans]
    nofun
  refine ⟨w, (session.run (.ofNumber time) (k + 4 + 1) program).2, fun j => ?_,
    h.run time _ program hne, sites, ?_⟩
  · rw [show k + j + 5 = k + 4 + 1 + j by omega,
      run_of_ended h.sound.queue (Nat.le_add_right _ j) hne]
    exact Prod.ext hans rfl
  · rw [hrun, conclude_returned_store]
    show { (m.run (host (.ofNumber time)) (k + 4)).store with error := none, pending := false } = _
    rw [hst]
    rfl

end Session

theorem Kin.Frames.after {K K' : Kin} {P Q : Pair} {u u' v : CodeUnit} {locals own : Nat}
    {more : List Instr} {f f' : Frame}
    (h : K.Frames (.before P u u' locals (own + (locals - 1)) more) f f') (hown : 0 < own)
    (hQ : Q.Later K'.pair) :
    K'.Frames (.after Q v u' (locals - 1) own)
      (Frame.setVariable { unit := v, locals := Array.replicate own .zero } 0 .nil) f' := by
  obtain ⟨hclo, hr, ha⟩ := h.script rfl
  have hs : own + (locals - 1) = f'.locals.size := h.total'
  refine ⟨hQ, rfl, h.unit', ?_, ?_, ?_, nofun, ?_, hs, Nat.le_of_eq hs, fun {i} hi _ => ?_,
    fun {j} hj => ?_⟩
  · rw [hclo]
    exact .nil
  · rw [hr]
    exact .nil
  · rw [ha]
    exact .nil
  · exact (Array.size_setIfInBounds.trans Array.size_replicate).symm
  · have hne : i ≠ 0 := Nat.ne_of_gt hi
    have hp : (View.moved (locals - 1) own).place i = i + (locals - 1) := if_neg hne
    have hbey : locals ≤ i + (locals - 1) := by omega
    show K'.Same _ (f'.value ((View.moved (locals - 1) own).place i))
    rw [Frame.value_setVariable, if_neg fun heq => hne heq.1.symm, hp,
      h.untouched (show _ ≤ i + (locals - 1) from hbey),
      Kin.value_fresh { unit := v } own i]
    exact Kin.same_zero
  · have hbey : locals ≤ j := by
      have : own + (locals - 1) ≤ j := hj
      omega
    exact h.untouched hbey

namespace Session

open Lower

variable {session : Session} {time : UInt64} {program rest : Program} {l n : Lowering}
  {body more : List Instr} {done after : Session} {m' : Machine} {k : Lowering} {code : List Instr}
  {now : Word} {fuel : Nat}

theorem second_inStep {m : Machine} {K : Kin} {sites : Array Site}
    (hh : Halfway program rest session.store l n body more)
    (hloc : k.current.locals = l.current.locals)
    (hstage : K.Stage (firstScene k n code body more) (firstScene k n code body more) m m')
    (hcs : m'.callers = []) (hstk : m'.stack = [])
    (hctl : m'.control = .run (more ++ scriptEnd)) (ho' : m'.Orderly)
    (hr : ∀ n e, (m'.searchRun (host (.ofNumber time)) n).store.error ≠ some (.heap e))
    (hd : done.ReachableBy .issued) (hlim : 0 < m.store.maxDepth)
    (hst : done.store = { m.store.atRest with sites := sites }) :
    ∃ k code S after c, after.store = k.store ∧
      done.launch (.ofNumber time) rest = (.ok (scriptMachine time k code), after) ∧
      m'.effect = k.store.effect (some .unfinished) ∧
      (scriptMachine time k code).Idles (host (.ofNumber time)) 6 c ∧
      S.rest = scriptEnd ∧ S.rest' = scriptEnd ∧
      InStep (host (.ofNumber time)) S c m' := by
  have hsts : K.Stores done.store m'.store.atRest := by
    rw [hst]
    exact ((hstage.stores.withDepth 0).withSites sites _).settle
  have hlater : n.store.Later m'.store.atRest :=
    hstage.frames.later.second.trans hsts.second
  obtain ⟨k2, code2, hc, hscr, hloc2, hpos, ⟨K2, _, hs2⟩, hcode⟩ :=
    hh.other hsts hlater done.unitName
  obtain ⟨after, ha, hl⟩ := hd.launch_of_ok hc hscr (.ofNumber time)
  have hq : k2.store.Quiescent := by
    have hp := done.store.compile_prepares done.unitName rest
    rw [hc] at hp
    exact hp.quiescent hd.quiescent
  have hdeep : 0 < k2.store.maxDepth := by
    rw [← hs2.maxDepth]
    show 0 < m'.store.maxDepth
    rw [hstage.stores.maxDepth]
    exact hlim
  obtain ⟨sites2, hi⟩ := scriptMachine_idles hq.depth hdeep time code2
  have hord : ((scriptMachine time k2 code2).searchRun (host (.ofNumber time)) (6 + 0)).Orderly :=
    (launch_orderly hd.sound.queue hd.quiescent hl).searchRun (6 + 0)
  rw [hi.searchRun] at hord
  have he : m'.control.isExit = false := by
    rw [hctl]
    rfl
  obtain ⟨_, hs3⟩ := hs2.renew
  have hstage2 : Kin.Stage { K2 with pair := ⟨k2.store, m'.store.atRest⟩ }
      (secondScene k2 l n m'.store.atRest code2 body more)
      (secondScene k2 l n m'.store.atRest code2 body more) (startedMachine k2 code2 sites2) m' := by
    constructor
    · rw [ho'.store_eq hcs he]
      exact (hs3.withDepth 1).withSites sites2 _
    · have hfra := hstage.frames
      unfold firstScene at hfra
      rw [hloc2, ← hloc] at hfra
      unfold secondScene
      rw [← hloc]
      exact hfra.after hpos (.refl _)
    · rw [hcs]
      exact .nil
  refine ⟨k2, code2, _, after, _, ha, hl, ?_, hi, rfl, rfl, ⟨_, _, hstage2, ?_⟩, hord, ho', hr⟩
  · unfold Machine.effect Machine.stop?
    rw [hctl]
    exact hs2.effect _
  · rw [hstk, hctl]
    exact .bottom hcode

/-! ## §5 Main -/

/-- Runs one program and then, if it came to no error, another. -/
def runBoth (session : Session) (now : Word) (fuel fuel' : Nat) (program rest : Program) :
    Except SessionError Word × Session :=
  match session.run now fuel program with
  | (.ok _, done) => done.run now fuel' rest
  | (.error e, done) => (.error e, done)

theorem runBoth_of_ok {w : Word} (h : session.run now fuel program = (.ok w, done)) (fuel' : Nat)
    (rest : Program) : session.runBoth now fuel fuel' program rest = done.run now fuel' rest := by
  rw [runBoth, h]

theorem runBoth_of_error (h : (effect (session.run now fuel program)).error ≠ none) (fuel' : Nat)
    (rest : Program) :
    session.runBoth now fuel fuel' program rest = session.run now fuel program := by
  rw [runBoth]
  generalize session.run now fuel program = r at h
  obtain ⟨answer, done⟩ := r
  cases answer with
  | ok w => exact absurd rfl h
  | error e => rfl

theorem ReachableBy.effect_second {c : Machine} {S : Scene} (hd : done.ReachableBy .issued)
    (ha : after.store = k.store)
    (hl : done.launch (.ofNumber time) rest = (.ok (scriptMachine time k code), after))
    (heff : m'.effect = k.store.effect (some .unfinished))
    (hi : (scriptMachine time k code).Idles (host (.ofNumber time)) 6 c)
    (hr : S.rest = scriptEnd) (hr' : S.rest' = scriptEnd)
    (hstep : InStep (host (.ofNumber time)) S c m') (fuel : Nat) :
    effect (done.run (.ofNumber time) fuel rest) =
      (m'.searchRun (host (.ofNumber time)) (fuel - 7)).effect := by
  have hnow : (host (.ofNumber time)).now.Atomic := .canonical (.of_number time)
  rcases Nat.lt_or_ge fuel 8 with hlt | hge
  · rw [Nat.sub_eq_zero_of_le (Nat.le_of_lt_succ hlt), Machine.searchRun, heff]
    cases fuel with
    | zero =>
      rw [run_zero hd.sound.queue hl, ← ha]
      rfl
    | succ j =>
      rw [hd.effect_run hl, hi.effect (Nat.le_of_lt_succ (Nat.lt_of_succ_lt_succ hlt))]
      exact Machine.effect_start ..
  · obtain ⟨j, rfl⟩ := Nat.exists_eq_add_of_le hge
    rw [show 8 + j = 6 + (1 + j) + 1 by omega, hd.effect_run hl, hi.searchRun,
      ← hstep.effect_run hnow hr hr']
    exact congrArg (fun n => (m'.searchRun _ n).effect) (by omega)

theorem ReachableBy.effect_ended (h : session.ReachableBy .issued)
    (hh : Halfway program rest session.store l n body more)
    (hl : session.launch (.ofNumber time) program = (.ok (scriptMachine time k code), after))
    (hloc : k.current.locals = l.current.locals) {j : Nat}
    (hstep : InStep (host (.ofNumber time)) (firstScene k n code body more)
      ((scriptMachine time k code).searchRun (host (.ofNumber time)) j)
      ((scriptMachine time n (body ++ more)).searchRun (host (.ofNumber time)) j))
    (hat : ((scriptMachine time k code).searchRun (host (.ofNumber time)) j).AtEnd
      (firstScene k n code body more)) :
    (∀ i ≤ 3, effect (session.run (.ofNumber time) (j + i + 1) program) =
      ((scriptMachine time n (body ++ more)).searchRun (host (.ofNumber time)) j).effect) ∧
    ∃ w done, (∀ i, session.run (.ofNumber time) (j + i + 5) program = (.ok w, done)) ∧
      ∀ fuel, effect (done.run (.ofNumber time) fuel rest) =
        ((scriptMachine time n (body ++ more)).searchRun (host (.ofNumber time))
          (j + (fuel - 7))).effect := by
  have hend : ((scriptMachine time k code).searchRun (host (.ofNumber time)) j).AtScriptEnd :=
    ⟨hat.callers, hat.stack, hat.control⟩
  obtain ⟨K, ht⟩ := hstep.twins
  obtain ⟨hs, hcs, hstk, hctl⟩ := ht.atEnd hat
  constructor
  · intro i hi
    rw [h.effect_run hl, Machine.searchRun_add, hend.effect_of_le hi, hstep.effect, hend.effect_eq]
  · obtain ⟨w, done, hrun, hd, sites, hst⟩ := h.ends hl hend
    have hlim : 0 < ((scriptMachine time k code).searchRun (host (.ofNumber time))
      j).store.maxDepth := by
      have hw : ((scriptMachine time k code).searchRun (host (.ofNumber time)) j).Within :=
        (h.launch_within hl).searchRun j
      have hdepth := congrArg Store.depth (hstep.orderly.store_eq hend.callers hend.isExit)
      exact Nat.lt_of_lt_of_le (hdepth ▸ Nat.one_pos) (hw.allowed hend.isExit)
    obtain ⟨k2, code2, S, after2, c, ha2, hl2, heff, hidles, hr, hr', hstep2⟩ :=
      second_inStep hh hloc hs hcs hstk hctl hstep.orderly' hstep.room hd hlim hst
    refine ⟨w, done, hrun, fun fuel => ?_⟩
    rw [hd.effect_second ha2 hl2 heff hidles hr hr' hstep2, Machine.searchRun_add]

def pace (j k k' : Nat) : Nat := if k ≤ j + 4 then min k (j + 1) else j + (k' - 7) + 1

theorem pace_surjective (j fuel : Nat) : ∃ k k', pace j k k' = fuel := by
  rcases Nat.lt_or_ge (j + 1) fuel with hlt | hge
  · refine ⟨j + 5, fuel - (j + 1) + 7, ?_⟩
    rw [pace, if_neg (by omega)]
    omega
  · refine ⟨fuel, 0, ?_⟩
    rw [pace, if_pos (by omega), Nat.min_eq_left hge]

theorem ReachableBy.paced (h : session.ReachableBy .issued)
    (hh : Halfway program rest session.store l n body more)
    (hc : session.store.compile session.unitName (program ++ rest) =
      (.ok (scriptUnit n (body ++ more)), n.store))
    (hstays : staysAll program = true)
    (hn : session.NeverFull (.ofNumber time) (program ++ rest)) :
    ∃ f : Nat → Nat → Nat, (∀ fuel, ∃ k k', f k k' = fuel) ∧
      ∀ k k', effect (session.runBoth (.ofNumber time) k k' program rest) =
        effect (session.run (.ofNumber time) (f k k') (program ++ rest)) := by
  classical
  obtain ⟨k1, code, after, after', ha, ha', hl, hl', hloc, ⟨K, hs⟩, hstep⟩ :=
    h.first_inStep hh hc hstays hn
  have hnow : (host (.ofNumber time)).now.Atomic := .canonical (.of_number time)
  have hz : ∀ k', effect (session.runBoth (.ofNumber time) 0 k' program rest) =
      effect (session.run (.ofNumber time) 0 (program ++ rest)) := by
    intro k'
    have hrun := run_zero h.sound.queue hl
    rw [runBoth_of_error (by rw [hrun]; nofun), hrun, run_zero h.sound.queue hl']
    show after.store.effect _ = after'.store.effect _
    rw [ha, ha']
    exact (hs.effect _).symm
  -- Up to the end of the first half one step of it is one of the whole.
  have hbef : ∀ j, (∀ i < j, ¬((scriptMachine time k1 code).searchRun
    (host (.ofNumber time)) i).AtEnd
      (firstScene k1 n code body more)) → ∀ k',
      effect (session.runBoth (.ofNumber time) (j + 1) k' program rest) =
        effect (session.run (.ofNumber time) (j + 1) (program ++ rest)) := by
    intro j hj k'
    have hstep' := hstep.run hnow hj
    have hrun := h.effect_run hl j
    rw [runBoth_of_error (by rw [hrun]; exact hstep'.effect_error rfl), hrun, h.effect_run hl',
      hstep'.effect]
  by_cases he : ∃ j, ((scriptMachine time k1 code).searchRun (host (.ofNumber time)) j).AtEnd
      (firstScene k1 n code body more)
  · obtain ⟨j, hat, hleast⟩ := Nat.findX he
    have hstep' := hstep.run hnow hleast
    obtain ⟨hlea, w, done, hrun, hsnd⟩ := h.effect_ended hh hl hloc hstep' hat
    refine ⟨pace j, pace_surjective j, fun k k' => ?_⟩
    unfold pace
    split
    · rcases Nat.lt_or_ge (j + 1) k with hlt | hge
      · obtain ⟨i, rfl⟩ : ∃ i, k = j + i + 1 := ⟨k - (j + 1), by omega⟩
        have heff := hlea i (by omega)
        rw [Nat.min_eq_right (Nat.le_of_lt hlt), h.effect_run hl', ← heff, runBoth_of_error]
        rw [heff, hstep'.effect]
        exact hstep'.effect_error rfl
      · rw [Nat.min_eq_left hge]
        cases k with
        | zero => exact hz k'
        | succ i =>
          have hle := Nat.le_of_succ_le_succ hge
          exact hbef i (fun i' hi' => hleast i' (Nat.lt_of_lt_of_le hi' hle)) k'
    · obtain ⟨i, rfl⟩ : ∃ i, k = j + i + 5 := ⟨k - (j + 5), by omega⟩
      rw [runBoth_of_ok (hrun i), hsnd, h.effect_run hl']
  · refine ⟨fun k _ => k, fun fuel => ⟨fuel, 0, rfl⟩, fun k k' => ?_⟩
    cases k with
    | zero => exact hz k'
    | succ j => exact hbef j (fun i _ hat => he ⟨i, hat⟩) k'

theorem effect_ended_iff {r : Except SessionError Word × Session} :
    ended r.1 = true ↔ (effect r).error ≠ some .unfinished := by
  obtain ⟨answer, session⟩ := r
  rw [ended_iff]
  cases answer with
  | ok w => exact ⟨fun _ => nofun, fun _ => nofun⟩
  | error e =>
    show Except.error e ≠ .error .unfinished ↔ some e ≠ some .unfinished
    rw [ne_eq, ne_eq, Except.error.injEq, Option.some.injEq]

def opening : Program :=
  let n := fun line => Expr.read ⟨"n", line⟩ (.scope 1)
  [ .declare "greeting" (some (.literal (.text "hi"))),
    .function (.mk ⟨"make", 2⟩ []
      [ .declare "n" (some (.literal (.number 0))),
        .function (.mk ⟨"next", 4⟩ []
          [ .expression (.assign ⟨"n", 5⟩ (.scope 1)
              (.binary .add (n 5) (.literal (.number 0x3FF0000000000000)))),
            .leave (some (n 6)) ]),
        .leave (some (.read ⟨"next", 7⟩ (.scope 0))) ]),
    .declare "count" (some (.call (.read ⟨"make", 8⟩ .global) [] 8)),
    .expression (.call (.read ⟨"count", 9⟩ .global) [] 9) ]

def closing : Program :=
  [ .print (.read ⟨"greeting", 10⟩ .global),
    .print (.call (.read ⟨"count", 11⟩ .global) [] 11) ]

def booing : Program := [.print (.literal (.text "boo"))]

/-- A program prints one text as a whole, and its halves print another. -/
structure Splits (session : Session) (first : Program) (whole halves : String) : Prop where
  reachable : session.Reachable
  stays : staysAll first = true
  accepts : ∃ unit, (session.store.compile session.unitName (first ++ booing)).1 = .ok unit
  room : session.NeverFull (.ofNumber 0) (first ++ booing)
  whole_printed : (session.run (.ofNumber 0) 100 (first ++ booing)).2.store.printed = whole
  halves_printed : (session.runBoth (.ofNumber 0) 100 100 first booing).2.store.printed = halves

end Session

end ScriptMachine
