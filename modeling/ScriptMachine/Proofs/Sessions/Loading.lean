/-
ScriptMachine.Proofs.Sessions.Loading — an engine never refuses what a session
lowered.
-/
import ScriptMachine.Proofs.Lowers.Closed
import ScriptMachine.Proofs.Sessions.WellFormed

namespace ScriptMachine

/-! ## §1 Engines -/

theorem CodeUnit.Closed.prepare {unit : CodeUnit} {name : String} {fns : List (String × Nat)}
    (h : unit.Closed name fns) (hc : unit.check true = .ok ()) :
    Engine.prepare .standard unit = .ok () := by
  have hmis : unit.declarations.find? (fun d =>
      d.linkage = .imported && (Routines.standard.get? d.name).isNone) = none := by
    rw [Array.find?_eq_none]
    intro d hd
    obtain ⟨i, hi⟩ := Array.getElem?_of_mem hd
    by_cases himp : d.linkage = .imported
    · obtain ⟨service, _, hoff⟩ := h.imported hi himp
      simp [hoff]
    · simp [himp]
  have hret : unit.definitions.all (·.body.returns) = true := by
    rw [Array.all_eq_true']
    intro f hf
    obtain ⟨d, _, hs⟩ := ((checkWith_eq_ok_iff unit (.ofFlag true)).mp hc).suited f
      (Array.mem_toList_iff.mpr hf)
    exact hs.accepted
  unfold Engine.prepare
  rw [hmis]
  exact if_pos hret

namespace Engine

variable {engine : Engine} {unit : CodeUnit} {name : String}

theorem add_ok (hque : engine.queue = []) (hu : unit.ExportsFirst name)
    (hc : unit.check engine.settings.verify = .ok ())
    (hp : prepare engine.routines unit = .ok ()) (hf : engine.symbols.get? name = none) :
    ∃ n engine', engine.add unit = (.ok n, engine') ∧ engine'.resolve name = .ok ⟨unit, 0⟩ ∧
      engine'.routines = engine.routines ∧
        ∀ {other}, other ≠ name → engine'.symbols.get? other = engine.symbols.get? other := by
  have hreg : engine.registerWith (.ofFlag engine.settings.verify) unit =
      .ok (⟨engine.units.size, unit⟩, engine.reserve unit) := by
    refine registerWith_eq_ok_iff.mpr ⟨⟨(CodeUnit.checkWith_eq_ok_iff _ _).mp hc, ?_⟩, rfl, rfl⟩
    simp [hu.exports, hf]
  have ha : engine.add unit = (.ok engine.units.size,
      ((engine.reserve unit).enqueue ⟨engine.units.size, unit⟩).drain) := by
    simp [add, submit, hreg]
  obtain ⟨job, engine1, hreg', hque', hset⟩ := add_eq hque ha
  cases hreg.symm.trans hreg'
  have hpub : (engine.reserve unit).settle ⟨engine.units.size, unit⟩ =
      (engine.reserve unit).publish ⟨engine.units.size, unit⟩ := by
    unfold settle
    rw [show (engine.reserve unit).routines = engine.routines from rfl, hp]
  rw [hpub] at hset
  have hget : ∀ other, ((engine.reserve unit).publish ⟨engine.units.size, unit⟩).symbols.get?
    other =
      if name = other then some (.ready ⟨unit, 0⟩) else engine.symbols.get? other := by
    intro other
    simp only [publish, hu.entries, List.foldl_cons, List.foldl_nil, Table.get?_insert,
      get?_reserve, hu.exports, List.mem_singleton]
    split
    · rfl
    · next hne => rw [if_neg (Ne.symm hne)]
  refine ⟨_, _, ha, ?_, ?_, ?_⟩
  · have hdra : ((engine.reserve unit).publish ⟨engine.units.size, unit⟩).queue = [] := hque'
    rw [hset, resolve, drain_of_nil hdra, lookup, hget, if_pos rfl]
    rfl
  · rw [hset]
    rfl
  · intro other hne
    rw [hset, hget, if_neg hne.symm]

end Engine

/-! ## §2 Sessions -/

namespace Session

variable {session : Session}

structure Unclaimed (session : Session) : Prop where
  routines : session.engine.routines = .standard
  free : ∀ k, session.submissions ≤ k →
    session.engine.symbols.get? ("__script" ++ toString k) = none

theorem scriptName_inj {i j : Nat} (h : "__script" ++ toString i = "__script" ++ toString j) :
    i = j := by
  have hl := congrArg String.toList h
  rw [String.toList_append, String.toList_append] at hl
  exact eq_of_toList_toString (List.append_cancel_left hl)

theorem scriptName_ne_empty (k : Nat) : "__script" ++ toString k ≠ "" := by
  intro h
  have hl := congrArg String.toList h
  rw [String.toList_append] at hl
  exact absurd (List.append_eq_nil_iff.mp hl).1 (by decide)

theorem scriptName_ne_symbol (k : Nat) (service : Service) :
    "__script" ++ toString k ≠ service.symbol := by
  intro h
  have hh := congrArg (fun s : String => s.toList.head?) h
  rw [String.toList_append] at hh
  have hscr : ("__script".toList ++ (toString k).toList).head? = some '_' := rfl
  have hser : service.symbol.toList.head? = some 'e' := by cases service <;> rfl
  rw [hscr, hser] at hh
  exact absurd hh (by decide)

theorem Unclaimed.launch (h : session.Unclaimed) (hque : session.engine.queue = []) (now : Word)
    (program : Program) : (session.launch now program).2.Unclaimed ∧
      ∀ {unit}, (session.store.compile session.unitName program).1 = .ok unit →
        ∃ m, (session.launch now program).1 = .ok m := by
  unfold Session.launch
  dsimp only
  cases hcomp : session.store.compile session.unitName program with
  | mk result store =>
    cases result with
    | error e => exact ⟨⟨h.routines, fun k hk => h.free k (Nat.le_of_succ_le hk)⟩, nofun⟩
    | ok unit =>
      obtain ⟨hu, f, hf⟩ := Store.compile_script hcomp
      obtain ⟨hclo, hc⟩ := Store.compile_closed hcomp
      have hc := hc (scriptName_ne_empty _) (scriptName_ne_symbol _)
      obtain ⟨n, engine, hadd, hrsv, hrou, hoth⟩ :=
        Engine.add_ok hque hu (hc _)
        (by rw [h.routines]; exact hclo.prepare (hc true)) (h.free _ (Nat.le_refl _))
      dsimp only
      rw [hadd]
      dsimp only
      rw [hrsv]
      dsimp only
      rw [hf]
      refine ⟨⟨hrou.trans h.routines, fun k hk => ?_⟩, fun _ => ⟨_, rfl⟩⟩
      have hl : session.submissions < k := hk
      exact (hoth fun heq => Nat.ne_of_gt hl (scriptName_inj heq)).trans
        (h.free k (Nat.le_of_lt hl))

theorem run_engine (h : session.engine.queue = []) (now : Word) (fuel : Nat) (program : Program) :
    (session.run now fuel program).2.engine = (session.launch now program).2.engine ∧
      (session.run now fuel program).2.submissions = (session.launch now
        program).2.submissions := by
  rw [run_eq_runBy h]
  unfold runBy
  cases session.launch now program with
  | mk result after =>
    cases result with
    | error e => exact ⟨rfl, rfl⟩
    | ok m =>
      cases fuel with
      | zero => exact ⟨rfl, rfl⟩
      | succ fuel =>
        dsimp only [finish]
        obtain ⟨_, _, heq⟩ := conclude_eq { after with store := (m.run (host now) fuel).store }
          (m.run (host now) fuel).stop?
        rw [heq]
        exact ⟨rfl, rfl⟩

theorem ReachableBy.unclaimed {V : Vocabulary} (h : session.ReachableBy V) : session.Unclaimed := by
  induction h with
  | create hcre =>
    obtain ⟨_, _, rfl⟩ := Session.create_eq_ok hcre
    exact ⟨rfl, fun _ _ => rfl⟩
  | serve request hbef _ ih =>
    cases request with
    | mention | define | mute => exact ⟨ih.routines, ih.free⟩
    | run now fuel program =>
      have hque := hbef.sound.queue
      obtain ⟨heng, hcnt⟩ := run_engine hque now fuel program
      have hlau := (ih.launch hque now program).1
      rw [Session.serve]
      exact ⟨by rw [heng]; exact hlau.routines, by rw [heng, hcnt]; exact hlau.free⟩

theorem ReachableBy.launches {V : Vocabulary} (h : session.ReachableBy V) (now : Word)
    {program : Program} {unit : CodeUnit}
    (hc : (session.store.compile session.unitName program).1 = .ok unit) :
    ∃ m, (session.launch now program).1 = .ok m :=
  (h.unclaimed.launch h.sound.queue now program).2 hc

end Session

end ScriptMachine
