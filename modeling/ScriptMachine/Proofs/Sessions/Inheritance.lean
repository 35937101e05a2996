/-
ScriptMachine.Proofs.Sessions.Inheritance — classes inherit by copying, and it does
not show.
-/
import ScriptMachine.Proofs.Classes.History
import ScriptMachine.Proofs.Sessions.Identity
import ScriptMachine.Proofs.Sessions.Twins

namespace ScriptMachine

/-! ## §1 Stores -/

structure Store.Told (history : History) (s : Store) : Prop where
  functions : s.heap.Sectioned (CodeUnit.Method s.initializer)
  accounts : history.Accounts s.heap
  methods : s.heap.Attached (CodeUnit.Method s.initializer)
  init : s.names.find? "init" = some s.initializer

namespace Store.Told

variable {history : History} {s s' : Store}

theorem prepares (h : s.Told history) (hp : s.Prepares s') : s'.Told history := by
  have hcla : ∀ i, s'.heap.classAt? i = s.heap.classAt? i := by
    intro i
    cases ho : s.heap.objects[i]? with
    | some o => exact Heap.classAt?_congr ((hp.objects ho).trans ho.symm)
    | none =>
      have hold : s.heap.classAt? i = none := by rw [Heap.classAt?, ho]
      rw [hold]
      cases hc : s'.heap.classAt? i with
      | none => rfl
      | some c =>
        rcases hp.objects_new (Heap.classAt?_eq_some.mp hc) with h' | ⟨_, h'⟩
        · cases ho.symm.trans h'
        · cases h'
  refine ⟨?_, h.accounts.congr hcla, ?_, ?_⟩
  · intro i o ho
    rw [hp.initializer]
    rcases hp.objects_new ho with h' | ⟨_, rfl⟩
    · exact h.functions i o h'
    · trivial
  · intro i c name w hc hw
    rw [hcla] at hc
    obtain ⟨k, unit, d, hd, hent, hm⟩ := h.methods hc hw
    refine ⟨k, unit, d, ?_, hent, hp.initializer ▸ hm⟩
    obtain ⟨j, hj, rfl, ho⟩ := Heap.deref?_eq_some.mp hd
    exact Heap.deref?_eq_some.mpr ⟨j, hj, rfl, hp.objects ho⟩
  · rw [hp.initializer]
    exact hp.names.find h.init

theorem congr (h : s.Told history) (hh : s'.heap = s.heap) (hn : s'.names = s.names)
    (hi : s'.initializer = s.initializer) : s'.Told history := by
  refine ⟨?_, ?_, ?_, ?_⟩
  · rw [hh, hi]
    exact h.functions
  · rw [hh]
    exact h.accounts
  · rw [hh, hi]
    exact h.methods
  · rw [hn, hi]
    exact h.init

theorem create {limit maxDepth : Nat} (h : Store.create (.withLimit limit) maxDepth = .ok s) :
    s.Told [] := by
  obtain ⟨_, hnat, _⟩ := Store.create_sound (V := .any) h
  have hn : ∀ {i c}, s.heap.classAt? i ≠ some c := by
    intro i c hc
    obtain ⟨_, h'⟩ := hnat (Heap.classAt?_eq_some.mp hc)
    cases h'
  refine ⟨?_, ⟨⟨.nil, nofun, nofun⟩, fun hc => absurd hc hn⟩, fun hc => absurd hc hn, ?_⟩
  · intro i o ho
    obtain ⟨_, rfl⟩ := hnat ho
    trivial
  · exact (Store.create_named h).2

end Store.Told

/-! ## §2 Launches -/

theorem Store.compile_sectioned {s s' : Store} {name : String} {program : Program} {unit : CodeUnit}
    (h : s.compile name program = (.ok unit, s'))
    (hi : s'.names.find? "init" = some s'.initializer) :
    unit.Sectioned (CodeUnit.Method s'.initializer) 0 := by
  obtain ⟨G, F, code, _, rfl, rfl, hscr⟩ := (Store.compile_yields h).2 fun _ => 0
  refine hscr.sectioned ?_
  rintro symbol d ⟨F', scopes, decl, prototype, cells, hn, hclo⟩
  refine ⟨decl, ⟨G, F', scopes, prototype, cells, rfl, hclo⟩, ?_⟩
  rintro rfl
  exact Names.find?_inj hn hi

theorem Machine.run_names {m : Machine} (host : Host) [host.Attached] (n : Nat) :
    (m.run host n).store.names = m.store.names ∧
      (m.run host n).store.initializer = m.store.initializer := by
  induction n with
  | zero => exact ⟨rfl, rfl⟩
  | succ n ih =>
    have hevo := Act.evolves (m.run host n).store ((m.run host n).act host)
    rw [run_succ, step_store]
    exact ⟨hevo.names.trans ih.1, hevo.initializer.trans ih.2⟩

namespace Session

variable {session : Session} {history : History} {now : Word} {program : Program} {m : Machine}
  {after : Session} {time : UInt64} {i : Nat} {c : Class}

theorem launch_recounted (h : session.engine.queue = []) (ht : session.store.Told history)
    (hl : session.launch now program = (.ok m, after)) :
    m.Recounted (CodeUnit.Method m.store.initializer) none history ∧
      m.store.names.find? "init" = some m.store.initializer := by
  obtain ⟨unit, f, hc, hf, rfl⟩ := launch_ok h hl
  have hp := session.store.compile_prepares session.unitName program
  rw [hc] at hp
  have ht' : after.store.Told history := ht.prepares hp
  have hu := Store.compile_sectioned hc ht'.init
  have hent : (Machine.start (host now) after.store unit f).store.heap = after.store.heap ∧
      (Machine.start (host now) after.store unit f).store.names = after.store.names ∧
      (Machine.start (host now) after.store unit
        f).store.initializer = after.store.initializer := by
    rw [Machine.start, Machine.enter_store]
    unfold Store.entered
    split <;> exact ⟨rfl, rfl, rfl⟩
  have hsta := ht'.congr hent.1 hent.2.1 hent.2.2
  refine ⟨⟨?_, hsta.accounts, by rintro _ ⟨⟩, hsta.methods⟩, hsta.init⟩
  rw [hent.2.2]
  exact Machine.Sectioned.enter ht'.functions hu hf fun _ hmem => absurd hmem List.not_mem_nil

theorem Reachable.run_recounted (h : session.Reachable) (ht : session.store.Told history)
    (hl : session.launch (.ofNumber time) program = (.ok m, after)) (n : Nat) :
    ∃ latest, (m.run (host (.ofNumber time)) n).Recounted
      (CodeUnit.Method (m.run (host (.ofNumber time)) n).store.initializer) latest
      (m.recount (host (.ofNumber time)) n history) := by
  rw [(Machine.run_names _ n).2]
  refine (launch_recounted h.sound.queue ht hl).1.run ?_ ?_ n
  · exact (launch_writesOnly h.sound.queue h.laid hl).laid
  · exact fun k => (h.sound.launch_typed hl k).sound.heap

theorem Reachable.run_told (h : session.Reachable) (ht : session.store.Told history)
    (hl : session.launch (.ofNumber time) program = (.ok m, after)) (n : Nat) :
    (m.run (host (.ofNumber time)) n).store.Told
      (m.recount (host (.ofNumber time)) n history) := by
  obtain ⟨latest, hrec⟩ := h.run_recounted ht hl n
  obtain ⟨hn, hi⟩ : (m.run (host (.ofNumber time)) n).store.names = m.store.names ∧ _ :=
    Machine.run_names _ n
  refine ⟨hrec.sectioned.heap, hrec.accounts, hrec.methods, ?_⟩
  rw [hn, hi]
  exact (launch_recounted h.sound.queue ht hl).2

theorem launch_script (h : session.engine.queue = [])
    (hl : session.launch now program = (.ok m, after)) :
    ∃ G F code, m.frame.unit = G.unit ∧ Translate.Script G F program code := by
  obtain ⟨unit, f, hc, _, rfl⟩ := launch_ok h hl
  obtain ⟨G, F, code, _, _, rfl, hscr⟩ := (Store.compile_yields hc).2 fun _ => 0
  refine ⟨G, F, code, ?_, hscr⟩
  unfold Machine.start Machine.enter
  dsimp only
  split <;> rfl

/-! ## §3 Sessions -/

def recount (session : Session) (now : Word) (fuel : Nat) (program : Program)
    (history : History) : History :=
  match (session.launch now program).1 with
  | .ok m => m.recount (host now) (fuel - 1) history
  | .error _ => history

/-- The history after a request. Only programs have class statements. -/
def retell (session : Session) (history : History) : Request → History
  | .run now fuel program => session.recount now fuel program history
  | .mention _ | .define _ _ | .mute _ => history

/-- The history of a session a host can have. -/
inductive Recounts : Session → History → Prop
  | create {settings : SessionSettings} {limit : Nat} {session : Session} :
      Session.create settings (.withLimit limit) = .ok session → Recounts session []
  | serve {session : Session} {history : History} (request : Request) :
      Recounts session history → session.Allows .any request →
        Recounts (session.serve request) (session.retell history request)

theorem Recounts.reachable (h : session.Recounts history) : session.Reachable := by
  induction h with
  | create hcre => exact .create hcre
  | serve request _ hall ih => exact ih.serve request hall

theorem Reachable.recounts (h : session.Reachable) : ∃ history, session.Recounts history := by
  induction h with
  | create hcre => exact ⟨[], .create hcre⟩
  | serve request _ hall ih =>
    obtain ⟨history, ih⟩ := ih
    exact ⟨_, ih.serve request hall⟩

theorem Reachable.submission_told (h : session.Reachable) (ht : session.store.Told history)
    (time : UInt64) (fuel : Nat) (program : Program) :
    (session.run (.ofNumber time) fuel program).2.store.Told
      (session.recount (.ofNumber time) fuel program history) := by
  unfold recount
  rcases run_cases h.sound.queue (.ofNumber time) fuel program with
    ⟨heq, hf⟩ | ⟨m, after, error, pending, hl, heq⟩
  · have hcom : (session.run (.ofNumber time) fuel program).2.store.Told history := by
      rw [heq, launch_store]
      exact ht.prepares (session.store.compile_prepares session.unitName program)
    split
    · next m hm =>
      rw [hm] at hf
      obtain rfl := hf rfl
      exact hcom
    · exact hcom
  · rw [heq, hl]
    exact (h.run_told ht hl (fuel - 1)).congr rfl rfl rfl

theorem Recounts.told (h : session.Recounts history) : session.store.Told history := by
  induction h with
  | create hcre =>
    obtain ⟨store, hst, rfl⟩ := Session.create_eq_ok hcre
    exact .create hst
  | @serve before _ request hbef hall ih =>
    cases request with
    | mention m => exact ih.prepares (before.store.prepares_mention m)
    | define name w =>
      exact (ih.prepares (before.store.prepares_globalSlot name)).congr rfl rfl rfl
    | mute muted => exact ih.congr rfl rfl rfl
    | run now fuel program =>
      obtain ⟨⟨time, rfl⟩, _⟩ := hall
      exact hbef.reachable.submission_told ih time fuel program

/-! ## §4 Main -/

theorem Reachable.run_classAt? (h : session.Reachable) (ht : session.store.Told history)
    (hl : session.launch (.ofNumber time) program = (.ok m, after))
    (hc : session.store.heap.classAt? i = some c) (n : Nat) :
    (m.run (host (.ofNumber time)) n).store.heap.classAt? i = some c := by
  have hwr := launch_writesOnly h.sound.queue h.laid hl
  refine (launch_recounted h.sound.queue ht hl).1.sectioned.run_classAt? hwr.laid
    (fun k => (h.sound.launch_typed hl k).sound.heap) ?_ n
  exact Heap.classAt?_eq_some.mpr (hwr.untouched (Heap.classAt?_eq_some.mp hc) nofun)

theorem Reachable.submission_classAt? (h : session.Reachable) (ht : session.store.Told history)
    (time : UInt64) (fuel : Nat) (program : Program) (hc : session.store.heap.classAt? i = some c) :
    (session.run (.ofNumber time) fuel program).2.store.heap.classAt? i = some c := by
  rcases run_cases h.sound.queue (.ofNumber time) fuel program with
    ⟨heq, _⟩ | ⟨m, after, error, pending, hl, heq⟩
  · rw [heq, launch_store]
    have hp := session.store.compile_prepares session.unitName program
    exact Heap.classAt?_eq_some.mpr (hp.objects (Heap.classAt?_eq_some.mp hc))
  · rw [heq]
    exact h.run_classAt? ht hl hc (fuel - 1)

end Session

/-- What a machine finds at some moment, given the history so far. -/
structure Machine.Inherits (host : Host) (history : History) (m : Machine) : Prop where
  accounts : history.Accounts m.store.heap
  resolves : m.store.Resolves history.walk
  attaches : ∀ {target name method}, m.act host = .addMethod target name method →
    ∃ last older, history = last :: older ∧ target = .ofIndex last.made
  superclass : ∀ {w u v name rest below}, m.control = .give w →
    m.stack = .assignVariable u :: .discard ::
      .rest (.evaluate (.assignVariable v (.newClass name (some u))) :: rest) :: below →
        (m.run host 5).act host = .newClass name (some w)
  final : ∀ {name superclass}, m.act host = .newClass name superclass →
    ∀ {i c}, m.store.heap.classAt? i = some c → ∀ n, (m.run host n).store.heap.classAt? i = some c

namespace Session

variable {session : Session}

/-- **Copying methods is walking the superclass chain.** Every session has a
history of what its class statements did. Between submissions, and at any
moment of a program's run, wherever it may stop, a class answers to the method
its own statement attached last under a name, and else to what the class it
inherits from answers to. Every lookup finds that, be it for a property, for a
method of the superclass or for an initializer. Whatever is declared later
leaves the classes there are as they are.

The code that runs is a translation of the program, in which the value of a
superclass expression goes to the variable its class is made from. -/
theorem methods_found_by_walking (h : session.Reachable) :
    (∃ history, session.Recounts history) ∧ ∀ {history}, session.Recounts history →
      history.Accounts session.store.heap ∧ session.store.Resolves history.walk ∧
      ∀ time program,
        (∀ {m after}, session.launch (.ofNumber time) program = (.ok m, after) →
          (∃ G F code, m.frame.unit = G.unit ∧ Translate.Script G F program code) ∧
          ∀ n, (m.run (host (.ofNumber time)) n).Inherits (host (.ofNumber time))
            (m.recount (host (.ofNumber time)) n history)) ∧
        ∀ fuel {i c}, session.store.heap.classAt? i = some c →
          (session.run (.ofNumber time) fuel program).2.store.heap.classAt? i = some c := by
  refine ⟨h.recounts, fun {history} hr => ?_⟩
  have ht := hr.told
  refine ⟨ht.accounts, ht.accounts.resolves h.sound.store.heap, fun time program => ⟨?_, ?_⟩⟩
  · intro m after hl
    refine ⟨launch_script h.sound.queue hl, fun n => ?_⟩
    obtain ⟨latest, hrec⟩ := h.run_recounted ht hl n
    have hs : ∀ k, (m.run (host (.ofNumber time)) k).store.heap.Sound .any :=
      fun k => (h.sound.launch_typed hl k).sound.heap
    have hlaid := Machine.run_laid (host (.ofNumber time))
      (launch_writesOnly h.sound.queue h.laid hl).laid n
    refine ⟨hrec.accounts, hrec.accounts.resolves (hs n), fun hact => ?_,
      Machine.superclass_operand hrec.sectioned, fun hact i c hc k => ?_⟩
    · obtain ⟨last, older, heq, htgt, _⟩ := hrec.attaches hact
      exact ⟨last, older, heq, htgt⟩
    · refine (hrec.sectioned.between hact).run_classAt? hlaid (fun j => ?_) hc k
      rw [← Machine.run_add]
      exact hs (n + j)
  · exact fun fuel i c hc => h.submission_classAt? ht time fuel program hc

def heirs : Program :=
  let methods (names : List String) := names.map fun name => FunctionDecl.mk ⟨name, 1⟩ [] []
  [ .classDecl "Base" none (methods ["f", "g"]),
    .classDecl "Leaf" (some (.read ⟨"Base", 2⟩ .global)) (methods ["f"]),
    .classDecl "Base" none (methods ["f", "g"]),
    .classDecl "Full" (some (.read ⟨"Leaf", 4⟩ .global))
      (methods ["a", "b", "c", "d", "e", "h", "i", "g"]) ]

/-- The last class inherits both of its methods, one of them from a class whose
name was declared anew. Its own `g` was never attached. -/
theorem methods_found_by_walking_heirs : small.Reachable ∧
    ∃ m after, small.launch (.ofNumber 0) heirs = (.ok m, after) ∧
      (∀ n, (m.run (host (.ofNumber 0)) n).Inherits (host (.ofNumber 0))
        (m.recount (host (.ofNumber 0)) n [])) ∧
      (m.recount (host (.ofNumber 0)) 120 []).map (fun d => (d.made, d.superclass)) =
        [(9, some 4), (6, none), (4, some 1), (1, none)] ∧
      (["f", "g"].map fun name => ((m.run (host (.ofNumber 0)) 120).store.names.find? name).bind
        fun symbol => History.walk symbol (m.recount (host (.ofNumber 0)) 120 []) 9) =
          [some (.ofIndex 5), some (.ofIndex 3)] ∧
      ranOut (small.run (.ofNumber 0) 120 heirs).1 = true := by
  have hw := (methods_found_by_walking reachable_small).2 (.create create_small)
  have hr : (small.launch (.ofNumber 0) heirs).1.toOption.map (fun m =>
      ((m.recount (host (.ofNumber 0)) 120 []).map (fun d : ClassRecord => (d.made, d.superclass)),
        ["f", "g"].map fun name => ((m.run (host (.ofNumber 0)) 120).store.names.find? name).bind
          fun symbol => History.walk symbol (m.recount (host (.ofNumber 0)) 120 []) 9)) =
      some ([(9, some 4), (6, none), (4, some 1), (1, none)],
        [some (.ofIndex 5), some (.ofIndex 3)]) := by
    decide +kernel
  have hf : ranOut (small.run (.ofNumber 0) 120 heirs).1 = true := by decide +kernel
  obtain ⟨m, after, hl, hb⟩ := exists_launch hr
  obtain ⟨hrec, hwalk⟩ := Prod.mk.inj hb
  exact ⟨reachable_small, m, after, hl, ((hw.2.2 0 heirs).1 hl).2, hrec, hwalk, hf⟩

end Session

end ScriptMachine
