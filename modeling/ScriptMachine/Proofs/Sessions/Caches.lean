/-
ScriptMachine.Proofs.Sessions.Caches — sessions with and without property
caches.
-/
import ScriptMachine.Proofs.Runs.Searching
import ScriptMachine.Proofs.Sessions.WellFormed

namespace ScriptMachine

/-! ## §1 Requests -/

variable {names names' : Nat → Symbol} {s s' : Store}

namespace Session

abbrev Runner := Session → Word → Nat → Program → Except SessionError Word × Session

/-- Whether a run came to an end. -/
def ended : Except SessionError Word → Bool
  | .error .unfinished => false
  | _ => true

theorem ended_iff {answer : Except SessionError Word} :
    ended answer = true ↔ answer ≠ .error .unfinished := by
  unfold ended
  split
  · simp
  · next hne => exact ⟨fun _ => hne, fun _ => rfl⟩

/-- Serves requests in turn, up to the first run that does not come to an
end. Returns what runs came to. -/
def replay (runner : Runner) (session : Session) :
    List Request → List (Except SessionError Word) × Session
  | [] => ([], session)
  | .mention m :: rest =>
    replay runner { session with store := session.store.mention m } rest
  | .define name w :: rest =>
    replay runner { session with store := session.store.defineGlobal name w } rest
  | .mute muted :: rest =>
    replay runner { session with store := { session.store with muted := muted } } rest
  | .run now fuel program :: rest =>
    let (answer, after) := runner session now fuel program
    if ended answer then
      let (answers, last) := replay runner after rest
      (answer :: answers, last)
    else ([answer], after)

/-- At every point of every run, the references in play were issued by the
heap. -/
def PlaysIssued (session : Session) : List Request → Prop
  | [] => True
  | .mention m :: rest => PlaysIssued { session with store := session.store.mention m } rest
  | .define name w :: rest =>
    PlaysIssued { session with store := session.store.defineGlobal name w } rest
  | .mute muted :: rest =>
    PlaysIssued { session with store := { session.store with muted := muted } } rest
  | .run now fuel program :: rest =>
    (∀ {m after}, session.launch now program = (.ok m, after) →
      ∀ n < fuel, (m.run (host now) n).Issued) ∧
    (ended (session.run now fuel program).1 = true →
      PlaysIssued (session.run now fuel program).2 rest)

/-- The host hands over well-formed words only. -/
def TakesWellFormed (session : Session) : List Request → Prop
  | [] => True
  | .mention m :: rest => TakesWellFormed { session with store := session.store.mention m } rest
  | .define name w :: rest => w.WellFormed session.store.heap ∧
    TakesWellFormed { session with store := session.store.defineGlobal name w } rest
  | .mute muted :: rest =>
    TakesWellFormed { session with store := { session.store with muted := muted } } rest
  | .run now fuel program :: rest => (∃ time, now = .ofNumber time) ∧
    (ended (session.run now fuel program).1 = true →
      TakesWellFormed (session.run now fuel program).2 rest)

/-- Sessions that differ in what their sites remember and count at most. -/
def Alike (session session' : Session) : Prop :=
  ∃ store, store.Alike session'.store ∧ session = { session' with store := store }

end Session

/-! ## §2 Sessions -/

theorem Known.ofSites_le (hp : s.Prepares s') (hn : ∀ k < s.sites.size, names' k = names k) :
    (Known.ofSites names s.kinds).Le (.ofSites names' s'.kinds) where
  constant _ := trivial
  site := by
    rintro site kind name ⟨hk, rfl⟩
    obtain ⟨entry, hent, rfl⟩ := Store.kinds_eq_some.mp hk
    exact ⟨Store.kinds_eq_some.mpr ⟨entry, hp.sites hent, rfl⟩,
      hn site (Array.getElem?_eq_some_iff.mp hent).1⟩

theorem Store.Prepares.remembers (hp : s.Prepares s') (h : s.Remembers names s.kinds)
    (hn : ∀ k < s.sites.size, names' k = names k) :
    s'.Remembers names' s'.kinds where
  linked := hp.shapes ▸ h.linked
  shaped ho := by
    rw [hp.shapes]
    rcases hp.objects_new ho with ho | ⟨t, rfl⟩
    · exact h.shaped ho
    · trivial
  kinds := rfl
  sites := by
    intro site entry shape slot hent hcch
    rcases hp.sites_new hent with hold | ⟨_, rfl⟩
    · have hlt : site < s.sites.size := (Array.getElem?_eq_some_iff.mp hold).1
      rw [hp.shapes, hn site hlt]
      exact h.sites hold hcch
    · cases hcch

theorem Store.create_blank {heap : Heap} {maxDepth : Nat} (h : Store.create heap maxDepth = .ok s) :
    s.shapes = {} ∧ s.sites = #[] := by
  obtain ⟨_, t, _, ht, rfl⟩ := Store.create_eq_ok h
  have hb : t.shapes = {} ∧ t.sites = #[] := ht ▸ ⟨rfl, rfl⟩
  refine ⟨(t.prepares_globalSlot "clock").shapes.trans hb.1, ?_⟩
  show (t.globalSlot "clock").2.sites = _
  rw [Store.globalSlot_eq]
  split <;> exact hb.2

structure Session.Tracks (names : Nat → Symbol) (session : Session) : Prop where
  store : session.store.Remembers names session.store.kinds
  heap : session.store.heap.Typed (.ofSites names session.store.kinds)
  calm : session.store.pending = false
  queue : session.engine.queue = []

namespace Session.Tracks

variable {names : Nat → Symbol} {session : Session}

section

variable (h : session.Tracks names)

include h

theorem prepare {after : Session} (hp : session.store.Prepares after.store)
    (hque : after.engine.queue = [])
    (hn : ∀ k < session.store.sites.size, names' k = names k) : after.Tracks names' where
  store := hp.remembers h.store hn
  heap := hp.typed (h.heap.mono (Known.ofSites_le hp hn))
  calm := hp.pending.trans h.calm
  queue := hque

theorem launch (now : Word) (program : Program) :
    ∃ names', (session.launch now program).2.Tracks names' ∧
      ∀ {m}, (session.launch now program).1 = .ok m →
        m.Typed (.ofSites names' (session.launch now program).2.store.kinds)
          (.caching names' (session.launch now program).2.store.kinds) := by
  have hp := session.store.compile_prepares session.unitName program
  have hque := launch_queue h.queue now program
  rw [← launch_store session now program] at hp
  cases hl : session.launch now program with
  | mk result after =>
    rw [hl] at hp hque
    cases result with
    | error e => exact ⟨names, h.prepare hp hque fun _ _ => rfl, nofun⟩
    | ok m =>
      obtain ⟨unit, f, hc, hf, rfl⟩ := launch_ok h.queue hl
      obtain ⟨G, F, code, hold, hst, rfl, hscr⟩ := (Store.compile_yields hc).2 names
      have ha := h.prepare hp hque hold
      refine ⟨G.site, ha, fun heq => ?_⟩
      cases heq
      refine Machine.start_typed (Discipline.caching_lawful _) ha.heap ha.store ha.calm
        (hscr.typed (fun _ => trivial) fun hs => ?_) hf
      rw [← hst]
      exact hs

theorem mention (m : Mention) :
    Session.Tracks names { session with store := session.store.mention m } :=
  h.prepare (session.store.prepares_mention m) h.queue fun _ _ => rfl

theorem define (name : String) (w : Word) :
    Session.Tracks names { session with store := session.store.defineGlobal name w } := by
  have hs := h.mention (.global name)
  exact
    { store := hs.store.putSlot _ w
      heap := hs.heap
      calm := hs.calm
      queue := h.queue }

theorem mute (muted : Bool) :
    Session.Tracks names { session with store := { session.store with muted := muted } } :=
  { h with store := h.store.congr rfl rfl rfl }

theorem run (now : Word) (fuel : Nat) (program : Program)
    (hne : (session.run now fuel program).1 ≠ .error .unfinished) :
    ∃ names', (session.run now fuel program).2.Tracks names' := by
  rw [run_eq_runBy h.queue] at hne ⊢
  unfold runBy at hne ⊢
  obtain ⟨names', ha, hm⟩ := h.launch now program
  cases hl : session.launch now program with
  | mk result after =>
    rw [hl] at ha hm hne
    cases result with
    | error e => exact ⟨names', ha⟩
    | ok m =>
      cases fuel with
      | zero => exact absurd rfl hne
      | succ fuel =>
        have ht := (hm rfl).run (Discipline.caching_lawful (host now)) fuel
        dsimp only [finish] at hne ⊢
        generalize m.run (host now) fuel = m' at ht hne
        rcases ht.stop?_cases with hs | hs
        · exact absurd (by rw [hs]; rfl) hne
        obtain ⟨T, hb, _⟩ := ht
        have hc := conclude_pending { after with store := m'.store } hs
        obtain ⟨error, pending, heq⟩ := conclude_eq { after with store := m'.store } m'.stop?
        have hk : m'.store.kinds = after.store.kinds := hb.store.kinds
        rw [heq] at hc ⊢
        refine ⟨names', { store := ?_, heap := ?_, calm := hc, queue := ha.queue }⟩
        · show Store.Remembers names' m'.store.kinds _
          rw [hk]
          exact hb.store.congr rfl rfl rfl
        · show m'.store.heap.Typed (.ofSites names' m'.store.kinds)
          rw [hk]
          exact hb.heap

end

theorem create {settings : SessionSettings} {limit : Nat}
    (h : Session.create settings (.withLimit limit) = .ok session) : session.Tracks fun _ => 0 := by
  obtain ⟨store, hst, rfl⟩ := Session.create_eq_ok h
  obtain ⟨_, hobjs, hc⟩ := Store.create_sound (V := .any) hst
  have hb := Store.create_blank hst
  refine { store := ?_, heap := fun i o ho => ?_, calm := hc, queue := rfl }
  · refine ⟨hb.1 ▸ Shapes.linked_initial, fun ho => ?_, rfl, fun hent => ?_⟩
    · obtain ⟨name, rfl⟩ := hobjs ho
      trivial
    · rw [hb.2] at hent
      cases hent
  · obtain ⟨name, rfl⟩ := hobjs ho
    rfl

end Session.Tracks

/-! ## §3 Twins -/

namespace Store.Alike

variable {s s' : Store}

theorem mention (h : s.Alike s') (m : Mention) : (s.mention m).Alike (s'.mention m) := by
  cases m with
  | text text => exact ((Fits.internText text).alike h).2
  | name name => exact ((Fits.intern name).alike h).2
  | global name => exact ((Fits.globalSlot name).alike h).2
  | prototype name arity => exact ((Fits.addPrototype name arity).alike h).2
  | site kind =>
    obtain ⟨sites, hk, rfl⟩ := h
    exact ⟨sites.push { kind := kind }, hk.push _, rfl⟩

theorem defineGlobal (h : s.Alike s') (name : String) (w : Word) :
    (s.defineGlobal name w).Alike (s'.defineGlobal name w) := by
  obtain ⟨hslot, hs⟩ := (Fits.globalSlot name).alike h
  unfold Store.defineGlobal
  dsimp only at hslot ⊢
  rw [hslot]
  obtain ⟨sites, hk, heq⟩ := hs
  exact ⟨sites, hk, by rw [heq]; rfl⟩

end Store.Alike

theorem Machine.Alike.start (h : s.Alike s') {host : Host} [host.Attached]
    (unit : CodeUnit) (f : Function) :
    (Machine.start host s unit f).Alike (.start host s' unit f) :=
  (Beside.enter
    Store.companions_alike ⟨s, h, rfl⟩ { unit := unit } f).alike

namespace Session

variable {session twin : Session} {names : Nat → Symbol} (h : twin.Alike session)

include h

theorem Alike.of_store {store store' : Store} (hs : store'.Alike store) :
    Alike { twin with store := store' } { session with store := store } := by
  obtain ⟨_, _, rfl⟩ := h
  exact ⟨store', hs, rfl⟩

theorem Alike.launch (now : Word) (program : Program) :
    (twin.launch now program).2.Alike (session.launch now program).2 ∧
      ((∃ e, (twin.launch now program).1 = .error e ∧ (session.launch now program).1 = .error e) ∨
        ∃ m' m, (twin.launch now program).1 = .ok m' ∧ (session.launch now program).1 = .ok m ∧
          m'.Alike m) := by
  obtain ⟨store, hs, rfl⟩ := h
  unfold Session.launch
  have hn : unitName { session with store := store } = session.unitName := rfl
  obtain ⟨hu, hst⟩ := Store.compile_alike hs session.unitName program
  dsimp only
  rw [hn, hu]
  split
  · next e _ => exact ⟨⟨_, hst, rfl⟩, .inl ⟨_, rfl, rfl⟩⟩
  · split
    · exact ⟨⟨_, hst, rfl⟩, .inl ⟨_, rfl, rfl⟩⟩
    · split
      · exact ⟨⟨_, hst, rfl⟩, .inl ⟨_, rfl, rfl⟩⟩
      · split
        · exact ⟨⟨_, hst, rfl⟩, .inr ⟨_, _, rfl, rfl, .start hst _ _⟩⟩
        · exact ⟨⟨_, hst, rfl⟩, .inl ⟨_, rfl, rfl⟩⟩

theorem Alike.conclude (stop : Option Stop) : (twin.conclude stop).1 = (session.conclude stop).1 ∧
      (twin.conclude stop).2.Alike (session.conclude stop).2 := by
  obtain ⟨store, ⟨sites, hk, rfl⟩, rfl⟩ := h
  unfold Session.conclude Store.takeError
  dsimp only
  rw [show (session.store.withSites sites).error = session.store.error from rfl]
  split
  · exact ⟨rfl, _, ⟨sites, hk, rfl⟩, rfl⟩
  · exact ⟨rfl, _, ⟨sites, hk, rfl⟩, rfl⟩
  · split <;> exact ⟨rfl, _, ⟨sites, hk, rfl⟩, rfl⟩

theorem Alike.run (ht : session.Tracks names) (now : Word) (fuel : Nat)
    (program : Program) (hiss : ∀ {m after}, session.launch now program = (.ok m, after) →
      ∀ n < fuel, (m.run (host now) n).Issued) :
    (twin.runBy Machine.searchRun now fuel program).1 = (session.run now fuel program).1 ∧
      (twin.runBy Machine.searchRun now fuel program).2.Alike
        (session.run now fuel program).2 := by
  rw [run_eq_runBy ht.queue]
  unfold runBy
  obtain ⟨ha, hm⟩ := h.launch now program
  obtain ⟨names', _, htyped⟩ := ht.launch now program
  cases hl : session.launch now program with
  | mk result after =>
    cases hl' : twin.launch now program with
    | mk result' after' =>
      rw [hl, hl'] at ha hm
      rw [hl] at htyped
      obtain ⟨e, rfl, rfl⟩ | ⟨m', m, rfl, rfl, hm⟩ := hm
      · exact ⟨rfl, ha⟩
      · cases fuel with
        | zero => exact ha.conclude none
        | succ fuel =>
          have hrun := Machine.searchRun_alike fuel
            (htyped rfl) (fun n hn => hiss hl n (Nat.lt_succ_of_lt hn)) hm
          dsimp only [finish]
          obtain ⟨sites, hk, heq⟩ := hrun
          rw [heq]
          exact (ha.of_store ⟨sites, hk, rfl⟩).conclude _

/-! ## §4 Main -/

theorem Alike.replay (ht : session.Tracks names) {requests : List Request}
    (hiss : session.PlaysIssued requests) :
    (twin.replay (runBy Machine.searchRun) requests).1 = (session.replay Session.run requests).1 ∧
      (twin.replay (runBy Machine.searchRun) requests).2.Alike
        (session.replay Session.run requests).2 := by
  induction requests generalizing session twin names with
  | nil => exact ⟨rfl, h⟩
  | cons request rest ih =>
    have hst : twin.store.Alike session.store := by
      obtain ⟨_, hs, rfl⟩ := h
      exact hs
    cases request with
    | mention m => exact ih (h.of_store (hst.mention m)) (ht.mention m) hiss
    | define name w =>
      exact ih (h.of_store (hst.defineGlobal name w)) (ht.define name w) hiss
    | mute muted =>
      refine ih (h.of_store ?_) (ht.mute muted) hiss
      obtain ⟨sites, hk, hs⟩ := hst
      exact ⟨sites, hk, by rw [hs]; rfl⟩
    | run now fuel program =>
      obtain ⟨hpla, hr⟩ := hiss
      obtain ⟨hans, ha⟩ := h.run ht now fuel program hpla
      unfold Session.replay
      dsimp only
      rw [hans]
      cases hend : ended (session.run now fuel program).1 with
      | false => exact ⟨rfl, ha⟩
      | true =>
        obtain ⟨names', htra⟩ := ht.run now fuel program (ended_iff.mp hend)
        obtain ⟨hansw, hl⟩ := ih ha htra (hr hend)
        exact ⟨congrArg (_ :: ·) hansw, hl⟩

end Session

theorem Machine.Typed.issued {m : Machine} {K : Known}
    (h : m.Typed K (Discipline.wellFormed .issued K)) : m.Issued where
  given hc hobj := by
    rcases h.given hc with hw | ⟨⟨v, hv⟩, _⟩
    · exact hw.1 hobj
    · exact ⟨.cell v, hv⟩
  waiting hmem _ hw hobj := by
    obtain ⟨_, _, hstk⟩ := h.awaits
    exact (hstk.words _ hmem _ hw).1 hobj

namespace Session

variable {session : Session}

theorem Sound.playsIssued (h : session.Sound .issued) {requests : List Request}
    (hw : session.TakesWellFormed requests) : session.PlaysIssued requests := by
  induction requests generalizing session with
  | nil => trivial
  | cons request rest ih =>
    cases request with
    | mention m => exact ih (h.mention m) hw
    | define name w => exact ih (h.define name (Vocabulary.of_wellFormed hw.1)) hw.2
    | mute muted => exact ih { h with store := h.store.congr rfl rfl } hw
    | run now fuel program =>
      obtain ⟨⟨time, rfl⟩, hr⟩ := hw
      refine ⟨fun hl n _ => ?_, fun hend => ?_⟩
      · exact (h.launch_typed hl n).issued
      · exact ih ((h.run_sound time fuel program).2.2 (ended_iff.mp hend)) (hr hend)

/-- **Property caches change nothing a program or its host can see.** Whatever
is asked of a new session, the runs come to the same and leave the same store
if every guard is made to fail; only what the sites remember and count may
differ. References that were not issued by the heap are not in play as long as
the host brings in none. -/
theorem replay_searching_alike {settings : SessionSettings} {limit : Nat}
    (h : Session.create settings (.withLimit limit) = .ok session) (requests : List Request) :
    (session.TakesWellFormed requests → session.PlaysIssued requests) ∧
      (session.PlaysIssued requests →
        (session.replay (runBy Machine.searchRun) requests).1 =
          (session.replay Session.run requests).1 ∧
        (session.replay (runBy Machine.searchRun) requests).2.Alike
          (session.replay Session.run requests).2) := by
  refine ⟨(Sound.create h).playsIssued, fun hiss => ?_⟩
  have hs : session.Alike session := ⟨session.store, .refl _, rfl⟩
  exact hs.replay (Tracks.create h) hiss

def layouts : Program :=
  let point (name : String) : Expr := .read ⟨name, 1⟩ .global
  let assign (object field : String) (bits : UInt64) : Stmt :=
    .expression (.set (point object) field (.literal (.number bits)))
  let report (object : String) : Stmt := .print (.call (point "getx") [point object] 1)
  [ .classDecl "P" none [],
    .declare "a" (some (.call (point "P") [] 1)),
    .declare "b" (some (.call (point "P") [] 1)),
    assign "a" "x" 0x3FF0000000000000,
    assign "b" "y" 0x4000000000000000,
    assign "b" "x" 0x4010000000000000,
    .function (.mk ⟨"getx", 1⟩ ["o"] [.leave (some (.get (.read ⟨"o", 1⟩ (.scope 0)) "x"))]),
    report "a", report "a", report "b", report "a" ]

theorem replay_searching_alike_layouts :
    small.TakesWellFormed [.run (.ofNumber 0) 300 layouts] ∧
      small.PlaysIssued [.run (.ofNumber 0) 300 layouts] ∧
      (small.run (.ofNumber 0) 300 layouts).2.store.cacheStats.getHits = 1 ∧
      (small.run (.ofNumber 0) 300 layouts).2.store.printed = "1\n1\n4\n1\n" ∧
      (small.replay (runBy Machine.searchRun) [.run (.ofNumber 0) 300 layouts]).2.Alike
        (small.replay Session.run [.run (.ofNumber 0) 300 layouts]).2 := by
  have hw : small.TakesWellFormed [.run (.ofNumber 0) 300 layouts] :=
    ⟨⟨0, rfl⟩, fun _ => trivial⟩
  obtain ⟨hiss, ha⟩ := replay_searching_alike create_small [.run (.ofNumber 0) 300 layouts]
  refine ⟨hw, hiss hw, ?_, ?_, (ha (hiss hw)).2⟩
  · decide +kernel
  · decide +kernel

end Session

end ScriptMachine
