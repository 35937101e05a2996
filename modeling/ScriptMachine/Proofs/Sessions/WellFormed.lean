/-
ScriptMachine.Proofs.Sessions.WellFormed — every word a session computes with
is well-formed.
-/
import ScriptMachine.Proofs.Sessions.Launch
import ScriptMachine.Proofs.WellFormed

namespace ScriptMachine

/-! ## §1 Machines -/

variable {K K' : Known} {heap : Heap} {s : Store}

def Frame.Runs (heap : Heap) (frame : Frame) (f : Function) : Prop :=
  ∃ declaration cells, frame.Calls heap declaration cells ∧
    frame.unit.function? declaration = some f

/-- A frame whose receiver and arguments are values. A variable that is
assigned new cells somewhere in the function holds a cell, or the word 0 if
no declaration of it ran; all other variables hold values. -/
structure Frame.WellFormed (heap : Heap) (frame : Frame) : Prop where
  receiver : frame.receiver.WellFormed heap
  arguments : ∀ w ∈ frame.arguments, w.WellFormed heap
  locals : ∃ f, frame.Runs heap f ∧ ∀ {i : Nat} {w : Word}, frame.locals[i]? = some w →
    if i ∈ Translate.boxes f.body then heap.IsCell w ∨ w = .zero else w.WellFormed heap

/-- A new cell goes into the variable that is to hold it. -/
def Machine.BindsCell (m : Machine) : Prop :=
  ∃ rest, m.stack = .discard :: rest ∨ ∃ i f, m.stack = .assignVariable i :: rest ∧
    m.frame.Runs m.store.heap f ∧ i ∈ Translate.boxes f.body

/-- Every value of a running machine is well-formed: those in the store and
in the frames, those tasks have waiting, and what was just evaluated. The
machine has not left lowered code. -/
structure Machine.WellFormed (m : Machine) : Prop where
  store : m.store.Sound .wellFormed
  frame : m.frame.WellFormed m.store.heap
  stack : ∀ task ∈ m.stack, ∀ w ∈ task.words, w.WellFormed m.store.heap
  callers : ∀ caller ∈ m.callers, caller.frame.WellFormed m.store.heap ∧
    ∀ task ∈ caller.stack, ∀ w ∈ task.words, w.WellFormed m.store.heap
  evaluated : ∀ {w}, m.control = .give w →
    w.WellFormed m.store.heap ∨ m.store.heap.IsCell w ∧ m.BindsCell
  returned : ∀ {w}, m.control = .leave w ∨ m.control = .stopped (.returned w) →
    w.WellFormed m.store.heap
  within : ∀ {address}, m.control ≠ .stopped (.strayed address)

section Typed

variable {K : Known} {V : Vocabulary} {heap : Heap} {T : Scheme} {frame : Frame} {mode : Mode}

open Discipline

theorem Frame.Relies.runs {D : Discipline} (h : frame.Relies K D heap T) :
    ∃ f, frame.Runs heap f ∧ ∀ {i}, T.boxed i ↔ i ∈ Translate.boxes f.body := by
  obtain ⟨d, n, f, hc, hf, hT⟩ := h.function
  refine ⟨f, ⟨d, n, hc, hf⟩, fun {i} => ?_⟩
  rw [hT]
  exact Iff.rfl

theorem Frame.Relies.wellFormed (h : frame.Relies K (wellFormed .wellFormed K) heap T) :
    frame.WellFormed heap where
  receiver := h.receiver
  arguments := h.arguments
  locals := by
    obtain ⟨f, hr, hboxed⟩ := h.runs
    refine ⟨f, hr, fun {i w} hi => ?_⟩
    split
    · next hbox => exact h.boxes hi (hboxed.mpr hbox)
    · next hbox => exact h.values hi fun hb => hbox (hboxed.mp hb)

theorem Pending.Awaits.words {task : Pending} {next : Mode}
    (h : task.Awaits (wellFormed V K) heap T mode next) : ∀ w ∈ task.words, V.Has heap w := by
  cases h with
  | rightOperand hl => exact fun w hw => List.mem_singleton.mp hw ▸ hl
  | argument hc hd _ => exact List.forall_mem_cons.mpr ⟨hc, hd⟩
  | setProperty ho _ => exact fun w hw => List.mem_singleton.mp hw ▸ ho
  | superReceiver hs => exact fun w hw => List.mem_singleton.mp hw ▸ hs
  | _ => exact fun w hw => absurd hw List.not_mem_nil

theorem typedStack.words {stack : List Pending}
    (h : typedStack (wellFormed V K) heap T mode stack) :
    ∀ task ∈ stack, ∀ w ∈ task.words, V.Has heap w := by
  induction stack generalizing mode with
  | nil => exact fun task ht => absurd ht List.not_mem_nil
  | cons task rest ih =>
    obtain ⟨next, ht, hs⟩ := h
    exact List.forall_mem_cons.mpr ⟨ht.words, ih hs⟩

end Typed

namespace Machine

open Discipline

variable {K : Known} {V : Vocabulary} {m : Machine}

theorem Base.bindsCell {T : Scheme} (h : m.Base K (wellFormed V K) T)
    (hs : m.Awaits (wellFormed V K) T .cell) : m.BindsCell := by
  obtain ⟨f, hr, hboxed⟩ := h.frame.runs
  unfold Awaits at hs
  unfold BindsCell
  cases hstk : m.stack with
  | nil =>
    rw [hstk] at hs
    rcases hs with hs | hs <;> cases hs
  | cons task rest =>
    rw [hstk] at hs
    obtain ⟨next, ht, _⟩ := hs
    cases ht with
    | @assignCellVariable i hb => exact ⟨rest, .inr ⟨i, f, rfl, hr, hboxed.mp hb⟩⟩
    | discardCell => exact ⟨rest, .inl rfl⟩

theorem Typed.sound (h : m.Typed K (wellFormed V K)) : m.store.Sound V := by
  obtain ⟨_, hb, _⟩ := h
  exact hb.store.1

theorem Typed.returned (h : m.Typed K (wellFormed V K)) {w : Word}
    (hc : m.control = .stopped (.returned w)) : V.Has m.store.heap w := by
  obtain ⟨T, _, hp⟩ := h
  unfold Proceeds at hp
  rw [hc] at hp
  obtain ⟨_, hv, hw, _⟩ := hp
  cases hv
  exact hw

theorem Typed.awaits (h : m.Typed K (wellFormed V K)) :
    ∃ T mode, m.Awaits (wellFormed V K) T mode := by
  obtain ⟨T, _, hp⟩ := h
  unfold Proceeds at hp
  refine ⟨T, ?_⟩
  cases hc : m.control with
  | run code =>
    rw [hc] at hp
    exact ⟨_, hp.2.2⟩
  | eval e =>
    rw [hc] at hp
    obtain ⟨_, mode, _, hs⟩ := hp
    exact ⟨mode, hs⟩
  | give w =>
    rw [hc] at hp
    obtain ⟨_, mode, _, _, hs⟩ := hp
    exact ⟨mode, hs⟩
  | leave w =>
    rw [hc] at hp
    exact hp.2
  | stopped stop =>
    rw [hc] at hp
    obtain ⟨_, _, _, hs⟩ := hp
    exact hs

/-- What was just evaluated is a value, or a cell on its way to a variable. -/
theorem Typed.given (h : m.Typed K (wellFormed V K)) {w : Word} (hc : m.control = .give w) :
    V.Has m.store.heap w ∨ m.store.heap.IsCell w ∧ m.BindsCell := by
  obtain ⟨T, hb, hp⟩ := h
  unfold Proceeds at hp
  rw [hc] at hp
  obtain ⟨_, mode, hm, hw, hs⟩ := hp
  cases mode with
  | value => exact .inl hw
  | cell => exact .inr ⟨hw, hb.bindsCell hs⟩
  | closure => exact .inl (V.closure hw)
  | done => exact absurd rfl hm

theorem wellFormed_of_typed (h : m.Typed K (wellFormed .wellFormed K)) : m.WellFormed := by
  obtain ⟨_, mode, hstk⟩ := h.awaits
  obtain ⟨T, hb, hp⟩ := id h
  unfold Proceeds at hp
  refine
    { store := h.sound
      frame := hb.frame.wellFormed
      stack := hstk.words
      callers := fun caller hmem => ?_
      evaluated := h.given
      returned := fun {w} hc => ?_
      within := fun {address} hc => ?_ }
  · obtain ⟨T', hf, hs⟩ := hb.callers caller hmem
    exact ⟨hf.wellFormed, hs.words⟩
  · rcases hc with hc | hc
    · rw [hc] at hp
      exact hp.1
    · exact h.returned hc
  · rw [hc] at hp
    obtain ⟨v, hv, _⟩ := hp
    cases hv

end Machine

/-! ## §2 Stores -/

variable {V : Vocabulary}

def Known.ofHeap (V : Vocabulary) (heap : Heap) : Known where
  constant := V.Has heap
  site _ _ _ := True

theorem Object.Typed.mono (hle : K.Le K') {o : Object} (h : o.Typed K) : o.Typed K' := by
  cases o with
  | closure c =>
    obtain ⟨unit, d, hent, ht⟩ := h
    exact ⟨unit, d, hent, ht.mono hle⟩
  | native n => exact h
  | text | cell | ofClass | ofInstance | bound => trivial

theorem Heap.Typed.mono (hle : K.Le K') (h : heap.Typed K) : heap.Typed K' :=
  fun i o ho => (h i o ho).mono hle

namespace Store.Prepares

variable {s s' : Store}

theorem retains (h : s.Prepares s') : s.heap.Retains s'.heap :=
  ⟨fun ho => ⟨_, h.objects ho, .same _⟩⟩

theorem known (h : s.Prepares s') : (Known.ofHeap V s.heap).Le (.ofHeap V s'.heap) :=
  ⟨fun hw => V.retained hw h.retains, id⟩

theorem typed (h : s.Prepares s') (ht : s.heap.Typed K) : s'.heap.Typed K := by
  intro i o ho
  rcases h.objects_new ho with ho | ⟨t, rfl⟩
  · exact ht i o ho
  · trivial

theorem sound (h : s.Prepares s') (hs : s.Sound V) : s'.Sound V where
  heap :=
    { size_le := h.size_le hs.heap.size_le
      limit_le := h.limit ▸ hs.heap.limit_le
      interned := fun hi => (h.interned_new hi).elim (fun hi => h.objects (hs.heap.interned hi)) id
      objects := fun ho => by
        rcases h.objects_new ho with ho | ⟨t, rfl⟩
        · exact (hs.heap.objects ho).retained h.retains
        · trivial }
  globals hw := by
    obtain ⟨g, hg, hval⟩ := Option.bind_eq_some_iff.mp hw
    rcases h.globals_new hg with hg | hn
    · exact V.retained (hs.globals (Option.bind_eq_some_iff.mpr ⟨g, hg, hval⟩)) h.retains
    · rw [hn] at hval
      cases hval

end Store.Prepares

theorem Heap.Sound.interned_has (h : heap.Sound V) {text : String} {i : Nat}
    (hi : heap.interned.get? text = some i) : V.Has heap (.ofIndex i) := by
  have ho := h.interned hi
  have hlt : i < 0x100000000 := by
    have hs : i < heap.size := (Array.getElem?_eq_some_iff.mp ho).1
    have := h.size_le
    have := h.limit_le
    unfold Heap.maxLimit at this
    omega
  exact V.object (Heap.deref?_eq_some.mpr ⟨i, hlt, rfl, ho⟩) nofun

theorem Store.compile_typed {s' : Store} {name : String} {program : Program} {unit : CodeUnit}
    (hs : s.Sound V) (h : s.compile name program = (.ok unit, s')) :
    unit.Typed (.ofHeap V s'.heap) 0 0 := by
  have hsound : s'.Sound V := by
    have := s.compile_prepares name program
    rw [h] at this
    exact this.sound hs
  obtain ⟨G, F, code, _, rfl, rfl, hscr⟩ := (Store.compile_yields h).2 fun _ => 0
  refine hscr.typed (fun {value w} hlit => ?_) fun _ => trivial
  cases value with
  | nil =>
    cases hlit
    exact V.nil
  | bool b =>
    cases hlit
    exact V.truth b
  | number bits =>
    cases hlit
    exact V.canonical (.of_number bits)
  | text t =>
    obtain ⟨i, hi, heq⟩ := hlit
    cases heq
    exact hsound.heap.interned_has hi

theorem Store.Sound.defineGlobal (h : s.Sound V) (name : String) {w : Word}
    (hw : V.Has s.heap w) : (s.defineGlobal name w).Sound V := by
  have hp := s.prepares_globalSlot name
  exact (hp.sound h).putSlot _ (V.retained hw hp.retains)

theorem Store.globalSlot_heap (s : Store) (name : String) :
    (s.globalSlot name).2.heap = s.heap := by
  rw [Store.globalSlot_eq]
  split <;> rfl

theorem Store.create_sound {limit maxDepth : Nat}
    (h : Store.create (.withLimit limit) maxDepth = .ok s) :
    s.Sound V ∧ (∀ {i : Nat} {o : Object}, s.heap.objects[i]? = some o →
      ∃ name, o = .native ⟨name, 0, .clock⟩) ∧ s.pending = false := by
  obtain ⟨name, t, heq, ht, rfl⟩ := Store.create_eq_ok h
  have he : (Store.seed (.withLimit limit) maxDepth).Sound V := by
    refine ⟨⟨Nat.zero_le _, Nat.min_le_right _ _, nofun, fun ho => ?_⟩, fun hw => ?_⟩
    · cases ho
    · cases hw
  have hnew := he.alloc (o := .native ⟨name, 0, .clock⟩) trivial
  rw [heq] at hnew
  refine ⟨hnew.1.defineGlobal _ (V.object (hnew.2 rfl) nofun), fun {i o} ho => ?_, ?_⟩
  · change (t.globalSlot "clock").2.heap.objects[i]? = _ at ho
    rw [t.globalSlot_heap, ht] at ho
    obtain ⟨hi, rfl⟩ := Array.getElem?_eq_some_iff.mp ho
    obtain rfl : i = 0 := Nat.lt_one_iff.mp hi
    exact ⟨name, rfl⟩
  · exact (t.prepares_globalSlot "clock").pending.trans (congrArg Store.pending ht)

theorem Store.create_interned {limit maxDepth : Nat}
    (h : Store.create (.withLimit limit) maxDepth = .ok s) (text : String) :
    s.heap.interned.get? text = none := by
  obtain ⟨hs, hnat, _⟩ := Store.create_sound (V := .any) h
  cases hi : s.heap.interned.get? text with
  | none => rfl
  | some i =>
    obtain ⟨name, hn⟩ := hnat (hs.heap.interned hi)
    cases hn

/-! ## §3 Sessions -/

structure Session.Sound (V : Vocabulary) (session : Session) : Prop where
  store : session.store.Sound V
  heap : session.store.heap.Typed (.ofHeap V session.store.heap)
  calm : session.store.pending = false
  queue : session.engine.queue = []

namespace Session

open Discipline

variable {session : Session} {stop : Option Stop}

theorem conclude_eq (session : Session) (stop : Option Stop) : ∃ error pending,
    (session.conclude stop).2 =
      { session with store := { session.store with error := error, pending := pending } } := by
  unfold conclude
  split
  · exact ⟨_, _, rfl⟩
  · exact ⟨_, _, rfl⟩
  · dsimp only
    split <;> exact ⟨_, _, rfl⟩

theorem run_cases (h : session.engine.queue = []) (now : Word) (fuel : Nat) (program : Program) :
    ((session.run now fuel program).2 = (session.launch now program).2 ∧
        ((session.launch now program).1.isOk → fuel = 0)) ∨
      ∃ m after error pending, session.launch now program = (.ok m, after) ∧
        (session.run now fuel program).2 = { after with
          store := { (m.run (host now) (fuel - 1)).store with error := error, pending := pending }
            } := by
  rw [run_eq_runBy h, runBy]
  cases hl : session.launch now program with
  | mk result after =>
    cases result with
    | error e => exact .inl ⟨rfl, nofun⟩
    | ok m =>
      cases fuel with
      | zero => exact .inl ⟨rfl, fun _ => rfl⟩
      | succ n =>
        obtain ⟨error, pending, heq⟩ := conclude_eq
          { after with store := (m.run (host now) n).store } (m.run (host now) n).stop?
        exact .inr ⟨m, after, error, pending, rfl, heq⟩

theorem conclude_pending (session : Session) (h : ∃ w, stop = some (.returned w)) :
    (session.conclude stop).2.store.pending = false := by
  obtain ⟨w, rfl⟩ := h
  unfold conclude
  dsimp only
  split <;> rfl

theorem conclude_ok {w : Word} (h : (session.conclude stop).1 = .ok w) :
    stop = some (.returned w) := by
  unfold conclude at h
  split at h
  · cases h
  · cases h
  · dsimp only at h
    split at h
    · cases h
    · cases h
      rfl

namespace Sound

section

variable (h : session.Sound V)

include h

theorem launch_sound (now : Word) (program : Program) : (session.launch now program).2.Sound V := by
  have hp := session.store.compile_prepares session.unitName program
  rw [← launch_store session now program] at hp
  exact
    { store := hp.sound h.store
      heap := hp.typed (h.heap.mono hp.known)
      calm := hp.pending.trans h.calm
      queue := launch_queue h.queue now program }

theorem launch_typed {time : UInt64} {program : Program} {m : Machine}
    {after : Session} (hl : session.launch (.ofNumber time) program = (.ok m, after)) (n : Nat) :
    (m.run (host (.ofNumber time)) n).Typed (.ofHeap V after.store.heap)
      (wellFormed V (.ofHeap V after.store.heap)) := by
  have ha := h.launch_sound (.ofNumber time) program
  rw [hl] at ha
  obtain ⟨unit, f, hc, hf, rfl⟩ := launch_ok h.queue hl
  have L : (wellFormed V (.ofHeap V after.store.heap)).Lawful _ (host (.ofNumber time)) :=
    wellFormed_lawful (.of_number time)
  exact (Machine.start_typed L ha.heap ⟨ha.store, id⟩ ha.calm
    (Store.compile_typed h.store hc) hf).run L n

theorem run_sound (time : UInt64) (fuel : Nat) (program : Program) :
    (session.run (.ofNumber time) fuel program).2.store.Sound V ∧
      (∀ {w}, (session.run (.ofNumber time) fuel program).1 = .ok w →
        V.Has (session.run (.ofNumber time) fuel program).2.store.heap w) ∧
      ((session.run (.ofNumber time) fuel program).1 ≠ .error .unfinished →
        (session.run (.ofNumber time) fuel program).2.Sound V) := by
  rw [run_eq_runBy h.queue]
  unfold runBy
  have ha := h.launch_sound (.ofNumber time) program
  cases hl : session.launch (.ofNumber time) program with
  | mk result after =>
    rw [hl] at ha
    cases result with
    | error e => exact ⟨ha.store, nofun, fun _ => ha⟩
    | ok m =>
      cases fuel with
      | zero => exact ⟨ha.store, nofun, fun hne => absurd rfl hne⟩
      | succ fuel =>
        have ht := h.launch_typed hl fuel
        dsimp only [finish]
        generalize m.run (host (.ofNumber time)) fuel = m' at ht
        have hst : m'.store.Sound V := ht.sound
        obtain ⟨error, pending, heq⟩ := conclude_eq { after with store := m'.store } m'.stop?
        refine ⟨?_, fun hw => ?_, fun hne => ?_⟩
        · rw [heq]
          exact hst.congr rfl rfl
        · have hs := conclude_ok hw
          rw [heq]
          unfold Machine.stop? at hs
          split at hs
          · next hc =>
            cases hs
            exact ht.returned hc
          · cases hs
        · rcases ht.stop?_cases with hs | hs
          · exact absurd (by rw [hs]; rfl) hne
          obtain ⟨T, hb, _⟩ := ht
          have hle : (Known.ofHeap V after.store.heap).Le (.ofHeap V m'.store.heap) :=
            ⟨fun hw => hb.store.2 hw, id⟩
          have hcalm := conclude_pending { after with store := m'.store } hs
          rw [heq] at hcalm ⊢
          exact
            { store := hst.congr rfl rfl
              heap := hb.heap.mono hle
              calm := hcalm
              queue := ha.queue }

theorem mention (m : Mention) :
    Session.Sound V { session with store := session.store.mention m } := by
  have hp := session.store.prepares_mention m
  exact
    { store := hp.sound h.store
      heap := hp.typed (h.heap.mono hp.known)
      calm := hp.pending.trans h.calm
      queue := h.queue }

theorem define (name : String) {w : Word} (hw : V.Has session.store.heap w) :
    Session.Sound V { session with store := session.store.defineGlobal name w } := by
  have hs := h.mention (.global name)
  exact
    { store := h.store.defineGlobal name hw
      heap := hs.heap
      calm := hs.calm
      queue := h.queue }

end

theorem create {settings : SessionSettings} {limit : Nat}
    (h : Session.create settings (.withLimit limit) = .ok session) : session.Sound V := by
  obtain ⟨store, hst, rfl⟩ := Session.create_eq_ok h
  obtain ⟨hs, hobjs, hc⟩ := Store.create_sound hst
  refine { store := hs, heap := fun i o ho => ?_, calm := hc, queue := rfl }
  obtain ⟨name, rfl⟩ := hobjs ho
  rfl

end Sound

/-! ## §4 Main -/

end Session

/-- What a host may ask of a session: to issue a number for what it mentions, to
define a global, to silence the output, and to run a program, any tree. -/
inductive Request where
  | mention (m : Mention)
  | define (name : String) (w : Word)
  | mute (muted : Bool)
  | run (now : Word) (fuel : Nat) (program : Program)

namespace Session

variable {session : Session} {V : Vocabulary}

def serve (session : Session) : Request → Session
  | .mention m => { session with store := session.store.mention m }
  | .define name w => { session with store := session.store.defineGlobal name w }
  | .mute muted => { session with store := { session.store with muted := muted } }
  | .run now fuel program => (session.run now fuel program).2

/-- A request of a host that defines globals as words of a vocabulary, and that
goes on only after programs that come to an end. -/
def Allows (V : Vocabulary) (session : Session) : Request → Prop
  | .define _ w => V.Has session.store.heap w
  | .run now fuel program => (∃ time, now = .ofNumber time) ∧
    (session.run now fuel program).1 ≠ .error .unfinished
  | .mention _ | .mute _ => True

/-- The sessions such a host can have. -/
inductive ReachableBy (V : Vocabulary) : Session → Prop
  | create {settings : SessionSettings} {limit : Nat} {session : Session} :
      Session.create settings (.withLimit limit) = .ok session → ReachableBy V session
  | serve {session : Session} (request : Request) : ReachableBy V session →
      session.Allows V request → ReachableBy V (session.serve request)

/-- The sessions a host can have, whatever words it defines globals as. -/
abbrev Reachable (session : Session) : Prop := session.ReachableBy .any

namespace ReachableBy

variable (h : session.ReachableBy V)

include h

theorem run (time : UInt64) (fuel : Nat) (program : Program)
    (hne : (session.run (.ofNumber time) fuel program).1 ≠ .error .unfinished) :
    (session.run (.ofNumber time) fuel program).2.ReachableBy V :=
  h.serve (.run (.ofNumber time) fuel program) ⟨⟨time, rfl⟩, hne⟩

theorem sound : session.Sound V := by
  induction h with
  | create hcre => exact .create hcre
  | serve request _ hall ih =>
    cases request with
    | mention m => exact ih.mention m
    | define name w => exact ih.define name hall
    | mute muted => exact { ih with store := ih.store.congr rfl rfl }
    | run now fuel program =>
      obtain ⟨⟨time, rfl⟩, hne⟩ := hall
      exact (ih.run_sound time fuel program).2.2 hne

theorem mono {V' : Vocabulary} (hle : ∀ {heap w}, V.Has heap w → V'.Has heap w) :
    session.ReachableBy V' := by
  induction h with
  | create hcre => exact .create hcre
  | serve request _ hall ih =>
    refine ih.serve request ?_
    cases request with
    | define name w => exact hle hall
    | mention | mute | run => exact hall

theorem reachable : session.Reachable := h.mono fun _ => trivial

end ReachableBy

/-- **Every word a session computes with is well-formed.** Between two
submissions all words of the store are; so are all words of the machine a
submission starts, after any number of steps; and so is what a submission
returns, on the store it leaves. -/
theorem every_word_wellFormed (h : session.ReachableBy .wellFormed) :
    session.store.Sound .wellFormed ∧ ∀ (time : UInt64) (program : Program),
      (∀ {m after}, session.launch (.ofNumber time) program = (.ok m, after) →
        ∀ steps, (m.run (host (.ofNumber time)) steps).WellFormed) ∧
      ∀ fuel, (session.run (.ofNumber time) fuel program).2.store.Sound .wellFormed ∧
        ∀ {w}, (session.run (.ofNumber time) fuel program).1 = .ok w →
          w.WellFormed (session.run (.ofNumber time) fuel program).2.store.heap := by
  have hs := h.sound
  refine ⟨hs.store, fun time program => ⟨fun hl steps => ?_, fun fuel => ?_⟩⟩
  · exact Machine.wellFormed_of_typed (hs.launch_typed hl steps)
  · obtain ⟨hst, hw, _⟩ := hs.run_sound time fuel program
    exact ⟨hst, hw⟩

def flipper : Program :=
  let self := Expr.self ⟨"this", 3⟩ (.scope 1)
  [ .classDecl "Point" none
      [ .mk ⟨"init", 2⟩ ["x"] [.expression (.set self "x" (.read ⟨"x", 2⟩ (.scope 0)))],
        .mk ⟨"flip", 3⟩ [] [.leave (some (.set self "x" (.unary .negate (.get self "x"))))] ],
    .function (.mk ⟨"make", 4⟩ []
      [ .declare "p" (some (.call (.read ⟨"Point", 5⟩ .global)
          [.binary .divide (.literal (.number 0)) (.literal (.number 0))] 5)),
        .function (.mk ⟨"next", 6⟩ []
          [.leave (some (.call (.get (.read ⟨"p", 6⟩ (.scope 1)) "flip") [] 6))]),
        .leave (some (.read ⟨"next", 7⟩ (.scope 0))) ]),
    .expression (.call (.call (.read ⟨"make", 8⟩ .global) [] 8) [] 8) ]

def created (settings : SessionSettings) (limit : Nat) : Session :=
  match Session.create settings (.withLimit limit) with
  | .ok session => session
  | .error _ => { store := { heap := .empty, maxDepth := 0 }, engine := {} }

theorem create_created {settings : SessionSettings} {limit : Nat}
    (h : (Session.create settings (.withLimit limit)).toOption.isSome = true) :
    Session.create settings (.withLimit limit) = .ok (created settings limit) := by
  obtain ⟨session, hses⟩ := exists_ok h
  rw [created, hses]

/-- A session with room for sixteen objects. -/
def small : Session := created {} 16

theorem create_small : Session.create {} (.withLimit 16) = .ok small :=
  create_created (by decide +kernel)

theorem reachable_small : small.ReachableBy V := .create create_small

/-- A session in which the host made up the word of a global. -/
def forging (bits : UInt64) : Session := small.serve (.define "g" ⟨bits⟩)

theorem reachable_forging (bits : UInt64) : (forging bits).Reachable :=
  reachable_small.serve (.define "g" ⟨bits⟩) trivial

/-- Prints that word, or what minus makes of it. -/
def looking (negated : Bool) : Stmt :=
  let g := Expr.read ⟨"g", 1⟩ .global
  .print (if negated then .unary .negate g else g)

theorem every_word_wellFormed_flipper : small.ReachableBy .wellFormed ∧
    (∃ m after, small.launch (.ofNumber 0) flipper = (.ok m, after) ∧
      ∀ steps, (m.run (host (.ofNumber 0)) steps).WellFormed) ∧
    ∃ w, (small.run (.ofNumber 0) 200 flipper).1 = .ok w ∧
      w.WellFormed (small.run (.ofNumber 0) 200 flipper).2.store.heap := by
  have hwords := every_word_wellFormed reachable_small
  have hlau : (small.launch (.ofNumber 0) flipper).1.toOption.map (fun _ => ()) = some () := by
    decide +kernel
  have hfin : (small.run (.ofNumber 0) 200 flipper).1.toOption.isSome = true := by
    decide +kernel
  obtain ⟨m, after, hl, _⟩ := exists_launch hlau
  obtain ⟨w, hw⟩ := exists_ok hfin
  exact ⟨reachable_small, ⟨m, after, hl, (hwords.2 0 flipper).1 hl⟩,
    w, hw, ((hwords.2 0 flipper).2 200).2 hw⟩

end Session

end ScriptMachine
