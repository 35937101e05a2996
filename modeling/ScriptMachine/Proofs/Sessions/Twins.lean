/-
ScriptMachine.Proofs.Sessions.Twins — submissions to sessions that look the
same.
-/
import ScriptMachine.Proofs.Sessions.Answers
import ScriptMachine.Proofs.Twins.Machines
import ScriptMachine.Proofs.Twins.Programs

namespace ScriptMachine

variable {session : Session}

namespace Session

variable {e : CompileError} {t : Store}

def ranOut : Except SessionError Word → Bool
  | .error (.compile (.heap _)) | .error (.runtime (.heap _)) => true
  | _ => false

variable {session session' after : Session} {time : UInt64} {now : Word} {program : Program}
  {m m' : Machine}

/-- However long a program runs, its submission never reports a full heap. -/
def NeverFull (session : Session) (now : Word) (program : Program) : Prop :=
  ∀ fuel, ranOut (session.run now fuel program).1 = false

/-! ## §1 Launches -/

theorem launch_of_error (h : session.store.compile session.unitName program = (.error e, t))
    (now : Word) :
    session.launch now program =
      (.error (.compile e), { session with store := t, submissions :=
        session.submissions + 1 }) := by
  unfold launch
  dsimp only
  rw [h]

theorem run_of_error (hque : session.engine.queue = [])
    (h : session.store.compile session.unitName program = (.error e, t)) (now : Word) (fuel : Nat) :
    session.run now fuel program =
      (.error (.compile e), { session with store := t, submissions :=
        session.submissions + 1 }) := by
  rw [run_eq_runBy hque, runBy, launch_of_error h]

theorem ReachableBy.launch_of_ok {V : Vocabulary} (h : session.ReachableBy V) {unit : CodeUnit}
    (hc : session.store.compile session.unitName program = (.ok unit, t)) {f : Function}
    (hf : unit.function? 0 = some f) (now : Word) :
    ∃ after : Session, after.store = t ∧
      session.launch now program = (.ok (Machine.start (host now) t unit f), after) := by
  obtain ⟨m, hm⟩ := h.launches now (congrArg Prod.fst hc)
  cases hl : session.launch now program with
  | mk result after =>
    rw [hl] at hm
    cases hm
    obtain ⟨unit', f', hc', hf', rfl⟩ := launch_ok h.sound.queue hl
    rw [hc] at hc'
    cases hc'
    rw [hf] at hf'
    cases hf'
    exact ⟨after, rfl, rfl⟩

end Session

/-! ## §2 Answers -/

theorem Machine.Alike.store {m m' : Machine} (h : m.Alike m') : m.store.Alike m'.store := by
  obtain ⟨sites, hk, rfl⟩ := h
  exact ⟨sites, hk, rfl⟩

namespace Kin

variable {t t' : Store}

inductive Answers (K : Kin) : Except SessionError Word → Except SessionError Word → Prop
  | ok {w w' : Word} : K.Same w w' → K.Answers (.ok w) (.ok w')
  | error (e : SessionError) : K.Answers (.error e) (.error e)

variable {K : Kin} {s s' : Store}

theorem Stores.seen {r r' : Except SessionError Word × Session}
    (h : K.Stores r.2.store r'.2.store) (ha : K.Answers r.1 r'.1) :
    Session.seen r' = Session.seen r := by
  obtain ⟨answer, session⟩ := r
  obtain ⟨answer', session'⟩ := r'
  have hprt : session'.store.printed = session.store.printed := h.printed
  unfold Session.seen
  rw [hprt]
  cases ha with
  | ok hw => exact congrArg (fun text => Seen.mk (.ok text) _) (h.views.render hw)
  | error e => rfl

theorem Stores.render_global (h : K.Stores s s') (name : String) :
    (s'.global? name).map s'.render = (s.global? name).map s.render := by
  have hval := h.globals name
  generalize s.global? name = v at hval
  generalize s'.global? name = v' at hval
  cases hval with
  | none => rfl
  | some hw => exact congrArg some (h.views.render hw)

theorem Stores.of_alike (h : K.Stores s s') (hs : s.Alike t) (hs' : s'.Alike t') :
    K.Stores t t' := by
  obtain ⟨sites, _, rfl⟩ := hs
  obtain ⟨sites', _, rfl⟩ := hs'
  exact h.withSites t.sites t'.sites

theorem Stores.settle (h : K.Stores s s') :
    K.Stores { s with error := none, pending := false }
      { s' with error := none, pending := false } :=
  { h with
    first := h.first.trans (.of_heap rfl (fun _ => rfl) rfl rfl id)
    second := h.second.trans (.of_heap rfl (fun _ => rfl) rfl rfl id)
    pending := rfl
    error := rfl }

theorem Stores.conclude {session session' : Session} (h : K.Stores session.store session'.store)
    {w w' : Word} (hw : K.Same w w') :
    K.Stores (session.conclude (some (.returned w))).2.store
        (session'.conclude (some (.returned w'))).2.store ∧
      K.Answers (session.conclude (some (.returned w))).1
        (session'.conclude (some (.returned w'))).1 := by
  constructor
  · rw [Session.conclude_returned_store, Session.conclude_returned_store]
    exact h.settle
  · rw [Session.conclude_answer, Session.conclude_answer, h.error]
    cases session.store.error with
    | none => exact .ok hw
    | some e => exact .error (.runtime e)

/-! ## §3 Submissions -/

theorem start_twins (host : Host) [host.Attached] {u u' : CodeUnit} {f f' : Function}
    (h : K.Stores t t')
    (hP : Pair.Later ⟨t, t'⟩ K.pair) (hloc : f'.locals = f.locals)
    (hb : Pair.InstrLists ⟨t, t'⟩ u u' (.whole f.locals) true f.body f'.body) :
    K.Twins (.ofFunction ⟨t, t'⟩ u u' f.locals) (.start host t u f) (.start host t' u' f') :=
  enter_twins (S := .ofFunction _ _ _ _) (by exact h)
    (frames_start hP rfl hloc.symm (Nat.le_of_eq hloc.symm) .nil .nil .nil nofun) .nil hb
    (List.append_nil _).symm (List.append_nil _).symm

end Kin

open Session in
theorem Kin.Stores.run {K : Kin} {session' : Session} (h : K.Stores session.store session'.store)
    (hr : session.ReachableBy .issued) (hr' : session'.ReachableBy .issued) (time : UInt64)
    (fuel : Nat)
    (program : Program) :
    (∃ K', K.Moves K' ∧
      K'.Stores (session.run (.ofNumber time) fuel program).2.store
        (session'.run (.ofNumber time) fuel program).2.store ∧
      K'.Answers (session.run (.ofNumber time) fuel program).1
        (session'.run (.ofNumber time) fuel program).1) ∨
    (¬K.even ∧ ¬session'.NeverFull (.ofNumber time) program) := by
  have hque := hr.sound.queue
  have hque' := hr'.sound.queue
  have hlow := h.compile session.unitName session'.unitName program
  generalize hc : session.store.compile session.unitName program = c at hlow
  generalize hc' : session'.store.compile session'.unitName program = c' at hlow
  cases hlow with
  | error e hm hs =>
    rw [run_of_error hque hc, run_of_error hque' hc']
    exact .inl ⟨_, hm, hs, .error _⟩
  | exhausted heven =>
    refine .inr ⟨heven, fun hn => ?_⟩
    have hfull := hn 0
    rw [run_of_error hque' hc'] at hfull
    cases hfull
  | @ok K1 u u' t t' hm hs hfns =>
    obtain ⟨hf, hf', hloc, hb⟩ := hfns
    obtain ⟨after, rfl, hl⟩ := hr.launch_of_ok hc hf (.ofNumber time)
    obtain ⟨after', rfl, hl'⟩ := hr'.launch_of_ok hc' hf' (.ofNumber time)
    cases fuel with
    | zero =>
      rw [run_zero hque hl, run_zero hque' hl']
      exact .inl ⟨_, hm, hs, .error _⟩
    | succ n =>
      obtain ⟨hm2, hs2⟩ := hs.renew
      have ht := start_twins (host (.ofNumber time)) hs2 (.refl _) hloc hb
      have ho := launch_orderly hque hr.quiescent hl
      have ho' := launch_orderly hque' hr'.quiescent hl'
      have hnow : (host (.ofNumber time)).now.Atomic := .canonical (.of_number time)
      rcases ht.run ho ho' hnow n fun _ _ => .inl ⟨rfl, rfl, rfl⟩ with
        ⟨K3, hm3, ht3⟩ | ⟨heven, k, _, e, he⟩
      · refine .inl ⟨K3, hm.trans (hm2.trans hm3), ?_⟩
        have ha := hr.searchRun_alike hl n
        have ha' := hr'.searchRun_alike hl' n
        have hstops := ht3.stops
        rw [ha.stop?_eq, ha'.stop?_eq] at hstops
        obtain ⟨S, hstage, _⟩ := ht3
        have hsts := hstage.stores.of_alike ha.store ha'.store
        rw [run_launched hque hl, run_launched hque' hl']
        rcases hstops with ⟨hstop, hstop'⟩ | ⟨w, w', hstop, hstop', hw, _⟩
        · rw [hstop, hstop']
          exact ⟨hsts, .error .unfinished⟩
        · rw [hstop, hstop']
          exact hsts.conclude hw
      · refine .inr ⟨fun he => heven (hm2.even (hm.even he)), fun hn => ?_⟩
        obtain ⟨fuel, hfull⟩ := hr'.reports_full hl' he
        have hnot := hn fuel
        rw [hfull] at hnot
        cases hnot

/-! ## §4 Sessions -/

namespace Pairing

def diagonal (size : Nat) : Pairing := fun i j => i = j ∧ i < size

theorem exists_ofIndex {heap : Heap} {w : Word} (h : w.Issued heap) (hobj : w.isObject = true) :
    ∃ i, i < 0x100000000 ∧ diagonal heap.size i i ∧ w = .ofIndex i := by
  obtain ⟨o, ho⟩ := h hobj
  obtain ⟨i, hi, rfl, hget⟩ := Heap.deref?_eq_some.mp ho
  exact ⟨i, hi, ⟨rfl, Array.getElem?_eq_some_iff.mp hget |>.1⟩, rfl⟩

theorem Same.diagonal {heap : Heap} {w : Word} (h : Vocabulary.issued.Has heap w) :
    (Pairing.diagonal heap.size).Same w w := by
  cases hobj : w.isObject with
  | true =>
    obtain ⟨i, hi, hs, rfl⟩ := exists_ofIndex h.1 hobj
    exact .object hi hi hs
  | false => exact .other hobj fun hp hb => exists_ofIndex (h.2 hp) hb

end Pairing

theorem Store.create_named {heap : Heap} {maxDepth : Nat} {s : Store}
    (h : Store.create heap maxDepth = .ok s) :
    s.Named ∧ s.names.find? "init" = some s.initializer := by
  obtain ⟨_, s', _, hs', rfl⟩ := Store.create_eq_ok h
  have hgls : s'.globals = #[] := congrArg Store.globals hs'
  have hi : s'.names.find? "init" = some s'.initializer := by
    rw [hs']
    exact (Names.grows_intern _ "clock").find (Names.find?_intern {} "init")
  have hn : s'.Named := by
    intro i g hg
    rw [hgls] at hg
    cases hg
  have hp := s'.prepares_globalSlot "clock"
  refine ⟨(Store.sameGlobals_mention hn (.global "clock")).named.putSlot _ _, ?_⟩
  show (s'.globalSlot "clock").2.names.find? "init" = some (s'.globalSlot "clock").2.initializer
  rw [hp.initializer]
  exact hp.later.names.find hi

namespace Kin

variable {K : Kin} {s s' : Store} {w : Word}

theorem stores_create {limit maxDepth : Nat} (h :
    Store.create (.withLimit limit) maxDepth = .ok s) :
    ∃ K : Kin, K.even ∧ K.Stores s s := by
  obtain ⟨hs, hnat, _⟩ := Store.create_sound (V := .issued) h
  obtain ⟨hn, hinit⟩ := Store.create_named h
  let K : Kin := ⟨.diagonal s.heap.size, ⟨s, s⟩, True⟩
  have hint := Store.create_interned h
  have hh : K.Heaps s.heap s.heap :=
    { objects := by
        rintro i _ ⟨rfl, hi⟩
        obtain ⟨name, hname⟩ := hnat (Array.getElem?_eq_getElem hi)
        have hget := Array.getElem?_eq_getElem hi
        rw [hname] at hget
        exact ⟨_, _, hget, hget, .native rfl rfl rfl⟩
      functional := fun h h' => h.1.symm.trans h'.1
      injective := fun h h' => h.1.trans h'.1.symm
      known := by
        intro t i hi
        rw [hint] at hi
        cases hi
      spare := by
        intro t j _ hj
        rw [hint] at hj
        cases hj
      slack := by
        intro ts _ hspare
        cases ts with
        | nil => exact Nat.le_refl _
        | cons t ts => exact absurd (hint t) (hspare t List.mem_cons_self).2
      limit := rfl
      limit_le := hs.heap.limit_le
      within := hs.heap.size_le
      size_le := Nat.le_refl _
      level := fun _ => ⟨rfl, fun i hi => ⟨rfl, hi⟩⟩ }
  refine ⟨K, trivial, ?_⟩
  exact
    { heap := hh
      first := .refl s
      second := .refl s
      named := hn
      named' := hn
      shapes := by
        rw [(Store.create_blank h).1]
        exact .blank _
      globals := fun name => by
        cases hv : s.global? name with
        | none => exact .none
        | some w =>
          rw [Store.global?_eq] at hv
          obtain ⟨slot, _, hval⟩ := Option.bind_eq_some_iff.mp hv
          exact .some (Pairing.Same.diagonal (hs.globals hval))
      initializer := ⟨"init", hinit, hinit⟩
      pending := rfl
      error := rfl
      depth := rfl
      maxDepth := rfl
      printed := rfl
      muted := rfl }

theorem Stores.mention (h : K.Stores s s') (he : K.even) (m : Mention) :
    ∃ K', K.Moves K' ∧ K'.Stores (s.mention m) (s'.mention m) := by
  cases hm : m.text? with
  | none => exact ⟨K, .refl K, (h.first_mention hm).second_mention hm⟩
  | some text =>
    obtain rfl : m = .text text := by cases m <;> simp_all [Mention.text?]
    rcases h.internText text with ⟨K', hmoves, h', _⟩ | ⟨hodd, _⟩
    · exact ⟨K', hmoves, h'⟩
    · exact absurd he hodd

theorem Stores.defineGlobal (h : K.Stores s s') (name : String) {w' : Word} (hw : K.Same w w') :
    ∃ K', K.Moves K' ∧ K'.Stores (s.defineGlobal name w) (s'.defineGlobal name w') := by
  have hs : K.Stores (s.globalSlot name).2 (s'.globalSlot name).2 :=
    (h.first_mention (m := .global name) rfl).second_mention (m := .global name) rfl
  obtain ⟨hm, hs⟩ := hs.renew
  refine ⟨_, hm, putSlot_stores hs ⟨name, ?_, ?_⟩ (hm.toLe.same hw)⟩
  · exact Lower.slotOf?_globalSlot s name
  · exact Lower.slotOf?_globalSlot s' name

theorem Heaps.same_self {heap : Heap} (h : K.Heaps heap heap) (he : K.even)
    (hw : Vocabulary.issued.Has heap w) : K.Same w w :=
  (Pairing.Same.diagonal hw).mono fun hij => hij.1 ▸ (h.level he).2 _ hij.2

end Kin

theorem Session.ReachableBy.likeItself (h : session.ReachableBy .issued) :
    ∃ K : Kin, K.even ∧ K.Stores session.store session.store := by
  induction h with
  | create hcre =>
    obtain ⟨store, hst, rfl⟩ := Session.create_eq_ok hcre
    exact Kin.stores_create hst
  | serve request hbef hall ih =>
    obtain ⟨K, he, hs⟩ := ih
    cases request with
    | mention m =>
      obtain ⟨K', hm, hs'⟩ := hs.mention he m
      exact ⟨K', hm.even he, hs'⟩
    | define name w =>
      obtain ⟨K', hm, hs'⟩ := hs.defineGlobal name (hs.heap.same_self he hall)
      exact ⟨K', hm.even he, hs'⟩
    | mute muted =>
      refine ⟨K, he, { hs with first := ?_, second := ?_, muted := rfl }⟩
      · exact hs.first.trans (.of_heap rfl (fun _ => rfl) rfl rfl id)
      · exact hs.second.trans (.of_heap rfl (fun _ => rfl) rfl rfl id)
    | run now fuel program =>
      obtain ⟨⟨time, rfl⟩, _⟩ := hall
      rcases hs.run hbef hbef time fuel program with ⟨K', hm, hs', _⟩ | ⟨hodd, _⟩
      · exact ⟨K', hm.even he, hs'⟩
      · exact absurd he hodd

end ScriptMachine
