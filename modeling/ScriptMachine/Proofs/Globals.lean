/-
ScriptMachine.Proofs.Globals — what the slots of globals stand for.
-/
import ScriptMachine.Proofs.Lowers.Acceptance
import ScriptMachine.Proofs.Twins.Mentions

namespace ScriptMachine

structure Ledger where
  names : List String
  value : String → Option Word

namespace Ledger

def empty : Ledger := ⟨[], fun _ => none⟩

def meet (l : Ledger) (name : String) : Ledger :=
  if name ∈ l.names then l else { l with names := l.names ++ [name] }

theorem value_meet (l : Ledger) (name : String) : (l.meet name).value = l.value := by
  unfold meet
  split <;> rfl

def mention (l : Ledger) : Mention → Ledger
  | .global name => l.meet name
  | _ => l

def put (l : Ledger) (name : String) (w : Word) : Ledger :=
  { l.meet name with value := Function.update l.value name (some w) }

/-- A new store has the clock. -/
def initial : Ledger := empty.put "clock" (.ofIndex 0)

def define (l : Ledger) (slot : Nat) (w : Word) : Ledger :=
  match l.names[slot]? with
  | some name => l.put name w
  | none => l

/-- The value under a name, or the error that names it. -/
def read (l : Ledger) (slot : Nat) : Except Failure Word :=
  match l.names[slot]? with
  | some name => (l.value name).elim (.error (.undefinedVariable name)) .ok
  | none => .error (.undefinedVariable "?")

/-- A name must have a value to be assigned another. -/
def assign (l : Ledger) (slot : Nat) (w : Word) : Except Failure Word × Ledger :=
  match l.read slot with
  | .ok _ => (.ok w, l.define slot w)
  | .error e => (.error e, l)

theorem value_put (l : Ledger) (name : String) (w : Word) : (l.put name w).value name = some w := by
  simp [put]

section

variable {l : Ledger} {slot : Nat} {name : String} (h : l.names[slot]? = some name)

include h

theorem getElem?_put (w : Word) : (l.put name w).names[slot]? = some name := by
  simpa [put, meet, List.mem_of_getElem? h] using h

theorem assign_of_some {v : Word} (hv : l.value name = some v) (w : Word) :
    l.assign slot w = (.ok w, l.put name w) := by
  simp [assign, read, define, h, hv]

theorem assign_of_none (hv : l.value name = none) (w : Word) : (l.assign slot w).2 = l := by
  simp [assign, read, h, hv]

end

end Ledger

/-- Slots and names correspond, and both have the value of the ledger. -/
structure Store.Keeps (s : Store) (l : Ledger) : Prop where
  named : s.Named
  size : s.globals.size = l.names.length
  slots : ∀ {name slot}, s.slotOf? name = some slot ↔ l.names[slot]? = some name
  value : ∀ name, s.global? name = l.value name

namespace Store.Keeps

variable {s t : Store} {l : Ledger} (h : s.Keeps l)

include h

theorem congr (hn : t.names = s.names) (hgls : t.globals = s.globals) : t.Keeps l := by
  have hs : ∀ name, t.slotOf? name = s.slotOf? name := by
    intro name
    simp only [slotOf?, globalSlot?, hn, hgls]
  refine ⟨?_, ?_, ?_, fun name => ?_⟩
  · intro i g hg
    rw [hgls] at hg
    rw [hn]
    exact h.named hg
  · rw [hgls]
    exact h.size
  · exact fun {name slot} => hs name ▸ h.slots
  · rw [← h.value, global?_eq, global?_eq, hs]
    congr 1
    funext slot
    simp only [Store.slotValue?, hgls]

theorem issue (hp : s.Prepares t) (hg : s.SameGlobals t) (more : List String)
    (hs : t.globals.size = l.names.length + more.length)
    (hm : ∀ {i name}, more[i]? = some name → t.slotOf? name = some (l.names.length + i)) :
    t.Keeps { l with names := l.names ++ more } := by
  have hof : ∀ {name slot}, (l.names ++ more)[slot]? = some name → t.slotOf? name = some slot := by
    intro name slot hn
    rw [List.getElem?_append] at hn
    split at hn
    · exact hp.slotOf (h.slots.mpr hn)
    · next hle =>
      have := hm hn
      rwa [Nat.add_sub_cancel' (Nat.le_of_not_lt hle)] at this
  refine ⟨hg.named, by rw [hs, List.length_append], ⟨fun hslot => ?_, hof⟩, fun name => ?_⟩
  · -- a slot of the table has a name of the ledger, and no other
    obtain ⟨g, hget, _⟩ := getElem?_of_slotOf? hslot
    have hlt := (Array.getElem?_eq_some_iff.mp hget).1
    rw [hs, ← List.length_append] at hlt
    have hn := List.getElem?_eq_getElem hlt
    rw [slotOf?_inj hslot (hof hn)]
    exact hn
  · exact (hg.value name).trans (h.value name)

theorem mention (m : Mention) : (s.mention m).Keeps (l.mention m) := by
  have hp := s.prepares_mention m
  have hg := sameGlobals_mention h.named m
  have hsame (hsize : (s.mention m).globals.size = s.globals.size) : (s.mention m).Keeps l := by
    simpa using h.issue hp hg [] (hsize.trans h.size) nofun
  cases m with
  | text text =>
    refine hsame ?_
    show (s.internText text).2.globals.size = s.globals.size
    unfold internText
    split <;> rfl
  | name | prototype | site => exact hsame rfl
  | global name =>
    have hs := Lower.slotOf?_globalSlot s name
    show (s.globalSlot name).2.Keeps (l.meet name)
    cases hf : (s.intern name).2.globalSlot? (s.intern name).1 with
    | some slot =>
      have hl : (s.globalSlot name).2.Keeps l := by
        refine hsame ?_
        show (s.globalSlot name).2.globals.size = s.globals.size
        rw [globalSlot_eq, hf]
        rfl
      rw [Ledger.meet, if_pos (List.mem_of_getElem? (hl.slots.mp hs))]
      exact hl
    | none =>
      have hnew : (s.globalSlot name).1 = l.names.length ∧
          (s.globalSlot name).2.globals.size = l.names.length + 1 := by
        rw [globalSlot_eq, hf, ← h.size]
        exact ⟨rfl, Array.size_push ..⟩
      rw [Ledger.meet, if_neg]
      · refine h.issue hp hg [name] hnew.2 fun {i other} ho => ?_
        obtain ⟨rfl, rfl⟩ : i = 0 ∧ name = other := by
          simpa [List.getElem?_singleton] using ho
        rwa [hnew.1] at hs
      · intro hn
        obtain ⟨slot, hs⟩ := List.mem_iff_getElem?.mp hn
        have ha := (s.prepares_intern name).slotOf (h.slots.mpr hs)
        obtain ⟨symbol, hsym, hat⟩ := Option.bind_eq_some_iff.mp ha
        cases (s.names.find?_intern name).symm.trans hsym
        cases hf.symm.trans hat

theorem mentions (ms : List Mention) : (s.mentionAll ms).Keeps (ms.foldl Ledger.mention l) := by
  induction ms generalizing s l with
  | nil => exact h
  | cons m ms ih => exact ih (h.mention m)

theorem slotValue? {slot : Nat} {name : String} (hn : l.names[slot]? = some name) :
    s.slotValue? slot = l.value name := by
  rw [← h.value, global?_of_slotOf? (h.slots.mpr hn)]

theorem getElem?_none {slot : Nat} (hn : l.names[slot]? = none) : s.globals[slot]? = none := by
  rw [Array.getElem?_eq_none_iff, h.size]
  exact List.getElem?_eq_none_iff.mp hn

theorem getGlobal (slot : Nat) : s.getGlobal slot = l.read slot := by
  unfold Store.getGlobal Ledger.read
  cases hn : l.names[slot]? with
  | some name =>
    rw [h.slotValue? hn, undefinedGlobal_of_slotOf? (h.slots.mpr hn)]
    cases hval : l.value name <;> simp [hval]
  | none => simp [Store.slotValue?, undefinedGlobal, h.getElem?_none hn]

theorem putSlot (slot : Nat) (w : Word) : (s.putSlot slot w).Keeps (l.define slot w) := by
  unfold Ledger.define
  cases hn : l.names[slot]? with
  | none =>
    refine h.congr rfl (Array.ext_getElem? fun i => ?_)
    rw [Store.putSlot, Array.getElem?_modify]
    split
    · next heq => simp [← heq, h.getElem?_none hn]
    · rfl
  | some name =>
    have hmet : l.meet name = l := if_pos (List.mem_of_getElem? hn)
    refine ⟨h.named.putSlot slot w, ?_, ?_, fun other => ?_⟩
    · simpa [Store.putSlot, Ledger.put, hmet] using h.size
    · intro other slot'
      rw [slotOf?_putSlot]
      simpa [Ledger.put, hmet] using h.slots
    · rw [global?_putSlot (h.slots.mpr hn), h.value]
      simp [Ledger.put, Function.update_apply]

theorem defineGlobal (name : String) (w : Word) : (s.defineGlobal name w).Keeps (l.put name w) := by
  have hmet := h.mention (.global name)
  have hput := hmet.putSlot (s.globalSlot name).1 w
  have hn := hmet.slots.mp (Lower.slotOf?_globalSlot s name)
  have ha : (l.meet name).meet name = l.meet name := if_pos (List.mem_of_getElem? hn)
  rw [Ledger.define, hn] at hput
  simp only [Ledger.put, Ledger.mention, ha, Ledger.value_meet] at hput
  exact hput

theorem setGlobal (slot : Nat) (w : Word) :
    (s.setGlobal slot w).1 = (l.assign slot w).1 ∧
      (s.setGlobal slot w).2.Keeps (l.assign slot w).2 := by
  have hr := h.getGlobal slot
  unfold Store.getGlobal at hr
  unfold Store.setGlobal Ledger.assign
  rw [← hr]
  split
  · exact ⟨rfl, h.putSlot slot w⟩
  · exact ⟨rfl, h⟩

end Store.Keeps

theorem Act.names_apply (s : Store) (a : Act) : (a.apply s).names = s.names := (evolves s a).names

def Ledger.act (l : Ledger) : Act → Ledger
  | .setGlobal slot w => (l.assign slot w).2
  | .defineGlobal slot w => l.define slot w
  | _ => l

theorem Store.Keeps.act {s : Store} {l : Ledger} (h : s.Keeps l) (a : Act) :
    (a.apply s).Keeps (l.act a) := by
  cases a with
  | setGlobal slot w =>
    have hset := (h.setGlobal slot w).2
    show (Serve.report (s.setGlobal slot w)).2.Keeps _
    generalize s.setGlobal slot w = r at hset
    obtain ⟨_ | _, _⟩ := r
    · exact hset.congr rfl rfl
    · exact hset
  | defineGlobal slot w => exact h.putSlot slot w
  | _ => exact h.congr (Act.names_apply s _) ((Act.tables_apply s _).1 rfl)

/-- What a host or running code does to a store. -/
inductive Move where
  | compile (name : String) (program : Program)
  | define (name : String) (w : Word)
  | act (a : Act)

namespace Move

def apply (s : Store) : Move → Store
  | .compile name program => (s.compile name program).2
  | .define name w => s.defineGlobal name w
  | .act a => a.apply s

/-- How the ledger of a store changes. Lowering meets the names that a program
mentions, all of them if it accepts the program. -/
def Enters (s : Store) (l l' : Ledger) : Move → Prop
  | .compile name program => ∃ met, met <+: program.mentions ∧ l' = met.foldl Ledger.mention l ∧
      ((∃ unit, (s.compile name program).1 = .ok unit) → met = program.mentions)
  | .define name w => l' = l.put name w
  | .act a => l' = l.act a

theorem slotOf?_apply {s : Store} {name : String} {slot : Nat} (h : s.slotOf? name = some slot)
    (m : Move) : (m.apply s).slotOf? name = some slot := by
  cases m with
  | compile unit program => exact (s.compile_prepares unit program).slotOf h
  | define other w =>
    refine (Store.slotOf?_putSlot _ _ w name).trans ?_
    exact (s.prepares_globalSlot other).slotOf h
  | act a =>
    have hgls := Store.globalSlot?_congr (s := s) (t := a.apply s) (Act.evolves s a).globals
    simpa only [apply, Store.slotOf?, Act.names_apply, hgls] using h

end Move

/-- What several moves do to the ledger of a store. -/
def Ledger.Traces (s : Store) (l : Ledger) : List Move → Ledger → Prop
  | [], l' => l' = l
  | m :: ms, l' => ∃ l1, m.Enters s l l1 ∧ Traces (m.apply s) l1 ms l'

namespace Store.Keeps

variable {s : Store} {l : Ledger} (h : s.Keeps l)

include h

theorem move (m : Move) : ∃ l', m.Enters s l l' ∧ (m.apply s).Keeps l' := by
  cases m with
  | compile name program =>
    obtain ⟨met, hmet, hst, hall⟩ := s.compile_meets name program
    refine ⟨_, ⟨met, hmet, rfl, hall⟩, ?_⟩
    show (s.compile name program).2.Keeps _
    rw [hst]
    exact h.mentions met
  | define name w => exact ⟨_, rfl, h.defineGlobal name w⟩
  | act a => exact ⟨_, rfl, h.act a⟩

theorem moves (ms : List Move) : ∃ l', l.Traces s ms l' ∧ (ms.foldl Move.apply s).Keeps l' ∧
    ∀ {name slot}, s.slotOf? name = some slot →
      (ms.foldl Move.apply s).slotOf? name = some slot := by
  induction ms generalizing s l with
  | nil => exact ⟨l, rfl, h, id⟩
  | cons m ms ih =>
    obtain ⟨l1, hm, h1⟩ := h.move m
    obtain ⟨l2, hms, h2, hs⟩ := ih h1
    exact ⟨l2, ⟨l1, hm, hms⟩, h2, fun hslot => hs (Move.slotOf?_apply hslot m)⟩

end Store.Keeps

theorem Store.create_keeps {limit maxDepth : Nat} {s : Store}
    (h : Store.create (.withLimit limit) maxDepth = .ok s) :
    s.Keeps Ledger.initial := by
  obtain ⟨_, t, _, ht, rfl⟩ := Store.create_eq_ok h
  have hgls : t.globals = #[] := congrArg Store.globals ht
  have hn : ∀ name, t.slotOf? name = none := by
    intro name
    simp [slotOf?, globalSlot?, hgls]
  have hk : t.Keeps .empty := by
    refine ⟨?_, congrArg Array.size hgls, ?_, fun name => ?_⟩
    · intro i g hg
      rw [hgls] at hg
      cases hg
    · intro name slot
      simp [hn, Ledger.empty]
    · rw [global?_eq, hn]
      rfl
  exact hk.defineGlobal "clock" (.ofIndex 0)

/-- **Slots of globals stand for names.** Take any program, after whatever hosts
and code did before. Lowering meets the names it mentions, and the unit it is
lowered to reads, assigns and defines globals by the slots of their names.
Whatever happens later, no name gets another slot, and what is read and
assigned through a slot is what the ledger says. -/
theorem Store.globals_keep_ledger {limit maxDepth : Nat} {s : Store}
    (h : Store.create (.withLimit limit) maxDepth = .ok s) (past : List Move) (name : String)
    (program : Program) (future : List Move) :
    let before := past.foldl Move.apply s
    let lowered := (before.compile name program).2
    let after := future.foldl Move.apply lowered
    ∃ l l1 l', Ledger.initial.Traces s past l ∧ (Move.compile name program).Enters before l l1 ∧
      l1.Traces lowered future l' ∧ before.Keeps l ∧ lowered.Keeps l1 ∧ after.Keeps l' ∧
      (∀ unit, (before.compile name program).1 = .ok unit → ∃ G F code,
        G.unit = unit ∧ G.store = lowered ∧ Translate.Script G F program code) ∧
      (∀ {other slot}, before.slotOf? other = some slot → lowered.slotOf? other = some slot) ∧
      (∀ {other slot}, lowered.slotOf? other = some slot → after.slotOf? other = some slot) ∧
      ∀ slot, after.getGlobal slot = l'.read slot ∧
        ∀ w, (after.setGlobal slot w).1 = (l'.assign slot w).1 := by
  intro before lowered after
  obtain ⟨l, hp, hl, _⟩ := (Store.create_keeps h).moves past
  obtain ⟨l1, hm, hl1⟩ := hl.move (.compile name program)
  obtain ⟨l', hfut, hl', hs⟩ := hl1.moves future
  refine ⟨l, l1, l', hp, hm, hfut, hl, hl1, hl', fun unit hu => ?_,
    fun hslot => Move.slotOf?_apply hslot (.compile name program), hs,
    fun slot => ⟨hl'.getGlobal slot, fun w => (hl'.setGlobal slot w).1⟩⟩
  obtain ⟨G, F, code, _, hst, hG, hscr⟩ :=
    (Store.compile_yields (Prod.ext hu rfl)).2 fun _ => 0
  exact ⟨G, F, code, hG, hst, hscr⟩

/-- A program is lowered before the name it reads has a value. Its code reads
what is defined and assigned later. -/
theorem Store.globals_keep_ledger_late : ∃ s, Store.create (.withLimit 8) 8 = .ok s ∧
    let program : Program := [.print (.read ⟨"x", 1⟩ .global)]
    ∃ unit slot locals, (s.compile "m" program).1 = .ok unit ∧
      unit.function? 0 = some ⟨locals, Translate.scriptBody [.print (.readGlobal slot)]⟩ ∧
      let future := [Move.act (.setGlobal slot .nil), .define "x" (.ofBool true),
        .act (.setGlobal slot (.ofBool false))]
      ∃ l', (future.foldl Move.apply (s.compile "m" program).2).Keeps l' ∧
        l'.names[slot]? = some "x" ∧ l'.value "x" = some (.ofBool false) ∧
        (future.foldl Move.apply (s.compile "m" program).2).getGlobal slot =
          .ok (.ofBool false) := by
  have hok : (Store.create (.withLimit 8) 8).isOk = true := by rfl
  cases h : Store.create (.withLimit 8) 8 with
  | error e =>
    rw [h] at hok
    cases hok
  | ok s =>
    refine ⟨s, rfl, ?_⟩
    intro program
    have hcnt : ∀ use ∈ program.uses, use.Countable := nofun
    have hsco : program.WellScoped := by
      simp [program, Program.WellScoped, wellScopedAll, Stmt.WellScoped, Expr.WellScoped,
        Resolution.WellScoped]
    obtain ⟨unit, hu⟩ := (Store.compile_isOk_iff hcnt s "m").mpr ⟨hsco, Heap.hasRoomFor_nil _⟩
    obtain ⟨_, _, _, _, _, _, _, _, _, hb, _⟩ := Store.globals_keep_ledger h [] "m" program []
    obtain ⟨G, F, code, rfl, hst, hscr⟩ := hb unit hu
    obtain ⟨_, _, ⟨_, ⟨slot, hs, rfl⟩, rfl⟩, rfl, rfl⟩ := hscr.statements
    rw [hst] at hs
    refine ⟨G.unit, slot, F.locals, hu, hscr.function, ?_⟩
    intro future
    obtain ⟨l, _, l', rfl, ⟨_, _, rfl, hall⟩, hfut, _, hl1, hl', _, _, _, hr⟩ :=
      Store.globals_keep_ledger h [] "m" program future
    obtain rfl := hall ⟨_, hu⟩
    have hn := hl1.slots.mp hs
    have hnone : (program.mentions.foldl Ledger.mention Ledger.initial).value "x" = none := by
      have hmen : program.mentions = [.global "x"] := rfl
      rw [hmen, List.foldl_cons, List.foldl_nil, Ledger.mention, Ledger.value_meet]
      simp [Ledger.initial, Ledger.put, Ledger.empty]
    generalize program.mentions.foldl Ledger.mention Ledger.initial = met at hn hnone hfut
    obtain ⟨_, rfl, _, rfl, _, rfl, rfl⟩ := hfut
    have hfst : met.act (.setGlobal slot .nil) = met := Ledger.assign_of_none hn hnone _
    have hdef := Ledger.getElem?_put hn (.ofBool true)
    have hl : (met.put "x" (.ofBool true)).act (.setGlobal slot (.ofBool false)) =
        (met.put "x" (.ofBool true)).put "x" (.ofBool false) :=
      congrArg Prod.snd (Ledger.assign_of_some hdef (Ledger.value_put ..) _)
    rw [hfst, hl] at hl' hr
    refine ⟨_, hl', Ledger.getElem?_put hdef _, Ledger.value_put .., (hr slot).1.trans ?_⟩
    simp [Ledger.read, Ledger.getElem?_put hdef, Ledger.value_put]

end ScriptMachine
