/-
ScriptMachine.Proofs.Routines — which routines raise errors, and that code notices
it.
-/
import ScriptMachine.Proofs.Refusals
import ScriptMachine.Proofs.Runs.Raising
import ScriptMachine.Service.World

namespace ScriptMachine

variable {s : Store} {e : Failure}

/-- The entry of what can be called directly. -/
def Object.entry? : Object → Option Entry
  | .closure c => some c.entry
  | .native n => some n.entry
  | _ => none

/-! ## §1 Failures -/

/-- Taking the error clears it and its flag, and nothing else. -/
theorem Store.takeError_snd (s : Store) :
    s.takeError.2 = { s with error := none, pending := false } := rfl

namespace Attempt

variable {a : Attempt}

theorem signals_perform (s : Store) (a : Attempt) : (a.perform s).2.signals = s.signals := by
  cases a with
  | negate | getGlobal => rfl
  | binary op left right => exact (s.binary_makes op left right).signals
  | getProperty object name site => exact s.signals_getProperty object name site
  | setProperty object name value site => exact s.signals_setProperty object name value site
  | setGlobal slot value => exact s.signals_setGlobal slot value
  | newClass name sup => exact (s.newClass_makes name sup).signals
  | makeClosure prototype entry cells => exact (s.makeClosure_makes prototype entry cells).signals
  | newCell value => exact s.signals_alloc _
  | getSuper sup receiver name => exact (s.getSuper_makes sup receiver name).signals

/-- Whether an attempt fails does not depend on the error being raised. -/
theorem Fails.unsignalled (h : a.Fails s e) (pending : Bool) (error : Option Failure) :
    a.Fails { s with pending := pending, error := error } e := by
  cases h with
  | operands hne hne' hn ht => exact .operands hne hne' hn ht
  | operand hw => exact .operand hw
  | noProperties hi => exact .noProperties hi
  | noProperty hi hs hm => exact .noProperty hi hs hm
  | noFields hi => exact .noFields hi
  | unread hv => exact .unread hv
  | unassigned hv => exact .unassigned hv
  | superclass hc => exact .superclass hc
  | prototype hp => exact .prototype hp
  | noMethod hm => exact .noMethod hm
  | full ha hf =>
    refine .full ?_ hf
    cases ha with
    | join hn ht => exact .join hn ht
    | bind hi hs hm => exact .bind hi hs hm
    | newClass hm => exact .newClass hm
    | makeClosure hp => exact .makeClosure hp
    | newCell => exact .newCell
    | getSuper hc hm => exact .getSuper hc hm

theorem fails_takeError : a.Fails s.takeError.2 e ↔ a.Fails s e :=
  ⟨fun h => h.unsignalled s.pending s.error, fun h => h.unsignalled false none⟩

theorem perform_eq_error : (a.perform s).1 = .error e ↔ a.Fails s e :=
  ⟨fails_of_perform, fun h => by rw [h.perform_eq]⟩

end Attempt

namespace Store

/-- What a call is resolved to does not depend on the error being raised. -/
theorem prepareCall_takeError (s : Store) (callee : Word) (count : Nat) :
    (s.takeError.2.prepareCall callee count).1 = (s.prepareCall callee count).1 := by
  unfold prepareCall
  rw [takeError_snd]
  dsimp only
  split
  · rfl
  · rfl
  · rfl
  · unfold prepareConstruction alloc
    dsimp only
    split
    · rfl
    · cases s.heap.allocate _ with
      | error => rfl
      | ok => cases Class.method? _ s.initializer <;> rfl
  · rfl

/-- No function has the entry 0. -/
def Addressable (s : Store) : Prop :=
  ∀ (i : Nat) (o : Object), s.heap.objects[i]? = some o → o.entry? ≠ some (.address 0)

theorem Addressable.deref? (h : s.Addressable) {w : Word} {o : Object}
    (ho : s.heap.deref? w = some o) : o.entry? ≠ some (.address 0) := by
  exact h _ o (Heap.getElem?_objectIndex ho)

theorem Addressable.alloc (h : s.Addressable) (i : Instance) :
    (s.alloc (.ofInstance i)).2.Addressable := by
  rcases s.alloc_cases (.ofInstance i) with ⟨_, heq⟩ | ⟨_, heq⟩
  · rw [heq]
    intro k o ho
    rcases getElem?_push_cases ho with hold | rfl
    · exact h k o hold
    · nofun
  · rw [heq]
    exact h

variable {target : CallTarget}

theorem Addressable.prepareCall (h : s.Addressable) {callee : Word} {count : Nat} {s' : Store}
    (ht : s.prepareCall callee count = (.ok target, s')) : target.entry ≠ .address 0 := by
  cases prepareCall_prepared ht with
  | closure hd | native hd | bound _ hd =>
    exact fun hent => h.deref? hd (congrArg some hent)
  | plain => nofun
  | initialized _ _ ha hd =>
    have hm := h.alloc { classHandle := ⟨callee.payload⟩ }
    rw [ha] at hm
    exact fun hent => hm.deref? hd (congrArg some hent)

end Store

/-! ## §2 Routines -/

namespace Service.Request

variable {request : Request} {a : Attempt}

def word (request : Request) (i : Nat) : Word := request.words[i]?.getD .zero

/-- A symbol, slot, site or prototype: the low 32 bits of a word. -/
def number (request : Request) (i : Nat) : Nat := (request.word i).bits.toNat % 0x100000000

/-- What a routine attempts on the store. -/
def attempt? (request : Request) : Option Attempt :=
  match request.service with
  | .binary =>
    (BinaryOp.ofIndex? (request.word 0).bits.toNat).map fun op =>
      .binary op (request.word 1) (request.word 2)
  | .negate => some (.negate (request.word 0))
  | .globalGet => some (.getGlobal (request.number 0))
  | .globalSet => some (.setGlobal (request.number 0) (request.word 1))
  | .newCell => some (.newCell (request.word 0))
  | .makeClosure =>
    some (.makeClosure (request.number 0) (.address (request.word 1).bits) request.cells)
  | .getProperty => some (.getProperty (request.word 0) (request.number 1) (request.number 2))
  | .setProperty =>
    some (.setProperty (request.word 0) (request.number 1) (request.word 2) (request.number 3))
  | .newClass =>
    some (.newClass (request.number 0)
      (if request.word 1 = .zero then none else some (request.word 2)))
  | .getSuper => some (.getSuper (request.word 0) (request.word 1) (request.number 2))
  | _ => none

/-- What goes wrong with what a routine is asked for. -/
def Fails (request : Request) (s : Store) (e : Failure) : Prop :=
  match request.service with
  | .stackOverflow => e = .stackOverflow
  | .prepareCall => (s.prepareCall (request.word 0) (request.word 1).bits.toNat).1 = .error e
  | _ => ∃ a, request.attempt? = some a ∧ a.Fails s e

/-- The error a routine raises: the one it records if none is recorded yet. -/
def failure? (request : Request) (s : Store) : Option Failure :=
  (request.serve s.takeError.2).2.error

theorem serve_attempt (h : request.attempt? = some a) (s : Store) :
    request.serve s =
      ({ word := (Serve.report (a.perform s)).1 }, (Serve.report (a.perform s)).2) := by
  obtain ⟨service, words, cells⟩ := request
  cases service with
  | binary =>
    obtain ⟨op, hop, rfl⟩ := Option.map_eq_some_iff.mp h
    have hop : BinaryOp.ofIndex? (words[0]?.getD Word.zero).bits.toNat = some op := hop
    simp only [serve, Service.call, hop]
    rfl
  | negate | globalGet | globalSet | newCell | makeClosure | getProperty | setProperty | newClass
  | getSuper =>
    cases h
    rfl
  | _ => cases h

theorem serve_signals (ha : request.attempt? = none) (hc : request.service ≠ .prepareCall)
    (hovf : request.service ≠ .stackOverflow) (s : Store) :
    (request.serve s).2.signals = s.signals := by
  obtain ⟨service, words, cells⟩ := request
  cases service with
  | binary =>
    have hop : BinaryOp.ofIndex? (words[0]?.getD Word.zero).bits.toNat = none :=
      Option.map_eq_none_iff.mp ha
    simp [serve, Service.call, hop]
  | print => exact s.signals_print _
  | addMethod => exact s.signals_addMethod ..
  | valuesEqual | globalDefine | cellGet | cellSet | closureCell => rfl
  | prepareCall => exact absurd rfl hc
  | stackOverflow => exact absurd rfl hovf
  | _ => cases ha

theorem failure?_of_signals (h : ∀ t, (request.serve t).2.signals = t.signals) (s : Store) :
    request.failure? s = none :=
  Store.error_of_signals (h s.takeError.2)

theorem failure?_of_attempt (h : request.attempt? = some a) :
    request.failure? s = some e ↔ a.Fails s e := by
  have hsig := Store.error_of_signals (a.signals_perform s.takeError.2)
  rw [← Attempt.fails_takeError, ← Attempt.perform_eq_error, failure?, serve_attempt h]
  generalize a.perform s.takeError.2 = result at hsig
  obtain ⟨e' | w, t⟩ := result
  · show some (t.error.getD e') = some e ↔ Except.error e' = .error e
    rw [show t.error = none from hsig]
    simp
  · show t.error = some e ↔ Except.ok w = .error e
    rw [show t.error = none from hsig]
    simp

theorem failure?_of_call (h : request.service = .prepareCall) : request.failure? s = some e ↔
    (s.prepareCall (request.word 0) (request.word 1).bits.toNat).1 = .error e := by
  have hsig := Store.error_of_signals
    (s.takeError.2.signals_prepareCall (request.word 0) (request.word 1).bits.toNat)
  obtain ⟨service, words, cells⟩ := request
  cases h
  rw [← s.prepareCall_takeError]
  simp only [failure?, serve, Serve.prepareCall]
  simp only [word] at hsig ⊢
  generalize s.takeError.2.prepareCall _ _ = result at hsig
  obtain ⟨e' | target, t⟩ := result
  · show some (t.error.getD e') = some e ↔ Except.error e' = .error e
    rw [show t.error = none from hsig]
    simp
  · show t.error = some e ↔ Except.ok target = .error e
    rw [show t.error = none from hsig]
    simp

/-- A routine raises an error exactly if what it is asked for fails. -/
theorem failure?_eq_some : request.failure? s = some e ↔ request.Fails s e := by
  by_cases hc : request.service = .prepareCall
  · rw [failure?_of_call hc, Fails, hc]
  by_cases hovf : request.service = .stackOverflow
  · obtain ⟨service, words, cells⟩ := request
    cases hovf
    exact ⟨fun h => (Option.some.inj h).symm, fun h => congrArg some h.symm⟩
  have hf : request.Fails s e ↔ ∃ a, request.attempt? = some a ∧ a.Fails s e := by
    unfold Fails
    split
    · next h => exact absurd h hovf
    · next h => exact absurd h hc
    · rfl
  rw [hf]
  cases ha : request.attempt? with
  | none =>
    rw [failure?_of_signals (serve_signals ha hc hovf)]
    simp
  | some a => simp [failure?_of_attempt ha]

inductive Outcome (request : Request) (s : Store) : Option Failure → Reply × Store → Prop
  | quiet {reply : Reply} {s' : Store} (h : s'.signals = s.signals) :
      Outcome request s none (reply, s')
  | raised {s' : Store} {e : Failure} (h : s'.signals = s.signals) :
      Outcome request s (some e) (request.idle, s'.raise e)

theorem outcome_attempt (h : request.attempt? = some a) (s : Store) :
    request.Outcome s (request.failure? s) (request.serve s) := by
  have hsig := a.signals_perform s
  have hi : request.idle = { word := .nil } := by
    obtain ⟨service, words, cells⟩ := request
    cases service with
    | prepareCall => cases h
    | _ => rfl
  rw [serve_attempt h]
  cases hf : request.failure? s with
  | none =>
    have hok : ∀ e, (a.perform s).1 ≠ .error e := fun e he => by
      rw [Attempt.perform_eq_error, ← failure?_of_attempt h, hf] at he
      cases he
    generalize a.perform s = result at hsig hok
    obtain ⟨e | w, s'⟩ := result
    · exact absurd rfl (hok e)
    · exact .quiet hsig
  | some e =>
    have heq := ((failure?_of_attempt h).mp hf).perform_eq
    rw [heq] at hsig ⊢
    rw [show (_, _) = (request.idle, (a.counted s).raise e) by rw [hi]; rfl]
    exact .raised hsig

theorem outcome_call (h : request.service = .prepareCall) (s : Store) :
    request.Outcome s (request.failure? s) (request.serve s) := by
  have hsig := s.signals_prepareCall (request.word 0) (request.word 1).bits.toNat
  have hiff := fun e => failure?_of_call (s := s) (e := e) h
  obtain ⟨service, words, cells⟩ := request
  cases h
  simp only [serve, Serve.prepareCall]
  simp only [word] at hsig hiff
  generalize s.prepareCall _ _ = result at hsig hiff
  obtain ⟨e | target, s'⟩ := result
  · rw [(hiff e).mpr rfl]
    exact .raised hsig
  · have hn : failure? ⟨.prepareCall, words, cells⟩ s = none := by
      refine Option.eq_none_iff_forall_ne_some.mpr fun e he => ?_
      cases (hiff e).mp he
    rw [hn]
    exact .quiet hsig

theorem outcome (request : Request) (s : Store) :
    request.Outcome s (request.failure? s) (request.serve s) := by
  by_cases hc : request.service = .prepareCall
  · exact outcome_call hc s
  by_cases hovf : request.service = .stackOverflow
  · obtain ⟨service, words, cells⟩ := request
    cases hovf
    exact .raised rfl
  cases ha : request.attempt? with
  | some a => exact outcome_attempt ha s
  | none =>
    have hq := serve_signals ha hc hovf
    rw [failure?_of_signals hq]
    exact .quiet (hq s)

theorem not_fails_of_infallible (h : request.service.fallible = false)
    (hc : request.service ≠ .prepareCall) : ¬request.Fails s e := by
  obtain ⟨service, words, cells⟩ := request
  cases service with
  | prepareCall => exact absurd rfl hc
  | print | valuesEqual | globalDefine | cellGet | cellSet | closureCell | addMethod =>
    rintro ⟨a, ha, _⟩
    cases ha
  | _ => cases h

/-- The entry is 0 exactly if the call is refused. -/
theorem entry_eq_zero (h : request.service = .prepareCall) (hs : s.Addressable) :
    (request.serve s).1.word = .zero ↔ (request.failure? s).isSome := by
  cases hf : request.failure? s with
  | some e =>
    have hout := hf ▸ request.outcome s
    generalize request.serve s = result at hout
    cases hout
    simp [idle, h, Service.idle]
  | none =>
    have hok : ∀ e, (s.prepareCall (request.word 0) (request.word 1).bits.toNat).1 ≠ .error e :=
      fun e he => by cases hf.symm.trans ((failure?_of_call h).mpr he)
    obtain ⟨service, words, cells⟩ := request
    cases h
    simp only [serve, Serve.prepareCall]
    simp only [word] at hok
    cases hp : s.prepareCall (words[0]?.getD .zero) (words[1]?.getD Word.zero).bits.toNat with
    | mk result s' =>
      rw [hp] at hok
      cases result with
      | error e => exact absurd rfl (hok e)
      | ok target =>
        have hent := hs.prepareCall hp
        simp only [Option.isSome_none, Bool.false_eq_true, iff_false]
        intro hz
        cases he : target.entry with
        | address n =>
          rw [he] at hz hent
          exact hent (congrArg Entry.address (congrArg Word.bits hz))
        | clock | construct | compiled =>
          rw [he] at hz
          cases congrArg Word.bits hz

/-- What a routine tells about errors, by the flag, the error that is recorded and
the word it returns. -/
structure Tells (request : Request) (s : Store) (reply : Reply) (s' : Store) : Prop where
  infallible : request.service.fallible = false → request.service ≠ .prepareCall →
    request.failure? s = none
  quiet : request.failure? s = none → s'.pending = s.pending ∧ s'.error = s.error
  raised : ∀ e, request.failure? s = some e →
    s'.pending = true ∧ s'.error = some (s.error.getD e)
  nil : request.service.fallible = true → (request.failure? s).isSome → reply.word = .nil
  entry : request.service = .prepareCall → s.Addressable →
    (reply.word = .zero ↔ (request.failure? s).isSome)
  fails : ∀ e, request.failure? s = some e ↔ request.Fails s e

theorem tells (request : Request) (s : Store) :
    request.Tells s (request.serve s).1 (request.serve s).2 where
  infallible h hc :=
    Option.eq_none_iff_forall_ne_some.mpr fun _ he =>
      not_fails_of_infallible h hc (failure?_eq_some.mp he)
  quiet h := by
    have hout := h ▸ request.outcome s
    generalize request.serve s = result at hout
    cases hout with
    | quiet hsig => exact ⟨Store.pending_of_signals hsig, Store.error_of_signals hsig⟩
  raised e h := by
    have hout := h ▸ request.outcome s
    generalize request.serve s = result at hout
    cases hout with
    | @raised s' _ hsig =>
      have herr : s'.error = s.error := Store.error_of_signals hsig
      exact ⟨rfl, herr ▸ rfl⟩
  nil h hs := by
    obtain ⟨e, he⟩ := Option.isSome_iff_exists.mp hs
    have hout := he ▸ request.outcome s
    generalize request.serve s = result at hout
    cases hout with
    | raised =>
      obtain ⟨service, words, cells⟩ := request
      cases service with
      | prepareCall => cases h
      | _ => rfl
  entry := entry_eq_zero
  fails _ := failure?_eq_some

end Service.Request

namespace World

/-- The store that routines act on. -/
def current? (world : World) : Option Store := world.active.bind fun i => world.stores[i]?

theorem serve_of_current (world : World) (h : world.current? = some s) (request : Service.Request) :
    (world.serve request).1 = (request.serve s).1 ∧
      (world.serve request).2.current? = some (request.serve s).2 := by
  obtain ⟨i, hi, hs⟩ := Option.bind_eq_some_iff.mp h
  have hlt : i < world.stores.size := (Array.getElem?_eq_some_iff.mp hs).1
  simp only [serve, hi, at?, hs]
  exact ⟨rfl, Array.getElem?_setIfInBounds_self_of_lt hlt⟩

theorem serve_of_idle (world : World) (h : world.current? = none) (request : Service.Request) :
    world.serve request = (request.idle, world) := by
  unfold current? at h
  cases hi : world.active with
  | none => simp [serve, hi]
  | some i =>
    rw [hi] at h
    have hs : world.stores[i]? = none := h
    simp only [serve, hi, at?, hs]
    rfl

end World

/-! ## §3 Code -/

namespace Machine

section

variable (looks : Service → Bool) (m : Machine) (host : Host)

/-- Calls a routine. Afterwards code looks at the flag if the table says so, and
goes on if it finds no error there. -/
def servedBy (service : Service) (routine : Store → Word × Store) (go : Machine → Word → Machine) :
    Machine :=
  let (w, m) := m.serve host routine
  if looks service && m.store.pending then m.leave .nil else go m w

def cellBy (go : Machine → Word → Machine) : CellRef → Machine
  | .own index => go m (m.frame.value index)
  | .captured index =>
    m.servedBy looks host .closureCell (Serve.closureCell m.frame.closure index) go

def cellsBy (m : Machine) (go : Machine → List Word → Machine) : List CellRef → Machine
  | [] => go m []
  | cell :: rest =>
    m.cellBy looks host (fun m w => m.cellsBy (fun m ws => go m (w :: ws)) rest) cell

def evalBy : Code → Machine
  | .readCell cell =>
    m.cellBy looks host (fun m w => m.servedBy looks host .cellGet (Serve.cellGet w) give) cell
  | .readGlobal slot => m.servedBy looks host .globalGet (Serve.globalGet slot) give
  | .closure declaration prototype cells =>
    m.cellsBy looks host (fun m words =>
      m.servedBy looks host .makeClosure
        (Serve.makeClosure prototype (.compiled m.frame.unit declaration) words.toArray) give) cells
  | .newClass name sup =>
    m.servedBy looks host .newClass (Serve.newClass name (sup.map m.frame.value)) give
  | e => m.eval host e

def binaryBy (op : BinaryOp) (left right : Word) : Machine :=
  if left.isPlain && right.isPlain then m.give (Inline.binary op left.bits right.bits)
  else
    match op with
    | .equal => m.servedBy looks host .valuesEqual (Serve.valuesEqual left right) give
    | .notEqual =>
      m.servedBy looks host .valuesEqual (Serve.valuesEqual left right) fun m w =>
        m.give ⟨w.bits ^^^ 1⟩
    | op => m.servedBy looks host .binary (Serve.binary op left right) give

def receiveBy (w : Word) : Pending → Machine
  | .newCell => m.servedBy looks host .newCell (Serve.newCell w) give
  | .assignCell cell =>
    m.cellBy looks host (fun m v =>
      m.servedBy looks host .cellSet (Serve.cellSet v w) fun m _ => m.give w) cell
  | .assignGlobal slot =>
    m.servedBy looks host .globalSet (Serve.globalSet slot w) fun m _ => m.give w
  | .negate =>
    if w.isPlain then m.give ⟨Number.flipSign w.bits⟩
    else m.servedBy looks host .negate (Serve.negate w) give
  | .rightOperand op left => m.binaryBy looks host op left w
  | .getProperty name site =>
    match m.store.cached? w site with
    | some (i, slot) =>
      let (w, store) := m.store.getCached i slot site
      { m with store := store }.give w
    | none => m.servedBy looks host .getProperty (Serve.getProperty w name site) give
  | .setProperty object name site =>
    match m.store.cached? object site with
    | some (i, slot) => { m with store := m.store.setCached object i slot w site }.give w
    | none => m.servedBy looks host .setProperty (Serve.setProperty object name w site) give
  | .superReceiver sup name =>
    m.servedBy looks host .getSuper (Serve.getSuper sup w name) give
  | .print => m.servedBy looks host .print (Serve.print w) fun m _ => m.next
  | .defineGlobal slot =>
    m.servedBy looks host .globalDefine (Serve.globalDefine slot w) fun m _ => m.next
  | .addMethod classVariable name =>
    m.servedBy looks host .addMethod (Serve.addMethod (m.frame.value classVariable) name w)
      fun m _ => m.next
  | task => m.receive host w task

/-- One step of code that looks at the flag after the routines `looks` tells, and
after calls. -/
def stepBy : Machine :=
  match m.control, m.stack with
  | .eval e, _ => m.evalBy looks host e
  | .run [], task :: stack => { m with stack := stack }.receiveBy looks host .nil task
  | .give w, task :: stack => { m with stack := stack }.receiveBy looks host w task
  | _, _ => m.step host

end

variable {m : Machine} {host : Host}

theorem servedBy_infallible {looks : Service → Bool} {service : Service}
    (h : looks service = false) (routine : Store → Word × Store) (go : Machine → Word → Machine) :
    m.servedBy looks host service routine go =
      go (m.serve host routine).2 (m.serve host routine).1 := by
  simp [servedBy, h]

theorem cellBy_fallible (m : Machine) (go : Machine → Word → Machine) (cell : CellRef) :
    m.cellBy Service.fallible host go cell = go m (m.cellWord host cell) := by
  cases cell with
  | own index => rfl
  | captured index =>
    rw [cellBy, servedBy_infallible rfl]
    unfold cellWord serve
    split <;> rfl

theorem cellsBy_fallible (m : Machine) (go : Machine → List Word → Machine) (cells : List CellRef) :
    m.cellsBy Service.fallible host go cells = go m (cells.map (m.cellWord host)) := by
  induction cells generalizing go with
  | nil => rfl
  | cons cell rest ih => rw [cellsBy, cellBy_fallible, ih, List.map_cons]

theorem evalBy_fallible (m : Machine) (e : Code) :
    m.evalBy Service.fallible host e = m.eval host e := by
  cases e with
  | readCell cell =>
    rw [evalBy, cellBy_fallible, servedBy_infallible rfl]
    rfl
  | closure declaration prototype cells => exact cellsBy_fallible m _ cells
  | _ => rfl

theorem receiveBy_fallible (m : Machine) (w : Word) (task : Pending) :
    m.receiveBy Service.fallible host w task = m.receive host w task := by
  cases task with
  | assignCell cell =>
    rw [receiveBy, cellBy_fallible, servedBy_infallible rfl]
    rfl
  | rightOperand op left =>
    show m.binaryBy Service.fallible host op left w = m.binary host op left w
    unfold binaryBy binary
    split
    · rfl
    · cases op <;> rfl
  | _ => rfl

/-- The machine looks where the table says. -/
theorem stepBy_fallible (m : Machine) (host : Host) :
    m.stepBy Service.fallible host = m.step host := by
  cases m.turn with
  | stopped hc | leaves hc | executes hc => simp [stepBy, hc]
  | evaluates hc => simp [stepBy, hc, evalBy_fallible, step_eval hc]
  | ends hs hc => rcases hc with hc | ⟨hc, rfl⟩ <;> simp [stepBy, hc, hs]
  | receives hs hc =>
    rw [step_receives hs hc]
    rcases hc with hc | ⟨hc, rfl⟩ <;> simp [stepBy, hc, hs, receiveBy_fallible]

/-- The code of a machine does nothing after an error but to return. -/
structure Heeds (m : Machine) (host : Host) : Prop where
  flagged : m.store.pending = m.store.error.isSome
  exits : m.store.pending = true → m.control.isExit = true
  idles : m.store.pending = true → ∀ n,
    (m.run host n).store = { m.store with depth := (m.run host n).store.depth }
  ends : m.store.pending = true → ∃ n stop, (m.run host n).stop? = some stop

theorem Orderly.heeds {base : Nat} (h : m.Orderly base) (host : Host) : m.Heeds host where
  flagged := h.flagged
  exits := h.exits
  idles hp := h.run_store hp
  ends hp := by
    obtain ⟨e, he⟩ := Option.isSome_iff_exists.mp (h.flagged.symm.trans hp)
    obtain ⟨n, stop, hs, _⟩ := h.stops he host
    exact ⟨n, stop, hs⟩

end Machine

namespace Service

/-- Some request for the routine makes it raise an error. -/
def Raises (service : Service) : Prop :=
  ∃ (request : Request) (s : Store), request.service = service ∧ (request.failure? s).isSome

theorem raises_iff (service : Service) :
    service.Raises ↔ service.fallible = true ∨ service = .prepareCall := by
  constructor
  · rintro ⟨request, s, rfl, hs⟩
    by_contra hnot
    simp only [not_or, Bool.not_eq_true] at hnot
    rw [(request.tells s).infallible hnot.1 hnot.2] at hs
    cases hs
  · intro h
    -- whatever is asked for fails in a store that has nothing
    refine ⟨⟨service, [if service = .binary then .zero else .nil, .nil, .nil, .nil], #[]⟩,
      { heap := .withLimit 0, maxDepth := 0 }, rfl, ?_⟩
    cases service with
    | print | valuesEqual | globalDefine | cellGet | cellSet | closureCell | addMethod =>
      rcases h with h | h <;> cases h
    | _ => rfl

/-- **Errors are told, and noticed.** With no store active a routine does nothing.
On the active store it tells of errors by the table: an infallible routine raises
none, every other raises one exactly if what it is asked for fails, and the
preparation of a call tells it by the entry. Code that looks where the table says
is what the machine runs, and from the moment an error is raised it only
returns. -/
theorem errors_told_and_noticed :
    (∀ (world : World) (request : Request),
      (world.current? = none → world.serve request = (request.idle, world)) ∧
      ∀ s, world.current? = some s → ∃ s', (world.serve request).2.current? = some s' ∧
        request.Tells s (world.serve request).1 s') ∧
    (∀ service : Service, service.Raises ↔ service.fallible = true ∨ service = .prepareCall) ∧
    (∀ (m : Machine) (host : Host), m.stepBy fallible host = m.step host) ∧
    ∀ (host : Host) (store : Store) (unit : CodeUnit) (f : Function),
      store.pending = false → store.error = none →
        ∀ n, ((Machine.start host store unit f).run host n).Heeds host := by
  refine ⟨fun world request => ⟨fun h => world.serve_of_idle h request, fun s h => ?_⟩, raises_iff,
    Machine.stepBy_fallible, fun host store unit f hp he n => ?_⟩
  · obtain ⟨hr, hst⟩ := world.serve_of_current h request
    exact ⟨_, hst, hr ▸ request.tells s⟩
  · have hf : store.Flagged := by rw [Store.Flagged, hp, he]; rfl
    exact ((Machine.start_orderly rfl hf hp unit f).run n).heeds host

theorem errors_told_and_noticed_unprinted :
    let f : Function := ⟨0, [.evaluate (.negate (.constant .nil)), .print (.constant .zero)]⟩
    let m := (Machine.start { now := .zero } (furnished 8) { name := "" } f).run { now := .zero } 4
    m.store.error = some (.operand .nil) ∧
      ∀ n, (m.run { now := .zero } n).store.printed = "" := by
  intro f m
  have hrai : m.store.pending = true ∧ m.store.error = some (.operand .nil) ∧
      m.store.printed = "" := by decide +kernel
  have hh : m.Heeds { now := .zero } :=
    errors_told_and_noticed.2.2.2 _ (furnished 8) _ f (by decide +kernel) (by decide +kernel) 4
  refine ⟨hrai.2.1, fun n => ?_⟩
  rw [hh.idles hrai.1 n]
  exact hrai.2.2

end Service

end ScriptMachine
