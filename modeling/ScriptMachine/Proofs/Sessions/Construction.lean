/-
ScriptMachine.Proofs.Sessions.Construction — calling a class constructs it.
-/
import ScriptMachine.Proofs.Classes.Initializers
import ScriptMachine.Proofs.Sessions.Inheritance

namespace ScriptMachine

/-! ## §1 Initializers -/

/-- A method is the initializer that `decl` declares. -/
def Heap.Initializes (heap : Heap) (method : Word) (unit : CodeUnit) (decl : FunctionDecl) : Prop :=
  ∃ k d, heap.deref? method = some (.closure k) ∧ k.entry = .compiled unit d ∧
    unit.Declares d decl ∧ decl.name.name = "init"

theorem Heap.Initializes.initializer {heap : Heap} {method : Word} {unit : CodeUnit}
    {decl : FunctionDecl} (h : heap.Initializes method unit decl) :
    heap.Initializer (fun e => e = .receiver ∨ unit.Returns decl e) method := by
  obtain ⟨k, d, hk, hent, hd, hn⟩ := h
  obtain ⟨f, hf, he, hlvs⟩ := hd.initializer hn
  exact ⟨k, unit, d, f, hk, hent, hf, he, hlvs⟩

theorem Store.Told.initializes {history : History} {s : Store} (h : s.Told history) {callee : Word}
    {c : Class} (hcls : s.heap.deref? callee = some (.ofClass c)) {method : Word}
    (hm : c.method? s.initializer = some method) :
    ∃ unit decl, s.heap.Initializes method unit decl := by
  obtain ⟨k, unit, d, hk, hent, decl, hd, hn⟩ :=
    h.methods (Heap.classAt?_of_deref? hcls) hm
  exact ⟨unit, decl, k, d, hk, hent, hd, hn rfl⟩

/-! ## §2 Main -/

/-- What a call of a class comes to. The instance is the object that was made
first. -/
structure Machine.Instantiates (host : Host) (m : Machine) (callee : Word) (c : Class) (k : Nat)
    (w : Word) : Prop where
  fresh : m.store.heap.deref? (.ofIndex m.store.heap.size) = none
  made : ∃ i, (m.run host (k + 1)).store.heap.deref? (.ofIndex m.store.heap.size) =
    some (.ofInstance i) ∧ callee.toHandle? = .ok i.classHandle
  plain : c.method? m.store.initializer = none → w = .ofIndex m.store.heap.size
  declared : ∀ {method}, c.method? m.store.initializer = some method →
    ∃ unit decl, m.store.heap.Initializes method unit decl
  bare : ∀ {method unit decl}, c.method? m.store.initializer = some method →
    m.store.heap.Initializes method unit decl → decl.returned = [] →
      w = .ofIndex m.store.heap.size
  valued : ∀ {method unit decl}, c.method? m.store.initializer = some method →
    m.store.heap.Initializes method unit decl → w = .ofIndex m.store.heap.size ∨
      m.Returned host (⟨m.frame, m.stack.tail⟩ :: m.callers) (unit.Returns decl) k w
  replaced : ∀ {L v}, m.Returned host (⟨m.frame, m.stack.tail⟩ :: m.callers) L k v → w = v

variable {m : Machine}

theorem Machine.Returned.mono {host : Host} {outer : List Caller} {k : Nat} {w : Word}
    {L L' : Code → Prop} (h : m.Returned host outer L k w)
    (hL : ∀ {e}, e ≠ .receiver → L e → L' e) : m.Returned host outer L' k w := by
  obtain ⟨i, j, e, hj, he, hne, hret⟩ := h
  exact ⟨i, j, e, hj, hL hne he, hne, hret⟩

theorem Machine.run_instance (host : Host) [host.Attached]
    (hl : m.store.Laid) {size : Nat} (hs : size < 0x100000000) {i : Instance}
    (ho : m.store.heap.objects[size]? = some (.ofInstance i)) (n : Nat) :
    ∃ i', (m.run host n).store.heap.deref? (.ofIndex size) = some (.ofInstance i') ∧
      i'.classHandle = i.classHandle := by
  have hget : m.store.heap.get? ⟨UInt64.ofNat size⟩ = some (.ofInstance i) := by
    rw [Heap.get?_ofNat _ hs, ho]
  obtain ⟨o', ho', hend⟩ := (run_endures host hl n).get? hget
  cases hend with
  | @ofInstance _ i' hcls =>
    refine ⟨i', ?_, hcls⟩
    rw [Heap.deref?_ofIndex _ hs, ← Heap.get?_ofNat _ hs, ho']

def Machine.classCall? (host : Host) (m : Machine) : Option (Word × List Word) :=
  match m.act host with
  | .call callee args =>
    match m.store.heap.deref? callee with
    | some (.ofClass _) => some (callee, args)
    | _ => none
  | _ => none

theorem Machine.classCall?_eq_some {host : Host} {callee : Word}
    {args : List Word} (h : m.classCall? host = some (callee, args)) :
    ∃ c, m.act host = .call callee args ∧
      m.store.heap.deref? callee = some (.ofClass c) := by
  unfold classCall? at h
  split at h
  · next hact =>
    split at h
    · next c hcls =>
      cases h
      exact ⟨c, hact, hcls⟩
    · cases h
  · cases h

theorem Machine.Completes.instantiates {host : Host} {history : History}
    {M : Symbol → CodeUnit → Nat → Prop} {k : Nat} {callee w : Word} {args : List Word}
    {c : Class} [host.Attached]
    (hc : ∀ j, (m.run host j).store.heap.Sectioned M) (ht : m.store.Told history)
    (hl : (m.step host).store.Laid) (hs : m.store.heap.Sound .any)
    (hact : m.act host = .call callee args)
    (hcls : m.store.heap.deref? callee = some (.ofClass c)) (h : m.Completes host k w) :
    m.Instantiates host callee c k w := by
  have hsize : m.store.heap.size < 0x100000000 :=
    Nat.lt_succ_of_le (hs.size_le.trans hs.limit_le)
  have hd : ∀ {method}, c.method? m.store.initializer = some method →
      ∃ unit decl, m.store.heap.Initializes method unit decl := ht.initializes hcls
  have hval : ∀ {method unit decl}, c.method? m.store.initializer = some method →
      m.store.heap.Initializes method unit decl → w = .ofIndex m.store.heap.size ∨
        m.Returned host (⟨m.frame, m.stack.tail⟩ :: m.callers) (unit.Returns decl) k w := by
    intro method unit decl hm hi
    have hinit : ∀ {method'}, c.method? m.store.initializer = some method' →
        m.store.heap.Initializer (fun e => e = .receiver ∨ unit.Returns decl e) method' := by
      intro method' hm'
      cases hm.symm.trans hm'
      exact hi.initializer
    refine (h.constructs hc hact hcls hinit).2.imp_right fun hret => ?_
    exact hret.2.mono fun hne he => he.resolve_left hne
  -- Which returns there are does not matter to what is made.
  obtain ⟨L, hinit⟩ : ∃ L, ∀ {method}, c.method? m.store.initializer = some method →
      m.store.heap.Initializer L method := by
    cases hm : c.method? m.store.initializer with
    | none => exact ⟨fun _ => True, nofun⟩
    | some method =>
      obtain ⟨unit, decl, hi⟩ := hd hm
      exact ⟨_, fun hm' => Option.some.inj hm' ▸ hi.initializer⟩
  have ⟨ho, hv⟩ := h.constructs hc hact hcls hinit
  refine ⟨?_, ?_, fun hn => ?_, hd, fun hm hi hret => ?_, hval, ?_⟩
  · rw [Heap.deref?_ofIndex _ hsize]
    exact Array.getElem?_eq_none (Nat.le_refl _)
  · have hpus : (m.step host).store.heap.objects[m.store.heap.size]? =
        some (.ofInstance { classHandle := ⟨callee.payload⟩ }) := by
      rw [ho]
      exact Array.getElem?_push_size
    obtain ⟨i, hi, hhan⟩ := (m.step host).run_instance host hl hsize hpus k
    refine ⟨i, ?_, ?_⟩
    · rw [Nat.add_comm, run_add, run_succ]
      exact hi
    · obtain ⟨index, hidx, rfl, _⟩ := Heap.deref?_eq_some.mp hcls
      rw [hhan, Word.toHandle?_ofIndex hidx, Word.payload_ofIndex hidx]
  · exact hv.resolve_right fun hret => hret.1 hn
  · refine (hval hm hi).resolve_right ?_
    rintro ⟨_, _, e, _, ⟨x, hx, _⟩, _⟩
    rw [hret] at hx
    exact absurd hx List.not_mem_nil
  · rintro L v ⟨i, j, e, hj, _, _, hr⟩
    exact (h.of_returnsValue hr (Nat.le_of_lt hj)).symm

namespace Session

variable {session : Session}

/-- **A call of a class constructs it.** At any moment of a program's run, in any
session, let a class be called, and let the call complete. Then it has made an
instance of that class that is not among the objects there were. The call comes
to this instance if the class answers to no initializer, own or inherited. It
also does if the initializer ends, or returns without a value. If it returns a
value, then the call comes to that. -/
theorem class_call_constructs (h : session.Reachable) {time : UInt64} {program : Program}
    {m : Machine} {after : Session}
    (hl : session.launch (.ofNumber time) program = (.ok m, after)) {n k : Nat} {callee w : Word}
    {args : List Word} {c : Class}
    (hact : (m.run (host (.ofNumber time)) n).act (host (.ofNumber time)) = .call callee args)
    (hcls : (m.run (host (.ofNumber time)) n).store.heap.deref? callee = some (.ofClass c))
    (hc : (m.run (host (.ofNumber time)) n).Completes (host (.ofNumber time)) k w) :
    (m.run (host (.ofNumber time)) n).Instantiates (host (.ofNumber time)) callee c k w := by
  obtain ⟨history, hrec⟩ := h.recounts
  have ht := hrec.told
  have hlaid := Machine.run_laid (host (.ofNumber time))
    (launch_writesOnly h.sound.queue h.laid hl).laid (n + 1)
  rw [Machine.run_succ] at hlaid
  have hs := (h.sound.launch_typed hl n).sound.heap
  have hcode : ∀ j,
      ((m.run (host (.ofNumber time)) n).run (host (.ofNumber time)) j).store.heap.Sectioned
        (CodeUnit.Method m.store.initializer) := by
    intro j
    rw [← Machine.run_add, ← (Machine.run_names (host (.ofNumber time)) (n + j)).2]
    exact (h.run_told ht hl (n + j)).functions
  exact hc.instantiates hcode (h.run_told ht hl n) hlaid hs hact hcls

def early : Program :=
  let self := Expr.self ⟨"this", 3⟩ (.scope 1)
  [ .classDecl "Base" none
      [ .mk ⟨"init", 1⟩ ["x"]
          [ .branch (.read ⟨"x", 2⟩ (.scope 0)) (.block [.leave none]) none,
            .expression (.set self "x" (.read ⟨"x", 3⟩ (.scope 0))) ] ],
    .classDecl "Leaf" (some (.read ⟨"Base", 4⟩ .global)) [],
    .expression (.call (.read ⟨"Leaf", 5⟩ .global) [.literal (.bool true)] 5) ]

theorem class_call_constructs_early : small.Reachable ∧
    ∃ m after c, small.launch (.ofNumber 0) early = (.ok m, after) ∧
      (m.run (host (.ofNumber 0)) 48).store.heap.size = 4 ∧
      (m.run (host (.ofNumber 0)) 48).Instantiates (host (.ofNumber 0)) (.ofIndex 3) c 19
        (.ofIndex 4) := by
  have hr : (small.launch (.ofNumber 0) early).1.toOption.map (fun m =>
      ((m.run (host (.ofNumber 0)) 48).classCall? (host (.ofNumber 0)),
        (m.run (host (.ofNumber 0)) 48).completes? (host (.ofNumber 0)) 19,
        (m.run (host (.ofNumber 0)) 48).store.heap.size)) =
      some (some (.ofIndex 3, [.ofBool true]), some (.ofIndex 4), 4) := by
    decide +kernel
  obtain ⟨m, after, hl, hb⟩ := exists_launch hr
  obtain ⟨hc, hrest⟩ := Prod.mk.inj hb
  obtain ⟨hcom, hs⟩ := Prod.mk.inj hrest
  obtain ⟨c, hact, hcls⟩ := Machine.classCall?_eq_some hc
  exact ⟨reachable_small, m, after, c, hl, hs, class_call_constructs reachable_small hl hact
    hcls (Machine.completes?_eq_some.mp hcom)⟩

def stray : Program :=
  [ .classDecl "A" none
      [.mk ⟨"init", 1⟩ [] [.leave (some (.literal (.number 0x4014000000000000)))]],
    .expression (.call (.read ⟨"A", 2⟩ .global) [] 2) ]

theorem class_call_returns_number :
    ∃ m after callee c w, small.launch (.ofNumber 0) stray = (.ok m, after) ∧
      (m.run (host (.ofNumber 0)) 24).act (host (.ofNumber 0)) = .call callee [] ∧
      (m.run (host (.ofNumber 0)) 24).store.heap.deref? callee = some (.ofClass c) ∧
      (m.run (host (.ofNumber 0)) 24).Completes (host (.ofNumber 0)) 10 w ∧
      w = .ofNumber 0x4014000000000000 ∧
      w ≠ .ofIndex (m.run (host (.ofNumber 0)) 24).store.heap.size := by
  have hr : (small.launch (.ofNumber 0) stray).1.toOption.map (fun m =>
      ((m.run (host (.ofNumber 0)) 24).classCall? (host (.ofNumber 0)),
        (m.run (host (.ofNumber 0)) 24).completes? (host (.ofNumber 0)) 10,
        (m.run (host (.ofNumber 0)) 24).store.heap.size)) =
      some (some (.ofIndex 1, []), some (.ofNumber 0x4014000000000000), 3) := by
    decide +kernel
  obtain ⟨m, after, hl, hb⟩ := exists_launch hr
  obtain ⟨hc, hrest⟩ := Prod.mk.inj hb
  obtain ⟨hcom, hs⟩ := Prod.mk.inj hrest
  obtain ⟨c, hact, hcls⟩ := Machine.classCall?_eq_some hc
  refine ⟨m, after, _, c, _, hl, hact, hcls, Machine.completes?_eq_some.mp hcom, rfl, ?_⟩
  rw [hs]
  decide

end Session

end ScriptMachine
