/-
ScriptMachine.Proofs.Refusals — what is left of an operation that fails.
-/
import ScriptMachine.Proofs.Evolution

namespace ScriptMachine

/-- An operation that yields a word or fails. -/
inductive Attempt where
  | binary (op : BinaryOp) (left right : Word)
  | negate (operand : Word)
  | getProperty (object : Word) (name : Symbol) (site : Nat)
  | setProperty (object : Word) (name : Symbol) (value : Word) (site : Nat)
  | getGlobal (slot : Nat)
  | setGlobal (slot : Nat) (value : Word)
  | newClass (name : Symbol) (sup : Option Word)
  | makeClosure (proto : Nat) (entry : Entry) (cells : Array Word)
  | newCell (value : Word)
  | getSuper (sup recv : Word) (name : Symbol)

namespace Attempt

def perform (s : Store) : Attempt → Except Failure Word × Store
  | .binary op left right => s.binary op left right
  | .negate operand => (Store.negate operand, s)
  | .getProperty object name site => s.getProperty object name site
  | .setProperty object name value site => s.setProperty object name value site
  | .getGlobal slot => (s.getGlobal slot, s)
  | .setGlobal slot value => s.setGlobal slot value
  | .newClass name sup => s.newClass name sup
  | .makeClosure proto entry cells => s.makeClosure proto entry cells
  | .newCell value => s.newCell value
  | .getSuper sup recv name => s.getSuper sup recv name

/-- The site whose misses an attempt counts, whatever comes of it. -/
def site? : Attempt → Option Nat
  | .getProperty _ _ site => some site
  | _ => none

def counted (s : Store) : Attempt → Store
  | .getProperty _ _ site => s.modifySite site .miss
  | _ => s

@[simp]
theorem heap_counted (s : Store) (a : Attempt) : (a.counted s).heap = s.heap := by
  cases a <;> rfl

inductive Allocates (s : Store) : Attempt → Prop
  | join {left right : Word} : (left.isNumber && right.isNumber) = false →
      ((s.heap.text? left).isSome || (s.heap.text? right).isSome) = true →
        Allocates s (.binary .add left right)
  | bind {object method : Word} {name : Symbol} {site index : Nat} {i : Instance} :
      s.heap.instance? object = some (index, i) → s.shapes.slot? i.shape name = none →
        (s.heap.class? i.classHandle).bind (·.method? name) = some method →
          Allocates s (.getProperty object name site)
  | newClass {name : Symbol} {sup : Option Word} {methods : Table Symbol Word} :
      s.inherited sup = .ok methods → Allocates s (.newClass name sup)
  | makeClosure {proto : Nat} {entry : Entry} {cells : Array Word} {p : Prototype} :
      s.prototypes[proto]? = some p → Allocates s (.makeClosure proto entry cells)
  | newCell {value : Word} : Allocates s (.newCell value)
  | getSuper {sup recv method : Word} {name : Symbol} {c : Class} :
      s.heap.deref? sup = some (.ofClass c) → c.method? name = some method →
        Allocates s (.getSuper sup recv name)

/-- Why an attempt fails. -/
inductive Fails (s : Store) : Attempt → Failure → Prop
  | operands {op : BinaryOp} {left right : Word} : op ≠ .equal → op ≠ .notEqual →
      (left.isNumber && right.isNumber) = false →
        (op = .add → ((s.heap.text? left).isSome || (s.heap.text? right).isSome) = false) →
          Fails s (.binary op left right) (.operands op left.tag right.tag)
  | operand {w : Word} : w.isNumber = false → Fails s (.negate w) (.operand w.tag)
  | noProperties {object : Word} {name : Symbol} {site : Nat} : s.heap.instance? object = none →
      Fails s (.getProperty object name site) (.noProperties object.tag)
  | noProperty {object : Word} {name : Symbol} {site index : Nat} {i : Instance} :
      s.heap.instance? object = some (index, i) → s.shapes.slot? i.shape name = none →
        (s.heap.class? i.classHandle).bind (·.method? name) = none →
          Fails s (.getProperty object name site) (s.undefinedProperty name)
  | noFields {object value : Word} {name : Symbol} {site : Nat} :
      s.heap.instance? object = none →
        Fails s (.setProperty object name value site) (.noFields object.tag)
  | unread {slot : Nat} : s.slotValue? slot = none →
      Fails s (.getGlobal slot) (s.undefinedGlobal slot)
  | unassigned {slot : Nat} {value : Word} : s.slotValue? slot = none →
      Fails s (.setGlobal slot value) (s.undefinedGlobal slot)
  | superclass {name : Symbol} {w : Word} :
      (∀ c, s.heap.deref? w ≠ some (.ofClass c)) →
        Fails s (.newClass name (some w)) .invalidSuperclass
  | prototype {proto : Nat} {entry : Entry} {cells : Array Word} : s.prototypes[proto]? = none →
        Fails s (.makeClosure proto entry cells) .unknownPrototype
  | noMethod {sup recv : Word} {name : Symbol} :
      (∀ {c}, s.heap.deref? sup = some (.ofClass c) → c.method? name = none) →
        Fails s (.getSuper sup recv name) (s.undefinedProperty name)
  | full {a : Attempt} : Allocates s a → s.heap.limit ≤ s.heap.size →
      Fails s a (.heap (.exhausted s.heap.size))

variable {s : Store} {a : Attempt} {e : Failure}

theorem fails_of_perform (h : (a.perform s).1 = .error e) : a.Fails s e := by
  have halloc : ∀ {o}, ((a.counted s).alloc o).1 = .error e → Allocates s a → a.Fails s e := by
    intro o ho ha
    rcases (a.counted s).alloc_cases o with ⟨_, heq⟩ | ⟨hf, heq⟩
    · simp [heq] at ho
    · rw [heq, heap_counted] at ho
      rw [heap_counted] at hf
      exact Except.error.inj ho ▸ .full ha (Nat.le_of_not_lt hf)
  cases a with
  | binary op left right =>
    simp only [perform, Store.binary] at h
    split at h
    · cases h
    · cases h
    · next hne hne' =>
      split at h
      · cases h
      · next hn =>
        have hn := Bool.eq_false_iff.mpr hn
        split at h
        · next hadd =>
          subst hadd
          unfold Store.concatenate at h
          split at h
          · next ht => exact halloc h (.join hn ht)
          · next ht =>
            exact Except.error.inj h ▸ .operands nofun nofun hn fun _ =>
              Bool.eq_false_iff.mpr ht
        · next hadd =>
          exact Except.error.inj h ▸ .operands hne hne' hn fun heq => absurd heq hadd
  | negate w =>
    simp only [perform, Store.negate] at h
    split at h
    · cases h
    · next hw => exact Except.error.inj h ▸ .operand (Bool.eq_false_iff.mpr hw)
  | getProperty object name site =>
    simp only [perform, Store.getProperty] at h
    split at h
    · next hi => exact Except.error.inj h ▸ .noProperties hi
    · next hi =>
      split at h
      · cases h
      · next hs =>
        split at h
        · next hmth => exact halloc h (.bind hi hs hmth)
        · next hmth => exact Except.error.inj h ▸ .noProperty hi hs hmth
  | setProperty object name value site =>
    simp only [perform, Store.setProperty] at h
    split at h
    · next hi => exact Except.error.inj h ▸ .noFields hi
    · cases h
  | getGlobal slot =>
    simp only [perform, Store.getGlobal] at h
    split at h
    · cases h
    · next hv => exact Except.error.inj h ▸ .unread hv
  | setGlobal slot value =>
    simp only [perform, Store.setGlobal] at h
    split at h
    · cases h
    · next hv => exact Except.error.inj h ▸ .unassigned hv
  | newClass name sup =>
    simp only [perform, Store.newClass] at h
    split at h
    · next hm => exact halloc h (.newClass hm)
    · next he =>
      unfold Store.inherited at he
      split at he
      · cases he
      · split at he
        · cases he
        · next hc => exact Except.error.inj h ▸ Except.error.inj he ▸ .superclass hc
  | makeClosure proto entry cells =>
    simp only [perform, Store.makeClosure] at h
    split at h
    · next hp => exact halloc h (.makeClosure hp)
    · next hp => exact Except.error.inj h ▸ .prototype hp
  | newCell value => exact halloc h .newCell
  | getSuper sup recv name =>
    simp only [perform, Store.getSuper] at h
    split at h
    · next hm =>
      split at hm
      · next hc => exact halloc h (.getSuper hc hm)
      · cases hm
    · next hm =>
      refine Except.error.inj h ▸ .noMethod fun {c} hc => ?_
      rwa [hc] at hm

theorem Allocates.perform_eq (h : a.Allocates s) : ∃ o, a.perform s = (a.counted s).alloc o := by
  cases h with
  | @join left right hn ht =>
    refine ⟨.text (s.render left ++ s.render right), ?_⟩
    simp [perform, Store.binary, Store.concatenate, hn, ht, counted]
  | @bind object method _ _ _ _ hi hs hm =>
    refine ⟨.bound ⟨object, method⟩, ?_⟩
    simp [perform, Store.getProperty, Store.modifySite, hi, hs, hm, counted, Store.bind]
  | @newClass name _ methods hm =>
    exact ⟨.ofClass ⟨name, methods⟩, by simp [perform, Store.newClass, hm, counted]⟩
  | @makeClosure _ entry cells p hp =>
    exact ⟨.closure ⟨p.name, p.arity, entry, cells⟩,
      by simp [perform, Store.makeClosure, hp, counted]⟩
  | newCell => exact ⟨_, rfl⟩
  | @getSuper _ recv method _ _ hc hm =>
    exact ⟨.bound ⟨recv, method⟩, by simp [perform, Store.getSuper, hc, hm, counted, Store.bind]⟩

theorem Fails.perform_eq (h : a.Fails s e) : a.perform s = (.error e, a.counted s) := by
  cases h with
  | @operands op _ _ hne hne' hn ht =>
    cases op with
    | equal => exact absurd rfl hne
    | notEqual => exact absurd rfl hne'
    | add =>
      simp [perform, Store.binary, Store.concatenate, hn, ht rfl, counted]
    | _ =>
      simp [perform, Store.binary, hn, counted]
  | operand hw => simp [perform, Store.negate, hw, counted]
  | noProperties hi => simp [perform, Store.getProperty, Store.modifySite, hi, counted]
  | noProperty hi hs hm =>
    simp [perform, Store.getProperty, Store.modifySite, hi, hs, hm,
      Store.undefinedProperty, counted]
  | noFields hi => simp [perform, Store.setProperty, hi, counted]
  | unread hv => simp [perform, Store.getGlobal, hv, counted]
  | unassigned hv => simp [perform, Store.setGlobal, hv, counted]
  | superclass hc => simp [perform, Store.newClass, Store.inherited, counted]
  | prototype hp => simp [perform, Store.makeClosure, hp, counted]
  | noMethod hm =>
    simp only [perform, Store.getSuper]
    split
    · next method hmth =>
      split at hmth
      · next hc => cases (hm hc).symm.trans hmth
      · cases hmth
    · rfl
  | full ha hf =>
    obtain ⟨o, ho⟩ := ha.perform_eq
    rcases (a.counted s).alloc_cases o with ⟨hlt, _⟩ | ⟨_, heq⟩
    · rw [heap_counted] at hlt
      omega
    · rw [ho, heq, heap_counted]

theorem Fails.again (h : a.Fails s e) : a.Fails (a.counted s) e := by
  cases a with
  | getProperty object name site =>
    cases h with
    | noProperties hi => exact .noProperties hi
    | noProperty hi hs hm => exact .noProperty hi hs hm
    | full ha hf =>
      cases ha with
      | bind hi hs hm => exact .full (.bind hi hs hm) hf
  | _ => exact h

theorem sites_counted (s : Store) (a : Attempt) (k : Nat) :
    (a.counted s).sites[k]? = (s.sites[k]?).map fun site =>
      { site with misses := site.misses + if a.site? = some k then 1 else 0 } := by
  cases a with
  | getProperty object name site =>
    simp only [counted, site?, Store.modifySite, Array.getElem?_modify, Option.some.injEq]
    split <;> cases s.sites[k]? <;> rfl
  | _ => simp [counted, site?]

end Attempt

def furnished (limit : Nat) : Store :=
  match Store.create (.withLimit limit) 8 with
  | .error _ => { heap := .empty, maxDepth := 0 }
  | .ok s =>
    let s := ((s.addPrototype "init" 1).2.makeClosure 0 (.address 1) #[]).2
    let s := (s.newClass s.initializer none).2.addMethod (.ofIndex 2) s.initializer (.ofIndex 1)
    ((s.addSite .get).2.prepareCall (.ofIndex 2) 1).2

namespace Store

/-- **What fails changes nothing.** An attempt fails for one of the reasons there
are, and for each of them. The store is then as it was, up to the misses of its
sites, and among these up to one miss of the site of a read. So the attempt
fails again if it is made again. -/
theorem failed_attempts_change_nothing (s : Store) (a : Attempt) (e : Failure) :
    ((a.perform s).1 = .error e ↔ a.Fails s e) ∧
      ((a.perform s).1 = .error e →
        (a.perform s).2 = { s with sites := (a.perform s).2.sites } ∧
          (∀ k : Nat, (a.perform s).2.sites[k]? = (s.sites[k]?).map fun site =>
            { site with misses := site.misses + if a.site? = some k then 1 else 0 }) ∧
          (a.perform (a.perform s).2).1 = .error e) := by
  have hiff : (a.perform s).1 = .error e ↔ a.Fails s e :=
    ⟨Attempt.fails_of_perform, fun h => by rw [h.perform_eq]⟩
  refine ⟨hiff, fun h => ?_⟩
  have hf := hiff.mp h
  rw [hf.perform_eq]
  refine ⟨?_, Attempt.sites_counted s a, by rw [hf.again.perform_eq]⟩
  cases a <;> rfl

theorem failed_read_changes_nothing :
    let a : Attempt := .getProperty (.ofIndex 3) 0 0
    (a.perform (furnished 4)).1 = .error (.heap (.exhausted 4)) ∧
      (a.perform (furnished 4)).2.heap = (furnished 4).heap ∧
      (a.perform (furnished 4)).2.sites[0]? = some { kind := .get, misses := 1 } := by
  have h : ((Attempt.getProperty (.ofIndex 3) 0 0).perform (furnished 4)).1 =
      .error (.heap (.exhausted 4)) := by decide +kernel
  obtain ⟨hr, hs, _⟩ := (failed_attempts_change_nothing (furnished 4) _ _).2 h
  refine ⟨h, by rw [hr], (hs 0).trans ?_⟩
  decide +kernel

end Store

namespace Store

def closureArity? (s : Store) (w : Word) : Option Nat :=
  match s.heap.deref? w with
  | some (.closure c) => some c.arity
  | _ => none

/-- The initializer of what is called, if that is a class with one. -/
def initializer? (s : Store) (callee : Word) : Option Word :=
  match s.heap.deref? callee with
  | some (.ofClass c) => c.method? s.initializer
  | _ => none

/-- How many arguments a call takes, if the callee can be called. -/
def arity? (s : Store) (callee : Word) : Option Nat :=
  match s.heap.deref? callee with
  | some (.closure c) => some c.arity
  | some (.native n) => some n.arity
  | some (.bound b) => s.closureArity? b.method
  | some (.ofClass c) =>
    match c.method? s.initializer with
    | some method => s.closureArity? method
    | none => some 0
  | _ => none

/-- The store with an instance of what is called added. -/
def instantiated (s : Store) (callee : Word) : Store :=
  { s with heap := s.heap.push (.ofInstance { classHandle := ⟨callee.payload⟩ }) }

inductive Judged (expected : Option Nat) (count : Nat) : Except Failure CallTarget → Prop
  | accepted {target : CallTarget} : expected = some count → Judged expected count (.ok target)
  | notCallable {tag : Tag} : expected = none → Judged expected count (.error (.notCallable tag))
  | arity {n : Nat} : expected = some n → n ≠ count →
      Judged expected count (.error (.arity n count))

variable {s : Store} {callee method : Word} {count : Nat}

theorem Judged.error_iff {expected : Option Nat} {r : Except Failure CallTarget}
    (h : Judged expected count r) :
    ((∃ tag, r = .error (.notCallable tag)) ↔ expected = none) ∧
      (∀ n k, r = .error (.arity n k) ↔ expected = some n ∧ n ≠ count ∧ k = count) ∧
      (∀ e, r ≠ .error (.heap e)) ∧ ∀ e, r = .error e → expected ≠ some count := by
  cases h with
  | accepted h =>
    subst h
    simp only [reduceCtorEq, exists_false, Option.some.injEq, false_iff, not_and, ne_eq,
      not_false_eq_true, implies_true, false_implies, and_true, true_and]
    exact fun n k hn hne => absurd hn.symm hne
  | notCallable h => simp [h]
  | arity h hne =>
    subst h
    simp only [Except.error.injEq, reduceCtorEq, exists_false, Failure.arity.injEq,
      Option.some.injEq,
      true_and, ne_eq, not_false_eq_true, implies_true]
    exact ⟨fun n k => ⟨fun ⟨hn, hk⟩ => ⟨hn, hn ▸ hne, hk.symm⟩, fun ⟨hn, _, hk⟩ => ⟨hn, hk.symm⟩⟩,
      fun _ _ => hne⟩

theorem Judged.of_arity {n : Nat} {target : CallTarget} :
    Judged (some n) count (if n = count then .ok target else .error (.arity n count)) := by
  split
  · next h => exact .accepted (congrArg some h)
  · next h => exact .arity rfl h

theorem bindCall_judged (s : Store) (method recv : Word) (count : Nat) :
    Judged (s.closureArity? method) count (s.bindCall method recv count) := by
  unfold bindCall closureArity?
  rcases s.heap.deref? method with _ | o
  · exact .notCallable rfl
  cases o with
  | closure c => exact .of_arity
  | _ => exact .notCallable rfl

theorem deref?_instantiated {o : Object} (h : ∀ i, o ≠ .ofInstance i) (callee w : Word) :
    (s.instantiated callee).heap.deref? w = some o ↔ s.heap.deref? w = some o := by
  rw [Heap.deref?_eq_some, Heap.deref?_eq_some]
  refine exists_congr fun i => and_congr_right fun _ => and_congr_right fun _ => ?_
  rw [instantiated, Heap.objects_push, Array.getElem?_push]
  split
  · next hi =>
    rw [hi]
    simp [(h _).symm]
  · rfl

theorem closureArity?_instantiated (s : Store) (callee w : Word) :
    (s.instantiated callee).closureArity? w = s.closureArity? w := by
  have hs : ∀ {t : Store} {n : Nat}, t.closureArity? w = some n ↔
      ∃ c, t.heap.deref? w = some (.closure c) ∧ c.arity = n := by
    intro t n
    unfold closureArity?
    split
    · next c hc => simp [hc]
    · next hc => simpa using fun c h => absurd h (hc c)
  refine Option.ext fun n => ?_
  rw [hs, hs]
  exact exists_congr fun c => and_congr_left fun _ => deref?_instantiated (by simp) callee w

/-- A call makes an instance before its arguments are counted: the callee is a
class, and takes no arguments unless its initializer does. -/
def Instantiates (s : Store) (callee : Word) (count : Nat) : Prop :=
  ∃ c, s.heap.deref? callee = some (.ofClass c) ∧
    ((c.method? s.initializer).isSome = true ∨ count = 0)

inductive Dispatches (s : Store) (callee : Word) (count : Nat) :
    Except Failure CallTarget × Store → Prop
  | full : s.Instantiates callee count → s.heap.limit ≤ s.heap.size →
      Dispatches s callee count (.error (.heap (.exhausted s.heap.size)), s)
  | made {r : Except Failure CallTarget} : s.Instantiates callee count →
      s.heap.size < s.heap.limit → Judged (s.arity? callee) count r →
        Dispatches s callee count (r, s.instantiated callee)
  | judged {r : Except Failure CallTarget} : ¬s.Instantiates callee count →
      Judged (s.arity? callee) count r → Dispatches s callee count (r, s)

theorem dispatches_construction {c : Class} (hc : s.heap.deref? callee = some (.ofClass c)) :
    s.Dispatches callee count (s.prepareConstruction callee c count) := by
  have hiff : s.Instantiates callee count ↔
      (c.method? s.initializer).isSome = true ∨ count = 0 := by
    simp [Instantiates, hc]
  have harity : s.arity? callee = match c.method? s.initializer with
      | some method => s.closureArity? method
      | none => some 0 := by
    simp [arity?, hc]
  unfold prepareConstruction
  dsimp only
  split
  · next hcnt =>
    simp only [Bool.and_eq_true, Option.isNone_iff_eq_none, bne_iff_ne] at hcnt
    refine .judged (fun h => ?_) (.arity (by rw [harity, hcnt.1]) hcnt.2.symm)
    simpa [hcnt] using hiff.mp h
  · next hcnt =>
    have hmakes : s.Instantiates callee count := by
      cases h : c.method? s.initializer <;> simp_all
    rcases s.alloc_cases (.ofInstance { classHandle := ⟨callee.payload⟩ }) with ⟨hlt,
      ha⟩ | ⟨hlt, ha⟩
    · rw [ha]
      dsimp only
      split
      · next method hm =>
        refine .made hmakes hlt ?_
        rw [harity, hm]
        dsimp only
        rw [← closureArity?_instantiated s callee]
        exact bindCall_judged _ _ _ _
      · next hm =>
        refine .made hmakes hlt (.accepted ?_)
        simp_all
    · rw [ha]
      exact .full hmakes (Nat.le_of_not_lt hlt)

theorem prepareCall_dispatches (s : Store) (callee : Word) (count : Nat) :
    s.Dispatches callee count (s.prepareCall callee count) := by
  cases hd : s.heap.deref? callee with
  | none =>
    simp only [prepareCall, hd]
    exact .judged (by simp [Instantiates, hd]) (.notCallable (by simp [arity?, hd]))
  | some o =>
    cases o with
    | ofClass c =>
      simp only [prepareCall, hd]
      exact dispatches_construction hd
    | closure c | native n =>
      simp only [prepareCall, hd]
      refine .judged (by simp [Instantiates, hd]) ?_
      simp only [arity?, hd]
      exact .of_arity
    | bound b =>
      simp only [prepareCall, hd]
      refine .judged (by simp [Instantiates, hd]) ?_
      simp only [arity?, hd]
      exact bindCall_judged _ _ _ _
    | text t | cell v | ofInstance i =>
      simp only [prepareCall, hd]
      exact .judged (by simp [Instantiates, hd]) (.notCallable (by simp [arity?, hd]))

section

variable (h : s.Instantiates callee count)

include h

theorem Instantiates.instantiated : (s.instantiated callee).Instantiates callee count ∧
      (s.instantiated callee).arity? callee = s.arity? callee := by
  obtain ⟨c, hc, hcnt⟩ := h
  have hc' := (deref?_instantiated (by simp) callee callee).mpr hc
  refine ⟨⟨c, hc', hcnt⟩, ?_⟩
  simp only [arity?, hc, hc', closureArity?_instantiated]
  rfl

theorem Instantiates.prepareCall_store
    (hlt : s.heap.size < s.heap.limit) : (s.prepareCall callee count).2 = s.instantiated
      callee := by
  generalize hr : s.prepareCall callee count = r
  cases hr ▸ s.prepareCall_dispatches callee count with
  | full _ hf => omega
  | made => rfl
  | judged hnot => exact absurd h hnot

theorem Instantiates.prepareCall_repeat (n : Nat) (hle : s.heap.size + n ≤ s.heap.limit) :
    (Nat.repeat (fun t : Store => (t.prepareCall callee count).2) n s =
        Nat.repeat (·.instantiated callee) n s ∧
      (Nat.repeat (·.instantiated callee) n s).heap.size = s.heap.size + n) ∧
    (Nat.repeat (·.instantiated callee) n s).Instantiates callee count ∧
      (Nat.repeat (·.instantiated callee) n s).heap.limit = s.heap.limit := by
  induction n with
  | zero => exact ⟨⟨rfl, rfl⟩, h, rfl⟩
  | succ n ih =>
    obtain ⟨⟨heq, hs⟩, hm, hlim⟩ := ih (by omega)
    refine ⟨⟨?_, ?_⟩, hm.instantiated.1, hlim⟩
    · simp only [Nat.repeat]
      rw [heq, hm.prepareCall_store (by omega)]
    · exact (Heap.size_push _ _).trans (by rw [hs]; rfl)

theorem Instantiates.arity?_eq
    (hn : s.initializer? callee = none) : s.arity? callee = some count := by
  obtain ⟨c, hc, hcnt⟩ := h
  simp only [initializer?, hc] at hn
  simp only [arity?, hc, hn]
  simp_all

end

theorem instantiates_of_initializer (count : Nat) (h : s.initializer? callee ≠ none) :
    s.Instantiates callee count := by
  unfold initializer? at h
  split at h
  · next c hc => exact ⟨c, hc, .inl (Option.isSome_iff_ne_none.mpr h)⟩
  · exact absurd rfl h

/-- **A call that is refused can leave an instance behind.** It is refused because
the callee is nothing to call, because it takes another number of arguments, or
for want of room for an instance; the last of these comes first, if there is an
instance to be made. The store is then as it was, unless the callee is a class
with an initializer. Such a class has made its instance before the initializer
refuses the call, and nothing refers to that instance. So refused calls fill
the heap, from where on the class finds no more room however it is called. -/
theorem refused_calls_leave_instances {r : Except Failure CallTarget} {s' : Store}
    (h : s.prepareCall callee count = (r, s')) :
    ((∃ tag, r = .error (.notCallable tag)) ↔
      s.arity? callee = none ∧ ¬(s.Instantiates callee count ∧ s.heap.limit ≤ s.heap.size)) ∧
    (∀ n k, r = .error (.arity n k) ↔ (s.arity? callee = some n ∧ n ≠ count ∧ k = count) ∧
      ¬(s.Instantiates callee count ∧ s.heap.limit ≤ s.heap.size)) ∧
    (∀ e, r = .error (.heap e) ↔ e = .exhausted s.heap.size ∧
      s.Instantiates callee count ∧ s.heap.limit ≤ s.heap.size) ∧
    (∀ e, r = .error e →
      (s.initializer? callee = none → s' = s) ∧
      (s.initializer? callee ≠ none →
        s' = if s.heap.size < s.heap.limit then s.instantiated callee else s)) ∧
    (s.initializer? callee = none → s.Instantiates callee count → s.arity? callee = some count) ∧
    (s.initializer? callee ≠ none → ∀ n, s.heap.size + n ≤ s.heap.limit →
      Nat.repeat (fun t : Store => (t.prepareCall callee count).2) n s =
          Nat.repeat (·.instantiated callee) n s ∧
        (Nat.repeat (·.instantiated callee) n s).heap.size = s.heap.size + n) := by
  have hr : s.initializer? callee = none → s.Instantiates callee count →
      s.arity? callee = some count := fun hi hm => hm.arity?_eq hi
  have hrep := fun (hi : s.initializer? callee ≠ none) n hle =>
    ((instantiates_of_initializer count hi).prepareCall_repeat n hle).1
  cases h ▸ s.prepareCall_dispatches callee count with
  | full hmakes hf =>
    refine ⟨by simp [hmakes, hf], by simp [hmakes, hf], by simp [hmakes, hf, eq_comm],
      fun e _ => ⟨fun _ => rfl, fun _ => ?_⟩, hr, hrep⟩
    exact (if_neg (Nat.not_lt.mpr hf)).symm
  | made hmakes hlt hj =>
    have hroom := Nat.not_le.mpr hlt
    obtain ⟨hcal, ha, hh, hexp⟩ := hj.error_iff
    refine ⟨by simp [hcal, hroom], by simp [ha, hroom], by simp [hh, hroom],
      fun e he => ⟨fun hi => ?_, fun _ => (if_pos hlt).symm⟩, hr, hrep⟩
    exact absurd (hr hi hmakes) (hexp e he)
  | judged hnot hj =>
    obtain ⟨hcal, ha, hh, -⟩ := hj.error_iff
    refine ⟨by simp [hcal, hnot], by simp [ha, hnot], by simp [hh, hnot],
      fun e _ => ⟨fun _ => rfl, fun hi => ?_⟩, hr, hrep⟩
    exact absurd (instantiates_of_initializer count hi) hnot

theorem refused_calls_leave_three_instances :
    ((furnished 8).prepareCall (.ofIndex 2) 0).1 = .error (.arity 1 0) ∧
      ((furnished 8).prepareCall (.ofIndex 2) 0).2 = (furnished 8).instantiated (.ofIndex 2) ∧
      (Nat.repeat (fun t : Store => (t.prepareCall (.ofIndex 2) 0).2) 3 (furnished 8)).heap.size =
        7 := by
  have h : (furnished 8).prepareCall (.ofIndex 2) 0 =
      (.error (.arity 1 0), ((furnished 8).prepareCall (.ofIndex 2) 0).2) :=
    Prod.ext (by with_unfolding_all rfl) rfl
  have hi : (furnished 8).initializer? (.ofIndex 2) = some (.ofIndex 1) := by decide +kernel
  have hs : (furnished 8).heap.size = 4 ∧ (furnished 8).heap.limit = 8 := by
    decide +kernel
  obtain ⟨_, _, _, hst, _, hrep⟩ := refused_calls_leave_instances h
  rw [hi, hs.1, hs.2] at hst hrep
  obtain ⟨heq, ht⟩ := hrep nofun 3 (by decide)
  exact ⟨by rw [h], (hst _ rfl).2 nofun, by rw [heq, ht]⟩

/-- A call with too few arguments changes the heap, and is refused for want of
room instead if there is none. -/
theorem refused_call_changes_heap :
    ((furnished 8).prepareCall (.ofIndex 2) 0).1 = .error (.arity 1 0) ∧
      (furnished 8).heap.size = 4 ∧ ((furnished 8).prepareCall (.ofIndex 2) 0).2.heap.size = 5 ∧
      (furnished 4).arity? (.ofIndex 2) = some 1 ∧
      ((furnished 4).prepareCall (.ofIndex 2) 0).1 = .error (.heap (.exhausted 4)) := by
  refine ⟨?_, ?_, ?_, ?_, ?_⟩ <;> with_unfolding_all rfl

end Store

end ScriptMachine
