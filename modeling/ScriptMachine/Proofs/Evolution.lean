/-
ScriptMachine.Proofs.Evolution — what a routine may do to the store.
-/
import Mathlib.Data.Option.Basic
import ScriptMachine.Proofs.Layouts
import ScriptMachine.Proofs.Mentions
import ScriptMachine.Proofs.Words

namespace ScriptMachine

variable {heap : Heap} {o : Object}

inductive Object.Becomes : Object → Object → Prop
  | same (o : Object) : Becomes o o
  | cell (v w : Word) : Becomes (.cell v) (.cell w)
  | ofClass {c c' : Class} : c'.name = c.name → Becomes (.ofClass c) (.ofClass c')
  | ofInstance {i i' : Instance} : i'.classHandle = i.classHandle →
      Becomes (.ofInstance i) (.ofInstance i')

namespace Object.Becomes

variable {o : Object}

theorem closure_eq {c : Closure} (h : (Object.closure c).Becomes o) : o = .closure c := by
  cases h
  rfl

theorem text_eq {t : String} (h : (Object.text t).Becomes o) : o = .text t := by
  cases h
  rfl

theorem cell_eq {v : Word} (h : (Object.cell v).Becomes o) : ∃ w, o = .cell w := by
  cases h with
  | same => exact ⟨v, rfl⟩
  | cell _ w => exact ⟨w, rfl⟩

theorem class_eq {c : Class} (h : (Object.ofClass c).Becomes o) :
    ∃ c', o = .ofClass c' ∧ c'.name = c.name := by
  cases h with
  | same => exact ⟨c, rfl, rfl⟩
  | ofClass hn => exact ⟨_, rfl, hn⟩

end Object.Becomes

theorem Instance.setField_classHandle (i : Instance) (shapes : Shapes) (field : Symbol)
    (value : Word) : (i.setField shapes field value).2.1.classHandle = i.classHandle := by
  unfold setField
  split <;> rfl

structure Heap.Retains (h h' : Heap) : Prop where
  objects : ∀ {i : Nat} {o : Object}, h.objects[i]? = some o →
    ∃ o', h'.objects[i]? = some o' ∧ o.Becomes o'

namespace Heap.Retains

variable {h h' : Heap} {w : Word}

theorem deref? (he : h.Retains h') (hw : h.deref? w = some o) :
    ∃ o', h'.deref? w = some o' ∧ o.Becomes o' := by
  obtain ⟨i, hi, rfl, ho⟩ := Heap.deref?_eq_some.mp hw
  obtain ⟨o', ho', hb⟩ := he.objects ho
  exact ⟨o', Heap.deref?_eq_some.mpr ⟨i, hi, rfl, ho'⟩, hb⟩

theorem deref?_closure (he : h.Retains h') {c : Closure} (hw : h.deref? w = some (.closure c)) :
    h'.deref? w = some (.closure c) := by
  obtain ⟨o', ho', hb⟩ := he.deref? hw
  rw [ho', hb.closure_eq]

theorem deref?_cell (he : h.Retains h') {v : Word} (hw : h.deref? w = some (.cell v)) :
    ∃ v', h'.deref? w = some (.cell v') := by
  obtain ⟨o', ho', hb⟩ := he.deref? hw
  obtain ⟨v', rfl⟩ := hb.cell_eq
  exact ⟨v', ho'⟩

theorem get?_class (he : h.Retains h') {handle : Handle} {c : Class}
    (hc : h.get? handle = some (.ofClass c)) : ∃ c', h'.get? handle = some (.ofClass c') := by
  unfold Heap.get? at hc ⊢
  split at hc
  · next hgen =>
    obtain ⟨o', ho', hb⟩ := he.objects hc
    obtain ⟨c', rfl, _⟩ := hb.class_eq
    exact ⟨c', by rw [if_pos hgen, ho']⟩
  · cases hc

end Heap.Retains

/-- A word that is no reference, or the reference of an object of the heap. -/
def Word.Issued (heap : Heap) (w : Word) : Prop := w.isObject = true → ∃ o, heap.deref? w = some o

namespace Word.Issued

variable {heap : Heap} {w : Word}

theorem of_eq_false (h : w.isObject = false) : w.Issued heap := fun hw =>
    absurd (hw.symm.trans h) nofun

theorem retained (h : w.Issued heap) {heap' : Heap} (he : heap.Retains heap') : w.Issued heap' :=
  fun hw => (h hw).elim fun _ ho => (he.deref? ho).imp fun _ h => h.1

end Word.Issued

structure Heap.Evolves (fresh : Object → Prop) (h h' : Heap) : Prop extends h.Retains h' where
  limit : h'.limit = h.limit
  interned : h'.interned = h.interned
  size_le : h.size ≤ h.limit → h'.size ≤ h'.limit
  added : ∀ {i : Nat} {o : Object}, h'.objects[i]? = some o →
    (∃ o0, h.objects[i]? = some o0 ∧ o0.Becomes o) ∨ fresh o

namespace Heap.Evolves

variable {fresh : Object → Prop} {h h' : Heap}

theorem refl (fresh : Object → Prop) (h : Heap) : h.Evolves fresh h where
  limit := rfl
  interned := rfl
  size_le := id
  objects hi := ⟨_, hi, .same _⟩
  added hi := .inl ⟨_, hi, .same _⟩

theorem mono {fresh' : Object → Prop} (he : h.Evolves fresh h')
    (hf : ∀ {o}, fresh o → fresh' o) : h.Evolves fresh' h' :=
  { he with added := fun hi => (he.added hi).imp_right hf }

end Heap.Evolves

theorem Heap.evolves_push (hlt : heap.size < heap.limit) :
    heap.Evolves (· = o) (heap.push o) where
  limit := rfl
  interned := rfl
  size_le _ := by
    show (heap.objects.push o).size ≤ heap.limit
    rw [Array.size_push]
    exact hlt
  objects hi := ⟨_, getElem?_push_of_some hi, .same _⟩
  added hi := by
    rcases getElem?_push_cases hi with hi | rfl
    · exact .inl ⟨_, hi, .same _⟩
    · exact .inr rfl

theorem Heap.getElem?_put (heap : Heap) {index : Nat} (o' : Object)
    (ho : heap.objects[index]? = some o) (i : Nat) :
    (heap.put index o').objects[i]? = if index = i then some o' else heap.objects[i]? := by
  show (heap.objects.setIfInBounds index o')[i]? = _
  rw [Array.getElem?_setIfInBounds]
  split
  · next heq =>
    exact if_pos (Array.getElem?_eq_some_iff.mp ho).1
  · rfl

theorem Heap.evolves_put {index : Nat} {o' : Object} (ho : heap.objects[index]? = some o)
    (hb : o.Becomes o') (fresh : Object → Prop) : heap.Evolves fresh (heap.put index o') := by
  refine { limit := rfl, interned := rfl, objects := ?_, size_le := fun hs => ?_, added := ?_ }
  · intro i x hi
    rw [heap.getElem?_put o' ho]
    split
    · next heq =>
      subst heq
      cases ho.symm.trans hi
      exact ⟨o', rfl, hb⟩
    · exact ⟨x, hi, .same x⟩
  · exact Nat.le_trans (Nat.le_of_eq Array.size_setIfInBounds) hs
  · intro i x hi
    rcases getElem?_setIfInBounds_cases hi with hi | ⟨rfl, rfl⟩
    · exact .inl ⟨x, hi, .same x⟩
    · exact .inl ⟨o, ho, hb⟩

/-- What is printed later goes on where the text so far ends. -/
def Store.Continues (s s' : Store) : Prop := ∃ more, s'.printed = s.printed ++ more

namespace Store.Continues

variable {s s' s'' : Store}

theorem of_eq (h : s'.printed = s.printed) : s.Continues s' :=
  ⟨"", by rw [h, String.append_empty]⟩

theorem trans (h : s.Continues s') (h' : s'.Continues s'') : s.Continues s'' := by
  obtain ⟨more, hm⟩ := h
  obtain ⟨more', hm'⟩ := h'
  exact ⟨more ++ more', by rw [hm', hm, String.append_assoc]⟩

end Store.Continues

structure Store.Evolves (fresh : Object → Prop) (s s' : Store) : Prop where
  heap : s.heap.Evolves fresh s'.heap
  names : s'.names = s.names
  prototypes : s'.prototypes = s.prototypes
  initializer : s'.initializer = s.initializer
  depth : s'.depth = s.depth
  maxDepth : s'.maxDepth = s.maxDepth
  muted : s'.muted = s.muted
  globals : s'.globals.map (·.name) = s.globals.map (·.name)
  sites : s'.sites.size = s.sites.size
  slot : ∀ {shape field k}, s.shapes.slot? shape field = some k →
    s'.shapes.slot? shape field = some k
  printed : s.Continues s'

namespace Store.Evolves

variable {fresh : Object → Prop} {s s' s'' : Store}

theorem refl (fresh : Object → Prop) (s : Store) : s.Evolves fresh s where
  heap := .refl fresh _
  names := rfl
  prototypes := rfl
  initializer := rfl
  depth := rfl
  maxDepth := rfl
  muted := rfl
  globals := rfl
  sites := rfl
  slot := id
  printed := .of_eq rfl

section

variable (h : s.Evolves fresh s')

include h

theorem mono {fresh' : Object → Prop} (hf : ∀ {o}, fresh o → fresh' o) : s.Evolves fresh' s' :=
  { h with heap := h.heap.mono hf }

theorem andThen (heap : s'.heap = s.heap) (h' : s'.Evolves fresh s'') : s.Evolves fresh s'' where
  heap := heap ▸ h'.heap
  names := h'.names.trans h.names
  prototypes := h'.prototypes.trans h.prototypes
  initializer := h'.initializer.trans h.initializer
  depth := h'.depth.trans h.depth
  maxDepth := h'.maxDepth.trans h.maxDepth
  muted := h'.muted.trans h.muted
  globals := h'.globals.trans h.globals
  sites := h'.sites.trans h.sites
  slot hs := h'.slot (h.slot hs)
  printed := h.printed.trans h'.printed

theorem raise (e : Failure) : s.Evolves fresh (s'.raise e) :=
  { h with }

theorem modifySite (site : Nat) (f : Site → Site) : s.Evolves fresh (s'.modifySite site f) :=
  { h with sites := (Array.size_modify ..).trans h.sites }

end

theorem report {r : Except Failure Word × Store} (h : s.Evolves fresh r.2) :
    s.Evolves fresh (Serve.report r).2 := by
  obtain ⟨_ | _, _⟩ := r
  · exact h.raise _
  · exact h

end Store.Evolves

namespace Store

variable {s : Store} {object : Word} {site slot : Nat} {i : Instance}

theorem alloc_cases (s : Store) (o : Object) :
    (s.heap.size < s.heap.limit ∧
      s.alloc o = (.ok (.ofIndex s.heap.size), { s with heap := s.heap.push o })) ∨
    (¬s.heap.size < s.heap.limit ∧ s.alloc o = (.error (.heap (.exhausted s.heap.size)), s)) := by
  unfold alloc Heap.allocate
  by_cases h : s.heap.size < s.heap.limit
  · exact .inl ⟨h, by simp [h]⟩
  · exact .inr ⟨h, by simp [h]⟩

def seed (heap : Heap) (maxDepth : Nat) : Store :=
  let (initializer, s) := intern { heap := heap, maxDepth := maxDepth } "init"
  (intern { s with initializer := initializer } "clock").2

theorem create_eq_ok {maxDepth : Nat} {s : Store} (h : create heap maxDepth = .ok s) :
    ∃ name t, (seed heap maxDepth).alloc (.native ⟨name, 0, .clock⟩) = (.ok (.ofIndex heap.size),
      t) ∧
      t = { seed heap maxDepth with heap := heap.push (.native ⟨name, 0, .clock⟩) } ∧
        s = t.defineGlobal "clock" (.ofIndex heap.size) := by
  unfold create at h
  dsimp only at h
  split at h
  · next value t ha =>
    rcases alloc_cases _ _ with ⟨_, h'⟩ | ⟨_, h'⟩
    · cases h
      cases ha.symm.trans h'
      exact ⟨_, _, ha, rfl, rfl⟩
    · cases ha.symm.trans h'
  · cases h

theorem evolves_alloc (s : Store) (o : Object) : s.Evolves (· = o) (s.alloc o).2 := by
  rcases s.alloc_cases o with ⟨hlt, h⟩ | ⟨_, h⟩ <;> rw [h]
  · exact { Evolves.refl (· = o) s with heap := Heap.evolves_push hlt }
  · exact .refl _ s

theorem evolves_putSlot (s : Store) (slot : Nat) (value : Word) (fresh : Object → Prop) :
    s.Evolves fresh (s.putSlot slot value) := by
  refine { Evolves.refl fresh s with globals := ?_ }
  refine Array.ext_getElem? fun i => ?_
  simp only [putSlot, Array.getElem?_map, Array.getElem?_modify]
  split
  · cases s.globals[i]? <;> rfl
  · rfl

inductive Makes (s : Store) (fresh : Object → Prop) : Except Failure Word × Store → Prop
  | done (w : Word) : s.Makes fresh (.ok w, s)
  | fails {e : Failure} : e ≠ .stackOverflow → s.Makes fresh (.error e, s)
  | made {o : Object} : fresh o → s.Makes fresh (s.alloc o)

namespace Makes

variable {s : Store} {fresh : Object → Prop} {r : Except Failure Word × Store}

theorem store {P : Store → Prop} (h : s.Makes fresh r) (hs : P s)
    (ha : ∀ {o}, fresh o → P (s.alloc o).2) : P r.2 := by
  cases h with
  | done | fails => exact hs
  | made ho => exact ha ho

theorem evolves (h : s.Makes fresh r) : s.Evolves fresh r.2 :=
  h.store (.refl fresh s) fun ho => (s.evolves_alloc _).mono fun heq => heq ▸ ho

end Makes

theorem binary_makes (s : Store) (op : BinaryOp) (left right : Word) :
    s.Makes (∃ t, · = .text t) (s.binary op left right) := by
  unfold binary
  split
  · exact .done _
  · exact .done _
  · split
    · exact .done _
    · split
      · unfold concatenate
        split
        · exact .made ⟨_, rfl⟩
        · exact .fails nofun
      · exact .fails nofun

theorem makeClosure_makes (s : Store) (prototype : Nat) (entry : Entry) (cells : Array Word) :
    s.Makes (∃ name arity, · = .closure ⟨name, arity, entry, cells⟩)
      (s.makeClosure prototype entry cells) := by
  unfold makeClosure
  split
  · exact .made ⟨_, _, rfl⟩
  · exact .fails nofun

theorem newClass_makes (s : Store) (name : Symbol) (sup : Option Word) :
    s.Makes (∃ methods, s.inherited sup = .ok methods ∧ · = .ofClass ⟨name, methods⟩)
      (s.newClass name sup) := by
  unfold newClass
  split
  · next methods hm => exact .made ⟨methods, hm, rfl⟩
  · next e he =>
    refine .fails ?_
    unfold inherited at he
    split at he
    · cases he
    · split at he
      · cases he
      · cases he
        nofun

theorem getSuper_makes (s : Store) (sup recv : Word) (name : Symbol) :
    s.Makes (∃ b, · = .bound b) (s.getSuper sup recv name) := by
  unfold getSuper
  dsimp only
  split
  · exact .made ⟨_, rfl⟩
  · exact .fails nofun

theorem getProperty_cases (s : Store) (object : Word) (name : Symbol) (site : Nat) :
    (∃ w shape slot, s.shapes.slot? shape name = some slot ∧ s.getProperty object name site =
      (.ok w, (s.modifySite site .miss).modifySite site (·.refresh shape slot))) ∨
    (s.modifySite site .miss).Makes (∃ b, · = .bound b) (s.getProperty object name site) := by
  unfold getProperty
  dsimp only
  split
  · exact .inr (.fails nofun)
  · split
    · next hs => exact .inl ⟨_, _, _, hs, rfl⟩
    · split
      · exact .inr (.made ⟨_, rfl⟩)
      · exact .inr (.fails nofun)

theorem prepareCall_snd (s : Store) (callee : Word) (count : Nat) :
    (s.prepareCall callee count).2 = s ∨
      (∃ c, s.heap.deref? callee = some (.ofClass c)) ∧ (s.prepareCall callee count).2 =
        (s.alloc (.ofInstance { classHandle := ⟨callee.payload⟩ })).2 := by
  unfold prepareCall
  split
  · exact .inl rfl
  · exact .inl rfl
  · exact .inl rfl
  · next c hc =>
    unfold prepareConstruction
    dsimp only
    split
    · exact .inl rfl
    · refine .inr ⟨⟨c, hc⟩, ?_⟩
      split
      · next heq => rw [heq]
      · next heq =>
        rw [heq]
        split <;> rfl
  · exact .inl rfl

theorem prepareCall_store {P : Store → Prop} {callee : Word} (count : Nat) (hs : P s)
    (ha : P (s.alloc (.ofInstance { classHandle := ⟨callee.payload⟩ })).2) :
    P (s.prepareCall callee count).2 := by
  rcases s.prepareCall_snd callee count with h | ⟨_, h⟩ <;> rw [h] <;> assumption

theorem bindCall_ok {method recv : Word} {count : Nat} {target : CallTarget}
    (h : s.bindCall method recv count = .ok target) :
    ∃ c, s.heap.deref? method = some (.closure c) ∧ target = ⟨c.entry, method, recv⟩ := by
  unfold bindCall at h
  split at h
  · next c hc =>
    split at h
    · cases h
      exact ⟨c, hc, rfl⟩
    · cases h
  · cases h

inductive Prepared (s : Store) (callee : Word) : CallTarget → Store → Prop
  | closure {c : Closure} : s.heap.deref? callee = some (.closure c) →
      Prepared s callee ⟨c.entry, callee, .nil⟩ s
  | native {n : Native} : s.heap.deref? callee = some (.native n) →
      Prepared s callee ⟨n.entry, callee, .nil⟩ s
  | bound {b : BoundMethod} {c : Closure} : s.heap.deref? callee = some (.bound b) →
      s.heap.deref? b.method = some (.closure c) →
        Prepared s callee ⟨c.entry, b.method, b.receiver⟩ s
  | plain {c : Class} {created : Word} {s' : Store} :
      s.heap.deref? callee = some (.ofClass c) → c.method? s.initializer = none →
        s.alloc (.ofInstance { classHandle := ⟨callee.payload⟩ }) = (.ok created, s') →
          Prepared s callee ⟨.construct, callee, created⟩ s'
  | initialized {c : Class} {method created : Word} {k : Closure} {s' : Store} :
      s.heap.deref? callee = some (.ofClass c) → c.method? s.initializer = some method →
        s.alloc (.ofInstance { classHandle := ⟨callee.payload⟩ }) = (.ok created, s') →
          s'.heap.deref? method = some (.closure k) →
            Prepared s callee ⟨k.entry, method, created⟩ s'

theorem prepareCall_prepared {s' : Store} {callee : Word} {count : Nat} {target : CallTarget}
    (h : s.prepareCall callee count = (.ok target, s')) : s.Prepared callee target s' := by
  unfold prepareCall at h
  split at h
  · next hc =>
    split at h <;> cases h
    exact .closure hc
  · next hn =>
    split at h <;> cases h
    exact .native hn
  · next hb =>
    obtain ⟨hbind, rfl⟩ := Prod.mk.inj h
    obtain ⟨c, hc, rfl⟩ := bindCall_ok hbind
    exact .bound hb hc
  · next c hcls =>
    unfold prepareConstruction at h
    dsimp only at h
    split at h
    · cases h
    · split at h
      · cases h
      · next ha =>
        split at h
        · next hm =>
          obtain ⟨hbind, rfl⟩ := Prod.mk.inj h
          obtain ⟨k, hk, rfl⟩ := bindCall_ok hbind
          exact .initialized hcls hm ha hk
        · next hm =>
          cases h
          exact .plain hcls hm ha
  · cases h

theorem evolves_prepareCall (s : Store) (callee : Word) (count : Nat) :
    s.Evolves (∃ i, · = .ofInstance i) (s.prepareCall callee count).2 :=
  prepareCall_store count (.refl _ s) ((s.evolves_alloc _).mono fun h => ⟨_, h⟩)

theorem addMethod_eq (s : Store) (target : Word) (name : Symbol) (method : Word) :
    s.addMethod target name method =
      match s.heap.deref? target with
      | some (.ofClass c) =>
        { s with heap := s.heap.put target.objectIndex (.ofClass (c.addMethod name method)) }
      | _ => s := by
  unfold addMethod Heap.addMethod Heap.class? Heap.deref?
  cases ht : target.toHandle? with
  | error e => rfl
  | ok handle =>
    dsimp only
    cases hg : s.heap.get? handle with
    | none => rfl
    | some o =>
      have hd : s.heap.deref? target = some o := by simp [Heap.deref?, ht, hg]
      obtain ⟨i, hi, rfl, ho⟩ := Heap.deref?_eq_some.mp hd
      rw [Word.toHandle?_ofIndex hi] at ht
      cases ht
      cases o with
      | ofClass c => rw [Word.objectIndex_ofIndex hi, Handle.index_ofNat hi]
      | _ => rfl

theorem cached?_eq_some (h : s.cached? object site = some (i, slot)) :
    object.isObject = true ∧ s.heap.objects[object.objectIndex]? = some (.ofInstance i) ∧
      ∃ entry, s.sites[site]? = some entry ∧ entry.cached = some (i.shape, slot) := by
  simp only [cached?, Option.bind_eq_bind, Option.bind_eq_some_iff, Option.pure_def,
    Option.guard_eq_some', Option.some.injEq, Prod.mk.injEq] at h
  obtain ⟨_, hobj, o, ho, i', hi', entry, hsite, ⟨shape, slot'⟩, hcch, _, hs, rfl, rfl⟩ := h
  cases o <;> simp_all [Object.instance?]

theorem evolves_setCached (h : s.cached? object site = some (i, slot)) (w : Word)
    (fresh : Object → Prop) : s.Evolves fresh (s.setCached object i slot w site) := by
  obtain ⟨_, hobj, _⟩ := cached?_eq_some h
  refine Evolves.modifySite ?_ site _
  have hput := Heap.evolves_put hobj (Object.Becomes.ofInstance
    (show Instance.classHandle { i with slots := i.slots.setIfInBounds slot w } = _ from rfl)) fresh
  exact { Evolves.refl fresh s with heap := hput }

end Store

namespace Serve

open Store

variable {s : Store}

theorem evolves_print (w : Word) (fresh : Object → Prop) : s.Evolves fresh (Serve.print w s).2 := by
  show s.Evolves fresh (s.print w)
  unfold Store.print
  split
  · exact .refl fresh s
  · exact { Evolves.refl fresh s with printed := ⟨s.render w ++ "\n", String.append_assoc⟩ }

theorem evolves_binary (op : BinaryOp) (left right : Word) :
    s.Evolves (∃ t, · = .text t) (Serve.binary op left right s).2 :=
  (s.binary_makes op left right).evolves.report

theorem evolves_negate (w : Word) (fresh : Object → Prop) :
    s.Evolves fresh (Serve.negate w s).2 :=
  Evolves.report (.refl fresh s)

theorem evolves_globalGet (slot : Nat) (fresh : Object → Prop) :
    s.Evolves fresh (Serve.globalGet slot s).2 :=
  Evolves.report (.refl fresh s)

theorem evolves_globalSet (slot : Nat) (w : Word) (fresh : Object → Prop) :
    s.Evolves fresh (Serve.globalSet slot w s).2 := by
  refine Evolves.report ?_
  unfold setGlobal
  split
  · exact s.evolves_putSlot slot w fresh
  · exact .refl fresh s

theorem evolves_globalDefine (slot : Nat) (w : Word) (fresh : Object → Prop) :
    s.Evolves fresh (Serve.globalDefine slot w s).2 :=
  s.evolves_putSlot slot w fresh

theorem evolves_newCell (w : Word) : s.Evolves (· = .cell w) (Serve.newCell w s).2 :=
  Evolves.report (s.evolves_alloc _)

theorem evolves_cellSet (cell w : Word) (fresh : Object → Prop) :
    s.Evolves fresh (Serve.cellSet cell w s).2 := by
  refine { Evolves.refl fresh s with heap := ?_ }
  show s.heap.Evolves fresh (s.heap.setCell cell w).2
  unfold Heap.setCell
  split
  · next v hd => exact Heap.evolves_put (Heap.getElem?_objectIndex hd) (.cell v w) fresh
  · exact .refl fresh _

theorem evolves_makeClosure (prototype : Nat) (entry : Entry) (cells : Array Word) :
    s.Evolves (∃ name arity, · = .closure ⟨name, arity, entry, cells⟩)
      (Serve.makeClosure prototype entry cells s).2 :=
  (s.makeClosure_makes prototype entry cells).evolves.report

theorem prepareCall_store {P : Store → Prop} {callee : Word} (count : Nat) (hs : P s)
    (ha : P (s.alloc (.ofInstance { classHandle := ⟨callee.payload⟩ })).2)
    (hr : ∀ {t} e, P t → P (t.raise e)) : P (Serve.prepareCall callee count s).2 := by
  have h := Store.prepareCall_store count hs ha
  unfold Serve.prepareCall
  split
  · next heq =>
    rw [heq] at h
    exact h
  · next heq =>
    rw [heq] at h
    exact hr _ h

theorem evolves_prepareCall (callee : Word) (count : Nat) :
    s.Evolves (∃ i, · = .ofInstance i) (Serve.prepareCall callee count s).2 :=
  prepareCall_store count (.refl _ s) ((s.evolves_alloc _).mono fun h => ⟨_, h⟩) fun e h =>
    h.raise e

theorem evolves_getProperty (object : Word) (name : Symbol) (site : Nat) :
    s.Evolves (∃ b, · = .bound b) (Serve.getProperty object name site s).2 := by
  have hm := (Evolves.refl (∃ b, · = Object.bound b) s).modifySite site Site.miss
  refine Evolves.report ?_
  rcases s.getProperty_cases object name site with ⟨_, _, _, _, heq⟩ | hmakes
  · rw [heq]
    exact hm.modifySite site _
  · exact hm.andThen rfl hmakes.evolves

theorem slot?_extend {shapes : Shapes} {shape : ShapeId} {field : Symbol} {k : Nat}
    (id : ShapeId) (new : Symbol) (h : shapes.slot? shape field = some k) :
    (shapes.extend id new).2.slot? shape field = some k := by
  have hlt : shape < shapes.size := by
    refine Nat.lt_of_not_le fun hle => ?_
    rw [Shapes.slot?, Shapes.shape_of_size_le hle] at h
    cases h
  rw [Shapes.slot?, ← (Shapes.sameLayout_extend id new hlt).2.2.2]
  exact h

theorem evolves_setProperty (object : Word) (name : Symbol) (w : Word) (site : Nat)
    (fresh : Object → Prop) : s.Evolves fresh (Serve.setProperty object name w site s).2 := by
  refine Evolves.report ?_
  unfold Store.setProperty
  split
  · exact .refl fresh s
  · next index i hi =>
    obtain ⟨hd, rfl⟩ := Heap.instance?_eq_some hi
    have hs : ∀ {shape field k}, s.shapes.slot? shape field = some k →
        (i.setField s.shapes name w).2.2.slot? shape field = some k := by
      unfold Instance.setField
      split
      · exact id
      · exact slot?_extend i.shape name
    have hput := Heap.evolves_put (Heap.getElem?_objectIndex hd)
      (.ofInstance (i.setField_classHandle s.shapes name w)) fresh
    have hst : s.Evolves fresh { s with
        shapes := (i.setField s.shapes name w).2.2
        heap := s.heap.put object.objectIndex (.ofInstance (i.setField s.shapes name w).2.1) } :=
      { Evolves.refl fresh s with heap := hput, slot := hs }
    dsimp only
    split
    · exact (hst.modifySite site _).modifySite site _
    · exact hst.modifySite site _

theorem evolves_newClass (name : Symbol) (sup : Option Word) :
    s.Evolves (∃ methods, s.inherited sup = .ok methods ∧ · = .ofClass ⟨name, methods⟩)
      (Serve.newClass name sup s).2 :=
  (s.newClass_makes name sup).evolves.report

theorem evolves_addMethod (w : Word) (name : Symbol) (method : Word) (fresh : Object → Prop) :
    s.Evolves fresh (Serve.addMethod w name method s).2 := by
  show s.Evolves fresh (s.addMethod w name method)
  rw [addMethod_eq]
  split
  · next c hd =>
    refine { Evolves.refl fresh s with
             heap := Heap.evolves_put (Heap.getElem?_objectIndex hd) ?_ fresh }
    exact .ofClass (show (c.addMethod name method).name = _ from rfl)
  · exact .refl fresh s

theorem evolves_getSuper (sup recv : Word) (name : Symbol) :
    s.Evolves (∃ b, · = .bound b) (Serve.getSuper sup recv name s).2 :=
  (s.getSuper_makes sup recv name).evolves.report

end Serve

end ScriptMachine
