/-
ScriptMachine.Proofs.WellFormed — the words programs compute with.
-/
import ScriptMachine.Proofs.Runs.Typed

namespace ScriptMachine

/-! ## §1 Words -/

/-- A reference of a cell. -/
def Heap.IsCell (heap : Heap) (w : Word) : Prop := ∃ v, heap.deref? w = some (.cell v)

def Heap.IsClosure (heap : Heap) (w : Word) : Prop := ∃ c, heap.deref? w = some (.closure c)

/-- A value programs can compute with. -/
def Word.WellFormed (heap : Heap) (w : Word) : Prop :=
  w.Canonical ∨ w = .nil ∨ w = .ofBool true ∨ w = .ofBool false ∨
    ∃ o, heap.deref? w = some o ∧ ∀ v, o ≠ .cell v

section Retained

variable {heap heap' : Heap} {w : Word}

theorem Heap.IsCell.retained (h : heap.IsCell w) (he : heap.Retains heap') : heap'.IsCell w := by
  obtain ⟨v, hv⟩ := h
  exact he.deref?_cell hv

theorem Heap.IsClosure.retained (h : heap.IsClosure w) (he : heap.Retains heap') :
    heap'.IsClosure w := by
  obtain ⟨c, hc⟩ := h
  exact ⟨c, he.deref?_closure hc⟩

theorem Object.Becomes.ne_cell {o o' : Object} (h : o.Becomes o') (ho : ∀ v, o ≠ .cell v) :
    ∀ v, o' ≠ .cell v := by
  cases h with
  | same => exact ho
  | cell v _ => exact absurd rfl (ho v)
  | ofClass => nofun
  | ofInstance => nofun

end Retained

namespace Word.WellFormed

variable {heap heap' : Heap} {w : Word}

theorem retained (h : w.WellFormed heap) (he : heap.Retains heap') : w.WellFormed heap' := by
  rcases h with h | h | h | h | ⟨o, ho, hc⟩
  · exact .inl h
  · exact .inr (.inl h)
  · exact .inr (.inr (.inl h))
  · exact .inr (.inr (.inr (.inl h)))
  · obtain ⟨o', ho', hb⟩ := he.deref? ho
    exact .inr (.inr (.inr (.inr ⟨o', ho', hb.ne_cell hc⟩)))

theorem of_canonical (h : w.Canonical) : w.WellFormed heap := .inl h

theorem nil : Word.nil.WellFormed heap := .inr (.inl rfl)

theorem ofBool (b : Bool) : (Word.ofBool b).WellFormed heap := by
  cases b
  · exact .inr (.inr (.inr (.inl rfl)))
  · exact .inr (.inr (.inl rfl))

theorem of_deref? {o : Object} (h : heap.deref? w = some o) (ho : ∀ v, o ≠ .cell v) :
    w.WellFormed heap :=
  .inr (.inr (.inr (.inr ⟨o, h, ho⟩)))

theorem flipSign (h : w.WellFormed heap) (hp : w.isPlain = true) :
    (Word.mk (Number.flipSign w.bits)).WellFormed heap := by
  rcases h with h | rfl | rfl | rfl | ⟨o, ho, _⟩
  · exact of_canonical (h.flipSign hp)
  · exact absurd hp (by decide)
  · exact absurd hp (by decide)
  · exact absurd hp (by decide)
  · obtain ⟨i, hi, rfl, _⟩ := Heap.deref?_eq_some.mp ho
    rw [Word.isPlain_ofIndex hi] at hp
    cases hp

end Word.WellFormed

/-! ## §2 Vocabularies -/

/-- The words that can be values, on each heap. -/
structure Vocabulary where
  Has : Heap → Word → Prop
  retained : ∀ {heap heap' : Heap} {w}, Has heap w → heap.Retains heap' → Has heap' w
  canonical : ∀ {heap} {w : Word}, w.Canonical → Has heap w
  nil : ∀ {heap}, Has heap .nil
  truth : ∀ {heap} b, Has heap (.ofBool b)
  object : ∀ {heap : Heap} {w o}, heap.deref? w = some o → (∀ v, o ≠ .cell v) → Has heap w
  flipSign : ∀ {heap} {w : Word}, Has heap w → w.isPlain = true →
    Has heap ⟨Number.flipSign w.bits⟩

namespace Vocabulary

def wellFormed : Vocabulary where
  Has heap w := w.WellFormed heap
  retained := .retained
  canonical := .of_canonical
  nil := .nil
  truth := .ofBool
  object := .of_deref?
  flipSign := .flipSign

/-- Any word at all. -/
def any : Vocabulary where
  Has _ _ := True
  retained _ _ := trivial
  canonical _ := trivial
  nil := trivial
  truth _ := trivial
  object _ _ := trivial
  flipSign _ _ := trivial

/-- References are issued by the heap. Minus can make a reference of a number,
the one that has the same bits but for the sign, so that must be issued too. -/
def issued : Vocabulary where
  Has heap w := w.Issued heap ∧ (w.isPlain = true → Word.Issued heap ⟨Number.flipSign w.bits⟩)
  retained h he := ⟨h.1.retained he, fun hp => (h.2 hp).retained he⟩
  canonical h := ⟨.of_eq_false h.isObject, fun hp => .of_eq_false (h.flipSign hp).isObject⟩
  nil := ⟨.of_eq_false rfl, nofun⟩
  truth b := by
    cases b
    all_goals exact ⟨.of_eq_false rfl, nofun⟩
  object {_ _ o} ho _ := by
    refine ⟨fun _ => ⟨o, ho⟩, fun hp => ?_⟩
    obtain ⟨i, hi, rfl, _⟩ := Heap.deref?_eq_some.mp ho
    rw [Word.isPlain_ofIndex hi] at hp
    cases hp
  flipSign {_ w} h hp := by
    refine ⟨h.2 hp, fun _ => ?_⟩
    simpa only [Number.flipSign_flipSign] using h.1

variable {V : Vocabulary} {heap : Heap} {w : Word}

theorem of_wellFormed (h : w.WellFormed heap) : V.Has heap w := by
  rcases h with h | rfl | rfl | rfl | ⟨_, ho, hc⟩
  · exact V.canonical h
  · exact V.nil
  · exact V.truth true
  · exact V.truth false
  · exact V.object ho hc

theorem zero : V.Has heap .zero := V.canonical (.inl (by decide))

theorem closure (h : heap.IsClosure w) : V.Has heap w := by
  obtain ⟨c, hc⟩ := h
  exact V.object hc nofun

theorem arithmetic (op : BinaryOp) (a b : UInt64) :
    V.Has heap (ScriptMachine.arithmetic op a b) := by
  cases op with
  | add | subtract | multiply | divide => exact V.canonical (.of_float _)
  | equal | notEqual | less | lessEqual | greater | greaterEqual => exact V.truth _

end Vocabulary

/-! ## §3 Sound stores -/

variable {V : Vocabulary}

def Object.WellFormed (V : Vocabulary) (heap : Heap) : Object → Prop
  | .text _ => True
  | .closure c => ∀ w ∈ c.cells, heap.IsCell w ∨ w = .zero
  | .cell w => V.Has heap w
  | .ofClass c => ∀ name w, c.method? name = some w → heap.IsClosure w
  | .ofInstance i => (∃ c, heap.get? i.classHandle = some (.ofClass c)) ∧
      ∀ w ∈ i.slots, V.Has heap w
  | .bound b => V.Has heap b.receiver ∧ heap.IsClosure b.method
  | .native _ => True

structure Heap.Sound (V : Vocabulary) (heap : Heap) : Prop where
  size_le : heap.size ≤ heap.limit
  limit_le : heap.limit ≤ Heap.maxLimit
  interned : ∀ {text i}, heap.interned.get? text = some i → heap.objects[i]? = some (.text text)
  objects : ∀ {i : Nat} {o : Object}, heap.objects[i]? = some o → o.WellFormed V heap

/-- A store whose heap is sound and whose globals are in the vocabulary. -/
structure Store.Sound (V : Vocabulary) (s : Store) : Prop where
  heap : s.heap.Sound V
  globals : ∀ {slot w}, s.slotValue? slot = some w → V.Has s.heap w

theorem Object.WellFormed.retained {heap heap' : Heap} {o : Object} (h : o.WellFormed V heap)
    (he : heap.Retains heap') : o.WellFormed V heap' := by
  cases o with
  | text | native => trivial
  | closure c => exact fun w hw => (h w hw).imp_left (·.retained he)
  | cell w => exact V.retained h he
  | ofClass c => exact fun name w hw => (h name w hw).retained he
  | ofInstance i =>
    obtain ⟨⟨c, hc⟩, hs⟩ := h
    exact ⟨he.get?_class hc, fun w hw => V.retained (hs w hw) he⟩
  | bound b => exact ⟨V.retained h.1 he, h.2.retained he⟩

namespace Heap.Sound

variable {heap : Heap} {o : Object} (h : heap.Sound V)

include h

theorem deref? {w : Word} (hw : heap.deref? w = some o) : o.WellFormed V heap :=
  h.objects (Heap.getElem?_objectIndex hw)

theorem evolves {fresh : Object → Prop} {heap' : Heap} (he : heap.Evolves fresh heap')
    (ho : ∀ {i : Nat} {o : Object}, heap'.objects[i]? = some o → o.WellFormed V heap') :
    heap'.Sound V where
  size_le := he.size_le h.size_le
  limit_le := by
    rw [he.limit]
    exact h.limit_le
  interned hi := by
    rw [he.interned] at hi
    obtain ⟨o', ho', hb⟩ := he.objects (h.interned hi)
    rw [ho', hb.text_eq]
  objects := ho

theorem push (hlt : heap.size < heap.limit) (ho : o.WellFormed V heap) : (heap.push o).Sound V := by
  have he := Heap.evolves_push (o := o) hlt
  refine h.evolves he fun hi => ?_
  rcases getElem?_push_cases hi with hi | rfl
  · exact (h.objects hi).retained he.toRetains
  · exact ho.retained he.toRetains

theorem put {index : Nat} {o' : Object} (ho : heap.objects[index]? = some o)
    (hb : o.Becomes o') (hwf : o'.WellFormed V heap) : (heap.put index o').Sound V := by
  have he := Heap.evolves_put ho hb fun _ => True
  refine h.evolves he fun {i x} hi => ?_
  rcases getElem?_setIfInBounds_cases hi with hi | ⟨_, rfl⟩
  · exact (h.objects hi).retained he.toRetains
  · exact hwf.retained he.toRetains

theorem size_lt (hlt : heap.size < heap.limit) : heap.size < 0x100000000 := by
  have := h.limit_le
  unfold Heap.maxLimit at this
  omega

end Heap.Sound

def SoundResult (V : Vocabulary) {α : Type} (P : Heap → α → Prop)
    (r : Except Failure α × Store) : Prop :=
  r.2.Sound V ∧ ∀ {a}, r.1 = .ok a → P r.2.heap a

theorem SoundResult.fails {α : Type} {P : Heap → α → Prop} {s : Store} {e : Failure}
    (h : s.Sound V) :
    SoundResult V P (.error e, s) :=
  ⟨h, nofun⟩

theorem SoundResult.mono {α : Type} {P Q : Heap → α → Prop} {r : Except Failure α × Store}
    (h : SoundResult V P r) (hpq : ∀ {a}, P r.2.heap a → Q r.2.heap a) : SoundResult V Q r :=
  ⟨h.1, fun ha => hpq (h.2 ha)⟩

namespace Store.Sound

variable {s : Store} (h : s.Sound V)

include h

theorem congr {s' : Store} (hh : s'.heap = s.heap)
    (hgls : s'.globals = s.globals) : s'.Sound V where
  heap := hh ▸ h.heap
  globals hw := by
    rw [hh]
    unfold Store.slotValue? at hw
    rw [hgls] at hw
    exact h.globals hw

theorem withHeap {fresh : Object → Prop} {heap : Heap} (hs : heap.Sound V)
    (he : s.heap.Evolves fresh heap) : Store.Sound V { s with heap := heap } where
  heap := hs
  globals hw := V.retained (h.globals hw) he.toRetains

theorem raise (e : Failure) : (s.raise e).Sound V := h.congr rfl rfl

theorem modifySite (site : Nat) (f : Site → Site) : (s.modifySite site f).Sound V :=
  h.congr rfl rfl

theorem putSlot (slot : Nat) {w : Word} (hw : V.Has s.heap w) : (s.putSlot slot w).Sound V where
  heap := h.heap
  globals := by
    intro slot' w' hget
    simp only [Store.slotValue?, Store.putSlot, Array.getElem?_modify] at hget
    split at hget
    · cases hg : s.globals[slot']? with
      | none => simp [hg] at hget
      | some g =>
        simp only [hg, Option.map_some, Option.bind_some, Option.some.injEq] at hget
        exact hget ▸ hw
    · exact h.globals hget

theorem alloc {o : Object} (ho : o.WellFormed V s.heap) :
    SoundResult V (·.deref? · = some o) (s.alloc o) := by
  have he := (s.evolves_alloc o).heap
  rcases s.alloc_cases o with ⟨hlt, heq⟩ | ⟨_, heq⟩ <;> rw [heq] at he ⊢
  · refine ⟨h.withHeap (h.heap.push hlt ho) he, fun hw => ?_⟩
    cases hw
    rw [Heap.deref?_ofIndex _ (h.heap.size_lt hlt)]
    exact Array.getElem?_push_size
  · exact .fails h

theorem bind {recv method : Word} (hr : V.Has s.heap recv)
    (hm : s.heap.IsClosure method) :
    SoundResult V (fun heap w => V.Has heap w) (s.bind recv method) := by
  have ho : Object.WellFormed V s.heap (.bound ⟨recv, method⟩) := ⟨hr, hm⟩
  exact (h.alloc ho).mono fun hd => V.object hd nofun

end Store.Sound

def Discipline.wellFormed (V : Vocabulary) (K : Known) : Discipline where
  Keeps s := s.Sound V ∧ ∀ {w}, K.constant w → V.Has s.heap w
  Fits heap
    | .value, w => V.Has heap w
    | .cell, w => heap.IsCell w
    | .closure, w => heap.IsClosure w
    | .done, _ => True
  Boxes heap w := heap.IsCell w ∨ w = .zero

namespace Discipline.WellFormed

variable {K : Known} {s : Store} {fresh : Object → Prop} {mode : Mode} {o : Object}
  {w recv object : Word} {heap : Heap} {i : Instance} {site : Nat}

theorem keeps {s' : Store} (h : (wellFormed V K).Keeps s) (he : s.Evolves fresh s')
    (hs : s'.Sound V) : (wellFormed V K).Keeps s' :=
  ⟨hs, fun hw => V.retained (h.2 hw) he.heap.toRetains⟩

section

variable (h : (wellFormed V K).Keeps s)

include h

theorem serves {r : Except Failure Word × Store} (he : s.Evolves fresh (Serve.report r).2)
    (hr : SoundResult V (fun heap => (wellFormed V K).Fits heap mode) r) :
    (wellFormed V K).Serves mode (Serve.report r) := by
  obtain ⟨_ | w, s'⟩ := r
  · exact ⟨keeps h he (hr.1.raise _), nofun⟩
  · exact ⟨keeps h he hr.1, fun _ => hr.2 rfl⟩

theorem alloc_serves (ho : o.WellFormed V s.heap)
    (hw : ∀ {heap w}, heap.deref? w = some o → (wellFormed V K).Fits heap mode w) :
    (wellFormed V K).Serves mode (Serve.report (s.alloc o)) :=
  serves h (s.evolves_alloc o).report ((h.1.alloc ho).mono hw)

theorem serves_same {r : Except Failure Word}
    (hw : ∀ {w}, r = .ok w → (wellFormed V K).Fits s.heap mode w) :
    (wellFormed V K).Serves mode (Serve.report (r, s)) :=
  serves h (Store.Evolves.report (.refl (fun _ => True) s)) ⟨h.1, hw⟩

theorem binary (op : BinaryOp) (left right : Word) :
    (wellFormed V K).Serves .value (Serve.binary op left right s) := by
  unfold Serve.binary Store.binary
  have hs : ∀ {w : Word}, V.Has s.heap w →
      (wellFormed V K).Serves .value (Serve.report (.ok w, s)) :=
    fun hw => serves_same h fun heq => Except.ok.inj heq ▸ hw
  split
  · exact hs (V.truth _)
  · exact hs (V.truth _)
  · split
    · exact hs (V.arithmetic _ _ _)
    · split
      · unfold Store.concatenate
        split
        · exact alloc_serves h trivial fun hd => V.object hd nofun
        · exact serves_same h nofun
      · exact serves_same h nofun

theorem negate (w : Word) : (wellFormed V K).Serves .value (Serve.negate w s) := by
  refine serves_same h fun {v} hv => ?_
  unfold Store.negate at hv
  split at hv
  · cases hv
    exact V.canonical (.of_number _)
  · cases hv

theorem globalGet (slot : Nat) : (wellFormed V K).Serves .value (Serve.globalGet slot s) := by
  refine serves_same h fun {v} hv => ?_
  unfold Store.getGlobal at hv
  split at hv
  · next hs =>
    cases hv
    exact h.1.globals hs
  · cases hv

theorem globalSet (slot : Nat) (hw : V.Has s.heap w) :
    (wellFormed V K).Keeps (Serve.globalSet slot w s).2 := by
  refine keeps h (Serve.evolves_globalSet slot w fun _ => True) ?_
  unfold Serve.globalSet Store.setGlobal
  split
  · exact h.1.putSlot slot hw
  · exact h.1.raise _

theorem newCell (hw : V.Has s.heap w) : (wellFormed V K).Serves .cell (Serve.newCell w s) :=
  alloc_serves h hw fun hd => ⟨w, hd⟩

theorem cellGet (c : Word) : V.Has s.heap (s.cellValue c) := by
  unfold Store.cellValue
  split
  · next hd => exact h.1.heap.deref? hd
  · exact V.nil

theorem cellSet (c : Word) (hw : V.Has s.heap w) :
    (wellFormed V K).Keeps (Serve.cellSet c w s).2 := by
  have he := Serve.evolves_cellSet (s := s) c w fun _ => True
  refine keeps h he (h.1.withHeap ?_ he.heap)
  unfold Heap.setCell
  split
  · next v hd => exact h.1.heap.put (Heap.getElem?_objectIndex hd) (.cell v w) hw
  · exact h.1.heap

theorem makeClosure (prototype : Nat) (entry : Entry)
    {cells : Array Word} (hc : ∀ c ∈ cells, s.heap.IsCell c ∨ c = .zero) :
    (wellFormed V K).Serves .closure (Serve.makeClosure prototype entry cells s) := by
  unfold Serve.makeClosure Store.makeClosure
  split
  · exact alloc_serves h hc fun hd => ⟨_, hd⟩
  · exact serves_same h nofun

end

theorem get?_payload (h : heap.deref? w = some o) : heap.get? ⟨w.payload⟩ = some o := by
  obtain ⟨i, hi, rfl, ho⟩ := Heap.deref?_eq_some.mp h
  rw [Word.payload_ofIndex hi, Heap.get?_ofNat heap hi, ho]

theorem prepareCall_sound (h : s.Sound V) (callee : Word) (count : Nat) :
    SoundResult V (fun heap target => V.Has heap target.receiver)
      (s.prepareCall callee count) := by
  have hnew : ∀ {c}, s.heap.deref? callee = some (.ofClass c) →
      Object.WellFormed V s.heap (.ofInstance { classHandle := ⟨callee.payload⟩ }) :=
    fun hc => ⟨⟨_, get?_payload hc⟩, fun w hw => absurd hw (Array.not_mem_empty w)⟩
  have hcre : ∀ {c created s'}, s.heap.deref? callee = some (.ofClass c) →
      s.alloc (.ofInstance { classHandle := ⟨callee.payload⟩ }) = (.ok created, s') →
        V.Has s'.heap created := by
    intro c created s' hc ha
    have hm := h.alloc (hnew hc)
    rw [ha] at hm
    exact V.object (hm.2 rfl) nofun
  constructor
  · rcases s.prepareCall_snd callee count with heq | ⟨⟨c, hc⟩, heq⟩ <;> rw [heq]
    · exact h
    · exact (h.alloc (hnew hc)).1
  · cases hp : s.prepareCall callee count with
    | mk result s' =>
      rintro target rfl
      cases Store.prepareCall_prepared hp with
      | closure | native => exact V.nil
      | bound hd => exact (h.heap.deref? hd).1
      | plain hd _ ha | initialized hd _ ha => exact hcre hd ha

theorem prepareCall (h : (wellFormed V K).Keeps s) (callee : Word) (count : Nat) :
    (wellFormed V K).Keeps (Serve.prepareCall callee count s).2 ∧
      ∀ {target}, (Serve.prepareCall callee count s).1 = some target →
        V.Has (Serve.prepareCall callee count s).2.heap target.receiver := by
  obtain ⟨hs, hr⟩ := prepareCall_sound h.1 callee count
  constructor
  · refine keeps h (Serve.evolves_prepareCall callee count) ?_
    unfold Serve.prepareCall
    split <;> next heq =>
      rw [heq] at hs
      exact hs.congr rfl rfl
  · intro target ht
    have heq := Serve.prepareCall_eq_some ht
    rw [heq] at hr
    exact hr rfl

theorem slot (h : Object.WellFormed V heap (.ofInstance i)) (slot : Nat) :
    V.Has heap (i.slots[slot]?.getD .nil) := by
  cases hs : i.slots[slot]? with
  | none => exact V.nil
  | some w => exact h.2 w (Array.mem_of_getElem? hs)

theorem method (h : heap.Sound V) {handle : Handle} {name : Symbol}
    (hm : (heap.class? handle).bind (·.method? name) = some w) : heap.IsClosure w := by
  obtain ⟨c, hc, hw⟩ := Option.bind_eq_some_iff.mp hm
  unfold Heap.class? Heap.get? at hc
  split at hc
  · next hget =>
    cases hc
    split at hget
    · exact h.objects hget name w hw
    · cases hget
  · cases hc

theorem getProperty (h : (wellFormed V K).Keeps s) (hobj : V.Has s.heap object)
    (name : Symbol) (site : Nat) :
    (wellFormed V K).Serves .value (Serve.getProperty object name site s) := by
  have hmiss := h.1.modifySite site Site.miss
  refine serves h (Serve.evolves_getProperty object name site) ?_
  unfold Store.getProperty
  dsimp only
  split
  · exact .fails hmiss
  · next hi =>
    split
    · refine ⟨hmiss.modifySite site _, fun hw => ?_⟩
      cases hw
      exact slot (h.1.heap.deref? (Heap.instance?_eq_some hi).1) _
    · split
      · next hm => exact hmiss.bind hobj (method hmiss.heap hm)
      · exact .fails hmiss

theorem setField (h : Object.WellFormed V heap (.ofInstance i)) (shapes : Shapes) (name : Symbol)
    (hw : V.Has heap w) :
    Object.WellFormed V heap (.ofInstance (i.setField shapes name w).2.1) ∧
      (i.setField shapes name w).2.1.classHandle = i.classHandle := by
  have hs : ∀ {slots : Array Word}, (∀ v ∈ slots, v ∈ i.slots ∨ v = w) →
      ∀ v ∈ slots, V.Has heap v :=
    fun hsub v hv => (hsub v hv).elim (h.2 v) fun heq => heq ▸ hw
  unfold Instance.setField
  split
  · exact ⟨⟨h.1, hs fun _ => Array.mem_or_eq_of_mem_setIfInBounds⟩, rfl⟩
  · exact ⟨⟨h.1, hs fun _ => Array.mem_push.mp⟩, rfl⟩

variable (h : (wellFormed V K).Keeps s)

include h

theorem setProperty (object : Word) (name : Symbol) (hw : V.Has s.heap w) (site : Nat) :
    (wellFormed V K).Serves .value (Serve.setProperty object name w site s) := by
  refine serves h (Serve.evolves_setProperty object name w site fun _ => True) ?_
  unfold Store.setProperty
  split
  · exact .fails h.1
  · next index i hi =>
    obtain ⟨hd, rfl⟩ := Heap.instance?_eq_some hi
    obtain ⟨hwf, hcls⟩ := setField (h.1.heap.deref? hd) s.shapes name hw
    have ho := Heap.getElem?_objectIndex hd
    have he := Heap.evolves_put ho (.ofInstance hcls) fun _ => True
    have hst := h.1.withHeap (h.1.heap.put ho (.ofInstance hcls) hwf) he
    dsimp only
    refine ⟨?_, fun hv => ?_⟩
    · split <;> exact hst.congr rfl rfl
    · have hh := V.retained hw he.toRetains
      cases hv
      split <;> exact hh

theorem getCached {slot : Nat} (hc : s.cached? object site = some (i, slot)) :
    (wellFormed V K).Keeps (s.getCached i slot site).2 ∧
      V.Has s.heap (s.getCached i slot site).1 := by
  obtain ⟨_, ho, _⟩ := Store.cached?_eq_some hc
  exact ⟨⟨h.1.modifySite site _, h.2⟩, WellFormed.slot (h.1.heap.objects ho) slot⟩

theorem setCached {slot : Nat}
    (hc : s.cached? object site = some (i, slot)) (hw : V.Has s.heap w) :
    (wellFormed V K).Keeps (s.setCached object i slot w site) := by
  have he := Store.evolves_setCached hc w fun _ => True
  obtain ⟨_, ho, _⟩ := Store.cached?_eq_some hc
  have hwf := h.1.heap.objects ho
  refine keeps h he (Store.Sound.modifySite (h.1.withHeap ?_ he.heap) site _)
  refine h.1.heap.put ho (.ofInstance rfl) ⟨hwf.1, fun v hv => ?_⟩
  rcases Array.mem_or_eq_of_mem_setIfInBounds hv with hv | rfl
  · exact hwf.2 v hv
  · exact hw

theorem newClass (name : Symbol) (sup : Option Word) :
    (wellFormed V K).Serves .value (Serve.newClass name sup s) := by
  unfold Serve.newClass Store.newClass
  split
  · next methods hinh =>
    have ho : Object.WellFormed V s.heap (.ofClass ⟨name, methods⟩) := by
      intro other w hw
      cases sup with
      | none =>
        cases hinh
        cases hw
      | some sup =>
        rw [Store.inherited] at hinh
        split at hinh
        · next hd =>
          cases hinh
          exact h.1.heap.deref? hd other w hw
        · cases hinh
    exact alloc_serves h ho fun hd => V.object hd nofun
  · exact serves_same h nofun

theorem addMethod (w : Word) (name : Symbol) {method : Word} (hm : s.heap.IsClosure method) :
    (wellFormed V K).Keeps (Serve.addMethod w name method s).2 := by
  refine keeps h (Serve.evolves_addMethod w name method fun _ => True) ?_
  rw [Serve.addMethod, Store.addMethod_eq]
  split
  · next c hd =>
    have ho := Heap.getElem?_objectIndex hd
    have hb : (Object.ofClass c).Becomes (.ofClass (c.addMethod name method)) := .ofClass rfl
    refine h.1.withHeap (h.1.heap.put ho hb fun other v hv => ?_)
      (Heap.evolves_put ho hb fun _ => True)
    simp only [Class.method?, Class.addMethod, Table.get?_insert] at hv
    split at hv
    · cases hv
      exact hm
    · exact h.1.heap.objects ho other v hv
  · exact h.1

theorem getSuper (sup : Word) (hr : V.Has s.heap recv)
    (name : Symbol) : (wellFormed V K).Serves .value (Serve.getSuper sup recv name s) := by
  unfold Serve.getSuper Store.getSuper
  dsimp only
  split
  · next method hm =>
    have hclo : s.heap.IsClosure method := by
      split at hm
      · next hd => exact h.1.heap.deref? hd name method hm
      · cases hm
    exact serves h (s.evolves_alloc _).report (h.1.bind hr hclo)
  · exact serves_same h nofun

end Discipline.WellFormed

theorem Discipline.wellFormed_lawful {K : Known} {host : Host} [host.Attached]
    (hnow : host.now.Canonical) : (wellFormed V K).Lawful K host where
  attached := host.attached_eq
  evolves := by
    intro fresh h h' mode w he hw
    cases mode with
    | value => exact V.retained hw he.toRetains
    | cell => exact Heap.IsCell.retained hw he.toRetains
    | closure => exact Heap.IsClosure.retained hw he.toRetains
    | done => trivial
  boxes_evolves he hw := hw.imp_left (·.retained he.toRetains)
  done := trivial
  nil := V.nil
  zero := V.zero
  truth := V.truth _
  now := V.canonical hnow
  arithmetic := V.arithmetic _ _ _
  flipSign hp hw := V.flipSign hw hp
  constant h hw := h.2 hw
  closure_value hw := V.closure hw
  cell_boxes hw := .inl hw
  zero_boxes := .inr rfl
  depth _ h := ⟨h.1.congr rfl rfl, h.2⟩
  raise e h := ⟨h.1.raise e, h.2⟩
  print h := WellFormed.keeps h (Serve.evolves_print _ fun _ => True) (by
    unfold Serve.print Store.print
    split
    · exact h.1
    · exact h.1.congr rfl rfl)
  binary h := WellFormed.binary h _ _ _
  negate h := WellFormed.negate h _
  globalGet h := WellFormed.globalGet h _
  globalSet h hw := WellFormed.globalSet h _ hw
  globalDefine h hw := ⟨h.1.putSlot _ hw, h.2⟩
  newCell h hw := WellFormed.newCell h hw
  cellGet h _ := WellFormed.cellGet h _
  cellSet h _ hw := WellFormed.cellSet h _ hw
  closureCell h hd hi := h.1.heap.deref? hd _ (Array.mem_of_getElem? hi)
  makeClosure h hc := WellFormed.makeClosure h _ _ hc
  prepareCall h _ := WellFormed.prepareCall h _ _
  getProperty h _ ho := WellFormed.getProperty h ho _ _
  getCached h hc := WellFormed.getCached h hc
  setProperty h _ hw := WellFormed.setProperty h _ _ hw _
  setCached h hc hw := WellFormed.setCached h hc hw
  newClass h := WellFormed.newClass h _ _
  addMethod h hm := WellFormed.addMethod h _ _ hm
  getSuper h hr := WellFormed.getSuper h _ hr _

end ScriptMachine
