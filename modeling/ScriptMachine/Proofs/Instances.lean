/-
ScriptMachine.Proofs.Instances — instances are maps that keep the order of
insertion.
-/
import ScriptMachine.Proofs.Footprints

namespace ScriptMachine

/-- Instances that share one tree of layouts. -/
structure Pool where
  shapes : Shapes
  instances : Array Instance

/-- What is asked of the instance `k`. -/
inductive Access where
  | set (k : Nat) (field : Symbol) (value : Word)
  | get (k : Nat) (field : Symbol)

namespace Pool

/-- Instances of some classes, none of which has a field yet. -/
def start (shapes : Shapes) (classes : Array Handle) : Pool where
  shapes := shapes
  instances := classes.map fun handle => { classHandle := handle }

def set (pool : Pool) (k : Nat) (field : Symbol) (value : Word) : Pool :=
  match pool.instances[k]? with
  | some i =>
    let (_, i, shapes) := i.setField pool.shapes field value
    { shapes := shapes, instances := pool.instances.setIfInBounds k i }
  | none => pool

def step (pool : Pool) : Access → Pool
  | .set k field value => pool.set k field value
  | .get _ _ => pool

/-- The instances after a history of accesses. -/
def after (pool : Pool) (history : List Access) : Pool := history.foldl step pool

end Pool

namespace Access

variable {a : Access}

def assigned? (k : Nat) : Access → Option Symbol
  | .set j field _ => if j = k then some field else none
  | .get _ _ => none

def value? (k : Nat) (field : Symbol) : Access → Option Word
  | .set j name value => if j = k ∧ name = field then some value else none
  | .get _ _ => none

/-- The fields assigned to the instance `k`, in the order of their first
assignment. -/
def order (k : Nat) (history : List Access) : List Symbol :=
  (history.filterMap (assigned? k)).eraseDups

/-- The value assigned last to a field of the instance `k`. -/
def last? (k : Nat) (field : Symbol) (history : List Access) : Option Word :=
  history.reverse.findSome? (value? k field)

variable {k : Nat} {history : List Access}

theorem order_isPrefix (k : Nat) (history later : List Access) :
    order k history <+: order k (history ++ later) := by
  rw [order, order, List.filterMap_append, List.eraseDups_append]
  exact List.prefix_append _ _

theorem order_eq_foldl (k : Nat) (history : List Access) :
    order k history = (history.filterMap (assigned? k)).foldl Shapes.withField [] := by
  simp [order, Shapes.foldl_withField]

theorem order_set (k : Nat) (history : List Access) (field : Symbol) (value : Word) :
    order k (history ++ [.set k field value]) = Shapes.withField (order k history) field := by
  simp [order_eq_foldl, assigned?]

theorem order_of_assigned?_eq_none (h : a.assigned? k = none) :
    order k (history ++ [a]) = order k history := by
  simp [order, h]

theorem last?_append (field : Symbol) (a : Access) :
    last? k field (history ++ [a]) = (a.value? k field).or (last? k field history) := by
  simp [last?, List.findSome?_cons]
  cases a.value? k field <;> rfl

theorem value?_eq_none_of_assigned? (h : a.assigned? k = none) (field : Symbol) :
    a.value? k field = none := by
  cases a with
  | get j name => rfl
  | set j name value =>
    have hne : j ≠ k := by
      rintro rfl
      simp [assigned?] at h
    simp [value?, hne]

end Access

namespace Instance

variable {shapes shapes' : Shapes} {i : Instance}

theorem setField_slot (h : i.Laid shapes) (hs : shapes.Linked) (field : Symbol) (value : Word) :
    (Shapes.withField (shapes.fields i.shape) field).idxOf? field =
      some (i.setField shapes field value).1 := by
  unfold setField
  cases hslot : shapes.slot? i.shape field with
  | some slot =>
    have hmem : field ∈ shapes.fields i.shape := hs.slot?_isSome.mp (by rw [hslot]; rfl)
    rw [Shapes.withField, if_pos hmem, ← hs.slot_eq, hslot]
  | none =>
    have hmem := hs.slot?_eq_none.mp hslot
    rw [Shapes.withField, if_neg hmem, Shapes.Linked.idxOf?_append_singleton _ _ _ hmem, if_pos rfl,
      ← h.slots]

theorem field?_keeps (h : i.Laid shapes) (hs : shapes.Linked) (hk : shapes.Keeps shapes')
    (field : Symbol) : i.field? shapes' field = i.field? shapes field := by
  rw [field?, field?, hk.linked.slot_eq, hs.slot_eq, hk.fields h.shape_lt]

end Instance

namespace Pool

variable {pool : Pool} {history : List Access}

structure Told (shapes : Shapes) (k : Nat) (history : List Access) (i : Instance) : Prop where
  laid : i.Laid shapes
  fields : shapes.fields i.shape = Access.order k history
  value : ∀ field, i.field? shapes field = Access.last? k field history

structure Tells (pool : Pool) (history : List Access) : Prop where
  linked : pool.shapes.Linked
  told : ∀ {k i}, pool.instances[k]? = some i → Told pool.shapes k history i

namespace Told

variable {shapes shapes' : Shapes} {k : Nat} {i : Instance}

theorem other (h : Told shapes k history i) (hs : shapes.Linked) (hk : shapes.Keeps shapes')
    {a : Access} (ha : a.assigned? k = none) : Told shapes' k (history ++ [a]) i where
  laid := h.laid.mono hk
  fields := by rw [hk.fields h.laid.shape_lt, h.fields, Access.order_of_assigned?_eq_none ha]
  value field := by
    rw [Instance.field?_keeps h.laid hs hk, h.value, Access.last?_append,
      Access.value?_eq_none_of_assigned? ha, Option.none_or]

theorem setField (h : Told shapes k history i) (hs : shapes.Linked) (field : Symbol)
    (value : Word) :
    Told (i.setField shapes field value).2.2 k (history ++ [.set k field value])
      (i.setField shapes field value).2.1 := by
  obtain ⟨_, hl, hwri⟩ := Instance.setField_written h.laid hs field value
  cases hwri with
  | field _ hf hsame hoth =>
    refine ⟨hl, ?_, fun name => ?_⟩
    · rw [hf, h.fields, Access.order_set]
    · rw [Access.last?_append]
      by_cases hn : name = field
      · subst hn
        simp [hsame, Access.value?]
      · simp [hoth hn, h.value, Access.value?, Ne.symm hn]

end Told

theorem Tells.set (h : pool.Tells history) (k : Nat) (field : Symbol) (value : Word) :
    (pool.set k field value).Tells (history ++ [.set k field value]) := by
  unfold Pool.set
  cases hk : pool.instances[k]? with
  | none =>
    refine ⟨h.linked, fun {j i} hi => (h.told hi).other h.linked (.refl h.linked) ?_⟩
    have hne : k ≠ j := by
      rintro rfl
      simp [hk] at hi
    simp [Access.assigned?, hne]
  | some i =>
    have ht := h.told hk
    obtain ⟨hkeeps, -, -⟩ := Instance.setField_written ht.laid h.linked field value
    refine ⟨hkeeps.linked, fun {j i'} hi => ?_⟩
    by_cases hjk : k = j
    · subst hjk
      have hlt : k < pool.instances.size := (Array.getElem?_eq_some_iff.1 hk).1
      rw [Array.getElem?_setIfInBounds_self_of_lt hlt] at hi
      obtain rfl := Option.some.inj hi
      exact ht.setField h.linked field value
    · rw [Array.getElem?_setIfInBounds_ne hjk] at hi
      exact (h.told hi).other h.linked hkeeps (by simp [Access.assigned?, hjk])

theorem Tells.step (h : pool.Tells history) (a : Access) :
    (pool.step a).Tells (history ++ [a]) := by
  cases a with
  | set k field value => exact h.set k field value
  | get k field =>
    exact ⟨h.linked, fun hi => (h.told hi).other h.linked (.refl h.linked) rfl⟩

theorem Tells.after (h : pool.Tells history) (later : List Access) :
    (pool.after later).Tells (history ++ later) := by
  induction later generalizing pool history with
  | nil => simpa [Pool.after] using h
  | cons a later ih =>
    have hl := ih (h.step a)
    rwa [List.append_assoc] at hl

theorem tells_start {shapes : Shapes} (h : shapes.Linked) (classes : Array Handle) :
    (start shapes classes).Tells [] where
  linked := h
  told {k i} hi := by
    rw [start, Array.getElem?_map, Option.map_eq_some_iff] at hi
    obtain ⟨handle, -, rfl⟩ := hi
    have hf : shapes.fields Shapes.root = [] := h.fields_root
    refine ⟨.start h handle, hf, fun field => ?_⟩
    have hs : shapes.slot? Shapes.root field = none := by
      rw [h.slot_eq, hf]
      rfl
    show (shapes.slot? Shapes.root field).bind _ = none
    rw [hs]
    rfl

theorem step_classes (pool : Pool) (a : Access) (k : Nat) :
    (pool.step a).instances[k]?.map (·.classHandle) =
      pool.instances[k]?.map (·.classHandle) := by
  cases a with
  | get j field => rfl
  | set j field value =>
    rw [step, set]
    cases hj : pool.instances[j]? with
    | none => rfl
    | some i =>
      have hcls := i.setField_classHandle pool.shapes field value
      by_cases hjk : j = k
      · subst hjk
        have hlt : j < pool.instances.size := (Array.getElem?_eq_some_iff.1 hj).1
        rw [Array.getElem?_setIfInBounds_self_of_lt hlt, hj]
        exact congrArg some hcls
      · simp [Array.getElem?_setIfInBounds_ne hjk]

theorem after_classes (pool : Pool) (history : List Access) (k : Nat) :
    (pool.after history).instances[k]?.map (·.classHandle) =
      pool.instances[k]?.map (·.classHandle) := by
  induction history generalizing pool with
  | nil => rfl
  | cons a history ih => exact (ih (pool.step a)).trans (pool.step_classes a k)

/-- **Instances are maps that keep the order of insertion.** Any instances start
without fields, over any tree of layouts, and any fields of them are read and
written in any order. Then each is still of its class, and has a slot for each
field of its layout, no more and no less. These are the fields assigned to it, in
the order of their first assignment; each has the value assigned last, and others
have none. The slot of a field is its place in that order, so it is in range. It
is what an assignment returns, and stays what it is whatever comes later. Two
instances have one shape exactly if the same fields were first assigned to them
in the same order. -/
theorem instances_are_ordered_maps {shapes : Shapes} (h : shapes.Reachable)
    (classes : Array Handle) (history : List Access) :
    let pool := (start shapes classes).after history
    (∀ k : Nat, pool.instances[k]?.map (·.classHandle) = classes[k]?) ∧
    ∀ (k : Nat) (i : Instance), pool.instances[k]? = some i →
      i.slots.size = (pool.shapes.fields i.shape).length ∧
      pool.shapes.fields i.shape = Access.order k history ∧
      (∀ field, i.field? pool.shapes field = Access.last? k field history) ∧
      (∀ field, pool.shapes.slot? i.shape field = (Access.order k history).idxOf? field) ∧
      (∀ field slot, pool.shapes.slot? i.shape field = some slot → slot < i.slots.size) ∧
      (∀ field value later,
        (Access.order k (history ++ .set k field value :: later)).idxOf? field =
          some (i.setField pool.shapes field value).1) ∧
      ∀ (j : Nat) (i' : Instance), pool.instances[j]? = some i' →
        (i.shape = i'.shape ↔ Access.order k history = Access.order j history) := by
  intro pool
  have htells : pool.Tells history := (tells_start h.linked classes).after history
  have hl := htells.linked
  refine ⟨fun k => ?_, fun k i hi => ?_⟩
  · rw [after_classes, start]
    simp [Function.comp_def]
  · have ht := htells.told hi
    refine ⟨ht.laid.slots, ht.fields, ht.value, ?_, ?_, ?_, ?_⟩
    · intro field
      rw [hl.slot_eq, ht.fields]
    · intro field slot hs
      exact ht.laid.slot_lt hl hs
    · intro field value later
      have hs := Instance.setField_slot ht.laid hl field value
      rw [ht.fields, ← Access.order_set k history field value] at hs
      have hpre := Access.order_isPrefix k (history ++ [.set k field value]) later
      rw [List.append_assoc] at hpre
      exact hpre.findIdx?_eq_some hs
    · intro j i' hi'
      have ht' := htells.told hi'
      rw [← ht.fields, ← ht'.fields]
      exact ⟨fun heq => by rw [heq], hl.eq_of_fields_eq ht.laid.shape_lt ht'.laid.shape_lt⟩

/-- Two instances are given the same two fields, the second in the other order,
over a tree that has one of the layouts already. -/
theorem instances_are_ordered_maps_two :
    let shapes := (({} : Shapes).extend Shapes.root 8).2
    let history : List Access :=
      [.set 0 7 (.ofNumber 0), .set 1 8 .nil, .set 0 8 (.ofBool true), .set 1 7 .nil, .get 0 7,
        .set 0 7 .nil]
    let pool := (start shapes #[⟨1⟩, ⟨1⟩]).after history
    ∃ i j, pool.instances[0]? = some i ∧ pool.instances[1]? = some j ∧
      pool.shapes.fields i.shape = [7, 8] ∧ i.slots.size = 2 ∧ i.field? pool.shapes 7 = some .nil ∧
      i.shape ≠ j.shape := by
  intro shapes history pool
  have hr : shapes.Reachable := .extend 8 .initial (by decide)
  have hall := (instances_are_ordered_maps hr #[⟨1⟩, ⟨1⟩] history).2
  have hi : ∃ i, pool.instances[0]? = some i := Option.isSome_iff_exists.mp (by decide +kernel)
  have hj : ∃ i, pool.instances[1]? = some i := Option.isSome_iff_exists.mp (by decide +kernel)
  obtain ⟨i, hi⟩ := hi
  obtain ⟨j, hj⟩ := hj
  obtain ⟨hsize, hf, hval, -, -, -, hshape⟩ := hall 0 i hi
  have hs : Access.order 0 history = [7, 8] := by decide +kernel
  refine ⟨i, j, hi, hj, hf.trans hs, ?_, ?_, ?_⟩
  · rw [hsize, hf, hs]
    rfl
  · rw [hval]
    decide +kernel
  · rw [Ne, hshape 1 j hj, hs]
    decide +kernel

end Pool

end ScriptMachine
