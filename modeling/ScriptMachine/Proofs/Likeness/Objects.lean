/-
ScriptMachine.Proofs.Likeness.Objects — objects of two heaps that are the same.
-/
import ScriptMachine.Proofs.Evolution
import Mathlib.Data.List.Forall2
import Mathlib.Data.Option.Basic

namespace ScriptMachine

/-! ## §1 Words -/

def Word.Atomic (w : Word) : Prop := w.Canonical ∨ w = .nil ∨ ∃ b, w = .ofBool b

namespace Word.Atomic

variable {w : Word}

theorem canonical (h : w.Canonical) : w.Atomic := .inl h

theorem nil : Word.nil.Atomic := .inr (.inl rfl)

theorem ofBool (b : Bool) : (Word.ofBool b).Atomic := .inr (.inr ⟨b, rfl⟩)

theorem isObject (h : w.Atomic) : w.isObject = false := by
  rcases h with h | rfl | ⟨b, rfl⟩
  · exact h.isObject
  · decide
  · cases b <;> decide

theorem arithmetic (op : BinaryOp) (a b : UInt64) : (ScriptMachine.arithmetic op a b).Atomic := by
  cases op with
  | add | subtract | multiply | divide => exact canonical (.of_float _)
  | equal | notEqual | less | lessEqual | greater | greaterEqual => exact ofBool _

end Word.Atomic

theorem Heap.deref?_of_isObject (heap : Heap) {w : Word} (h : w.isObject = false) :
    heap.deref? w = none := by
  cases hd : heap.deref? w with
  | none => rfl
  | some o => cases h.symm.trans (Heap.isObject_of_deref? hd)

theorem Heap.size_put (heap : Heap) (index : Nat) (o : Object) :
    (heap.put index o).size = heap.size :=
  Array.size_setIfInBounds

abbrev Pairing := Nat → Nat → Prop

namespace Pairing

variable {xs ys : Array Word}

def add (P : Pairing) (i j : Nat) : Pairing := fun a b => P a b ∨ a = i ∧ b = j

def Opposes (P : Pairing) (w : Word) : Prop :=
  w.isPlain = true → Word.isObject ⟨Number.flipSign w.bits⟩ = true →
    ∃ i, i < 0x100000000 ∧ P i i ∧ Word.mk (Number.flipSign w.bits) = .ofIndex i

inductive Same (P : Pairing) : Word → Word → Prop
  | other {w : Word} : w.isObject = false → P.Opposes w → P.Same w w
  | object {i j : Nat} : i < 0x100000000 → j < 0x100000000 → P i j →
      P.Same (.ofIndex i) (.ofIndex j)

namespace Same

variable {P Q : Pairing} {v v' w w' : Word}

theorem mono (h : P.Same w w') (hle : ∀ {i j}, P i j → Q i j) : Q.Same w w' := by
  cases h with
  | other hw hopp =>
    exact .other hw fun hp hobj => (hopp hp hobj).imp fun _ hi =>
      ⟨hi.1, hle hi.2.1, hi.2.2⟩
  | object hi hj ho => exact .object hi hj (hle ho)

theorem atom (h : w.Atomic) : P.Same w w := by
  refine .other h.isObject fun hp hobj => ?_
  have hcan : w.Canonical := by
    rcases h with h | rfl | ⟨b, rfl⟩
    · exact h
    · exact absurd hp (by decide)
    · cases b <;> exact absurd hp (by decide)
  rw [(hcan.flipSign hp).isObject] at hobj
  cases hobj

theorem nil : P.Same .nil .nil := atom .nil

variable (h : P.Same w w')

include h

theorem tag_eq : w'.tag = w.tag := by
  cases h with
  | other => rfl
  | object hi hj _ => rw [Word.tag_ofIndex hi, Word.tag_ofIndex hj]

theorem isNumber_eq : w'.isNumber = w.isNumber := by
  rw [Word.isNumber, Word.isNumber, h.tag_eq]

theorem isFalsy_eq : w'.isFalsy = w.isFalsy := by
  cases h with
  | other => rfl
  | object hi hj _ => rw [Word.isFalsy_ofIndex hi, Word.isFalsy_ofIndex hj]

theorem isPlain_eq : w'.isPlain = w.isPlain := by
  cases h with
  | other => rfl
  | object hi hj _ => rw [Word.isPlain_ofIndex hi, Word.isPlain_ofIndex hj]

theorem eq_of_isNumber (hn : w.isNumber = true) : w' = w := by
  cases h with
  | other => rfl
  | object hi _ _ =>
    rw [Word.isNumber_ofIndex hi] at hn
    cases hn

theorem flipSign (hp : w.isPlain = true) :
    P.Same ⟨Number.flipSign w.bits⟩ ⟨Number.flipSign w'.bits⟩ := by
  cases h with
  | other hw hopp =>
    cases hobj : Word.isObject ⟨Number.flipSign w.bits⟩ with
    | true =>
      obtain ⟨i, hi, ho, heq⟩ := hopp hp hobj
      rw [heq]
      exact .object hi hi ho
    | false =>
      refine .other hobj fun _ hb => ?_
      simp only [Number.flipSign_flipSign] at hb
      cases hw.symm.trans hb
  | object hi _ _ =>
    rw [Word.isPlain_ofIndex hi] at hp
    cases hp

end Same

/-! ## §2 Parts -/

structure Slots (P : Pairing) (xs ys : Array Word) : Prop where
  size : ys.size = xs.size
  value : ∀ k : Nat, Option.Rel P.Same xs[k]? ys[k]?

def Handles (P : Pairing) (h h' : Handle) : Prop :=
  ∃ i j, i < 0x100000000 ∧ j < 0x100000000 ∧ P i j ∧ h = ⟨UInt64.ofNat i⟩ ∧ h' = ⟨UInt64.ofNat j⟩

variable {P Q : Pairing} {w w' : Word}

theorem Same.option {a b : Option Word} (h : Option.Rel P.Same a b)
    (hle : ∀ {i j}, P i j → Q i j) : Option.Rel Q.Same a b := by
  cases h with
  | some hs => exact .some (hs.mono hle)
  | none => exact .none

theorem Slots.mono (h : P.Slots xs ys) (hle : ∀ {i j}, P i j → Q i j) : Q.Slots xs ys :=
  ⟨h.size, fun k => Same.option (h.value k) hle⟩

theorem Handles.mono {h h' : Handle} (hh : P.Handles h h') (hle : ∀ {i j}, P i j → Q i j) :
    Q.Handles h h' := by
  obtain ⟨i, j, hi, hj, ho, rfl, rfl⟩ := hh
  exact ⟨i, j, hi, hj, hle ho, rfl, rfl⟩

theorem Slots.getD (h : P.Slots xs ys) (k : Nat) :
    P.Same (xs[k]?.getD .nil) (ys[k]?.getD .nil) := by
  have hk := h.value k
  generalize xs[k]? = a, ys[k]? = b at hk
  cases hk with
  | some hs => exact hs
  | none => exact .nil

theorem Slots.set (h : P.Slots xs ys) (k : Nat) (hw : P.Same w w') :
    P.Slots (xs.setIfInBounds k w) (ys.setIfInBounds k w') where
  size := by rw [Array.size_setIfInBounds, Array.size_setIfInBounds, h.size]
  value i := by
    rw [Array.getElem?_setIfInBounds, Array.getElem?_setIfInBounds, h.size]
    split
    · split
      · exact .some hw
      · exact .none
    · exact h.value i

theorem Slots.push (h : P.Slots xs ys) (hw : P.Same w w') :
    P.Slots (xs.push w) (ys.push w') where
  size := by rw [Array.size_push, Array.size_push, h.size]
  value i := by
    rw [Array.getElem?_push, Array.getElem?_push, h.size]
    split
    · exact .some hw
    · exact h.value i

theorem Handles.of_same (h : P.Same w w') (hobj : w.isObject = true) :
    P.Handles ⟨w.payload⟩ ⟨w'.payload⟩ := by
  cases h with
  | other ha _ =>
    rw [ha] at hobj
    cases hobj
  | @object i j hi hj ho =>
    exact ⟨i, j, hi, hj, ho, by rw [Word.payload_ofIndex hi], by rw [Word.payload_ofIndex hj]⟩

end Pairing

/-! ## §3 Tables -/

structure Match where
  object : Pairing
  symbol : Symbol → Symbol → Prop
  closure : Closure → Closure → Prop
  symbol_iff : ∀ {a a' b b'}, symbol a a' → symbol b b' → (a' = b' ↔ a = b)

namespace Match

structure Le (M M' : Match) : Prop where
  object : ∀ {i j}, M.object i j → M'.object i j
  symbol : ∀ {a a'}, M.symbol a a' → M'.symbol a a'
  closure : ∀ {c c'}, M.closure c c' → M'.closure c c'

abbrev Same (M : Match) := M.object.Same

def Tables {ν ν' : Type} (M : Match) (R : ν → ν' → Prop) : Table Symbol ν →
    Table Symbol ν' → Prop :=
  List.Forall₂ fun e e' => M.symbol e.1 e'.1 ∧ R e.2 e'.2

variable {M M' : Match} {name name' : Symbol}

namespace Tables

variable {ν ν' : Type} {R : ν → ν' → Prop} {xs : Table Symbol ν} {ys : Table Symbol ν'}

theorem get? (h : M.Tables R xs ys) (hn : M.symbol name name') :
    Option.Rel R (xs.get? name) (ys.get? name') := by
  induction h with
  | nil => exact .none
  | @cons x y xs ys hxy _ ih =>
    obtain ⟨k, v⟩ := x
    obtain ⟨k', v'⟩ := y
    have hkey : k' = name' ↔ k = name := M.symbol_iff hxy.1 hn
    unfold Table.get?
    by_cases hk : k = name
    · rw [if_pos hk, if_pos (hkey.mpr hk)]
      exact .some hxy.2
    · rw [if_neg hk, if_neg fun hk' => hk (hkey.mp hk')]
      exact ih

theorem insert (h : M.Tables R xs ys) (hn : M.symbol name name') {v : ν} {v' : ν'}
    (hv : R v v') : M.Tables R (xs.insert name v) (ys.insert name' v') := by
  induction h with
  | nil => exact .cons ⟨hn, hv⟩ .nil
  | @cons x y xs ys hxy hr ih =>
    obtain ⟨k, a⟩ := x
    obtain ⟨k', a'⟩ := y
    have hkey : k' = name' ↔ k = name := M.symbol_iff hxy.1 hn
    unfold Table.insert
    by_cases hk : k = name
    · rw [if_pos hk, if_pos (hkey.mpr hk)]
      exact .cons ⟨hn, hv⟩ hr
    · rw [if_neg hk, if_neg fun hk' => hk (hkey.mp hk')]
      exact .cons hxy ih

theorem mono {S : ν → ν' → Prop} (h : M.Tables R xs ys) (hle : M.Le M')
    (hRS : ∀ {v v'}, R v v' → S v v') : M'.Tables S xs ys :=
  h.imp fun _ _ hm => ⟨hle.symbol hm.1, hRS hm.2⟩

end Tables

structure Layouts (M : Match) (x x' : Shape) : Prop where
  fields : x'.fields.length = x.fields.length
  slots : M.Tables Eq x.slots x'.slots
  children : M.Tables Eq x.children x'.children

structure Trees (M : Match) (x x' : Shapes) : Prop where
  size : x'.size = x.size
  shape : ∀ id, M.Layouts (x.shape id) (x'.shape id)

namespace Trees

variable {x x' : Shapes}

theorem mono (h : M.Trees x x') (hle : M.Le M') : M'.Trees x x' where
  size := h.size
  shape k := ⟨(h.shape k).fields, (h.shape k).slots.mono hle id, (h.shape k).children.mono hle id⟩

theorem blank (M : Match) : M.Trees {} {} := by
  refine ⟨rfl, fun k => ?_⟩
  have hr : Shapes.shape {} k = {} := by
    cases k <;> rfl
  rw [hr]
  exact ⟨rfl, .nil, .nil⟩

theorem get?_eq {xs ys : Table Symbol Nat} (h : M.Tables Eq xs ys) (hn : M.symbol name name') :
    ys.get? name' = xs.get? name := by
  have hget := h.get? hn
  generalize xs.get? name = a, ys.get? name' = b at hget
  cases hget with
  | none => rfl
  | some heq => rw [heq]

theorem slot? (h : M.Trees x x') (hn : M.symbol name name') (id : ShapeId) :
    x'.slot? id name' = x.slot? id name :=
  get?_eq (h.shape id).slots hn

theorem shape_push (x : Shapes) (id : ShapeId) (f : Shape → Shape) (child : Shape) (k : ShapeId) :
    Shapes.shape { nodes := (x.nodes.modify id f).push child } k =
      if k = x.size then child else if k = id ∧ k < x.size then f (x.shape k) else x.shape k := by
  unfold Shapes.shape Shapes.size
  rw [Array.getElem?_push, Array.size_modify]
  split
  · rfl
  · rw [Array.getElem?_modify]
    by_cases hk : k < x.nodes.size
    · by_cases hid : id = k
      · simp [hid, hk]
      · simp [hid, Ne.symm hid]
    · simp [hk]

theorem extend (h : M.Trees x x') (hname : M.symbol name name') (id : ShapeId) :
    (x'.extend id name').1 = (x.extend id name).1 ∧
      M.Trees (x.extend id name).2 (x'.extend id name').2 := by
  have hn := h.shape id
  unfold Shapes.extend
  dsimp only
  rw [get?_eq hn.slots hname, get?_eq hn.children hname]
  split
  · exact ⟨rfl, h⟩
  · cases (x.shape id).children.get? name with
    | some child => exact ⟨rfl, h⟩
    | none =>
      refine ⟨h.size, ?_, fun k => ?_⟩
      · have hs := h.size
        unfold Shapes.size at hs ⊢
        simp [Array.size_push, hs]
      · rw [shape_push, shape_push, h.size]
        split
        · exact ⟨by simp [hn.fields], hn.slots.insert hname hn.fields.symm, .nil⟩
        · split
          · exact ⟨(h.shape k).fields, (h.shape k).slots, (h.shape k).children.insert hname rfl⟩
          · exact h.shape k

end Trees

/-! ## §4 Objects -/

abbrev Methods (M : Match) : Table Symbol Word → Table Symbol Word → Prop := M.Tables M.Same

inductive Objects (M : Match) : Object → Object → Prop
  | text (t : String) : M.Objects (.text t) (.text t)
  | closure {c c' : Closure} : M.symbol c.name c'.name → c'.arity = c.arity → M.closure c c' →
      M.Objects (.closure c) (.closure c')
  | cell {w w' : Word} : M.Same w w' → M.Objects (.cell w) (.cell w')
  | ofClass {c c' : Class} : M.symbol c.name c'.name → M.Methods c.methods c'.methods →
      M.Objects (.ofClass c) (.ofClass c')
  | ofInstance {i i' : Instance} : M.object.Handles i.classHandle i'.classHandle →
      i'.shape = i.shape → M.object.Slots i.slots i'.slots →
        M.Objects (.ofInstance i) (.ofInstance i')
  | bound {b b' : BoundMethod} : M.Same b.receiver b'.receiver → M.Same b.method b'.method →
      M.Objects (.bound b) (.bound b')
  | native {n n' : Native} : n'.arity = n.arity → n.entry = .clock → n'.entry = .clock →
      M.Objects (.native n) (.native n')

theorem Objects.mono {o o' : Object} (h : M.Objects o o') (hle : M.Le M') : M'.Objects o o' := by
  cases h with
  | text t => exact .text t
  | closure hn ha hc => exact .closure (hle.symbol hn) ha (hle.closure hc)
  | cell hw => exact .cell (hw.mono hle.object)
  | ofClass hn hm => exact .ofClass (hle.symbol hn) (hm.mono hle fun hw => hw.mono hle.object)
  | ofInstance hc hs hx => exact .ofInstance (hc.mono hle.object) hs (hx.mono hle.object)
  | bound hr hm => exact .bound (hr.mono hle.object) (hm.mono hle.object)
  | native ha he he' => exact .native ha he he'

/-! ## §5 Heaps -/

structure Heaps (M : Match) (h h' : Heap) : Prop where
  objects : ∀ {i j : Nat}, M.object i j →
    ∃ o o', h.objects[i]? = some o ∧ h'.objects[j]? = some o' ∧ M.Objects o o'
  functional : ∀ {i j j'}, M.object i j → M.object i j' → j = j'
  injective : ∀ {i i' j}, M.object i j → M.object i' j → i = i'
  limit : h'.limit = h.limit
  limit_le : h'.limit ≤ Heap.maxLimit
  within : h'.size ≤ h'.limit
  size_le : h.size ≤ h'.size

namespace Heaps

variable {h h' : Heap} {v v' w w' : Word} {i j : Nat} {o o' : Object} (hh : M.Heaps h h')

include hh

theorem lt (ho : M.object i j) : i < h.size ∧ j < h'.size := by
  obtain ⟨o, o', hi, hj, _⟩ := hh.objects ho
  exact ⟨(Array.getElem?_eq_some_iff.mp hi).1, (Array.getElem?_eq_some_iff.mp hj).1⟩

theorem size_lt : h'.size < 0x100000000 := by
  have := hh.within
  have := hh.limit_le
  unfold Heap.maxLimit at this
  omega

theorem same (ho : M.object i j) : M.Same (.ofIndex i) (.ofIndex j) := by
  have hlt := hh.lt ho
  have := hh.size_lt
  have := hh.size_le
  exact .object (by omega) (by omega) ho

theorem deref? (hw : M.Same w w') : Option.Rel M.Objects (h.deref? w) (h'.deref? w') := by
  cases hw with
  | other ha _ =>
    rw [h.deref?_of_isObject ha, h'.deref?_of_isObject ha]
    exact .none
  | object hi hj ho =>
    rw [h.deref?_ofIndex hi, h'.deref?_ofIndex hj]
    obtain ⟨o, o', hoi, hoj, hs⟩ := hh.objects ho
    rw [hoi, hoj]
    exact .some hs

theorem text? (hw : M.Same w w') : h'.text? w' = h.text? w := by
  have hd := hh.deref? hw
  unfold Heap.text?
  generalize h.deref? w = a, h'.deref? w' = b at hd
  cases hd with
  | none => rfl
  | some ho => cases ho <;> rfl

theorem class? {k k' : Handle} (hk : M.object.Handles k k') :
    Option.Rel (fun c c' : Class => M.symbol c.name c'.name ∧ M.Methods c.methods c'.methods)
      (h.class? k) (h'.class? k') := by
  obtain ⟨i, j, hi, hj, ho, rfl, rfl⟩ := hk
  obtain ⟨o, o', hoi, hoj, hs⟩ := hh.objects ho
  unfold Heap.class?
  rw [h.get?_ofNat hi, h'.get?_ofNat hj, hoi, hoj]
  cases hs with
  | ofClass hn hm => exact .some ⟨hn, hm⟩
  | text | closure | cell | ofInstance | bound | native => exact .none

theorem instance? (hw : M.Same w w') : Option.Rel (fun p p' : Nat × Instance => M.object p.1 p'.1 ∧
        h'.objects[p'.1]? = some (.ofInstance p'.2) ∧
          M.object.Handles p.2.classHandle p'.2.classHandle ∧ p'.2.shape = p.2.shape ∧
            M.object.Slots p.2.slots p'.2.slots) (h.instance? w) (h'.instance? w') := by
  have hd := hh.deref? hw
  unfold Heap.instance?
  cases hw with
  | other ha _ =>
    rw [h.deref?_of_isObject ha, h'.deref?_of_isObject ha]
    exact .none
  | @object i j hi hj ho =>
    rw [Word.objectIndex_ofIndex hi, Word.objectIndex_ofIndex hj]
    have hobj := h'.deref?_ofIndex hj
    generalize h.deref? (.ofIndex i) = a at hd
    generalize h'.deref? (.ofIndex j) = b at hd hobj
    cases hd with
    | none => exact .none
    | some hsame =>
      cases hsame with
      | ofInstance hc hs hx => exact .some ⟨ho, hobj.symm, hc, hs, hx⟩
      | text | closure | cell | ofClass | bound | native => exact .none

theorem eq_iff (hv : M.Same v v') (hw : M.Same w w') : v' = w' ↔ v = w := by
  have hne : ∀ {a : Word}, a.isObject = false → ∀ {k}, k < 0x100000000 → a ≠ .ofIndex k := by
    rintro a ha k hk rfl
    exact absurd ha (by rw [Word.isObject_ofIndex hk]; decide)
  cases hv with
  | other ha _ =>
    cases hw with
    | other => exact Iff.rfl
    | object hi hj _ => exact ⟨fun h => absurd h (hne ha hj), fun h => absurd h (hne ha hi)⟩
  | object hi hj ho =>
    cases hw with
    | other ha _ =>
      exact ⟨fun h => absurd h.symm (hne ha hj), fun h => absurd h.symm (hne ha hi)⟩
    | object hi' hj' ho' =>
      constructor
      · intro heq
        obtain rfl := Word.ofIndex_inj hj hj' heq
        rw [hh.injective ho ho']
      · intro heq
        obtain rfl := Word.ofIndex_inj hi hi' heq
        rw [hh.functional ho ho']

theorem mono (hle : M.Le M') (hobj : M'.object = M.object) : M'.Heaps h h' :=
  { hh with
    objects := fun hij => by
      obtain ⟨x, x', hx, hx', hs⟩ := hh.objects (hobj ▸ hij)
      exact ⟨x, x', hx, hx', hs.mono hle⟩
    functional := hobj ▸ hh.functional
    injective := hobj ▸ hh.injective }

theorem push (ho : M.Objects o o') (hr : h'.size < h'.limit) (hle : M.Le M')
    (hobj : M'.object = M.object.add h.size h'.size) : M'.Heaps (h.push o) (h'.push o') where
  objects := by
    rw [hobj]
    rintro i j (hij | ⟨rfl, rfl⟩)
    · obtain ⟨x, x', hx, hx', hs⟩ := hh.objects hij
      exact ⟨x, x', getElem?_push_of_some hx, getElem?_push_of_some hx', hs.mono hle⟩
    · exact ⟨o, o', Array.getElem?_push_size, Array.getElem?_push_size, ho.mono hle⟩
  functional := by
    rw [hobj]
    rintro i j j' (hij | ⟨rfl, rfl⟩) (hij' | ⟨hi, rfl⟩)
    · exact hh.functional hij hij'
    · exact absurd (hh.lt hij).1 (by omega)
    · exact absurd (hh.lt hij').1 (by omega)
    · rfl
  injective := by
    rw [hobj]
    rintro i i' j (hij | ⟨rfl, rfl⟩) (hij' | ⟨rfl, hj⟩)
    · exact hh.injective hij hij'
    · exact absurd (hh.lt hij).2 (by omega)
    · exact absurd (hh.lt hij').2 (by omega)
    · rfl
  limit := hh.limit
  limit_le := hh.limit_le
  within := by
    rw [Heap.size_push]
    exact hr
  size_le := by
    rw [Heap.size_push, Heap.size_push]
    exact Nat.succ_le_succ hh.size_le

theorem pushSecond (o' : Object) (hr : h'.size < h'.limit) : M.Heaps h (h'.push o') :=
  { hh with
    objects := fun hij => by
      obtain ⟨x, x', hx, hx', hs⟩ := hh.objects hij
      exact ⟨x, x', hx, getElem?_push_of_some hx', hs⟩
    within := by
      rw [Heap.size_push]
      exact hr
    size_le := by
      rw [Heap.size_push]
      exact Nat.le_succ_of_le hh.size_le }

theorem put (hij : M.object i j) (ho : M.Objects o o') : M.Heaps (h.put i o) (h'.put j o') :=
  { hh with
    objects := by
      intro a b hab
      obtain ⟨x, x', hx, hx', hs⟩ := hh.objects hab
      obtain ⟨y, y', hy, hy', _⟩ := hh.objects hij
      rw [h.getElem?_put o hy, h'.getElem?_put o' hy']
      by_cases hi : i = a
      · subst hi
        rw [if_pos rfl, if_pos (hh.functional hij hab)]
        exact ⟨o, o', rfl, rfl, ho⟩
      · have hj : j ≠ b := fun hj => hi (hh.injective hij (hj ▸ hab))
        rw [if_neg hi, if_neg hj]
        exact ⟨x, x', hx, hx', hs⟩
    within := by
      rw [Heap.size_put]
      exact hh.within
    size_le := by
      rw [Heap.size_put, Heap.size_put]
      exact hh.size_le }

theorem putSecond (hj : h'.objects[j]? = some o) (hf : ∀ i, ¬M.object i j)
    (o' : Object) : M.Heaps h (h'.put j o') :=
  { hh with
    objects := by
      intro a b hab
      obtain ⟨x, x', hx, hx', hs⟩ := hh.objects hab
      have hb : j ≠ b := by
        rintro rfl
        exact hf a hab
      rw [h'.getElem?_put _ hj, if_neg hb]
      exact ⟨x, x', hx, hx', hs⟩
    within := by
      rw [Heap.size_put]
      exact hh.within
    size_le := by
      rw [Heap.size_put]
      exact hh.size_le }

end Heaps

/-! ## §6 Stores -/

structure Views (M : Match) (s s' : Store) : Prop where
  heap : M.Heaps s.heap s'.heap
  spelling : ∀ {a a'}, M.symbol a a' → s'.names.spelling a' = s.names.spelling a
  shapes : M.Trees s.shapes s'.shapes
  initializer : M.symbol s.initializer s'.initializer

inductive Targets (M : Match) (count : Nat) (s s' : Store) : CallTarget → CallTarget → Prop
  | clock (w w' : Word) : M.Targets count s s' ⟨.clock, w, .nil⟩ ⟨.clock, w', .nil⟩
  | construct (v v' : Word) {w w' : Word} : M.Same w w' →
      M.Targets count s s' ⟨.construct, v, w⟩ ⟨.construct, v', w'⟩
  | closure {i j : Nat} {c c' : Closure} {w w' : Word} : i < 0x100000000 → j < 0x100000000 →
      M.object i j → s.heap.objects[i]? = some (.closure c) →
      s'.heap.objects[j]? = some (.closure c') → M.closure c c' → c'.arity = count → M.Same w w' →
        M.Targets count s s' ⟨c.entry, .ofIndex i, w⟩ ⟨c'.entry, .ofIndex j, w'⟩

namespace Views

variable {s s' : Store} {v v' w w' : Word}

theorem objectText (h : M.Views s s') {o o' : Object} (ho : M.Objects o o') :
    s'.objectText o' = s.objectText o := by
  cases ho with
  | text | native | cell => rfl
  | closure hn _ _ => simp [Store.objectText, Store.functionText, h.spelling hn]
  | ofClass hn _ => simp [Store.objectText, h.spelling hn]
  | @ofInstance i i' hc _ _ =>
    have hcls := h.heap.class? hc
    simp only [Store.objectText]
    generalize s.heap.class? i.classHandle = a, s'.heap.class? i'.classHandle = b at hcls
    cases hcls with
    | none => rfl
    | some hm => simp [h.spelling hm.1]
  | @bound b b' _ hm =>
    have hd := h.heap.deref? hm
    simp only [Store.objectText]
    generalize s.heap.deref? b.method = x, s'.heap.deref? b'.method = y at hd
    cases hd with
    | none => rfl
    | some ho =>
      cases ho with
      | closure hn _ _ => simp [Store.functionText, h.spelling hn]
      | _ => rfl

theorem render (h : M.Views s s') (hw : M.Same w w') : s'.render w' = s.render w := by
  have hd := h.heap.deref? hw
  unfold Store.render
  rw [hw.tag_eq]
  cases hw with
  | other ha _ =>
    rw [s.heap.deref?_of_isObject ha, s'.heap.deref?_of_isObject ha]
  | object hi hj ho =>
    rw [Word.tag_ofIndex hi]
    generalize s.heap.deref? _ = a, s'.heap.deref? _ = b at hd
    cases hd with
    | none => rfl
    | some ho => exact h.objectText ho

theorem cellValue_same (h : M.Views s s') (hw : M.Same w w') :
    M.Same (s.cellValue w) (s'.cellValue w') := by
  have hd := h.heap.deref? hw
  unfold Store.cellValue
  generalize s.heap.deref? w = a, s'.heap.deref? w' = b at hd
  cases hd with
  | none => exact .nil
  | some ho =>
    cases ho with
    | cell hv => exact hv
    | _ => exact .nil

theorem undefinedProperty_eq (h : M.Views s s') (hn : M.symbol name name') :
    s'.undefinedProperty name' = s.undefinedProperty name := by
  unfold Store.undefinedProperty
  rw [h.spelling hn]

theorem valuesEqual_eq (h : M.Views s s') (hv : M.Same v v') (hw : M.Same w w') :
    s'.valuesEqual v' w' = s.valuesEqual v w := by
  unfold Store.valuesEqual
  rw [hv.isNumber_eq, hw.isNumber_eq]
  by_cases hnum : v.isNumber = true ∧ w.isNumber = true
  · rw [hv.eq_of_isNumber hnum.1, hw.eq_of_isNumber hnum.2]
    simp [hnum]
  · have hnum' : (v.isNumber && w.isNumber) = false := by
      rw [← Bool.not_eq_true, Bool.and_eq_true]
      exact hnum
    simp [hnum', h.heap.eq_iff hv hw, h.heap.text? hv, h.heap.text? hw]

theorem setField_same {i i' : Instance} {x x' : Shapes} (hx : M.Trees x x')
    (hshape : i'.shape = i.shape) (hs : M.object.Slots i.slots i'.slots)
    (hn : M.symbol name name') (hw : M.Same w w') : let r := i.setField x name w
    let r' := i'.setField x' name' w'
    r'.1 = r.1 ∧ M.Trees r.2.2 r'.2.2 ∧ r'.2.1.shape = r.2.1.shape ∧
      r'.2.1.classHandle = i'.classHandle ∧ r.2.1.classHandle = i.classHandle ∧
        M.object.Slots r.2.1.slots r'.2.1.slots := by
  have hext := hx.extend hn i.shape
  unfold Instance.setField
  rw [hshape, hx.slot? hn]
  cases x.slot? i.shape name with
  | some slot => exact ⟨rfl, hx, rfl, rfl, rfl, hs.set _ hw⟩
  | none => exact ⟨hs.size, hext.2, hext.1, rfl, rfl, hs.push hw⟩

theorem inherited_same (h : M.Views s s') {c c' : Option Word} (hc : Option.Rel M.Same c c') :
    (∃ e, s.inherited c = .error e ∧ s'.inherited c' = .error e) ∨
      ∃ ms ms', s.inherited c = .ok ms ∧ s'.inherited c' = .ok ms' ∧ M.Methods ms ms' := by
  unfold Store.inherited
  cases hc with
  | none => exact .inr ⟨[], [], rfl, rfl, .nil⟩
  | @some w w' hw =>
    have hd := h.heap.deref? hw
    dsimp only
    generalize s.heap.deref? w = a, s'.heap.deref? w' = b at hd
    cases hd with
    | none => exact .inl ⟨_, rfl, rfl⟩
    | some ho =>
      cases ho with
      | ofClass _ hm => exact .inr ⟨_, _, rfl, rfl, hm⟩
      | _ => exact .inl ⟨_, rfl, rfl⟩

theorem bindCall_same (h : M.Views s s') (hv : M.Same v v') (hw : M.Same w w') (count : Nat) :
    (∃ e, s.bindCall v w count = .error e ∧ s'.bindCall v' w' count = .error e) ∨
      ∃ a b, s.bindCall v w count = .ok a ∧ s'.bindCall v' w' count = .ok b ∧
        M.Targets count s s' a b := by
  have hd := h.heap.deref? hv
  unfold Store.bindCall
  rw [hv.tag_eq]
  cases hv with
  | other ha _ =>
    rw [s.heap.deref?_of_isObject ha, s'.heap.deref?_of_isObject ha]
    exact .inl ⟨_, rfl, rfl⟩
  | @object i j hi hj ho =>
    have hfst := s.heap.deref?_ofIndex hi
    have hobj := s'.heap.deref?_ofIndex hj
    generalize s.heap.deref? (.ofIndex i) = a at hd hfst
    generalize s'.heap.deref? (.ofIndex j) = b at hd hobj
    cases hd with
    | none => exact .inl ⟨_, rfl, rfl⟩
    | some hs =>
      cases hs with
      | closure _ harity hc =>
        dsimp only
        rw [harity]
        split
        · next hcnt =>
          exact .inr ⟨_, _, rfl, rfl,
            .closure hi hj ho hfst.symm hobj.symm hc (harity.trans hcnt) hw⟩
        · exact .inl ⟨_, rfl, rfl⟩
      | _ => exact .inl ⟨_, rfl, rfl⟩

end Views

end Match

end ScriptMachine
