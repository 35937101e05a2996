/-
ScriptMachine.Proofs.Lexical.Links — two stores that hold the same.
-/
import ScriptMachine.Proofs.Likeness.Operations
import ScriptMachine.Proofs.Typing

namespace ScriptMachine

/-! ## §1 Links -/

structure Link where
  object : Pairing
  cell : (env : Nat) → (name : String) → (index : Nat) → Prop
  made : (number : UInt64) → Closure → Prop

namespace Link

def known (L : Link) : Known := ⟨fun w => L.object.Same w w, fun _ _ _ => True⟩

inductive Closures (L : Link) (c c' : Closure) : Prop
  | made {number : UInt64} : c.entry = .address number → L.made number c' → Closures L c c'
  | shared {unit : CodeUnit} {d : Nat} : c.entry = .compiled unit d →
      c'.entry = .compiled unit d → unit.Typed L.known d c.cells.size →
        L.object.Slots c.cells c'.cells → Closures L c c'

abbrev view (L : Link) : Match where
  object := L.object
  symbol := Eq
  closure := L.Closures
  symbol_iff := by
    rintro a _ b _ rfl rfl
    exact Iff.rfl

abbrev Same (L : Link) := L.object.Same

structure Le (L L' : Link) : Prop where
  object : ∀ {i j}, L.object i j → L'.object i j
  made : ∀ {number c}, L.made number c → L'.made number c

def add (L : Link) (i j : Nat) : Link := { L with object := L.object.add i j }

def addCell (L : Link) (e : Nat) (name : String) (c : Nat) : Link :=
  { L with cell := fun a n b => L.cell a n b ∨ a = e ∧ n = name ∧ b = c }

def addMade (L : Link) (number : UInt64) (c : Closure) : Link :=
  { L with made := fun n x => L.made n x ∨ n = number ∧ x = c }

variable {L L' : Link}

theorem Le.refl (L : Link) : L.Le L := ⟨id, id⟩

theorem le_add {i j : Nat} : L.Le (L.add i j) := ⟨.inl, id⟩

theorem le_addCell {e : Nat} {name : String} {c : Nat} : L.Le (L.addCell e name c) := ⟨id, id⟩

theorem le_addMade {number : UInt64} {c : Closure} : L.Le (L.addMade number c) := ⟨id, .inl⟩

namespace Le

variable (hle : L.Le L')

include hle

theorem trans {L'' : Link} (h' : L'.Le L'') : L.Le L'' :=
  ⟨fun ho => h'.object (hle.object ho), fun hm => h'.made (hle.made hm)⟩

theorem known : L.known.Le L'.known := ⟨fun hw => hw.mono hle.object, fun _ => trivial⟩

/-- What stands for each other goes on doing so as more is linked. -/
theorem view : L.view.Le L'.view where
  object := hle.object
  symbol := id
  closure hc := by
    cases hc with
    | made hent hm => exact .made hent (hle.made hm)
    | shared hent hent' ht hcells =>
      exact .shared hent hent' (ht.mono hle.known) (hcells.mono hle.object)

end Le

/-! ## §2 Heaps -/

structure Heaps (L : Link) (h h' : Heap) : Prop extends L.view.Heaps h h' where
  interned : ∀ text, Option.Rel L.object (h.interned.get? text) (h'.interned.get? text)

namespace Heaps

variable {h h' : Heap} (hh : L.Heaps h h')

include hh

theorem push {o o' : Object} (ho : L.view.Objects o o')
    (hr : h'.size < h'.limit) : (L.add h.size h'.size).Heaps (h.push o) (h'.push o') :=
  { hh.toHeaps.push ho hr le_add.view rfl with
    interned := fun text => by
      have ht := hh.interned text
      show Option.Rel _ (h.interned.get? text) (h'.interned.get? text)
      generalize h.interned.get? text = a, h'.interned.get? text = b at ht
      cases ht with
      | some ho => exact .some (.inl ho)
      | none => exact .none }

theorem pushCell (v : Word) (hr : h'.size < h'.limit) : L.Heaps h (h'.push (.cell v)) :=
  { hh.toHeaps.pushSecond (.cell v) hr with interned := hh.interned }

theorem mono (hle : L.Le L') (hobj : L'.object = L.object) : L'.Heaps h h' :=
  { hh.toHeaps.mono hle.view hobj with interned := hobj ▸ hh.interned }

theorem put {i j : Nat} (hij : L.object i j) {o o' : Object}
    (ho : L.view.Objects o o') : L.Heaps (h.put i o) (h'.put j o') :=
  { hh.toHeaps.put hij ho with interned := hh.interned }

theorem putCell {c : Nat} {v : Word} (hc : h'.objects[c]? = some (.cell v))
    (hf : ∀ i, ¬L.object i c) (v' : Word) : L.Heaps h (h'.put c (.cell v')) :=
  { hh.toHeaps.putSecond hc hf (.cell v') with interned := hh.interned }

end Heaps

/-! ## §3 Stores -/

def Globals (L : Link) (g g' : Global) : Prop :=
  g'.name = g.name ∧ Option.Rel L.Same g.value g'.value

structure Stores (L : Link) (s s' : Store) : Prop where
  heap : L.Heaps s.heap s'.heap
  names : s'.names = s.names
  shapes : L.view.Trees s.shapes s'.shapes
  globals : List.Forall₂ L.Globals s.globals.toList s'.globals.toList
  prototypes : s'.prototypes = s.prototypes
  initializer : s'.initializer = s.initializer
  depth : s'.depth = s.depth
  maxDepth : s'.maxDepth = s.maxDepth
  printed : s'.printed = s.printed
  muted : s'.muted = s.muted

namespace Stores

variable {s s' : Store} (h : L.Stores s s')

include h

theorem withHeap (hle : L.Le L') {heap heap' : Heap} (hheap : L'.Heaps heap heap') :
    L'.Stores { s with heap := heap } { s' with heap := heap' } :=
  { h with
    heap := hheap
    shapes := h.shapes.mono hle.view
    globals := h.globals.imp fun _ _ hg => ⟨hg.1, Pairing.Same.option hg.2 hle.object⟩ }

theorem views : L.view.Views s s' where
  heap := h.heap.toHeaps
  spelling := by
    rintro a _ rfl
    rw [h.names]
  shapes := h.shapes
  initializer := h.initializer.symm

theorem global (slot : Nat) : Option.Rel L.Globals s.globals[slot]? s'.globals[slot]? := by
  rw [← Array.getElem?_toList, ← Array.getElem?_toList]
  have hg := h.globals
  generalize s.globals.toList = xs, s'.globals.toList = ys at hg
  induction hg generalizing slot with
  | nil => exact .none
  | cons hg _ ih =>
    cases slot with
    | zero => exact .some hg
    | succ slot => exact ih slot

theorem slotValue? (slot : Nat) : Option.Rel L.Same (s.slotValue? slot) (s'.slotValue? slot) := by
  have hg := h.global slot
  unfold Store.slotValue?
  generalize s.globals[slot]? = a, s'.globals[slot]? = b at hg
  cases hg with
  | some hg => exact hg.2
  | none => exact .none

theorem globalSlot? (symbol : Symbol) : s'.globalSlot? symbol = s.globalSlot? symbol := by
  unfold Store.globalSlot?
  have hl : ∀ globals : Array Global, globals.findIdx? (·.name == symbol) =
      globals.toList.findIdx? (·.name == symbol) := fun _ => List.findIdx?_toArray ..
  rw [hl, hl]
  have hg := h.globals
  generalize s.globals.toList = xs, s'.globals.toList = ys at hg
  induction hg with
  | nil => rfl
  | cons hg _ ih => simp [List.findIdx?_cons, hg.1, ih]

theorem undefinedGlobal (slot : Nat) : s'.undefinedGlobal slot = s.undefinedGlobal slot := by
  have hg := h.global slot
  unfold Store.undefinedGlobal
  rw [h.names]
  generalize s.globals[slot]? = a, s'.globals[slot]? = b at hg
  cases hg with
  | some hg => simp [hg.1]
  | none => rfl

end Stores

end Link

end ScriptMachine
