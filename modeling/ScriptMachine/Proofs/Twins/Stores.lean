/-
ScriptMachine.Proofs.Twins.Stores — two stores that look the same to programs.
-/
import ScriptMachine.Proofs.Twins.Code

namespace ScriptMachine

structure Kin where
  object : Pairing
  pair : Pair
  even : Prop

namespace Kin

abbrev Same (K : Kin) := K.object.Same

inductive Entries (K : Kin) : Entry → Entry → Prop
  | compiled {P : Pair} {u u' : CodeUnit} {d d' : Nat} : P.Later K.pair → P.Functions u u' d d' →
      K.Entries (.compiled u d) (.compiled u' d')

abbrev view (K : Kin) : Match where
  object := K.object
  symbol := K.pair.Symbols
  closure c c' := K.Entries c.entry c'.entry ∧ K.object.Slots c.cells c'.cells
  symbol_iff := Pair.Symbols.eq_iff

structure Le (K K' : Kin) : Prop where
  object : ∀ {i j}, K.object i j → K'.object i j
  pair : K.pair.Later K'.pair

namespace Le

variable {K K' K'' : Kin}

theorem refl (K : Kin) : K.Le K := ⟨id, .refl _⟩

theorem trans (h : K.Le K') (h' : K'.Le K'') : K.Le K'' :=
  ⟨fun ho => h'.object (h.object ho), h.pair.trans h'.pair⟩

theorem same (hle : K.Le K') {w w' : Word} (h : K.Same w w') : K'.Same w w' := h.mono hle.object

theorem entries (hle : K.Le K') {e e' : Entry} (h : K.Entries e e') : K'.Entries e e' := by
  cases h with
  | compiled hp hf => exact .compiled (hp.trans hle.pair) hf

theorem view (hle : K.Le K') : K.view.Le K'.view where
  object := hle.object
  symbol := hle.pair.symbols
  closure hc := ⟨hle.entries hc.1, hc.2.mono hle.object⟩

end Le

structure Moves (K K' : Kin) : Prop extends K.Le K' where
  even : K.even → K'.even

theorem Moves.refl (K : Kin) : K.Moves K := ⟨.refl K, id⟩

theorem Moves.trans {K K' K'' : Kin} (h : K.Moves K') (h' : K'.Moves K'') : K.Moves K'' :=
  ⟨h.toLe.trans h'.toLe, fun he => h'.even (h.even he)⟩

def add (K : Kin) (i j : Nat) : Kin := { K with object := K.object.add i j }

theorem moves_add (K : Kin) (i j : Nat) : K.Moves (K.add i j) := ⟨⟨.inl, .refl _⟩, id⟩

structure Heaps (K : Kin) (h h' : Heap) : Prop extends K.view.Heaps h h' where
  known : ∀ {t i}, h.interned.get? t = some i → ∃ j, h'.interned.get? t = some j ∧ K.object i j
  spare : ∀ {t j}, h.interned.get? t = none → h'.interned.get? t = some j →
    h'.objects[j]? = some (.text t) ∧ ∀ i, ¬K.object i j
  slack : ∀ ts : List String, ts.Nodup →
    (∀ t ∈ ts, h.interned.get? t = none ∧ h'.interned.get? t ≠ none) → h.size + ts.length ≤ h'.size
  level : K.even → h'.size = h.size ∧ ∀ i < h.size, K.object i i

namespace Heaps

variable {K : Kin} {h h' : Heap} {o o' : Object} {j : Nat} (hh : K.Heaps h h')

include hh

theorem mono {K' : Kin} (hle : K.Le K') (hobj : K'.object = K.object)
    (heven : K'.even → K.even) : K'.Heaps h h' :=
  { hh.toHeaps.mono hle.view hobj with
    known := fun ht => by
      obtain ⟨j, hj, ho⟩ := hh.known ht
      exact ⟨j, hj, hle.object ho⟩
    spare := hobj ▸ hh.spare
    slack := hh.slack
    level := fun he =>
      ⟨(hh.level (heven he)).1, fun i hi => hle.object ((hh.level (heven he)).2 i hi)⟩ }

theorem push_level (he : (K.add h.size h'.size).even) :
    (h'.objects.push o').size = (h.objects.push o).size ∧
      ∀ i < (h.objects.push o).size, (K.add h.size h'.size).object i i := by
  obtain ⟨hs, hd⟩ := hh.level he
  refine ⟨?_, fun i hi => ?_⟩
  · rw [Array.size_push, Array.size_push]
    exact congrArg Nat.succ hs
  · rw [Array.size_push] at hi
    rcases Nat.lt_succ_iff_lt_or_eq.mp hi with hlt | heq
    · exact .inl (hd i hlt)
    · exact .inr ⟨heq, heq.trans hs.symm⟩

theorem push_spare {t : String} (o' : Object) (hn : h.interned.get? t = none)
    (ht : h'.interned.get? t = some j) :
    (h'.objects.push o')[j]? = some (.text t) ∧ ∀ i, ¬(K.add h.size h'.size).object i j := by
  obtain ⟨htext, hf⟩ := hh.spare hn ht
  refine ⟨getElem?_push_of_some htext, ?_⟩
  rintro i (hij | ⟨_, rfl⟩)
  · exact hf i hij
  · exact absurd (Array.getElem?_eq_some_iff.mp htext).1 (Nat.lt_irrefl _)

theorem push (ho : K.view.Objects o o') (hr : h'.size < h'.limit) :
    (K.add h.size h'.size).Heaps (h.push o) (h'.push o') :=
  { hh.toHeaps.push ho hr (K.moves_add _ _).toLe.view rfl with
    known := fun ht => by
      obtain ⟨j, hj, hij⟩ := hh.known ht
      exact ⟨j, hj, .inl hij⟩
    spare := hh.push_spare o'
    slack := by
      intro ts hn hs
      have := hh.slack ts hn hs
      rw [Heap.size_push, Heap.size_push]
      omega
    level := hh.push_level }

theorem put {i : Nat} (hij : K.object i j) (ho : K.view.Objects o o') :
    K.Heaps (h.put i o) (h'.put j o') :=
  { hh.toHeaps.put hij ho with
    known := hh.known
    spare := by
      intro t k hn ht
      obtain ⟨htext, hf⟩ := hh.spare hn ht
      obtain ⟨_, y', _, hy', _⟩ := hh.objects hij
      refine ⟨?_, hf⟩
      rw [h'.getElem?_put o' hy', if_neg, htext]
      rintro rfl
      exact hf i hij
    slack := by
      intro ts hnodup hs
      rw [Heap.size_put, Heap.size_put]
      exact hh.slack ts hnodup hs
    level := by
      rw [Heap.size_put, Heap.size_put]
      exact hh.level }

end Heaps

end Kin

namespace Store

variable {s : Store} {name : String} {slot : Nat}

theorem global?_eq (s : Store) (name : String) :
    s.global? name = (s.slotOf? name).bind s.slotValue? := by
  unfold global? slotOf?
  cases s.names.find? name with
  | none => rfl
  | some symbol => rfl

section

variable (h : s.slotOf? name = some slot)

include h

theorem global?_of_slotOf? : s.global? name = s.slotValue? slot := by
  rw [global?_eq, h]
  rfl

theorem getElem?_of_slotOf? :
    ∃ g, s.globals[slot]? = some g ∧ s.names.find? name = some g.name := by
  obtain ⟨symbol, hsym, hs⟩ := Option.bind_eq_some_iff.mp h
  obtain ⟨hlt, heq, _⟩ := Array.findIdx?_eq_some_iff_getElem.mp hs
  refine ⟨s.globals[slot], Array.getElem?_eq_getElem hlt, ?_⟩
  rw [hsym, eq_of_beq heq]

theorem slotOf?_inj {other : String} (h' : s.slotOf? other = some slot) : name = other := by
  obtain ⟨g, hg, hn⟩ := getElem?_of_slotOf? h
  obtain ⟨g', hg', hn'⟩ := getElem?_of_slotOf? h'
  obtain rfl := Option.some.inj (hg.symm.trans hg')
  exact Names.find?_inj hn hn'

theorem undefinedGlobal_of_slotOf? : s.undefinedGlobal slot = .undefinedVariable name := by
  obtain ⟨g, hg, hn⟩ := getElem?_of_slotOf? h
  unfold undefinedGlobal
  rw [hg]
  dsimp only
  rw [Names.spelling_of_find? hn]

end

theorem slotOf?_putSlot (s : Store) (slot : Nat) (w : Word) (name : String) :
    (s.putSlot slot w).slotOf? name = s.slotOf? name := by
  unfold slotOf?
  simp only [globalSlot?_congr (s.evolves_putSlot slot w fun _ => True).globals]
  rfl

def Named (s : Store) : Prop :=
  ∀ ⦃i : Nat⦄ ⦃g : Global⦄, s.globals[i]? = some g → g.name < s.names.size

theorem Named.putSlot (h : s.Named) (slot : Nat) (w : Word) : (s.putSlot slot w).Named := by
  intro i g hg
  unfold Store.putSlot at hg
  rw [Array.getElem?_modify] at hg
  split at hg
  · obtain ⟨g', hg', rfl⟩ := Option.map_eq_some_iff.mp hg
    show g'.name < s.names.size
    exact h hg'
  · exact h hg

theorem global?_putSlot (h : s.slotOf? name = some slot) (w : Word) (other : String) :
    (s.putSlot slot w).global? other = if other = name then some w else s.global? other := by
  rw [global?_eq, slotOf?_putSlot]
  obtain ⟨g, hg, _⟩ := getElem?_of_slotOf? h
  have hval : ∀ k, (s.putSlot slot w).slotValue? k =
      if slot = k then some w else s.slotValue? k := by
    intro k
    unfold slotValue? putSlot
    rw [Array.getElem?_modify]
    split
    · next heq => simp [← heq, hg]
    · rfl
  split
  · next heq =>
    rw [heq, h]
    exact (hval slot).trans (if_pos rfl)
  · next hne =>
    rw [global?_eq]
    cases ho : s.slotOf? other with
    | none => rfl
    | some k =>
      refine (hval k).trans (if_neg ?_)
      rintro rfl
      exact hne (slotOf?_inj ho h)

end Store

namespace Kin

structure Stores (K : Kin) (s s' : Store) : Prop where
  heap : K.Heaps s.heap s'.heap
  first : K.pair.first.Later s
  second : K.pair.second.Later s'
  named : s.Named
  named' : s'.Named
  shapes : K.view.Trees s.shapes s'.shapes
  globals : ∀ name, Option.Rel K.Same (s.global? name) (s'.global? name)
  initializer : K.pair.Symbols s.initializer s'.initializer
  pending : s'.pending = s.pending
  error : s'.error = s.error
  depth : s'.depth = s.depth
  maxDepth : s'.maxDepth = s.maxDepth
  printed : s'.printed = s.printed
  muted : s'.muted = s.muted

namespace Stores

variable {K K' : Kin} {s s' : Store}

theorem later (h : K.Stores s s') : K.pair.Later ⟨s, s'⟩ := ⟨h.first, h.second⟩

theorem views (h : K.Stores s s') : K.view.Views s s' where
  heap := h.heap.toHeaps
  spelling ha := (h.later.symbols ha).spelling
  shapes := h.shapes
  initializer := h.initializer

theorem withHeap (h : K.Stores s s') (hle : K.Le K') {heap heap' : Heap}
    (hheap : K'.Heaps heap heap') (hfst : K'.pair.first.Later { s with heap := heap })
    (hsnd : K'.pair.second.Later { s' with heap := heap' }) :
    K'.Stores { s with heap := heap } { s' with heap := heap' } :=
  { h with
    heap := hheap
    first := hfst
    second := hsnd
    shapes := h.shapes.mono hle.view
    globals := fun name => Pairing.Same.option (h.globals name) hle.object
    initializer := hle.pair.symbols h.initializer }

theorem put (h : K.Stores s s') {i j : Nat} (hij : K.object i j) {y' : Object}
    (hj : s'.heap.objects[j]? = some y') (hc : ∀ c, y' ≠ .closure c) {o o' : Object}
    (ho : K.view.Objects o o') {x x' : Shapes} (hx : K.view.Trees x x') :
    K.Stores { s with shapes := x, heap := s.heap.put i o }
      { s' with shapes := x', heap := s'.heap.put j o' } := by
  obtain ⟨y, _, hy, hy', hs⟩ := h.heap.objects hij
  obtain rfl := Option.some.inj (hj.symm.trans hy')
  have hc' : ∀ c, y ≠ .closure c := by
    rintro c rfl
    cases hs with
    | closure => exact hc _ rfl
  exact
    { h with
      heap := h.heap.put hij ho
      first := h.first.trans (.put hy hc' o x)
      second := h.second.trans (.put hy' hc o' x')
      shapes := hx }

end Stores

end Kin

end ScriptMachine
