/-
ScriptMachine.Proofs.Lexical.Agreement — operations on two stores that hold
the same come to the same.
-/
import ScriptMachine.Proofs.Lexical.Links

namespace ScriptMachine

/-! ## §1 Later -/

variable {s t : Store}

structure Store.Later (s t : Store) : Prop where
  names : s.names.Grows t.names
  slot : ∀ {symbol i}, s.globalSlot? symbol = some i → t.globalSlot? symbol = some i
  prototypes : ∀ {i : Nat} {p : Prototype}, s.prototypes[i]? = some p → t.prototypes[i]? = some p
  interned : ∀ {text i}, s.heap.interned.get? text = some i → t.heap.interned.get? text = some i
  closures : ∀ {i : Nat} {c : Closure},
    s.heap.objects[i]? = some (.closure c) → t.heap.objects[i]? = some (.closure c)

namespace Store.Later

variable {s t u : Store} {i : Nat}

theorem refl (s : Store) : s.Later s := ⟨.refl _, id, id, id, id⟩

theorem trans (h : s.Later t) (h' : t.Later u) : s.Later u where
  names := h.names.trans h'.names
  slot hs := h'.slot (h.slot hs)
  prototypes hp := h'.prototypes (h.prototypes hp)
  interned hi := h'.interned (h.interned hi)
  closures hc := h'.closures (h.closures hc)

theorem slotOf? (h : s.Later t) {name : String} (hs : s.slotOf? name = some i) :
    t.slotOf? name = some i := by
  obtain ⟨symbol, hsym, hslot⟩ := Option.bind_eq_some_iff.mp hs
  exact Option.bind_eq_some_iff.mpr ⟨symbol, h.names.find hsym, h.slot hslot⟩

theorem of_heap (hn : t.names = s.names) (hg : ∀ symbol,
    t.globalSlot? symbol = s.globalSlot? symbol)
    (hp : t.prototypes = s.prototypes) (hi : t.heap.interned = s.heap.interned)
    (hc : ∀ {i : Nat} {c : Closure}, s.heap.objects[i]? = some (.closure c) →
      t.heap.objects[i]? = some (.closure c)) : s.Later t where
  names := hn ▸ .refl _
  slot h := (hg _).trans h
  prototypes h := hp ▸ h
  interned h := hi ▸ h
  closures := hc

theorem put {o : Object} (ho : s.heap.objects[i]? = some o) (hc : ∀ c, o ≠ .closure c)
    (o' : Object) (shapes : Shapes) :
    s.Later { s with shapes := shapes, heap := s.heap.put i o' } := by
  refine .of_heap rfl (fun _ => rfl) rfl rfl fun {k c} hk => ?_
  show (s.heap.put i o').objects[k]? = _
  rw [s.heap.getElem?_put o' ho, if_neg, hk]
  rintro rfl
  rw [ho] at hk
  exact hc c (Option.some.inj hk)

end Store.Later

theorem Store.globalSlot?_congr (h : t.globals.map (·.name) = s.globals.map (·.name))
    (symbol : Symbol) : t.globalSlot? symbol = s.globalSlot? symbol := by
  have hs : ∀ u : Store, u.globalSlot? symbol = (u.globals.map (·.name)).findIdx?
    (· == symbol) := by
    intro u
    rw [Array.findIdx?_map]
    rfl
  rw [hs, hs, h]

theorem Store.Evolves.later {fresh : Object → Prop} (h : s.Evolves fresh t) : s.Later t := by
  refine .of_heap h.names (Store.globalSlot?_congr h.globals) h.prototypes h.heap.interned ?_
  intro i c hc
  obtain ⟨o, ho, hb⟩ := h.heap.objects hc
  rw [ho, hb.closure_eq]

/-! ## §2 Moves -/

namespace Link

structure Moves (L L' : Link) (s' t' : Store) : Prop where
  object : ∀ {i j}, L.object i j → L'.object i j
  cell : L'.cell = L.cell
  made : L'.made = L.made
  signals : t'.signals = s'.signals
  size : s'.heap.size ≤ t'.heap.size
  cells : ∀ {j : Nat} {v : Word}, s'.heap.objects[j]? = some (.cell v) →
    (∀ i, ¬L.object i j) → t'.heap.objects[j]? = some (.cell v) ∧ ∀ i, ¬L'.object i j
  later : s'.Later t'

variable {L L' : Link} {s s' t t' : Store} {v v' w w' : Word}

namespace Moves

variable {o : Object}

theorem refl (L : Link) (s' : Store) : L.Moves L s' s' :=
  ⟨id, rfl, rfl, rfl, Nat.le_refl _, fun hj hf => ⟨hj, hf⟩, .refl s'⟩

theorem trans {L'' : Link} {u' : Store} (h : L.Moves L' s' t') (h' : L'.Moves L'' t' u') :
    L.Moves L'' s' u' where
  object ho := h'.object (h.object ho)
  cell := h'.cell.trans h.cell
  made := h'.made.trans h.made
  signals := h'.signals.trans h.signals
  size := Nat.le_trans h.size h'.size
  cells hj hf := by
    obtain ⟨hj', hf'⟩ := h.cells hj hf
    exact h'.cells hj' hf'
  later := h.later.trans h'.later

theorem of_heap_eq (h : t'.heap = s'.heap) (hs : t'.signals = s'.signals) (hl : s'.Later t') :
    L.Moves L s' t' :=
  ⟨id, rfl, rfl, hs, Nat.le_of_eq (congrArg Heap.size h.symm),
    fun hj hf => ⟨h ▸ hj, hf⟩, hl⟩

theorem push {i : Nat} (o : Object) :
    L.Moves (L.add i s'.heap.size) s' { s' with heap := s'.heap.push o } where
  object := .inl
  cell := rfl
  made := rfl
  signals := rfl
  size := by
    rw [Heap.size_push]
    exact Nat.le_succ _
  cells hj hf := by
    refine ⟨getElem?_push_of_some hj, ?_⟩
    rintro i (hij | ⟨_, rfl⟩)
    · exact hf i hij
    · exact absurd (Array.getElem?_eq_some_iff.mp hj).1 (Nat.lt_irrefl _)
  later := .of_heap rfl (fun _ => rfl) rfl rfl fun hj => getElem?_push_of_some hj

theorem put {i j : Nat} (hij : L.object i j) (hj : s'.heap.objects[j]? = some o)
    (hclo : ∀ c, o ≠ .closure c) (o' : Object) (shapes : Shapes) :
    L.Moves L s' { s' with shapes := shapes, heap := s'.heap.put j o' } where
  object := id
  cell := rfl
  made := rfl
  signals := rfl
  size := Nat.le_of_eq (Heap.size_put ..).symm
  cells := by
    intro k v hk hf
    refine ⟨?_, hf⟩
    show (s'.heap.put j o').objects[k]? = _
    rw [s'.heap.getElem?_put o' hj, if_neg, hk]
    rintro rfl
    exact hf i hij
  later := .put hj hclo o' shapes

end Moves

/-! ## §3 Likeness -/

abbrev likeness : Likeness Link := ⟨view, Stores, Moves, fun _ => True⟩

abbrev AgreeWords (L : Link) := likeness.AgreeWords L

theorem alloc_agree (h : L.Stores s s') {o o' : Object} (ho : L.view.Objects o o') :
    L.AgreeWords s' (s.alloc o) (s'.alloc o') := by
  rcases s'.alloc_cases o' with ⟨hr, heq⟩ | ⟨_, heq⟩
  · rcases s.alloc_cases o with ⟨_, heq'⟩ | ⟨hf, _⟩
    · rw [heq, heq']
      have hh := h.heap.push ho hr
      exact .ok (.push o') (h.withHeap le_add hh) (hh.same (.inr ⟨rfl, rfl⟩))
    · have := h.heap.size_le
      have := h.heap.limit
      omega
  · rw [heq]
    exact .exhausted trivial rfl

/-- All operations of the store come to the same. -/
theorem lawful : likeness.Lawful where
  views := Stores.views
  object h := h.object
  refl := .refl _ _
  sites h _ _ := { h with }
  moves_sites h _ := { h with later := ⟨h.later.names, h.later.slot, h.later.prototypes,
    h.later.interned, h.later.closures⟩ }
  moves_of_sites h := { h with later := ⟨h.later.names, h.later.slot, h.later.prototypes,
    h.later.interned, h.later.closures⟩ }
  alloc h _ _ ho := alloc_agree h ho
  put h _ _ hij _ hj hold _ _ ho _ _ hy :=
    ⟨{ h.withHeap (.refl _) (h.heap.put hij ho) with shapes := hy }, .put hij hj hold _ _⟩

theorem makeClosure_agree (h : L.Stores s s') (p : Nat) {unit : CodeUnit} {d : Nat}
    {cells cells' : Array Word} (ht : unit.Typed L.known d cells.size)
    (hc : L.object.Slots cells cells') :
    L.AgreeWords s' (s.makeClosure p (.compiled unit d) cells)
      (s'.makeClosure p (.compiled unit d) cells') := by
  unfold Store.makeClosure
  rw [h.prototypes]
  split
  · exact alloc_agree h (.closure rfl rfl (.shared rfl rfl ht hc))
  · exact lawful.fails h _

/-! ## §4 Globals -/

theorem getGlobal_agree (h : L.Stores s s') (slot : Nat) :
    L.AgreeWords s' (s.getGlobal slot, s) (s'.getGlobal slot, s') := by
  have hval := h.slotValue? slot
  unfold Store.getGlobal
  rw [h.undefinedGlobal]
  generalize s.slotValue? slot = a, s'.slotValue? slot = b at hval
  cases hval with
  | some hs => exact lawful.done h hs
  | none => exact lawful.fails h _

theorem putSlot_stores (h : L.Stores s s') (slot : Nat) (hw : L.Same w w') :
    L.Stores (s.putSlot slot w) (s'.putSlot slot w') := by
  refine { h with globals := ?_ }
  simp only [Store.putSlot, Array.toList_modify]
  have hg := h.globals
  generalize s.globals.toList = xs, s'.globals.toList = ys at hg
  induction hg generalizing slot with
  | nil =>
    rw [List.modify_nil, List.modify_nil]
    exact .nil
  | cons hg hr ih =>
    cases slot with
    | zero => exact .cons ⟨hg.1, .some hw⟩ hr
    | succ slot => exact .cons hg (ih slot)

theorem putSlot_moves (slot : Nat) (w' : Word) : L.Moves L s' (s'.putSlot slot w') :=
  .of_heap_eq rfl rfl (s'.evolves_putSlot slot w' fun _ => True).later

theorem setGlobal_agree (h : L.Stores s s') (slot : Nat) (hw : L.Same w w') :
    L.AgreeWords s' (s.setGlobal slot w) (s'.setGlobal slot w') := by
  have hval := h.slotValue? slot
  unfold Store.setGlobal
  rw [h.undefinedGlobal]
  generalize s.slotValue? slot = a, s'.slotValue? slot = b at hval
  cases hval with
  | some _ => exact .ok (putSlot_moves slot w') (putSlot_stores h slot hw) hw
  | none => exact lawful.fails h _

theorem print_stores (h : L.Stores s s') (hw : L.Same w w') :
    L.Stores (s.print w) (s'.print w') := by
  have hl := h.views.render hw
  have hmuted := h.muted
  unfold Store.print
  split
  · next hm =>
    rw [hm] at hmuted
    rw [if_pos hmuted]
    exact h
  · next hm =>
    rw [if_neg (hmuted ▸ hm)]
    exact { h with printed := by rw [hl, h.printed] }

theorem print_moves (w' : Word) : L.Moves L s' (s'.print w') := by
  unfold Store.print
  split
  · exact .refl L s'
  · exact .of_heap_eq rfl rfl (.of_heap rfl (fun _ => rfl) rfl rfl id)

end Link

end ScriptMachine
