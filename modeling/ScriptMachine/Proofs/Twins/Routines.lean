/-
ScriptMachine.Proofs.Twins.Routines — operations on two stores that look the
same come to the same.
-/
import ScriptMachine.Proofs.Twins.Stores

namespace ScriptMachine.Kin

variable {K K' : Kin} {s s' : Store} {v v' w w' : Word} {name name' : Symbol}

abbrev likeness : Likeness Kin := ⟨view, Stores, fun K K' _ _ => K.Moves K', fun K => ¬K.even⟩

abbrev AgreeWords (K : Kin) := likeness.AgreeWords K

theorem Stores.withSites (h : K.Stores s s') (xs xs' : Array Site) :
    K.Stores { s with sites := xs } { s' with sites := xs' } :=
  { h with
    first := h.first.trans (.of_heap rfl (fun _ => rfl) rfl rfl id)
    second := h.second.trans (.of_heap rfl (fun _ => rfl) rfl rfl id) }

theorem alloc_agree (h : K.Stores s s') {o o' : Object} (ho : K.view.Objects o o') :
    K.AgreeWords s' (s.alloc o) (s'.alloc o') := by
  have hfst := h.first.trans (s.evolves_alloc o).later
  have hsnd := h.second.trans (s'.evolves_alloc o').later
  have hs := h.heap.size_le
  have hlim := h.heap.limit
  rcases s'.alloc_cases o' with ⟨hr, heq'⟩ | ⟨hf, heq'⟩
  · rcases s.alloc_cases o with ⟨_, heq⟩ | ⟨hf, _⟩
    · rw [heq] at hfst ⊢
      rw [heq'] at hsnd ⊢
      have hh := h.heap.push ho hr
      exact .ok (K.moves_add _ _) (h.withHeap (K.moves_add _ _).toLe hh hfst hsnd)
        (hh.same (.inr ⟨rfl, rfl⟩))
    · omega
  · rw [heq']
    by_cases he : K.even
    · have hl := (h.heap.level he).1
      rcases s.alloc_cases o with ⟨hr, _⟩ | ⟨_, heq⟩
      · omega
      · rw [heq, hl]
        exact .error _ (.refl K) h
    · exact .exhausted he rfl

theorem lawful : likeness.Lawful where
  views := Stores.views
  object h := h.object
  refl := .refl _
  sites := Stores.withSites
  moves_sites h _ := h
  moves_of_sites h := h
  alloc h _ _ ho := alloc_agree h ho
  put h _ _ hij _ hj hold _ _ ho _ _ hx := ⟨h.put hij hj hold ho hx, .refl _⟩

inductive Served (K : Kin) : Word × Store → Word × Store → Prop
  | exhausted {r : Word × Store} {w' : Word} {t' : Store} {e : HeapError} : ¬K.even →
      t'.error = some (.heap e) → K.Served r (w', t')
  | done {K' : Kin} {t t' : Store} {w w' : Word} : K.Moves K' → K'.Same w w' → K'.Stores t t' →
      K.Served (w, t) (w', t')

theorem Stores.raise (h : K.Stores s s') (e : Failure) : K.Stores (s.raise e) (s'.raise e) :=
  { h with
    first := h.first.trans (.of_heap rfl (fun _ => rfl) rfl rfl id)
    second := h.second.trans (.of_heap rfl (fun _ => rfl) rfl rfl id)
    pending := rfl
    error := by
      unfold Store.raise
      rw [h.error] }

theorem Served.of_agree {r r' : Except Failure Word × Store} (h : K.AgreeWords s' r r')
    (he : s'.error = none) : K.Served (Serve.report r) (Serve.report r') := by
  cases h with
  | @exhausted _ e t' heven hsig =>
    refine .exhausted (e := e) heven ?_
    show some (t'.error.getD (.heap e)) = _
    rw [Store.error_of_signals hsig, he]
    rfl
  | error e hle hs => exact .done hle .nil (hs.raise e)
  | ok hle hs hw => exact .done hle hw hs

section Globals

variable {slot slot' : Nat}

theorem getGlobal_agree (h : K.Stores s s') (hslot : K.pair.Globals slot slot') :
    K.AgreeWords s' (s.getGlobal slot, s) (s'.getGlobal slot', s') := by
  obtain ⟨name, hfst, hsnd⟩ := h.later.globals hslot
  have hval := h.globals name
  rw [Store.global?_of_slotOf? hfst, Store.global?_of_slotOf? hsnd] at hval
  unfold Store.getGlobal
  rw [Store.undefinedGlobal_of_slotOf? hfst, Store.undefinedGlobal_of_slotOf? hsnd]
  generalize s.slotValue? slot = a, s'.slotValue? slot' = b at hval
  cases hval with
  | some hs => exact lawful.done h hs
  | none => exact lawful.fails h _

theorem putSlot_stores (h : K.Stores s s') (hs : K.pair.Globals slot slot') (hw : K.Same w w') :
    K.Stores (s.putSlot slot w) (s'.putSlot slot' w') := by
  obtain ⟨name, hfst, hsnd⟩ := h.later.globals hs
  refine { h with first := ?_, second := ?_, named := ?_, named' := ?_, globals := fun other => ?_ }
  · exact h.first.trans (s.evolves_putSlot slot w fun _ => True).later
  · exact h.second.trans (s'.evolves_putSlot slot' w' fun _ => True).later
  · exact h.named.putSlot slot w
  · exact h.named'.putSlot slot' w'
  · rw [Store.global?_putSlot hfst, Store.global?_putSlot hsnd]
    split
    · exact .some hw
    · exact h.globals other

theorem setGlobal_agree (h : K.Stores s s') (hs : K.pair.Globals slot slot')
    (hw : K.Same w w') : K.AgreeWords s' (s.setGlobal slot w) (s'.setGlobal slot' w') := by
  have hput := putSlot_stores h hs hw
  obtain ⟨name, hfst, hsnd⟩ := h.later.globals hs
  have hval := h.globals name
  rw [Store.global?_of_slotOf? hfst, Store.global?_of_slotOf? hsnd] at hval
  unfold Store.setGlobal
  rw [Store.undefinedGlobal_of_slotOf? hfst, Store.undefinedGlobal_of_slotOf? hsnd]
  generalize s.slotValue? slot = a, s'.slotValue? slot' = b at hval
  cases hval with
  | some _ => exact .ok (.refl K) hput hw
  | none => exact lawful.fails h _

end Globals

variable (h : K.Stores s s')

include h

theorem print_stores (hw : K.Same w w') : K.Stores (s.print w) (s'.print w') := by
  have hl := h.views.render hw
  have hmuted := h.muted
  unfold Store.print
  split
  · next hm =>
    rw [hm] at hmuted
    rw [if_pos hmuted]
    exact h
  · next hm =>
    rw [if_neg (hmuted ▸ hm)]
    exact
      { h with
        first := h.first.trans (.of_heap rfl (fun _ => rfl) rfl rfl id)
        second := h.second.trans (.of_heap rfl (fun _ => rfl) rfl rfl id)
        printed := by rw [hl, h.printed] }

theorem closureCell_same (hw : K.Same w w') (index : Nat) :
    K.Same (s.closureCell w index) (s'.closureCell w' index) := by
  have hd := h.heap.deref? hw
  unfold Store.closureCell
  generalize s.heap.deref? w = a, s'.heap.deref? w' = b at hd
  cases hd with
  | none => exact .nil
  | some ho =>
    cases ho with
    | closure _ _ hc => exact hc.2.getD index
    | _ => exact .nil

theorem makeClosure_agree {p p' : Nat} (hp : K.pair.Prototypes p p')
    {e e' : Entry} (he : K.Entries e e') {cells cells' : Array Word}
      (hc : K.object.Slots cells cells') :
    K.AgreeWords s' (s.makeClosure p e cells) (s'.makeClosure p' e' cells') := by
  obtain ⟨x, x', hfst, hsnd, hn, ha⟩ := hp
  unfold Store.makeClosure
  rw [h.first.prototypes hfst, h.second.prototypes hsnd]
  exact alloc_agree h (.closure hn ha ⟨he, hc⟩)

end ScriptMachine.Kin
