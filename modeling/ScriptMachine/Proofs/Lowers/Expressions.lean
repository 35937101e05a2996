/-
ScriptMachine.Proofs.Lowers.Expressions — expressions are lowered to the
code they should be.
-/
import ScriptMachine.Proofs.Translation

namespace ScriptMachine

namespace Lower

variable {l l' : Lowering} {instr : Instr} {depth : UInt64} {key : Key} {code : Code}
  {symbol : Symbol} {target : Resolution} {name : String} {value : Code}

def nextStorage (l : Lowering) : Storage :=
  if l.captured.contains l.scopes.nextKey then .boxed l.current.locals
  else .direct l.current.locals

theorem nextStorage_index (l : Lowering) : (nextStorage l).index = l.current.locals := by
  unfold nextStorage
  split <;> rfl

end Lower

namespace Lowering

variable {l : Lowering} {name : String} {k : Key} {b : Binding}

def declared (l : Lowering) (name : String) : Lowering :=
  { l with
    bindings := l.bindings.insert l.scopes.nextKey ⟨l.scopes.frame, Lower.nextStorage l⟩
    scopes := l.scopes.declare name
    current := { l.current with locals := l.current.locals + 1 } }

theorem declared_frame (l : Lowering) (name : String) :
    (l.declared name).scopes.frame = l.scopes.frame :=
  Scopes.declare_frame ..

theorem declared_get? (l : Lowering) (name : String) (k : Key) :
    (l.declared name).bindings.get? k =
      if l.scopes.nextKey = k then some ⟨l.scopes.frame, Lower.nextStorage l⟩
      else l.bindings.get? k :=
  Table.get?_insert ..

theorem of_declared_get? (h : (l.declared name).bindings.get? k = some b) :
    l.bindings.get? k = some b ∨
      (k = l.scopes.nextKey ∧ b = ⟨l.scopes.frame, Lower.nextStorage l⟩) := by
  rw [declared_get?] at h
  split at h
  · next heq => exact .inr ⟨heq.symm, (Option.some.inj h).symm⟩
  · exact .inl h

namespace Tidy

variable (ht : l.Tidy)

include ht

theorem declared_of_get? (hk : l.bindings.get? k = some b) :
    (l.declared name).bindings.get? k = some b := by
  rw [declared_get?, if_neg (Nat.ne_of_gt (ht.keys hk)), hk]

/-- Declaring a local keeps a lowering tidy: its key is a new one, its slot is one no other
binding of the frame has, and the scope it enters is the frame's own. -/
theorem declared (hne : l.scopes.atTop = false) : (l.declared name).Tidy := by
  obtain ⟨scope, rest, hstk⟩ : ∃ scope rest, l.scopes.stack = scope :: rest := by
    cases hs : l.scopes.stack with
    | nil => simp [Scopes.atTop, hs] at hne
    | cons scope rest => exact ⟨scope, rest, rfl⟩
  have htop : scope.frame = l.scopes.frame := ht.top hstk
  have hsc : (l.declared name).scopes =
      { l.scopes with
        stack := { scope with entries := (name, l.scopes.nextKey) :: scope.entries } :: rest
        nextKey := l.scopes.nextKey + 1 } := Scopes.declare_of_cons name hstk
  have hscope : scope ∈ l.scopes.stack := hstk ▸ List.mem_cons_self
  have hr : ∀ sc ∈ rest, sc ∈ l.scopes.stack := fun _ hmem =>
    hstk ▸ List.mem_cons_of_mem _ hmem
  refine
    { keys := ?keys, bound := ?bound, top := ?top, frame_lt := ?frame_lt, scopes_lt := ?scopes_lt
      bindings_lt := ?bindings_lt, locals_lt := ?locals_lt, injective := ?injective
      upvalues := ?upvalues, definitions := ht.definitions, result := fun _ => Nat.succ_pos _ }
  case injective =>
    have hf : ∀ {k st}, l.bindings.get? k = some ⟨l.scopes.frame, st⟩ →
        st.index ≠ (Lower.nextStorage l).index := fun hk =>
      Lower.nextStorage_index l ▸ Nat.ne_of_lt (ht.locals_lt hk)
    intro k k' frame st st' hk hk' heq
    rcases of_declared_get? hk with hk | ⟨rfl, hb⟩ <;>
      rcases of_declared_get? hk' with hk' | ⟨rfl, hb'⟩
    · exact ht.injective hk hk' heq
    · cases hb'
      exact absurd heq (hf hk)
    · cases hb
      exact absurd heq.symm (hf hk')
    · rfl
  all_goals rw [hsc]
  case keys =>
    intro k b hk
    rcases of_declared_get? hk with hk | ⟨rfl, _⟩
    · exact Nat.lt_succ_of_lt (ht.keys hk)
    · exact Nat.lt_succ_self _
  case bound =>
    intro sc hmem n k hk
    rcases List.mem_cons.mp hmem with rfl | hmem
    · rcases List.mem_cons.mp hk with heq | hk
      · cases heq
        exact ⟨_, by rw [declared_get?, if_pos rfl, htop]⟩
      · obtain ⟨st, hst⟩ := ht.bound scope hscope hk
        exact ⟨st, ht.declared_of_get? hst⟩
    · obtain ⟨st, hst⟩ := ht.bound sc (hr sc hmem) hk
      exact ⟨st, ht.declared_of_get? hst⟩
  case top =>
    intro sc rest' hs
    obtain ⟨rfl, _⟩ := List.cons.inj hs
    exact htop
  case frame_lt => exact ht.frame_lt
  case scopes_lt =>
    intro sc hmem
    rcases List.mem_cons.mp hmem with rfl | hmem
    · exact ht.scopes_lt scope hscope
    · exact ht.scopes_lt sc (hr sc hmem)
  case bindings_lt =>
    intro k b hk
    rcases of_declared_get? hk with hk | ⟨_, rfl⟩
    · exact ht.bindings_lt hk
    · exact ht.frame_lt
  case locals_lt =>
    intro k st hk
    rcases of_declared_get? hk with hk | ⟨_, heq⟩
    · exact Nat.lt_succ_of_lt (ht.locals_lt hk)
    · cases heq
      exact Nat.lt_succ_of_le (Nat.le_of_eq (Lower.nextStorage_index l))
  case upvalues =>
    intro k hk
    obtain ⟨sc, hmem, hfr, n, hn⟩ := ht.upvalues k hk
    rw [hstk, List.mem_cons] at hmem
    rcases hmem with rfl | hmem
    · exact absurd htop hfr
    · exact ⟨sc, List.mem_cons_of_mem _ hmem, hfr, n, hn⟩

theorem grows_declared : l.Grows (l.declared name) :=
  { Grows.refl l with
    bindings := ht.declared_of_get?
    own := fun hk => by
      rcases of_declared_get? hk with hk | ⟨_, heq⟩
      · exact .inl hk
      · cases heq
        exact .inr (Nat.le_of_eq (Lower.nextStorage_index l).symm)
    others := fun hk hne _ => by
      rcases of_declared_get? hk with hk | ⟨_, rfl⟩
      · exact hk
      · exact absurd rfl hne
    frame := declared_frame l name
    nextFrame := Nat.le_of_eq (Scopes.declare_nextFrame ..).symm
    nextKey := Scopes.nextKey_le_declare ..
    current := ⟨rfl, List.prefix_rfl, Nat.le_succ _⟩ }

end Tidy

end Lowering

namespace Lower

variable {l l' : Lowering} {instr : Instr} {depth : UInt64} {key : Key} {code : Code}
  {symbol : Symbol} {target : Resolution} {name : String} {value : Code}

theorem declareLocal_ok (name : String) (value : Code) (l : Lowering) : ∃ m : Lowering,
    declareLocal name value l =
      .ok (.evaluate (.assignVariable l.current.locals ((nextStorage l).hold value))) m ∧
    (l.declared name).Quiet m := by
  obtain ⟨m, hm, hq⟩ := useIf_ok (l.captured.contains l.scopes.nextKey) .newCell
    { l with current := { l.current with locals := l.current.locals + 1 } }
  refine ⟨{ m with
    bindings := m.bindings.insert m.scopes.nextKey ⟨m.scopes.frame, nextStorage l⟩
    scopes := m.scopes.declare name }, ?_, { hq with scopes := ?_, bindings := ?_ }⟩
  · have hv : newVariable l = .ok l.current.locals
        { l with current := { l.current with locals := l.current.locals + 1 } } := rfl
    rw [declareLocal, bind_of_ok hv, bind_of_ok (get_eq_ok.mpr ⟨rfl, rfl⟩), bind_of_ok hm]
    unfold nextStorage
    cases l.captured.contains l.scopes.nextKey <;> rfl
  · exact congrArg (·.declare name) hq.scopes
  · show m.bindings.insert m.scopes.nextKey ⟨m.scopes.frame, _⟩ = _
    rw [hq.scopes, hq.bindings]
    rfl

theorem declareLocal_inv (h : declareLocal name value l = .ok instr l') :
    instr = .evaluate (.assignVariable l.current.locals ((nextStorage l).hold value)) ∧
      (l.declared name).Quiet l' := by
  obtain ⟨m, hm, hq⟩ := declareLocal_ok name value l
  rw [hm] at h
  cases h
  exact ⟨rfl, hq⟩

theorem declareLocal_yields (ht : l.Tidy) (hne : l.scopes.atTop = false)
    (h : declareLocal name value l = .ok instr l') :
    Yields l l' [] fun G F => Translate.DeclaresLocal G F l.scopes value instr := by
  obtain ⟨rfl, hq⟩ := declareLocal_inv h
  refine .of_below (hq.tidy (ht.declared hne)) (ht.grows_declared.trans hq.grows) hq.store ?_
  intro sites G F hb
  refine ⟨nextStorage l, hb.bindings ?_, ?_, by rw [nextStorage_index]⟩
  · rw [hq.bindings, Lowering.declared_get?, if_pos rfl]
  · rw [nextStorage_index]
    exact Nat.lt_of_lt_of_le (hq.locals ▸ Nat.lt_succ_self _) hb.current.locals

structure Evaluates (l l' : Lowering) (ms : List Mention) (P : Final → FunctionState → Prop) :
    Prop extends Yields l l' ms P where
  scopes : l'.scopes = l.scopes
  bindings : l'.bindings = l.bindings

namespace Evaluates

variable {m : Lowering} {ms ns : List Mention} {P Q : Final → FunctionState → Prop}

theorem mono (h : Evaluates l l' ms P) (hpq : ∀ {G F}, P G F → Q G F) : Evaluates l l' ms Q :=
  ⟨h.toYields.mono hpq, h.scopes, h.bindings⟩

theorem seq (h : Evaluates l m ms P) (h' : Evaluates m l' ns Q) :
    Evaluates l l' (ms ++ ns) fun G F => P G F ∧ Q G F :=
  ⟨h.toYields.seq h'.toYields, h'.scopes.trans h.scopes, h'.bindings.trans h.bindings⟩

theorem of_quiet (hq : l.Quiet l') (ht : l.Tidy) : Evaluates l l' [] fun _ _ => True :=
  ⟨hq.yields ht, hq.scopes, hq.bindings⟩

theorem quiet (h : Evaluates l m ms P) (hq : m.Quiet l') : Evaluates l l' ms P := by
  have := (h.seq (of_quiet hq h.tidy)).mono fun hp => hp.1
  rwa [List.append_nil] at this

theorem refl (ht : l.Tidy) : Evaluates l l [] fun _ _ => True :=
  ⟨.refl ht, rfl, rfl⟩

end Evaluates

theorem resolve?_inv {found : Option Key} (h : resolve? name depth l = .ok found l') :
    l' = l ∧ ∃ d, l.scopes.resolve name depth = .ok d ∧ found = d.map (·.key) := by
  simp only [resolve?, bind_eq_ok, get_eq_ok] at h
  obtain ⟨_, _, ⟨rfl, rfl⟩, h⟩ := h
  cases hr : l.scopes.resolve name depth with
  | ok d =>
    simp only [hr, pure_eq_ok] at h
    exact ⟨h.2.symm, d, rfl, h.1.symm⟩
  | error e => simp [hr] at h

theorem resolve_declared (ht : l.Tidy) {frame : Nat}
    (h : l.scopes.resolve name depth = .ok (some ⟨frame, key⟩)) :
    l.scopes.Opens key ∧ ∃ storage, l.bindings.get? key = some ⟨frame, storage⟩ := by
  unfold Scopes.resolve at h
  split at h
  · cases h
  · simp only [Except.ok.injEq, Option.bind_eq_bind, Option.bind_eq_some_iff, pure,
      Option.some.injEq, Declared.mk.injEq] at h
    obtain ⟨scope, hs, k, hk, rfl, rfl⟩ := h
    have hmem := List.mem_of_getElem? hs
    have hent : (name, k) ∈ scope.entries := by
      obtain ⟨l1, l2, heq, _⟩ := List.lookup_eq_some_iff.mp hk
      rw [heq]
      simp
    exact ⟨⟨scope, hmem, name, hent⟩, ht.bound scope hmem hent⟩

theorem bindingOf_inv {b : Binding} (h : bindingOf key l = .ok b l') :
    l' = l ∧ l.bindings.get? key = some b := by
  simp only [bindingOf, bind_eq_ok, get_eq_ok] at h
  obtain ⟨_, _, ⟨rfl, rfl⟩, h⟩ := h
  cases hb : l.bindings.get? key with
  | some b' =>
    simp only [hb, pure_eq_ok] at h
    exact ⟨h.2.symm, by rw [h.1]⟩
  | none => simp [hb] at h

theorem upvalue_yields (ht : l.Tidy) {position : Nat} (hd : l.scopes.Declares key)
    (h : upvalue key l = .ok position l') :
    Evaluates l l' [] fun _ F => F.upvalues[position]? = some key := by
  simp only [upvalue, bind_eq_ok, get_eq_ok] at h
  obtain ⟨_, _, ⟨rfl, rfl⟩, h⟩ := h
  cases hi : l.current.upvalues.idxOf? key with
  | some i =>
    simp only [hi, pure_eq_ok] at h
    obtain ⟨rfl, rfl⟩ := h
    refine ⟨.of_below ht (.refl l) rfl fun hb => ?_, rfl, rfl⟩
    obtain ⟨hlt, hkey, _⟩ := List.findIdx?_eq_some_iff_getElem.mp hi
    obtain ⟨more, hm⟩ := hb.current.upvalues
    rw [← hm, List.getElem?_append_left hlt, List.getElem?_eq_getElem hlt]
    simpa using hkey
  | none =>
    simp only [hi, modifyGet_eq_ok, Prod.mk.injEq] at h
    obtain ⟨rfl, rfl⟩ := h
    refine ⟨.of_below ?_ ?_ rfl ?_, rfl, rfl⟩
    · refine { ht with upvalues := fun k hk => ?_ }
      rcases List.mem_append.mp hk with hk | hk
      · exact ht.upvalues k hk
      · rw [List.mem_singleton.mp hk]
        exact hd
    · exact { Lowering.Grows.refl l with
        current := ⟨rfl, List.prefix_append _ _, Nat.le_refl _⟩ }
    · intro sites G F hb
      obtain ⟨more, hm⟩ := hb.current.upvalues
      rw [← hm, List.append_assoc, List.getElem?_append_right (Nat.le_refl _)]
      simp

theorem cellOf_yields (ht : l.Tidy) {cell : CellRef}
    (ho : l.scopes.Opens key)
    (h : cellOf key l = .ok cell l') :
    Evaluates l l' [] fun G F => Translate.CellAt G F l.scopes.frame key cell := by
  simp only [cellOf, bind_eq_ok] at h
  obtain ⟨b, m, hb, h⟩ := h
  obtain ⟨rfl, hbind⟩ := bindingOf_inv hb
  obtain ⟨frame, storage⟩ := b
  cases storage with
  | direct index => simp at h
  | boxed index =>
    simp only [bind_eq_ok, get_eq_ok] at h
    obtain ⟨_, _, ⟨rfl, rfl⟩, h⟩ := h
    by_cases hf : frame = m.scopes.frame
    · simp only [hf, if_true, pure_eq_ok] at h
      obtain ⟨rfl, rfl⟩ := h
      refine ⟨.of_below ht (.refl m) rfl fun hb => ?_, rfl, rfl⟩
      exact ⟨frame, index, hb.bindings hbind, .inl ⟨hf, rfl⟩⟩
    · simp only [hf, if_false, bind_eq_ok, pure_eq_ok] at h
      obtain ⟨position, m1, hup, _, m2, huse, rfl, rfl⟩ := h
      have hd : m.scopes.Declares key := by
        obtain ⟨scope, hmem, n, hn⟩ := ho
        obtain ⟨st, hst⟩ := ht.bound scope hmem hn
        have : frame = scope.frame := by
          rw [hbind] at hst
          exact congrArg Binding.frame (Option.some.inj hst)
        exact ⟨scope, hmem, fun heq => hf (this.trans heq), n, hn⟩
      have hup' := upvalue_yields ht hd hup
      refine ⟨?_, (hup'.quiet (use_quiet huse)).scopes, (hup'.quiet (use_quiet huse)).bindings⟩
      have hy := hup'.quiet (use_quiet huse)
      refine { hy.toYields with holds := fun sites => ?_ }
      obtain ⟨sites', hs, hp⟩ := hy.holds sites
      refine ⟨sites', hs, fun hb => ⟨frame, index, ?_, .inr ⟨hf, position, hp hb, rfl⟩⟩⟩
      exact hb.bindings (hy.bindings ▸ hbind)

theorem cellsOf_yields (ht : l.Tidy) {keys : List Key} {cells : List CellRef}
    (ho : ∀ key ∈ keys, l.scopes.Opens key)
    (h : cellsOf keys l = .ok cells l') :
    Evaluates l l' [] fun G F => Translate.CellsAt G F l.scopes.frame keys cells := by
  induction keys generalizing l cells with
  | nil =>
    obtain ⟨rfl, rfl⟩ := h
    exact (Evaluates.refl ht).mono fun _ => .nil
  | cons key keys ih =>
    simp only [cellsOf, bind_eq_ok, pure_eq_ok] at h
    obtain ⟨cell, m, hc, cells', m', hcs, rfl, rfl⟩ := h
    have hcell := cellOf_yields ht (ho key List.mem_cons_self) hc
    have hr := ih hcell.tidy
      (fun k hk => hcell.scopes ▸ ho k (List.mem_cons_of_mem _ hk)) hcs
    rw [hcell.scopes] at hr
    exact (hcell.seq hr).mono fun hp => .cons hp.1 hp.2

theorem ownVariable?_inv {found : Option Nat} (h : ownVariable? key l = .ok found l') :
    l' = l ∧ ∀ index, found = some index →
      l.bindings.get? key = some ⟨l.scopes.frame, .direct index⟩ := by
  simp only [ownVariable?, bind_eq_ok] at h
  obtain ⟨⟨frame, storage⟩, m, hb, h⟩ := h
  obtain ⟨rfl, hbind⟩ := bindingOf_inv hb
  cases storage with
  | boxed index =>
    simp only [pure_eq_ok] at h
    exact ⟨h.2.symm, fun i hi => by simp [← h.1] at hi⟩
  | direct index =>
    obtain ⟨_, _, ⟨rfl, rfl⟩, rfl, rfl⟩ := h
    refine ⟨rfl, fun i hi => ?_⟩
    split at hi
    · next hf =>
      obtain rfl := Option.some.inj hi
      exact hf ▸ hbind
    · cases hi

theorem access_yields (ht : l.Tidy)
    (ho : l.scopes.Opens key) {own : Nat → Code}
    {boxed : CellRef → Code} {service : Service}
    (h : (do
      match ← ownVariable? key with
      | some index => return own index
      | none =>
        let cell ← cellOf key
        use service
        return boxed cell : Lower Code) l = .ok code l') :
    Evaluates l l' [] fun G F =>
      (∃ index, G.bindings.get? key = some ⟨l.scopes.frame, .direct index⟩ ∧ code = own index) ∨
        ∃ cell, Translate.CellAt G F l.scopes.frame key cell ∧ code = boxed cell := by
  simp only [bind_eq_ok] at h
  obtain ⟨found, m, hf, h⟩ := h
  obtain ⟨rfl, hown⟩ := ownVariable?_inv hf
  cases found with
  | some index =>
    simp only [pure_eq_ok] at h
    obtain ⟨rfl, rfl⟩ := h
    refine ⟨.of_below ht (.refl m) rfl fun hb => ?_, rfl, rfl⟩
    exact .inl ⟨index, hb.bindings (hown index rfl), rfl⟩
  | none =>
    simp only [bind_eq_ok, pure_eq_ok] at h
    obtain ⟨cell, m1, hc, _, m2, hu, rfl, rfl⟩ := h
    exact ((cellOf_yields ht ho hc).quiet (use_quiet hu)).mono fun hp => .inr ⟨cell, hp, rfl⟩

theorem readKey_yields (ht : l.Tidy)
    (ho : l.scopes.Opens key)
    (h : readKey key l = .ok code l') :
    Evaluates l l' [] fun G F => Translate.ReadsKey G F l.scopes.frame key code :=
  access_yields ht ho h

theorem assignKey_yields (ht : l.Tidy)
    (ho : l.scopes.Opens key)
    (h : assignKey key value l = .ok code l') :
    Evaluates l l' [] fun G F => Translate.AssignsKey G F l.scopes.frame key value code :=
  access_yields ht ho h

theorem interned_of_internText {s : Store} {text : String} {w : Word}
    (h : (s.internText text).1 = .ok w) :
    ∃ i, (s.internText text).2.heap.interned.get? text = some i ∧ w = .ofIndex i := by
  unfold Store.internText at h ⊢
  rcases s.heap.internText_cases text with ⟨i, hi, heq⟩ | ⟨_, ⟨_, heq⟩ | ⟨_, heq⟩⟩ <;>
    rw [heq] at h ⊢
  · exact ⟨i, hi, (Except.ok.inj h).symm⟩
  · refine ⟨s.heap.size, ?_, (Except.ok.inj h).symm⟩
    show (s.heap.interned.insert text s.heap.size).get? text = _
    rw [Table.get?_insert, if_pos rfl]
  · cases h

theorem slotOf?_globalSlot (s : Store) (name : String) :
    (s.globalSlot name).2.slotOf? name = some (s.globalSlot name).1 := by
  have hf := s.names.find?_intern name
  rw [Store.globalSlot_eq]
  cases hs : (s.intern name).2.globalSlot? (s.intern name).1 with
  | some slot =>
    simp only [Store.slotOf?, Option.bind_eq_bind, Option.bind_eq_some_iff]
    exact ⟨(s.intern name).1, hf, hs⟩
  | none =>
    simp only [Store.slotOf?, Option.bind_eq_bind, Option.bind_eq_some_iff]
    refine ⟨(s.intern name).1, hf, ?_⟩
    simp only [Store.globalSlot?] at hs ⊢
    simp [Array.findIdx?_push, hs]

theorem literal_yields (ht : l.Tidy) {value : Literal} (h : literal value l = .ok code l') :
    Evaluates l l' (Expr.literal value).mentions fun G _ => Translate.literal G value code := by
  cases value with
  | text s =>
    simp only [literal, bind_eq_ok, onStore_eq_ok] at h
    obtain ⟨r, m, ⟨rfl, rfl⟩, h⟩ := h
    cases hr : (l.store.internText s).1 with
    | error e => simp [hr] at h
    | ok w =>
      simp only [hr, pure_eq_ok] at h
      obtain ⟨rfl, rfl⟩ := h
      obtain ⟨i, hi, rfl⟩ := interned_of_internText hr
      refine ⟨?_, rfl, rfl⟩
      exact (store_yields ht (.text s) rfl).mono fun hp => ⟨i, hp.interned hi, rfl⟩
  | nil | bool b | number bits =>
    obtain ⟨rfl, rfl⟩ := h
    exact (Evaluates.refl ht).mono fun _ => rfl

theorem name_yields (ht : l.Tidy) (h : onStore (·.intern name) l = .ok symbol l') :
    Evaluates l l' [.name name] fun G _ => Translate.Named G name symbol := by
  obtain ⟨rfl, rfl⟩ := onStore_eq_ok.mp h
  refine ⟨?_, rfl, rfl⟩
  exact (store_yields ht (.name name) rfl).mono fun hp =>
    hp.names.find (l.store.names.find?_intern name)

theorem globalSlot_yields (ht : l.Tidy) {slot : Nat}
    (h : onStore (·.globalSlot name) l = .ok slot l') :
    Evaluates l l' [.global name] fun G _ => G.store.slotOf? name = some slot := by
  obtain ⟨rfl, rfl⟩ := onStore_eq_ok.mp h
  refine ⟨?_, rfl, rfl⟩
  exact (store_yields ht (.global name) rfl).mono fun hp =>
    hp.slotOf (slotOf?_globalSlot l.store name)

theorem resolves (ht : l.Tidy) (h : resolve? name depth l = .ok (some key) l') :
    l' = l ∧ l.scopes.Opens key ∧
      ∀ {G : Final}, (∀ {k b}, l.bindings.get? k = some b → G.bindings.get? k = some b) →
        Translate.Resolves G l.scopes name depth key := by
  obtain ⟨rfl, d, hd, hkey⟩ := resolve?_inv h
  cases d with
  | none => cases hkey
  | some d =>
    obtain ⟨frame, k⟩ := d
    obtain rfl : key = k := Option.some.inj hkey
    obtain ⟨ho, storage, hst⟩ := resolve_declared ht hd
    exact ⟨rfl, ho, fun hG => ⟨frame, storage, hd, hG hst⟩⟩

theorem Evaluates.and_bindings {ms : List Mention} {P : Final → FunctionState → Prop}
    {Q : Final → Prop} (h : Evaluates l l' ms P)
    (hq : ∀ {G : Final}, (∀ {k b}, l.bindings.get? k = some b → G.bindings.get? k = some b) → Q G) :
    Evaluates l l' ms fun G F => Q G ∧ P G F := by
  refine ⟨{ h.toYields with holds := fun sites => ?_ }, h.scopes, h.bindings⟩
  obtain ⟨sites', hs, hp⟩ := h.holds sites
  exact ⟨sites', hs, fun hb => ⟨hq fun hk => hb.bindings (h.bindings ▸ hk), hp hb⟩⟩

theorem local_yields (ht : l.Tidy) {f : Key → Lower Code} {e : CompileError}
    {P : Key → Final → FunctionState → Prop}
    (hf : ∀ {key}, l.scopes.Opens key →
      f key l = .ok code l' → Evaluates l l' [] (P key))
    (h : (do
      match ← resolve? name depth with
      | some key => f key
      | none => throw e) l = .ok code l') :
    Evaluates l l' [] fun G F => ∃ key, Translate.Resolves G l.scopes name depth key ∧
      P key G F := by
  simp only [bind_eq_ok] at h
  obtain ⟨found, m, hr, h⟩ := h
  cases found with
  | none => simp at h
  | some key =>
    obtain ⟨rfl, ho, hres⟩ := resolves ht hr
    exact ((hf ho h).and_bindings hres).mono fun hp => ⟨key, hp⟩

theorem readImplicit_yields (ht : l.Tidy) {keyword : Ident}
    (h : readImplicit keyword name depth l = .ok code l') :
    Evaluates l l' [] fun G F => Translate.ReadsLocal G F l.scopes name depth code :=
  local_yields ht (readKey_yields ht) h

theorem read_yields (ht : l.Tidy) {name : Ident} (h : read name target l = .ok code l') :
    Evaluates l l' (Expr.read name target).mentions
      fun G F => Translate.read G F l.scopes name.name target code := by
  cases target with
  | global =>
    simp only [read, bind_eq_ok, pure_eq_ok] at h
    obtain ⟨slot, m, hs, _, m', hu, rfl, rfl⟩ := h
    exact ((globalSlot_yields ht hs).quiet (use_quiet hu)).mono fun hp => ⟨slot, hp, rfl⟩
  | scope depth => exact local_yields ht (readKey_yields ht) h

theorem assign_yields (ht : l.Tidy) {name : Ident} (h : assign name value target l = .ok code l') :
    Evaluates l l' (target.mentions name.name)
      fun G F => Translate.assign G F l.scopes name.name value target code := by
  cases target with
  | global =>
    simp only [assign, bind_eq_ok, pure_eq_ok] at h
    obtain ⟨slot, m, hs, _, m', hu, rfl, rfl⟩ := h
    exact ((globalSlot_yields ht hs).quiet (use_quiet hu)).mono fun hp => ⟨slot, hp, rfl⟩
  | scope depth => exact local_yields ht (assignKey_yields ht) h

theorem site_yields (ht : l.Tidy) {kind : SiteKind} {site : Nat} {m : Lowering}
    (hs : onStore (·.addSite kind) l = .ok site m)
      (hn : onStore (·.intern name) m = .ok symbol l') :
    Evaluates l l' [.site kind, .name name]
      fun G _ => Translate.Named G name symbol ∧ Translate.SiteOf G site kind symbol := by
  obtain ⟨rfl, rfl⟩ := onStore_eq_ok.mp hs
  have hsite := store_yields ht (.site kind) rfl
  have hname := name_yields hsite.tidy hn
  have hboth := hsite.seq hname.toYields
  refine ⟨{ hboth with holds := fun sites => ?_ }, hname.scopes, hname.bindings⟩
  -- The ghost table gets its entry for the new site here and nowhere else.
  obtain ⟨sites', hs', hp⟩ := hname.holds fun k =>
    if k = l.store.sites.size then symbol else sites k
  have hsize : (l.store.addSite kind).2.sites.size = l.store.sites.size + 1 := Array.size_push ..
  refine ⟨sites', fun k hk => ?_, fun {G F} hb => ⟨hp hb, ?_, ?_⟩⟩
  · rw [hs' k (by show k < (l.store.addSite kind).2.sites.size; omega), if_neg (Nat.ne_of_lt hk)]
  · have hnew : (l.store.addSite kind).2.sites[l.store.sites.size]? = some { kind := kind } :=
      Array.getElem?_push_size
    rw [Array.getElem?_map]
    show (G.store.sites[l.store.sites.size]?).map _ = _
    rw [(hname.grows.store.trans hb.store).sites hnew]
    rfl
  · have h1 : (l.store.addSite kind).2.sites.size ≤ _ := hname.grows.store.sites_size_le
    show _ = symbol
    rw [hb.sites (by show l.store.sites.size < _; omega),
      hs' _ (by show l.store.sites.size < (l.store.addSite kind).2.sites.size; omega)]
    exact if_pos rfl

mutual

theorem expr_yields : ∀ (e : Expr) {l l' : Lowering} {code : Code}, l.Tidy →
    expr e l = .ok code l' →
      Evaluates l l' e.mentions fun G F => Translate.expr G F l.scopes e code
  | .literal value, _, _, _, ht, h => by
    exact literal_yields ht h
  | .group inner, _, _, _, ht, h => by
    exact expr_yields inner ht h
  | .unary .negate operand, _, _, _, ht, h => by
    simp only [expr, bind_eq_ok, pure_eq_ok] at h
    obtain ⟨o, m, ho, _, _, hu, rfl, rfl⟩ := h
    exact ((expr_yields operand ht ho).quiet (use_quiet hu)).mono fun hp => ⟨o, hp, rfl⟩
  | .unary .not operand, _, _, _, ht, h => by
    simp only [expr, bind_eq_ok, pure_eq_ok] at h
    obtain ⟨o, m, ho, rfl, rfl⟩ := h
    exact (expr_yields operand ht ho).mono fun hp => ⟨o, hp, rfl⟩
  | .binary op left right, _, _, _, ht, h => by
    simp only [expr, bind_eq_ok, pure_eq_ok] at h
    obtain ⟨a, m, ha, b, m', hb, _, _, hu, rfl, rfl⟩ := h
    have hl := expr_yields left ht ha
    have hr := expr_yields right hl.tidy hb
    rw [hl.scopes] at hr
    exact ((hl.seq hr).quiet (use_quiet hu)).mono fun hp => ⟨a, b, hp.1, hp.2, rfl⟩
  | .logical op left right, _, _, _, ht, h => by
    simp only [expr, bind_eq_ok, pure_eq_ok] at h
    obtain ⟨a, m, ha, b, m', hb, rfl, rfl⟩ := h
    have hl := expr_yields left ht ha
    have hr := expr_yields right hl.tidy hb
    rw [hl.scopes] at hr
    exact (hl.seq hr).mono fun hp => ⟨a, b, hp.1, hp.2, rfl⟩
  | .read name target, _, _, _, ht, h => by
    exact read_yields ht h
  | .assign name target value, _, _, _, ht, h => by
    simp only [expr, bind_eq_ok] at h
    obtain ⟨v, m, hv, h⟩ := h
    have hval := expr_yields value ht hv
    have hset := assign_yields hval.tidy h
    rw [hval.scopes] at hset
    exact (hval.seq hset).mono fun hp => ⟨v, hp.1, hp.2⟩
  | .call callee arguments line, _, _, _, ht, h => by
    simp only [expr, checkCount, bind_eq_ok] at h
    obtain ⟨_, m0, hc, h⟩ := h
    split at hc
    · simp at hc
    · obtain ⟨_, rfl⟩ := hc
      obtain ⟨f, m, hf, as, m', has, _, _, hu, rfl, rfl⟩ := h
      have hfn := expr_yields callee ht hf
      have hargs := exprs_yields arguments hfn.tidy has
      rw [hfn.scopes] at hargs
      exact ((hfn.seq hargs).quiet (use_quiet hu)).mono fun hp => ⟨f, as, hp.1, hp.2, rfl⟩
  | .get object name, _, _, _, ht, h => by
    simp only [expr, bind_eq_ok, pure_eq_ok] at h
    obtain ⟨o, m, ho, site, m1, hs, symbol, m2, hn, _, _, hu, rfl, rfl⟩ := h
    have hobj := expr_yields object ht ho
    have hsite := site_yields hobj.tidy hs hn
    exact ((hobj.seq hsite).quiet (use_quiet hu)).mono
      fun hp => ⟨o, symbol, site, hp.1, hp.2.1, hp.2.2, rfl⟩
  | .set object name value, _, _, _, ht, h => by
    simp only [expr, bind_eq_ok, pure_eq_ok] at h
    obtain ⟨o, m, ho, v, m0, hv, site, m1, hs, symbol, m2, hn, _, _, hu, rfl, rfl⟩ := h
    have hobj := expr_yields object ht ho
    have hval := expr_yields value hobj.tidy hv
    rw [hobj.scopes] at hval
    have hsite := site_yields hval.tidy hs hn
    exact (((hobj.seq hval).seq hsite).quiet (use_quiet hu)).mono
      fun hp => ⟨o, v, symbol, site, hp.1.1, hp.1.2, hp.2.1, hp.2.2, rfl⟩
  | .self keyword target, _, _, _, ht, h => by
    cases target with
    | global => simp [expr, self] at h
    | scope depth =>
      exact (readImplicit_yields ht h).mono fun hp => ⟨depth, rfl, hp⟩
  | .super keyword method target, _, _, _, ht, h => by
    cases target with
    | global => simp [expr, super] at h
    | scope depth =>
      simp only [expr, super] at h
      split at h
      · simp at h
      · next hd =>
        simp only [bind_eq_ok, pure_eq_ok] at h
        obtain ⟨s, m, hs, r, m1, hr, symbol, m2, hn, _, _, hu, rfl, rfl⟩ := h
        have hsup := readImplicit_yields ht hs
        have hself := readImplicit_yields hsup.tidy hr
        rw [hsup.scopes] at hself
        have hname := name_yields hself.tidy hn
        exact (((hsup.seq hself).seq hname).quiet (use_quiet hu)).mono
          fun hp => ⟨depth, s, r, symbol, rfl, hd, hp.1.1, hp.1.2, hp.2, rfl⟩

theorem exprs_yields : ∀ (es : List Expr) {l l' : Lowering} {codes : List Code}, l.Tidy →
    exprs es l = .ok codes l' →
      Evaluates l l' (mentionsOfArguments es) fun G F => Translate.exprs G F l.scopes es codes
  | [], _, _, _, ht, h => by
    obtain ⟨rfl, rfl⟩ := h
    exact (Evaluates.refl ht).mono fun _ => rfl
  | e :: rest, _, _, _, ht, h => by
    simp only [exprs, bind_eq_ok, pure_eq_ok] at h
    obtain ⟨c, m, hc, cs, m', hcs, rfl, rfl⟩ := h
    have hfst := expr_yields e ht hc
    have hr := exprs_yields rest hfst.tidy hcs
    rw [hfst.scopes] at hr
    exact (hfst.seq hr).mono fun hp => ⟨c, cs, hp.1, hp.2, rfl⟩

end

end Lower

end ScriptMachine
