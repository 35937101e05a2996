/-
ScriptMachine.Proofs.Lexical.Scripts — the code of a whole program follows the
program.
-/
import ScriptMachine.Proofs.Lexical.Calls
import ScriptMachine.Proofs.Lowers.Decisions

namespace ScriptMachine

/-! ## §1 Mentions -/

theorem Store.Prepares.later {s t : Store} (h : s.Prepares t) : s.Later t :=
  ⟨h.names, h.slot, h.prototypes, h.interned, h.objects⟩

namespace Link

variable {L L' : Link} {s s' t' : Store}

theorem Moves.prepare (hp : s'.Prepares t') : L.Moves L s' t' where
  object := id
  cell := rfl
  made := rfl
  signals := by rw [Store.signals, Store.signals, hp.pending, hp.error, hp.depth]
  size := Nat.le_of_not_lt fun hlt => by
    -- an object that is there stays
    have hold := hp.objects (Array.getElem?_eq_getElem hlt)
    exact absurd (Array.getElem?_eq_some_iff.mp hold).1 (Nat.lt_irrefl _)
  cells hj hf := ⟨hp.objects hj, hf⟩
  later := hp.later

theorem Heaps.intern {h h' : Heap} (hh : L.Heaps h h') (text : String) (hr : h'.size < h'.limit) :
    (L.add h.size h'.size).Heaps
      { h.push (.text text) with interned := h.interned.insert text h.size }
      { h'.push (.text text) with interned := h'.interned.insert text h'.size } :=
  { hh.push (.text text) hr with
    interned := fun other => by
      rw [Table.get?_insert, Table.get?_insert]
      split
      · exact .some (.inr ⟨rfl, rfl⟩)
      · have hold := hh.interned other
        generalize h.interned.get? other = a, h'.interned.get? other = b at hold
        cases hold with
        | none => exact .none
        | some ho => exact .some (.inl ho) }

namespace Stores

variable (h : L.Stores s s')

include h

theorem intern (name : String) :
    (s'.intern name).1 = (s.intern name).1 ∧ L.Stores (s.intern name).2 (s'.intern name).2 := by
  unfold Store.intern
  rw [h.names]
  exact ⟨rfl, { h with names := rfl }⟩

theorem internText {text : String} {w : Word}
    (hr : (s'.internText text).1 = .ok w) : ∃ L', L.Moves L' s' (s'.internText text).2 ∧
      L'.Stores (s.internText text).2 (s'.internText text).2 := by
  have hp := s'.prepares_internText text
  have ht := h.heap.interned text
  unfold Store.internText at hr hp ⊢
  rcases s'.heap.internText_cases text with ⟨j, hj, heq⟩ | ⟨hj, ⟨hlt, heq⟩ | ⟨hf, heq⟩⟩ <;>
    rw [heq] at hr hp ⊢
  · rw [hj] at ht
    rcases s.heap.internText_cases text with ⟨i, _, heq'⟩ | ⟨hi, _⟩
    · rw [heq']
      exact ⟨L, .refl L s', h⟩
    · rw [hi] at ht
      cases ht
  · rw [hj] at ht
    have hlt' : s.heap.size < s.heap.limit :=
      Nat.lt_of_le_of_lt h.heap.size_le (h.heap.limit ▸ hlt)
    rcases s.heap.internText_cases text with ⟨i, hi, _⟩ | ⟨_, ⟨_, heq'⟩ | ⟨hf, _⟩⟩
    · rw [hi] at ht
      cases ht
    · rw [heq']
      refine ⟨L.add s.heap.size s'.heap.size, ?_, h.withHeap le_add (h.heap.intern text hlt)⟩
      exact { Moves.push (.text text) with
              later := hp.later }
    · exact absurd hlt' hf
  · cases hr

theorem slot (name : String) : (s'.globalSlot name).1 = (s.globalSlot name).1 ∧
      L.Stores (s.globalSlot name).2 (s'.globalSlot name).2 := by
  obtain ⟨hsym, hs⟩ := h.intern name
  rw [Store.globalSlot_eq, Store.globalSlot_eq, hsym, hs.globalSlot?]
  split
  · exact ⟨rfl, hs⟩
  · refine ⟨hs.globals.length_eq.symm, { hs with globals := ?_ }⟩
    rw [Array.toList_push, Array.toList_push]
    exact List.rel_append hs.globals (.cons ⟨rfl, .none⟩ .nil)

theorem define (name : String) {w w' : Word} (hw : L.Same w w') :
    L.Moves L s' (s'.defineGlobal name w') ∧
      L.Stores (s.defineGlobal name w) (s'.defineGlobal name w') := by
  obtain ⟨hslot, hs⟩ := h.slot name
  have heq : s.defineGlobal name w = (s.globalSlot name).2.putSlot (s'.globalSlot name).1 w := by
    rw [hslot]
    rfl
  have hm : L.Moves L s' (s'.globalSlot name).2 :=
    .prepare (s'.prepares_globalSlot name)
  rw [heq]
  exact ⟨hm.trans (putSlot_moves _ _), putSlot_stores hs _ hw⟩

theorem mention {m : Mention} (hcan : s'.CanMention m) :
    ∃ L', L.Moves L' s' (s'.mention m) ∧ L'.Stores (s.mention m) (s'.mention m) := by
  have hstays : L.Stores (s.mention m) (s'.mention m) →
      ∃ L', L.Moves L' s' (s'.mention m) ∧ L'.Stores (s.mention m) (s'.mention m) := fun hs =>
    ⟨L, .prepare (s'.prepares_mention m), hs⟩
  cases m with
  | text text =>
    obtain ⟨w, hw⟩ := hcan
    exact h.internText hw
  | name name => exact hstays (h.intern name).2
  | global name => exact hstays (h.slot name).2
  | prototype name arity =>
    obtain ⟨hsym, hs⟩ := h.intern name
    refine hstays { hs with prototypes := ?_ }
    show (s'.intern name).2.prototypes.push ⟨(s'.intern name).1, arity⟩ =
      (s.intern name).2.prototypes.push ⟨(s.intern name).1, arity⟩
    rw [hs.prototypes, hsym]
  | site kind => exact hstays { h with }

end Stores

end Link

namespace Lexical

theorem Moment.Linked.mentionAll : ∀ (ms : List Mention) {p : Moment}, p.Linked →
    p.store.HasRoom ms → ∃ L : Link,
      (p.withStores L (p.state.store.mentionAll ms) (p.store.mentionAll ms)).Linked
  | [], p, h, _ => ⟨p.link, h⟩
  | _ :: ms, _, h, hr => by
    obtain ⟨L, hm, hs⟩ := h.stores.mention hr.1
    exact mentionAll ms (h.moved hm hs) hr.2

/-! ## §2 Scripts -/

variable {host : Host} {least fuel : Nat} {p : Moment} {m : Machine} {w : Word}
  {r : EStateM.Result Exit State Word}

inductive Concludes (host : Host) (least : Nat) (m : Machine) :
    EStateM.Result Exit State Word → Prop
  | exhausted {r : EStateM.Result Exit State Word} : Exhausts host m → Concludes host least m r
  | ok {n : Nat} {m' : Machine} {p' : Moment} {w w' : Word} : Reaches host n m m' →
      m'.control = .stopped (.returned w') → p'.store = m'.store → p'.Linked → p'.Calm →
        p'.link.Same w w' → Concludes host least m (.ok w p'.state)
  | raised {n : Nat} {m' : Machine} {p' : Moment} {e : Failure} {w : Word} : Reaches host n m m' →
      m'.control = .stopped (.returned w) → p'.store = m'.store → p'.Linked →
        p'.store.error = some e → Concludes host least m (.error (.raised e) p'.state)
  | unfinished {n : Nat} {m' : Machine} {σ : State} : least ≤ n → Reaches host n m m' →
      m'.stop? = none → m'.store.printed = σ.store.printed →
        Concludes host least m (.error .unfinished σ)

theorem Moment.Leaves.stop (h : p.Leaves m [] w) (hs : p.store = m.store) (host : Host) :
    m.stop? = none ∧ (m.searchStep host).control = .stopped (.returned w) ∧
      (m.searchStep host).store = (p.forget.withDepth (· - 1)).store := by
  obtain ⟨store, frame, stack, callers, control⟩ := m
  obtain ⟨_, hctl, hcs⟩ := h
  subst hctl hcs hs
  exact ⟨rfl, rfl, rfl⟩

theorem Follows.concludes {base : Nat}
    (h : Follows host least base [] p m (Left []) r)
      (hnever : ∀ {w σ}, r ≠ .error (.returned w) σ) :
    Concludes host least m (atDepthResult r) := by
  cases h with
  | exhausted he => exact .exhausted he
  | @ok w p' m' hg hq =>
    obtain ⟨w', hlvs, hc, hw⟩ := hq
    obtain ⟨n, hn⟩ := hg.reaches
    obtain ⟨hstop, hctl, hst⟩ := hlvs.stop hg.store host
    have hd : Concludes host least m (.ok w (p'.forget.withDepth (· - 1)).state) :=
      .ok (hn.trans (.step hstop (.refl _))) hctl hst.symm (hlvs.linked.forget.withDepth _) hc hw
    exact hd
  | returned => exact absurd rfl hnever
  | @raised e w p' m' hg hlvs hp he =>
    obtain ⟨n, hn⟩ := hg.reaches
    obtain ⟨hstop, hctl, hst⟩ := hlvs.stop hg.store host
    have hd : Concludes host least m (.error (.raised e) (p'.forget.withDepth (· - 1)).state) :=
      .raised (hn.trans (.step hstop (.refl _))) hctl hst.symm (hlvs.linked.forget.withDepth _) he
    exact hd
  | unfinished hn hr hs hprt => exact .unfinished hn hr hs hprt

section Scripts

variable {G : Final} {F : FunctionState} {program : Program} {code : List Instr}

def Activation.ofScript (G : Final) (F : FunctionState) (base : Nat) : Activation :=
  ⟨G, F, { unit := G.unit }, #[], base, .nil⟩

theorem At.ofScript (h : p.Linked) (hc : p.Calm) (hscr : Translate.Script G F program code)
    (hf : G.store.Later p.store) :
    At (.ofScript G F p.state.envs.size) none {} [] (.replicate F.locals .zero) .zero p where
  placed :=
    { regular := .start
      top := nofun
      binds := nofun
      separate := fun _ _ _ _ _ => hscr.injective
      unit := rfl
      atTop := fun _ => hscr.kind
      result := fun _ => ⟨hscr.result, hscr.unbound⟩ }
  alive :=
    { linked := h
      calm := hc
      fits := hf
      carried := .inl rfl
      base_le := Nat.le_refl _
      bare := by
        show p.link.Same .nil (if F.kind = .initializer then .nil else .nil)
        rw [ite_self]
        exact .nil
      size := Array.size_replicate
      result := fun _ => ⟨.zero, by simp [hscr.result], .atom (.canonical (.inl rfl))⟩ }
  holds := ⟨.nil, rfl, .nil, nofun⟩

theorem body_follows [host.Attached] (hnow : host.now.Atomic) (h : p.Linked)
    (hc : p.Calm) (hscr : Translate.Script G F program code)
    (hf : G.store.Later p.store) (hplc : wellPlacedAll program) :
    let A := Activation.ofScript G F p.state.envs.size
    Follows host fuel p.state.envs.size [] p
      ⟨p.store, A.frameWith (.replicate F.locals .zero), [], [], .run (Translate.scriptBody code)⟩
      (Left []) ((returning id
        (execAll fuel (invoke host.now fuel) .nil none program .nil)).run p.state) := by
  intro A
  have hat := At.ofScript h hc hscr hf
  have hcall : Calls host fuel (invoke host.now fuel) := invoke_follows hnow fuel
  -- the variable of the result is nil before the first statement
  have hsta : Follows host fuel A.base [] p
      ⟨p.store, A.frameWith (.replicate F.locals .zero), [], [], .run (Translate.scriptBody code)⟩
      (Runs A none {} [] [] [] (code ++ [.leave (.readVariable Lower.resultVariable)]))
      (.ok .nil p.state) :=
    .step rfl <| .step rfl <| .step rfl <| .step rfl <|
      .discards (hat.forget.forget.forget.forget.setResult hscr.kind .nil)
  have hb : Follows host fuel A.base [] p
      ⟨p.store, A.frameWith (.replicate F.locals .zero), [], [], .run (Translate.scriptBody code)⟩
      (Runs A none (walkAll program {}) [] [] [] [.leave (.readVariable Lower.resultVariable)])
      ((execAll fuel (invoke host.now fuel) .nil none program .nil).run p.state) := by
    refine .bind (x := pure Word.nil) hsta ?_
    rintro last p1 m1 - - ⟨locals1, h1, rfl⟩
    exact execAll_follows hcall program hscr.statements hplc
      (Scopes.distinct_top program) h1
  refine .returning hb ?_
  rintro last p1 m1 ⟨locals1, h1, rfl⟩
  obtain ⟨w', hval, hs⟩ := h1.alive.result hscr.kind
  have hstep : (⟨p1.forget.store, A.frameWith locals1, [.leave, .rest []], [],
      .eval (.readVariable Lower.resultVariable)⟩ : Machine).searchStep host =
      ⟨p1.forget.forget.store, A.frameWith locals1, [.leave, .rest []], [], .give w'⟩ := by
    rw [← A.value_of_getElem? hval]
    rfl
  exact .step rfl (.stepTo rfl hstep (.leaves h1.forget.forget hs))

theorem script_concludes [host.Attached] (hnow : host.now.Atomic) (h : p.Linked)
    (hc : p.Calm) (hscr : Translate.Script G F program code)
    (hf : G.store.Later p.store) (hplc : wellPlacedAll program) :
    Concludes host fuel
      (Machine.start host p.store G.unit ⟨F.locals, Translate.scriptBody code⟩)
      ((atDepth (returning id
        (execAll fuel (invoke host.now fuel) .nil none program .nil))).run p.state) := by
  let A := Activation.ofScript G F p.state.envs.size
  let m : Machine := ⟨(p.withDepth (· + 1)).store, A.frameWith (.replicate F.locals .zero), [], [],
    .run []⟩
  have hsta : Machine.start host p.store G.unit ⟨F.locals, Translate.scriptBody code⟩ =
      if p.store.maxDepth < p.store.depth + 1 then
        { m with store := m.store.raise .stackOverflow, control := .leave .nil }
      else { m with control := .run (Translate.scriptBody code) } := by
    simp only [Machine.start, Machine.enter, Machine.serve, host.attached_eq, if_true]
    rfl
  rw [hsta, run_atDepth, h.stores.maxDepth, h.stores.depth]
  have hl := h.withDepth (· + 1)
  split
  · have hrai : Follows host fuel 0 [] (p.withDepth (· + 1))
        { m with store := m.store.raise .stackOverflow, control := .leave .nil } (Left [])
        (.error (.raised .stackOverflow) (p.withDepth (· + 1)).state) :=
      .raise hl hc .stackOverflow .nil
    exact hrai.concludes (by rintro _ _ ⟨⟩)
  · exact (body_follows hnow hl hc hscr
      (hf.trans (p.advances_withDepth (· + 1) 0).later) hplc).concludes
      fun heq => returning_ne_returned _ _ _ _ heq

end Scripts

end Lexical

end ScriptMachine
