/-
ScriptMachine.Proofs.Lexical.Earlier — code that was there before follows
itself.
-/
import ScriptMachine.Proofs.Lexical.Declarations

namespace ScriptMachine

variable {L L' : Link} {fr fr' : Frame} {w w' : Word}

/-! ## §1 Frames -/

structure Link.Frames (L : Link) (fr fr' : Frame) : Prop where
  unit : fr'.unit = fr.unit
  receiver : L.Same fr.receiver fr'.receiver
  arguments : List.Forall₂ L.Same fr.arguments fr'.arguments
  locals : L.object.Slots fr.locals fr'.locals

namespace Link.Frames

theorem mono (h : L.Frames fr fr') (hle : ∀ {i j}, L.object i j → L'.object i j) :
    L'.Frames fr fr' :=
  ⟨h.unit, h.receiver.mono hle, h.arguments.imp fun _ _ hw => hw.mono hle, h.locals.mono hle⟩

theorem getD_zero {a b : Option Word} (h : Option.Rel L.Same a b) :
    L.Same (a.getD .zero) (b.getD .zero) := by
  cases h with
  | some hw => exact hw
  | none => exact .atom (.canonical (.inl (by decide)))

theorem value (h : L.Frames fr fr') (index : Nat) : L.Same (fr.value index) (fr'.value index) :=
  getD_zero (h.locals.value index)

theorem argument (h : L.Frames fr fr') (index : Nat) :
    L.Same (fr.arguments[index]?.getD .zero) (fr'.arguments[index]?.getD .zero) := by
  have ha := h.arguments
  generalize fr.arguments = ws at ha
  generalize fr'.arguments = ws' at ha
  refine getD_zero ?_
  induction ha generalizing index with
  | nil => exact .none
  | cons hw _ ih =>
    cases index with
    | zero => exact .some hw
    | succ index => exact ih index

theorem setVariable (h : L.Frames fr fr') (index : Nat) (hw : L.Same w w') :
    L.Frames (fr.setVariable index w) (fr'.setVariable index w') :=
  { h with locals := h.locals.set index hw }

end Link.Frames

namespace Lexical

variable {T : Scheme} {base fuel least : Nat} {cells : Array Word} {p p' : Moment} {host : Host}
  {K : List Pending} {cs : List Caller} {m : Machine} {call : Word → List Word → Interp Word}
  {e value : Code} {more : List Instr}

structure Earlier (T : Scheme) (base : Nat) (cells : Array Word) (fr fr' : Frame) (p : Moment) :
    Prop where
  linked : p.Linked
  calm : p.Calm
  base_le : base ≤ p.state.envs.size
  frames : p.link.Frames fr fr'
  carried : ∃ c, p.store.heap.deref? fr'.closure = some (.closure c) ∧
    p.link.object.Slots cells c.cells
  constant : ∀ {w}, T.constant w → p.link.Same w w
  closure : ∀ {d n}, T.closure d n → fr.unit.Typed p.link.known d n

namespace Earlier

variable (h : Earlier T base cells fr fr' p)

include h

theorem advance {base' : Nat} (ha : p.Advances base' p') (hl : p'.Linked) (hc : p'.Calm) :
    Earlier T base cells fr fr' p' where
  linked := hl
  calm := hc
  base_le := Nat.le_trans h.base_le ha.size
  frames := h.frames.mono ha.object
  carried := by
    obtain ⟨c, hd, hs⟩ := h.carried
    exact ⟨c, Store.Later.deref?_closure ha.later hd, hs.mono ha.object⟩
  constant hw := (h.constant hw).mono ha.object
  closure hd := by
    have hle : p.link.known.Le p'.link.known :=
      ⟨fun hw => Pairing.Same.mono hw ha.object, fun _ => trivial⟩
    exact (h.closure hd).mono hle

theorem forget : Earlier T base cells fr fr' p.forget :=
  h.advance (p.advances_forget base) h.linked.forget h.calm.forget

theorem setVariable (index : Nat) (hw : p.link.Same w w') :
    Earlier T base cells (fr.setVariable index w) (fr'.setVariable index w') p :=
  { h with frames := h.frames.setVariable index hw }

theorem cellWord (host : Host) [host.Attached] (hs : m.store.heap = p.store.heap)
    (hf : m.frame = fr')
    (c : CellRef) : p.link.Same (cellOf cells fr c) (m.cellWord host c) := by
  obtain ⟨closure, hd, hslots⟩ := h.carried
  cases c with
  | own index =>
    rw [Machine.cellWord, hf]
    exact h.frames.value index
  | captured index =>
    have hw : m.cellWord host (.captured index) = closure.cells[index]?.getD .nil := by
      simp [Machine.cellWord, Machine.serve, Serve.closureCell, Store.closureCell, hs, hf, hd]
    rw [hw]
    exact hslots.getD index

theorem cellWords (host : Host) [host.Attached] (hs : m.store.heap = p.store.heap)
    (hf : m.frame = fr')
    (caps : List CellRef) : p.link.object.Slots (caps.map (cellOf cells fr)).toArray
      (caps.map (m.cellWord host)).toArray := by
  refine ⟨by simp, fun k => ?_⟩
  rw [List.getElem?_toArray, List.getElem?_toArray, List.getElem?_map, List.getElem?_map]
  cases caps[k]? with
  | none => exact .none
  | some c => exact .some (h.cellWord host hs hf c)

end Earlier

/-! ## §2 Expressions -/

def Yields (T : Scheme) (base : Nat) (cells : Array Word) (K : List Pending) (cs : List Caller)
    (r : Word × Frame) (p : Moment) (m : Machine) : Prop :=
  ∃ w' fr', Earlier T base cells r.2 fr' p ∧ p.link.Same r.1 w' ∧
    m = ⟨p.store, fr', K, cs, .give w'⟩

theorem Follows.yields (h : Earlier T base cells fr fr' p) {x : Interp Word}
    (hf : Follows host least base cs p m (Answers fr' K cs) (x.run p.state)) :
    Follows host least base cs p m (Yields T base cells K cs)
      ((x >>= fun w => pure (w, fr)).run p.state) := by
  refine .bind hf ?_
  rintro w p1 m1 ha hs ⟨hl, hc, w', hw, hm⟩
  exact .done hs ⟨w', fr', h.advance ha hl hc, hw, hm⟩

theorem Follows.hands (h : Earlier T base cells fr fr' p) (hw : p.link.Same w w') :
    Follows host least base cs p ⟨p.store, fr', K, cs, .give w'⟩ (Yields T base cells K cs)
      (.ok (w, fr) p.state) :=
  .done rfl ⟨w', fr', h, hw, rfl⟩

section Values

variable (hvalue : ∀ {K : List Pending}, Follows host fuel base cs p.forget
  ⟨p.forget.store, fr', K, cs, .eval value⟩ (Yields T base cells K cs)
  ((evalCode call cells value fr).run p.forget.state))

include hvalue

theorem assignVariable_follows (index : Nat) :
    Follows host fuel base cs p ⟨p.store, fr', K, cs, .eval (.assignVariable index value)⟩
      (Yields T base cells K cs)
      ((evalCode call cells (.assignVariable index value) fr).run p.state) := by
  refine .step rfl (.bind hvalue ?_)
  rintro ⟨w, fr1⟩ p1 m1 - - ⟨w', fr1', h1, hw, rfl⟩
  exact .step rfl (.hands (h1.forget.setVariable index hw) hw)

theorem newCell_follows [host.Attached] :
    Follows host fuel base cs p ⟨p.store, fr', K, cs, .eval (.newCell value)⟩
      (Yields T base cells K cs) ((evalCode call cells (.newCell value) fr).run p.state) := by
  refine .step rfl (.bind hvalue ?_)
  rintro ⟨w, fr1⟩ p1 m1 - - ⟨w', fr1', h1, hw, rfl⟩
  refine .yields h1 (.step rfl (.asked h1.forget.linked h1.forget.calm
    (Serve.newCell w') rfl _ rfl ?_))
  exact Link.alloc_agree h1.forget.linked.stores (.cell hw)

end Values

mutual

theorem evalCode_follows [host.Attached] (hc : Calls host fuel call) :
    ∀ (e : Code) {fr fr' : Frame} {p : Moment} {K : List Pending}, e.Typed T →
      Earlier T base cells fr fr' p →
      Follows host fuel base cs p ⟨p.store, fr', K, cs, .eval e⟩ (Yields T base cells K cs)
        ((evalCode call cells e fr).run p.state)
  | .constant w, fr, fr', p, K, ht, h => by
    exact .step rfl (.hands h.forget (h.constant ht))
  | .receiver, fr, fr', p, K, _, h => by
    exact .step rfl (.hands h.forget h.frames.receiver)
  | .argument index, fr, fr', p, K, _, h => by
    exact .step rfl (.hands h.forget (h.frames.argument index))
  | .readVariable index, fr, fr', p, K, _, h => by
    exact .step rfl (.hands h.forget (h.frames.value index))
  | .assignVariable index value, fr, fr', p, K, ht, h =>
    assignVariable_follows (evalCode_follows hc value ht.2 h.forget) index
  | .newCell _, _, _, _, _, ht, _ => ht.elim
  | .readCell cell, fr, fr', p, K, _, h => by
    have hcell : p.forget.link.Same (p.state.store.cellValue (cellOf cells fr cell))
        (p.forget.store.cellValue ((⟨p.forget.store, fr', K, cs, .eval (.readCell cell)⟩ :
          Machine).cellWord host cell)) :=
      h.forget.linked.stores.views.cellValue_same (h.forget.cellWord host rfl rfl cell)
    refine .stepTo rfl ?_ (.hands h.forget hcell)
    show (_ : Machine).eval host (.readCell cell) = _
    simp only [Machine.eval, Machine.serve, host.attached_eq, if_true]
    rfl
  | .assignCell cell value, fr, fr', p, K, ht, h => by
    refine .step rfl (.bind (evalCode_follows hc value ht.2 h.forget) ?_)
    rintro ⟨w, fr1⟩ p1 m1 - - ⟨w', fr1', h1, hw, rfl⟩
    obtain ⟨hs, hm⟩ := Link.lawful.setCell h1.forget.linked.stores
      (h1.forget.cellWord host (m := ⟨p1.forget.store, fr1', K, cs, .give w'⟩) rfl rfl cell) hw
    have hadv := p1.forget.advances_moved
      (t := p1.state.store.setCell (cellOf cells fr1 cell) w) hm base
    refine .reach (.stepTo rfl ?_ (.refl _)) ((p1.advances_forget base).trans hadv)
      (.hands (h1.forget.advance hadv (h1.forget.linked.moved hm hs) (h1.forget.calm.moved hm)) hw)
    show (_ : Machine).receive host w' (.assignCell cell) = _
    simp only [Machine.receive, Machine.serve, host.attached_eq, if_true]
    rfl
  | .readGlobal slot, fr, fr', p, K, _, h => by
    exact .yields h (readSlot_follows h.linked h.calm slot)
  | .assignGlobal slot value, fr, fr', p, K, ht, h => by
    refine .step rfl (.bind (evalCode_follows hc value ht h.forget) ?_)
    rintro ⟨w, fr1⟩ p1 m1 - - ⟨w', fr1', h1, hw, rfl⟩
    exact .yields h1 (assignSlot_follows h1.linked h1.calm hw slot)
  | .negate operand, fr, fr', p, K, ht, h => by
    refine .step rfl (.bind (evalCode_follows hc operand ht h.forget) ?_)
    rintro ⟨w, fr1⟩ p1 m1 - - ⟨w', fr1', h1, hw, rfl⟩
    exact .yields h1 (negate_follows h1.linked h1.calm hw)
  | .not operand, fr, fr', p, K, ht, h => by
    refine .step rfl (.bind (evalCode_follows hc operand ht h.forget) ?_)
    rintro ⟨w, fr1⟩ p1 m1 - - ⟨w', fr1', h1, hw, rfl⟩
    have hnot : p1.link.Same (.ofBool w.isFalsy) (.ofBool w'.isFalsy) := by
      rw [hw.isFalsy_eq]
      exact .atom (.ofBool _)
    exact .step rfl (.hands h1.forget hnot)
  | .binary op left right, fr, fr', p, K, ht, h => by
    refine .step rfl (.bind (evalCode_follows hc left ht.1 h.forget) ?_)
    rintro ⟨v, fr1⟩ p1 m1 - - ⟨v', fr1', h1, hv, rfl⟩
    refine .step rfl (.bind (evalCode_follows hc right ht.2 h1.forget) ?_)
    rintro ⟨w, fr2⟩ p2 m2 ha - ⟨w', fr2', h2, hw, rfl⟩
    exact .yields h2 (binary_follows h2.linked h2.calm hw op (hv.mono ha.object))
  | .logical .and left right, fr, fr', p, K, ht, h => by
    refine .step rfl (.bind (evalCode_follows hc left ht.1 h.forget) ?_)
    rintro ⟨v, fr1⟩ p1 m1 - - ⟨v', fr1', h1, hv, rfl⟩
    refine .stepTo rfl (show _ = if v'.isFalsy then ⟨p1.forget.store, fr1', K, cs, .give v'⟩
      else ⟨p1.forget.store, fr1', K, cs, .eval right⟩ from rfl) ?_
    rw [hv.isFalsy_eq]
    dsimp only
    split
    · exact .hands h1.forget hv
    · exact evalCode_follows hc right ht.2 h1.forget
  | .logical .or left right, fr, fr', p, K, ht, h => by
    refine .step rfl (.bind (evalCode_follows hc left ht.1 h.forget) ?_)
    rintro ⟨v, fr1⟩ p1 m1 - - ⟨v', fr1', h1, hv, rfl⟩
    refine .stepTo rfl (show _ = if v'.isFalsy then ⟨p1.forget.store, fr1', K, cs, .eval right⟩
      else ⟨p1.forget.store, fr1', K, cs, .give v'⟩ from rfl) ?_
    rw [hv.isFalsy_eq]
    dsimp only
    split
    · exact evalCode_follows hc right ht.2 h1.forget
    · exact .hands h1.forget hv
  | .call callee arguments, fr, fr', p, K, ht, h => by
    refine .step rfl (.bind (evalCode_follows hc callee ht.1 h.forget) ?_)
    rintro ⟨f, fr1⟩ p1 m1 - - ⟨f', fr1', h1, hf, rfl⟩
    exact evalCodes_follow hc arguments ht.2 h1 hf .nil rfl rfl rfl
  | .getProperty object name site, fr, fr', p, K, ht, h => by
    refine .step rfl (.bind (evalCode_follows hc object ht.1 h.forget) ?_)
    rintro ⟨v, fr1⟩ p1 m1 - - ⟨v', fr1', h1, hv, rfl⟩
    exact .yields h1 (getSymbol_follows h1.linked h1.calm hv name)
  | .setProperty object name value site, fr, fr', p, K, ht, h => by
    refine .step rfl (.bind (evalCode_follows hc object ht.1 h.forget) ?_)
    rintro ⟨v, fr1⟩ p1 m1 - - ⟨v', fr1', h1, hv, rfl⟩
    refine .step rfl (.bind (evalCode_follows hc value ht.2.1 h1.forget) ?_)
    rintro ⟨w, fr2⟩ p2 m2 ha - ⟨w', fr2', h2, hw, rfl⟩
    exact .yields h2 (setSymbol_follows h2.linked h2.calm hw name (hv.mono ha.object))
  | .getSuper superclass self name, fr, fr', p, K, ht, h => by
    refine .step rfl (.bind (evalCode_follows hc superclass ht.1 h.forget) ?_)
    rintro ⟨v, fr1⟩ p1 m1 - - ⟨v', fr1', h1, hv, rfl⟩
    refine .step rfl (.bind (evalCode_follows hc self ht.2 h1.forget) ?_)
    rintro ⟨w, fr2⟩ p2 m2 ha - ⟨w', fr2', h2, hw, rfl⟩
    exact .yields h2 (superSymbol_follows h2.linked h2.calm hw name (hv.mono ha.object))
  | .closure declaration prototype caps, fr, fr', p, K, ht, h => by
    let m : Machine := ⟨p.forget.store, fr', K, cs, .eval (.closure declaration prototype caps)⟩
    have hwords := h.forget.cellWords host (m := m) rfl rfl caps
    have htyped : fr.unit.Typed p.forget.link.known declaration
        (caps.map (cellOf cells fr)).toArray.size := by
      simpa using h.forget.closure ht.1
    have hagree := Link.makeClosure_agree h.forget.linked.stores prototype htyped hwords
    rw [← h.frames.unit] at hagree
    refine .yields h (.step rfl (.asked h.forget.linked h.forget.calm (Serve.makeClosure prototype
      (.compiled fr'.unit declaration) (caps.map (m.cellWord host)).toArray) rfl _ rfl ?_))
    rw [h.frames.unit] at hagree ⊢
    exact hagree
  | .newClass name superclass, fr, fr', p, K, ht, h => by
    refine .yields h (newClass_follows h.linked h.calm name ?_)
    cases superclass with
    | none => exact .none
    | some index => exact .some (h.frames.value index)

theorem evalCodes_follow [host.Attached] (hc : Calls host fuel call) :
    ∀ (es : List Code) {fr fr' : Frame} {p : Moment} {K : List Pending} {m : Machine}
      {control : Control} {f f' : Word} {done done' : List Word}, typedArguments T es →
      Earlier T base cells fr fr' p → p.link.Same f f' → List.Forall₂ p.link.Same done done' →
      m.store = p.store → m.stop? = none →
      m.searchStep host =
        (⟨p.forget.store, fr', K, cs, control⟩ : Machine).callWith host f' done' es →
      Follows host fuel base cs p m (Yields T base cells K cs)
        ((evalCodes call cells es fr >>= fun r => call f (done ++ r.1) >>= fun w =>
          pure (w, r.2)).run p.state)
  | [], fr, fr', p, K, m, control, f, f', done, done', _, h, hf, hd, hm, hstop, hstep => by
    have hn : (evalCodes call cells [] fr).run p.state = .ok ([], fr) p.state := by
      rfl
    rw [run_bind_of_ok hn, List.append_nil]
    exact .yields h ((hc h.linked h.calm hf hd hm hstop hstep).weaken h.base_le)
  | e :: rest, fr, fr', p, K, m, control, f, f', done, done', ht, h, hf, hd, hm, hstop, hstep => by
    rw [evalCodes, run_bind_assoc]
    refine .stepTo hstop hstep (.bind (evalCode_follows hc e ht.1 h.forget) ?_)
    rintro ⟨w, fr1⟩ p1 m1 ha - ⟨w', fr1', h1, hw, rfl⟩
    have hd1 : List.Forall₂ p1.link.Same (done ++ [w]) (done' ++ [w']) :=
      List.rel_append (hd.imp fun _ _ hs => hs.mono ha.object) (.cons hw .nil)
    have hr := evalCodes_follow hc rest ht.2 h1 (hf.mono ha.object) hd1
      (m := ⟨p1.store, fr1', .argument f' done' rest :: K, cs, .give w'⟩) rfl rfl rfl
    rw [run_bind_assoc]
    simp only [List.append_assoc, List.singleton_append] at hr
    exact hr

end

/-! ## §3 Statements -/

def Proceeds (T : Scheme) (base : Nat) (cells : Array Word) (K : List Pending) (cs : List Caller)
    (more : List Instr) (fr : Frame) (p : Moment) (m : Machine) : Prop :=
  ∃ fr', Earlier T base cells fr fr' p ∧ m = ⟨p.store, fr', K, cs, .run more⟩

theorem Follows.proceeds (h : Earlier T base cells fr fr' p) :
    Follows host least base cs p ⟨p.store, fr', K, cs, .run more⟩
      (Proceeds T base cells K cs more) (.ok fr p.state) :=
  .done rfl ⟨fr', h, rfl⟩

theorem Follows.proceeds_after (h : Earlier T base cells fr fr' p) {x : Interp Unit}
    (hf : Follows host least base cs p m (fun _ => Resumes fr' K cs more) (x.run p.state)) :
    Follows host least base cs p m (Proceeds T base cells K cs more)
      ((x >>= fun _ => pure fr).run p.state) := by
  refine .bind hf ?_
  rintro _ p1 m1 ha hs ⟨hl, hc, hm⟩
  exact .done hs ⟨fr', h.advance ha hl hc, hm⟩

theorem Follows.proceeds_rest {r : EStateM.Result Exit State Frame}
    (h : Follows host least base cs p m (Proceeds T base cells (.rest more :: K) cs []) r) :
    Follows host least base cs p m (Proceeds T base cells K cs more) r := by
  refine h.andThen ?_
  rintro fr p1 m1 - - ⟨fr', h1, rfl⟩
  exact .step rfl (.proceeds h1.forget)

theorem Follows.drops (h : Earlier T base cells fr fr' p) :
    Follows host least base cs p ⟨p.store, fr', .discard :: .rest more :: K, cs, .give w⟩
      (Proceeds T base cells K cs more) (.ok fr p.state) :=
  .reach (reaches_discard p fr' w) (p.advances_forget base) (.proceeds h.forget)

theorem iterateCode_follows {test : Frame → Interp (Word × Frame)} {body : Frame → Interp Frame}
    {c : Code} {b : List Instr}
    (ht : ∀ {fr fr' : Frame} {p : Moment} {K : List Pending}, Earlier T base cells fr fr' p →
      Follows host fuel base cs p ⟨p.store, fr', K, cs, .eval c⟩ (Yields T base cells K cs)
        ((test fr).run p.state))
    (hb : ∀ {fr fr' : Frame} {p : Moment} {K : List Pending}, Earlier T base cells fr fr' p →
      Follows host fuel base cs p ⟨p.store, fr', K, cs, .run b⟩ (Proceeds T base cells K cs [])
        ((body fr).run p.state)) :
    ∀ (turns : Nat) {fr fr' : Frame} {p : Moment} {m : Machine}, turns ≤ fuel →
      Earlier T base cells fr fr' p → m.store = p.store → m.stop? = none →
      m.searchStep host = ⟨p.forget.store, fr', .loopTest c b :: K, cs, .eval c⟩ →
      Follows host turns base cs p m (Proceeds T base cells K cs [])
        ((iterateCode test body turns fr).run p.state)
  | 0, fr, fr', p, m, _, h, hm, hs, _ => by
    exact .unfinished (Nat.zero_le 0) (.refl m) hs (by rw [hm]; exact h.linked.stores.printed)
  | turns + 1, fr, fr', p, m, hle, h, hm, hs, hstep => by
    have hle' : turns ≤ fuel := Nat.le_of_succ_le hle
    refine .stepCounted hs ?_
    rw [hstep]
    refine .bind ((ht h.forget).atLeast hle') ?_
    rintro ⟨w, fr1⟩ p1 m1 - - ⟨w', fr1', h1, hw, rfl⟩
    refine .stepTo rfl (show _ = if w'.isFalsy then ⟨p1.forget.store, fr1', K, cs, .run []⟩
      else ⟨p1.forget.store, fr1', .again c b :: K, cs, .run b⟩ from rfl) ?_
    rw [hw.isFalsy_eq]
    dsimp only
    split
    · exact .proceeds h1.forget
    · refine .bind ((hb h1.forget).atLeast hle') ?_
      rintro fr2 p2 m2 - - ⟨fr2', h2, rfl⟩
      exact iterateCode_follows ht hb turns hle' h2 rfl rfl rfl

mutual

theorem execCode_follows [host.Attached] (hc : Calls host fuel call) :
    ∀ (i : Instr) {fr fr' : Frame} {p : Moment} {K : List Pending} {more : List Instr},
      i.Typed T → Earlier T base cells fr fr' p →
      Follows host fuel base cs p ⟨p.store, fr', K, cs, .run (i :: more)⟩
        (Proceeds T base cells K cs more) ((execCode call cells fuel i fr).run p.state)
  | .evaluate e, fr, fr', p, K, more, ht, h => by
    have he : ∀ {K : List Pending}, Follows host fuel base cs p.forget
        ⟨p.forget.store, fr', K, cs, .eval e⟩ (Yields T base cells K cs)
        ((evalCode call cells e fr).run p.forget.state) := by
      intro K
      rcases ht with ht | ⟨index, _, rfl, _, value, rfl, hv⟩
      · exact evalCode_follows hc e ht h.forget
      · exact assignVariable_follows (newCell_follows
          (evalCode_follows hc value hv h.forget.forget.forget)) index
    refine .step rfl (.bind he ?_)
    rintro ⟨w, fr1⟩ p1 m1 - - ⟨w', fr1', h1, hw, rfl⟩
    exact .drops h1
  | .print e, fr, fr', p, K, more, ht, h => by
    refine .step rfl (.bind (evalCode_follows hc e ht h.forget) ?_)
    rintro ⟨w, fr1⟩ p1 m1 - - ⟨w', fr1', h1, hw, rfl⟩
    exact .proceeds_after h1 (print_served h1.linked h1.calm hw)
  | .defineGlobal slot e, fr, fr', p, K, more, ht, h => by
    refine .step rfl (.bind (evalCode_follows hc e ht h.forget) ?_)
    rintro ⟨w, fr1⟩ p1 m1 - - ⟨w', fr1', h1, hw, rfl⟩
    exact .proceeds_after h1 (defineSlot_served h1.linked h1.calm hw slot)
  | .branch condition yes no, fr, fr', p, K, more, ht, h => by
    refine .step rfl (.bind (evalCode_follows hc condition ht.1 h.forget) ?_)
    rintro ⟨w, fr1⟩ p1 m1 - - ⟨w', fr1', h1, hw, rfl⟩
    refine .stepTo rfl (show _ = ⟨p1.forget.store, fr1', .rest more :: K, cs,
      .run (if w'.isFalsy then no else yes)⟩ from rfl) (.proceeds_rest ?_)
    rw [hw.isFalsy_eq]
    dsimp only
    split
    · exact runCode_follows hc no ht.2.2 h1.forget
    · exact runCode_follows hc yes ht.2.1 h1.forget
  | .loop condition body, fr, fr', p, K, more, ht, h => by
    refine .proceeds_rest (iterateCode_follows
      (fun h => evalCode_follows hc condition ht.1 h)
      (fun h => runCode_follows hc body ht.2 h) fuel (Nat.le_refl _) h rfl rfl rfl)
  | .addMethod classVariable name method, fr, fr', p, K, more, ht, h => by
    obtain ⟨_, _, _, heq, hm⟩ := ht.2
    refine .step rfl (.bind (evalCode_follows hc method hm h.forget) ?_)
    rintro ⟨w, fr1⟩ p1 m1 - - ⟨w', fr1', h1, hw, rfl⟩
    exact .proceeds_after h1 (addMethod_served h1.linked h1.calm hw name
      (h1.frames.value classVariable))
  | .leave e, fr, fr', p, K, more, ht, h => by
    refine .step rfl (.bind (evalCode_follows hc e ht h.forget) ?_)
    rintro ⟨w, fr1⟩ p1 m1 - - ⟨w', fr1', h1, hw, rfl⟩
    exact .step rfl (.returns rfl ⟨h1.linked.forget, rfl, rfl⟩ h1.calm.forget hw)

theorem runCode_follows [host.Attached] (hc : Calls host fuel call) :
    ∀ (code : List Instr) {fr fr' : Frame} {p : Moment} {K : List Pending}, typedCode T code →
      Earlier T base cells fr fr' p →
      Follows host fuel base cs p ⟨p.store, fr', K, cs, .run code⟩
        (Proceeds T base cells K cs []) ((runCode call cells fuel code fr).run p.state)
  | [], fr, fr', p, K, _, h => by
    exact .proceeds h
  | i :: rest, fr, fr', p, K, ht, h => by
    refine .bind (execCode_follows hc i ht.1 h) ?_
    rintro fr1 p1 m1 - - ⟨fr1', h1, rfl⟩
    exact runCode_follows hc rest ht.2 h1

end

end Lexical

end ScriptMachine
