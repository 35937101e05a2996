/-
ScriptMachine.Proofs.Likeness.Operations — operations on two stores that hold
the same come to the same.
-/
import ScriptMachine.Proofs.Likeness.Objects
import ScriptMachine.Proofs.Runs.Raising

namespace ScriptMachine

/-! ## §1 Likenesses -/

structure Likeness (W : Type) where
  view : W → Match
  Stores : W → Store → Store → Prop
  Moves : W → W → Store → Store → Prop
  Uneven : W → Prop

namespace Likeness

variable {W : Type}

inductive Agree {α β : Type} (S : Likeness W) (K : W) (R : W → Store → Store → α → β → Prop)
    (s' : Store) : Except Failure α × Store → Except Failure β × Store → Prop
  | exhausted {r : Except Failure α × Store} {e : HeapError} {t' : Store} : S.Uneven K →
      t'.signals = s'.signals → Agree S K R s' r (.error (.heap e), t')
  | error {K' : W} {t t' : Store} (e : Failure) : S.Moves K K' s' t' → S.Stores K' t t' →
      Agree S K R s' (.error e, t) (.error e, t')
  | ok {K' : W} {t t' : Store} {a : α} {b : β} : S.Moves K K' s' t' → S.Stores K' t t' →
      R K' t t' a b → Agree S K R s' (.ok a, t) (.ok b, t')

abbrev AgreeWords (S : Likeness W) (K : W) := S.Agree K fun K' _ _ => (S.view K').Same

structure Lawful (S : Likeness W) : Prop where
  views : ∀ {K s s'}, S.Stores K s s' → (S.view K).Views s s'
  object : ∀ {K K' s' t'}, S.Moves K K' s' t' → ∀ {i j}, (S.view K).object i j →
    (S.view K').object i j
  refl : ∀ {K s'}, S.Moves K K s' s'
  sites : ∀ {K s s'}, S.Stores K s s' → ∀ xs xs',
    S.Stores K { s with sites := xs } { s' with sites := xs' }
  moves_sites : ∀ {K K' s' t'}, S.Moves K K' s' t' → ∀ xs, S.Moves K K' s' { t' with sites := xs }
  moves_of_sites : ∀ {K K' s' t' xs}, S.Moves K K' { s' with sites := xs } t' → S.Moves K K' s' t'
  alloc : ∀ {K s s'}, S.Stores K s s' → ∀ {o o'}, (S.view K).Objects o o' →
    S.AgreeWords K s' (s.alloc o) (s'.alloc o')
  put : ∀ {K s s'}, S.Stores K s s' → ∀ {i j}, (S.view K).object i j →
    ∀ {x'}, s'.heap.objects[j]? = some x' → (∀ c, x' ≠ .closure c) →
    ∀ {o o'}, (S.view K).Objects o o' → ∀ {y y'}, (S.view K).Trees y y' →
      S.Stores K { s with shapes := y, heap := s.heap.put i o }
        { s' with shapes := y', heap := s'.heap.put j o' } ∧
      S.Moves K K s' { s' with shapes := y', heap := s'.heap.put j o' }

variable {S : Likeness W} {K : W} {s s' : Store} {v v' w w' : Word} {name name' : Symbol}

theorem Agree.of_sites {α β : Type} {R : W → Store → Store → α → β → Prop} (hS : S.Lawful)
    {xs : Array Site} {r : Except Failure α × Store} {r' : Except Failure β × Store}
    (h : S.Agree K R { s' with sites := xs } r r') : S.Agree K R s' r r' := by
  cases h with
  | exhausted hodd hsig => exact .exhausted hodd hsig
  | error e hm hs => exact .error e (hS.moves_of_sites hm) hs
  | ok hm hs hr => exact .ok (hS.moves_of_sites hm) hs hr

namespace Lawful

theorem fails (hS : S.Lawful) {α β : Type} {R : W → Store → Store → α → β → Prop}
    (h : S.Stores K s s') (e : Failure) : S.Agree K R s' (.error e, s) (.error e, s') :=
  .error e hS.refl h

variable (hS : S.Lawful) (h : S.Stores K s s')

include hS h

theorem done (hw : (S.view K).Same w w') : S.AgreeWords K s' (.ok w, s) (.ok w', s') :=
  .ok hS.refl h hw

/-! ## §2 Operators -/

theorem concatenate (hv : (S.view K).Same v v') (hw : (S.view K).Same w w') :
    S.AgreeWords K s' (s.concatenate v w) (s'.concatenate v' w') := by
  have hviews := hS.views h
  unfold Store.concatenate
  rw [hviews.heap.text? hv, hviews.heap.text? hw, hviews.render hv, hviews.render hw, hv.tag_eq,
    hw.tag_eq]
  split
  · exact hS.alloc h (.text _)
  · exact hS.fails h _

theorem binary (op : BinaryOp) (hv : (S.view K).Same v v')
    (hw : (S.view K).Same w w') : S.AgreeWords K s' (s.binary op v w) (s'.binary op v' w') := by
  have ha : ∀ op : BinaryOp, S.AgreeWords K s'
      (if v.isNumber && w.isNumber then (.ok (arithmetic op v.bits w.bits), s)
        else if op = .add then s.concatenate v w else (.error (.operands op v.tag w.tag), s))
      (if v'.isNumber && w'.isNumber then (.ok (arithmetic op v'.bits w'.bits), s')
        else if op = .add then s'.concatenate v' w' else
          (.error (.operands op v'.tag w'.tag), s')) := by
    intro op
    rw [hv.isNumber_eq, hw.isNumber_eq, hv.tag_eq, hw.tag_eq]
    split
    · next hnum =>
      rw [Bool.and_eq_true] at hnum
      rw [hv.eq_of_isNumber hnum.1, hw.eq_of_isNumber hnum.2]
      exact hS.done h (.atom (.arithmetic op v.bits w.bits))
    · split
      · exact hS.concatenate h hv hw
      · exact hS.fails h _
  cases op with
  | equal =>
    unfold Store.binary
    rw [(hS.views h).valuesEqual_eq hv hw]
    exact hS.done h (.atom (.ofBool _))
  | notEqual =>
    unfold Store.binary
    rw [(hS.views h).valuesEqual_eq hv hw]
    exact hS.done h (.atom (.ofBool _))
  | _ => exact ha _

theorem negate (hw : (S.view K).Same w w') :
    S.AgreeWords K s' (Store.negate w, s) (Store.negate w', s') := by
  unfold Store.negate
  rw [hw.isNumber_eq, hw.tag_eq]
  split
  · next hnum =>
    rw [hw.eq_of_isNumber hnum]
    exact hS.done h (.atom (.canonical (.of_number _)))
  · exact hS.fails h _

/-! ## §3 Objects -/

theorem getSuper (hv : (S.view K).Same v v')
    (hw : (S.view K).Same w w') (hname : (S.view K).symbol name name') :
    S.AgreeWords K s' (s.getSuper v w name) (s'.getSuper v' w' name') := by
  have hd := (hS.views h).heap.deref? hv
  have hn : S.AgreeWords K s' (.error (s.undefinedProperty name), s)
      (.error (s'.undefinedProperty name'), s') := by
    rw [(hS.views h).undefinedProperty_eq hname]
    exact hS.fails h _
  unfold Store.getSuper
  generalize s.heap.deref? v = a, s'.heap.deref? v' = b at hd
  cases hd with
  | none => exact hn
  | some ho =>
    cases ho with
    | ofClass _ hm =>
      have hmth := hm.get? hname
      dsimp only [Class.method?]
      generalize Table.get? _ name = a, Table.get? _ name' = b at hmth ⊢
      cases hmth with
      | some hs => exact hS.alloc h (.bound hw hs)
      | none => exact hn
    | _ => exact hn

theorem getProperty (hw : (S.view K).Same w w')
    (hn : (S.view K).symbol name name') (site site' : Nat) :
    S.AgreeWords K s' (s.getProperty w name site) (s'.getProperty w' name' site') := by
  suffices hmis : S.AgreeWords K (s'.modifySite site' .miss) (s.getProperty w name site)
      (s'.getProperty w' name' site') from .of_sites hS hmis
  have hmiss : S.Stores K (s.modifySite site .miss) (s'.modifySite site' .miss) := hS.sites h _ _
  unfold Store.getProperty
  dsimp only
  generalize s.modifySite site .miss = u at hmiss
  generalize s'.modifySite site' .miss = u' at hmiss
  have hv := hS.views hmiss
  have hi := hv.heap.instance? hw
  rw [hw.tag_eq]
  generalize u.heap.instance? w = a, u'.heap.instance? w' = b at hi
  cases hi with
  | none => exact hS.fails hmiss _
  | @some p p' hp =>
    obtain ⟨_, i⟩ := p
    obtain ⟨_, i'⟩ := p'
    obtain ⟨_, _, hc, hshape, hslots⟩ := hp
    dsimp only at hc hshape hslots ⊢
    rw [hshape, hv.shapes.slot? hn]
    cases u.shapes.slot? i.shape name with
    | some slot =>
      exact .ok (hS.moves_sites hS.refl _) (hS.sites hmiss _ _) (hslots.getD slot)
    | none =>
      have hmth : Option.Rel (S.view K).Same ((u.heap.class? i.classHandle).bind (·.method? name))
          ((u'.heap.class? i'.classHandle).bind (·.method? name')) := by
        have hcls := hv.heap.class? hc
        generalize u.heap.class? i.classHandle = a, u'.heap.class? i'.classHandle = b at hcls
        cases hcls with
        | some hm => exact hm.2.get? hn
        | none => exact .none
      generalize (u.heap.class? i.classHandle).bind (·.method? name) = a,
        (u'.heap.class? i'.classHandle).bind (·.method? name') = b at hmth
      cases hmth with
      | some hs => exact hS.alloc hmiss (.bound hw hs)
      | none =>
        rw [hv.undefinedProperty_eq hn]
        exact hS.fails hmiss _

theorem setProperty (hv : (S.view K).Same v v')
    (hw : (S.view K).Same w w') (hname : (S.view K).symbol name name') (site site' : Nat) :
    S.AgreeWords K s' (s.setProperty v name w site) (s'.setProperty v' name' w' site') := by
  have hviews := hS.views h
  have hi := hviews.heap.instance? hv
  unfold Store.setProperty
  rw [hv.tag_eq]
  generalize s.heap.instance? v = a, s'.heap.instance? v' = b at hi
  cases hi with
  | none => exact hS.fails h _
  | @some p p' hp =>
    obtain ⟨index, i⟩ := p
    obtain ⟨index', i'⟩ := p'
    obtain ⟨ho, hold, hc, hs, hslots⟩ := hp
    dsimp only at ho hold hc hs hslots ⊢
    obtain ⟨hslot, hsha, hn, hcls', hcls, hf⟩ :=
      Match.Views.setField_same hviews.shapes hs hslots hname hw
    have hsame : (S.view K).Objects (.ofInstance (i.setField s.shapes name w).2.1)
        (.ofInstance (i'.setField s'.shapes name' w').2.1) :=
      .ofInstance (by rw [hcls, hcls']; exact hc) hn hf
    obtain ⟨hput, hm⟩ := hS.put h ho hold nofun hsame hsha
    rw [hn, hs]
    split
    · exact .ok (hS.moves_sites hm _) (hS.sites hput _ _) hw
    · exact .ok (hS.moves_sites hm _) (hS.sites hput _ _) hw

theorem newClass (hn : (S.view K).symbol name name')
    {c c' : Option Word} (hc : Option.Rel (S.view K).Same c c') :
    S.AgreeWords K s' (s.newClass name c) (s'.newClass name' c') := by
  unfold Store.newClass
  rcases (hS.views h).inherited_same hc with ⟨e, heq, heq'⟩ | ⟨ms, ms', heq, heq', hm⟩
  · rw [heq, heq']
    exact hS.fails h e
  · rw [heq, heq']
    exact hS.alloc h (.ofClass hn hm)

theorem addMethod (hv : (S.view K).Same v v')
    (hname : (S.view K).symbol name name') (hw : (S.view K).Same w w') :
    S.Stores K (s.addMethod v name w) (s'.addMethod v' name' w') ∧
      S.Moves K K s' (s'.addMethod v' name' w') := by
  have hviews := hS.views h
  cases hv with
  | other ha _ =>
    rw [Store.addMethod_eq, Store.addMethod_eq, s.heap.deref?_of_isObject ha,
      s'.heap.deref?_of_isObject ha]
    exact ⟨h, hS.refl⟩
  | @object i j hi hj ho =>
    obtain ⟨o, o', hoi, hoj, hs⟩ := hviews.heap.objects ho
    rw [Store.addMethod_eq, Store.addMethod_eq, s.heap.deref?_ofIndex hi, s'.heap.deref?_ofIndex hj,
      hoi, hoj, Word.objectIndex_ofIndex hi, Word.objectIndex_ofIndex hj]
    cases hs with
    | @ofClass c c' hn hm =>
      have hadded : (S.view K).Objects (.ofClass (c.addMethod name w))
          (.ofClass (c'.addMethod name' w')) := .ofClass hn (hm.insert hname hw)
      exact hS.put h ho hoj nofun hadded hviews.shapes
    | _ => exact ⟨h, hS.refl⟩

theorem setCell (hv : (S.view K).Same v v') (hw : (S.view K).Same w w') :
    S.Stores K (s.setCell v w) (s'.setCell v' w') ∧ S.Moves K K s' (s'.setCell v' w') := by
  have hviews := hS.views h
  unfold Store.setCell Heap.setCell
  cases hv with
  | other ha _ =>
    rw [s.heap.deref?_of_isObject ha, s'.heap.deref?_of_isObject ha]
    exact ⟨h, hS.refl⟩
  | @object i j hi hj ho =>
    obtain ⟨o, o', hoi, hoj, hs⟩ := hviews.heap.objects ho
    rw [s.heap.deref?_ofIndex hi, s'.heap.deref?_ofIndex hj, hoi, hoj, Word.objectIndex_ofIndex hi,
      Word.objectIndex_ofIndex hj]
    cases hs with
    | cell => exact hS.put h ho hoj nofun (.cell hw) hviews.shapes
    | _ => exact ⟨h, hS.refl⟩

/-! ## §4 Calls -/

theorem prepareConstruction (hv : (S.view K).Same v v')
    {c c' : Class} (hobj : v.isObject = true) (hm : (S.view K).Methods c.methods c'.methods)
    (count : Nat) : S.Agree K (fun K' => (S.view K').Targets count) s'
      (s.prepareConstruction v c count) (s'.prepareConstruction v' c' count) := by
  have hmth := hm.get? (hS.views h).initializer
  have ha := hS.alloc h
    (.ofInstance (.of_same hv hobj) rfl ⟨rfl, fun k => by simp⟩
      : (S.view K).Objects (.ofInstance { classHandle := ⟨v.payload⟩ })
          (.ofInstance { classHandle := ⟨v'.payload⟩ }))
  unfold Store.prepareConstruction Class.method?
  dsimp only
  generalize c.methods.get? s.initializer = a, c'.methods.get? s'.initializer = b at hmth
  generalize s.alloc (.ofInstance { classHandle := ⟨v.payload⟩ }) = r at ha
  generalize s'.alloc (.ofInstance { classHandle := ⟨v'.payload⟩ }) = r' at ha
  cases hmth with
  | none =>
    split
    · exact hS.fails h _
    · cases ha with
      | exhausted hodd hsig => exact .exhausted hodd hsig
      | error e hm hs => exact .error e hm hs
      | ok hm hs hr => exact .ok hm hs (.construct _ _ hr)
  | some hi =>
    cases ha with
    | exhausted hodd hsig => exact .exhausted hodd hsig
    | error e hm hs => exact .error e hm hs
    | ok hm hs hr =>
      dsimp only
      rcases (hS.views hs).bindCall_same (hi.mono (hS.object hm)) hr count with
        ⟨e, heq, heq'⟩ | ⟨a, b, heq, heq', hab⟩
      · rw [heq, heq']
        exact .error e hm hs
      · rw [heq, heq']
        exact .ok hm hs hab

theorem prepareCall (hw : (S.view K).Same w w') (count : Nat) :
    S.Agree K (fun K' => (S.view K').Targets count) s' (s.prepareCall w count)
      (s'.prepareCall w' count) := by
  have hd := (hS.views h).heap.deref? hw
  unfold Store.prepareCall
  rw [hw.tag_eq]
  cases hw with
  | other ha _ =>
    rw [s.heap.deref?_of_isObject ha, s'.heap.deref?_of_isObject ha]
    exact hS.fails h _
  | @object i j hi hj ho =>
    have hfst := s.heap.deref?_ofIndex hi
    have hobj := s'.heap.deref?_ofIndex hj
    generalize s.heap.deref? (.ofIndex i) = a at hd hfst
    generalize s'.heap.deref? (.ofIndex j) = b at hd hobj
    cases hd with
    | none => exact hS.fails h _
    | some hs =>
      cases hs with
      | closure _ harity hc =>
        dsimp only
        rw [harity]
        split
        · next hcnt =>
          exact .ok hS.refl h (.closure hi hj ho hfst.symm hobj.symm hc (harity.trans hcnt) .nil)
        · exact hS.fails h _
      | native harity hent hent' =>
        dsimp only
        rw [harity, hent, hent']
        split
        · exact .ok hS.refl h (.clock _ _)
        · exact hS.fails h _
      | bound hr hm =>
        dsimp only
        rcases (hS.views h).bindCall_same hm hr count with ⟨e, heq, heq'⟩ | ⟨a, b, heq, heq', hab⟩
        · rw [heq, heq']
          exact hS.fails h e
        · rw [heq, heq']
          exact .ok hS.refl h hab
      | ofClass _ hm =>
        exact hS.prepareConstruction h (.object hi hj ho) (Word.isObject_ofIndex hi) hm count
      | _ => exact hS.fails h _

end Lawful

end Likeness

end ScriptMachine
