/-
ScriptMachine.Proofs.Twins.Machines — code of the same form, run on stores
that look the same.
-/
import ScriptMachine.Proofs.Twins.Routines

namespace ScriptMachine

structure Scene extends Setting where
  total' : Nat
  leaves : Bool := true
  script : Bool := false
  rest : List Instr := []
  rest' : List Instr := []

def Scene.ofFunction (P : Pair) (u u' : CodeUnit) (locals : Nat) : Scene :=
  { pair := P, unit := u, unit' := u', view := .whole locals, total' := locals }

structure Scene.Whole (S : Scene) : Prop where
  leaves : S.leaves = true
  rest : S.rest = []
  rest' : S.rest' = []

namespace Kin

variable {task task' : Pending} {e e' : Code} {is is' : List Instr} {ws ws' : List Word}

inductive Pendings (K : Kin) (S : Scene) : Pending → Pending → Prop
  | assignVariable {i i' : Nat} : S.view.Writes i i' →
      Pendings K S (.assignVariable i) (.assignVariable i')
  | newCell : Pendings K S .newCell .newCell
  | assignCell {c c' : CellRef} : S.view.Cells c c' → Pendings K S (.assignCell c) (.assignCell c')
  | assignGlobal {slot slot' : Nat} : S.pair.Globals slot slot' →
      Pendings K S (.assignGlobal slot) (.assignGlobal slot')
  | negate : Pendings K S .negate .negate
  | not : Pendings K S .not .not
  | leftOperand (op : BinaryOp) {e e' : Code} : S.Codes e e' →
      Pendings K S (.leftOperand op e) (.leftOperand op e')
  | rightOperand (op : BinaryOp) {w w' : Word} : K.Same w w' →
      Pendings K S (.rightOperand op w) (.rightOperand op w')
  | logical (op : LogicalOp) {e e' : Code} : S.Codes e e' →
      Pendings K S (.logical op e) (.logical op e')
  | callee {es es' : List Code} : S.CodeLists es es' → Pendings K S (.callee es) (.callee es')
  | argument {w w' : Word} {ws ws' : List Word} {es es' : List Code} : K.Same w w' →
      List.Forall₂ K.Same ws ws' → S.CodeLists es es' →
        Pendings K S (.argument w ws es) (.argument w' ws' es')
  | getProperty {name name' : Symbol} (site site' : Nat) : S.pair.Symbols name name' →
      Pendings K S (.getProperty name site) (.getProperty name' site')
  | setObject {name name' : Symbol} {e e' : Code} (site site' : Nat) : S.pair.Symbols name name' →
      S.Codes e e' → Pendings K S (.setObject name e site) (.setObject name' e' site')
  | setProperty {w w' : Word} {name name' : Symbol} (site site' : Nat) : K.Same w w' →
      S.pair.Symbols name name' →
        Pendings K S (.setProperty w name site) (.setProperty w' name' site')
  | superclass {e e' : Code} {name name' : Symbol} : S.Codes e e' → S.pair.Symbols name name' →
      Pendings K S (.superclass e name) (.superclass e' name')
  | superReceiver {w w' : Word} {name name' : Symbol} : K.Same w w' → S.pair.Symbols name name' →
      Pendings K S (.superReceiver w name) (.superReceiver w' name')
  | discard : Pendings K S .discard .discard
  | print : Pendings K S .print .print
  | defineGlobal {slot slot' : Nat} : S.pair.Globals slot slot' →
      Pendings K S (.defineGlobal slot) (.defineGlobal slot')
  | branch {yes yes' no no' : List Instr} : S.InstrLists S.leaves yes yes' →
      S.InstrLists S.leaves no no' → Pendings K S (.branch yes no) (.branch yes' no')
  | loopTest {e e' : Code} {body body' : List Instr} : S.Codes e e' →
      S.InstrLists S.leaves body body' → Pendings K S (.loopTest e body) (.loopTest e' body')
  | addMethod {i i' : Nat} {name name' : Symbol} : S.view.Reads i i' → S.pair.Symbols name name' →
      Pendings K S (.addMethod i name) (.addMethod i' name')
  | leave : S.leaves = true → Pendings K S .leave .leave
  | rest {is is' : List Instr} : S.InstrLists S.leaves is is' → Pendings K S (.rest is) (.rest is')
  | again {e e' : Code} {body body' : List Instr} : S.Codes e e' →
      S.InstrLists S.leaves body body' → Pendings K S (.again e body) (.again e' body')

inductive Conts (K : Kin) (S : Scene) : List Pending → List Pending → Prop
  | bottom {is is' : List Instr} : S.InstrLists S.leaves is is' →
      Conts K S [.rest (is ++ S.rest)] [.rest (is' ++ S.rest')]
  | cons {task task' : Pending} {stack stack' : List Pending} : K.Pendings S task task' →
      Conts K S stack stack' → Conts K S (task :: stack) (task' :: stack')

structure Frames (K : Kin) (S : Scene) (f f' : Frame) : Prop where
  later : S.pair.Later K.pair
  unit : f.unit = S.unit
  unit' : f'.unit = S.unit'
  closure : K.Same f.closure f'.closure
  receiver : K.Same f.receiver f'.receiver
  arguments : List.Forall₂ K.Same f.arguments f'.arguments
  script : S.script = true → f'.closure = .nil ∧ f'.receiver = .nil ∧ f'.arguments = []
  total : S.view.total = f.locals.size
  total' : S.total' = f'.locals.size
  bound : S.view.bound ≤ f'.locals.size
  value : ∀ {i}, S.view.least ≤ i → i < S.view.total →
    K.Same (f.value i) (f'.value (S.view.place i))
  untouched : ∀ {j}, S.view.bound ≤ j → f'.value j = .zero

inductive Callers (K : Kin) (S0 : Scene) : Scene → List Caller → List Caller → Prop
  | nil : Callers K S0 S0 [] []
  | cons {S S' : Scene} {f f' : Frame} {stack stack' : List Pending} {cs cs' : List Caller} :
      S'.Whole → K.Frames S f f' → K.Conts S stack stack' → Callers K S0 S cs cs' →
        Callers K S0 S' (⟨f, stack⟩ :: cs) (⟨f', stack'⟩ :: cs')

inductive Controls (K : Kin) (S0 S : Scene) (pending : Bool) :
    List Pending → Control → List Pending → Control → Prop
  | bottom {is is' : List Instr} : S.InstrLists S.leaves is is' →
      Controls K S0 S pending [] (.run (is ++ S.rest)) [] (.run (is' ++ S.rest'))
  | run {stack stack' : List Pending} {is is' : List Instr} : K.Conts S stack stack' →
      S.InstrLists S.leaves is is' → Controls K S0 S pending stack (.run is) stack' (.run is')
  | eval {stack stack' : List Pending} {e e' : Code} : K.Conts S stack stack' → S.Codes e e' →
      Controls K S0 S pending stack (.eval e) stack' (.eval e')
  | give {stack stack' : List Pending} {w w' : Word} : K.Conts S stack stack' → K.Same w w' →
      Controls K S0 S pending stack (.give w) stack' (.give w')
  | leave {stack stack' : List Pending} {w w' : Word} : S.leaves = true ∨ pending = true →
      K.Same w w' → Controls K S0 S pending stack (.leave w) stack' (.leave w')
  | stopped {stack stack' : List Pending} {w w' : Word} : S0.leaves = true ∨ pending = true →
      K.Same w w' → Controls K S0 S pending stack (.stopped (.returned w)) stack'
        (.stopped (.returned w'))

structure Stage (K : Kin) (S0 S : Scene) (m m' : Machine) : Prop where
  stores : K.Stores m.store m'.store
  frames : K.Frames S m.frame m'.frame
  callers : K.Callers S0 S m.callers m'.callers

def Twins (K : Kin) (S0 : Scene) (m m' : Machine) : Prop :=
  ∃ S, K.Stage S0 S m m' ∧ K.Controls S0 S m.store.pending m.stack m.control m'.stack m'.control

inductive Outcome (K : Kin) (S0 : Scene) (m m' : Machine) : Prop
  | twins {K' : Kin} : K.Moves K' → K'.Twins S0 m m' → Outcome K S0 m m'
  | exhausted {e : HeapError} : ¬K.even → m'.store.error = some (.heap e) → Outcome K S0 m m'

section Mono

variable {K K' : Kin} {S S0 : Scene} (hle : K.Le K')

include hle

theorem Le.words (h : List.Forall₂ K.Same ws ws') :
    List.Forall₂ K'.Same ws ws' :=
  h.imp fun _ _ hw => hle.same hw

theorem Le.pendings (h : K.Pendings S task task') :
    K'.Pendings S task task' := by
  cases h with
  | rightOperand op hw => exact .rightOperand op (hle.same hw)
  | argument hw hws hes => exact .argument (hle.same hw) (hle.words hws) hes
  | setProperty site site' hw hn => exact .setProperty site site' (hle.same hw) hn
  | superReceiver hw hn => exact .superReceiver (hle.same hw) hn
  | _ => constructor <;> assumption

theorem Le.conts {stack stack' : List Pending} (h : K.Conts S stack stack') :
    K'.Conts S stack stack' := by
  induction h with
  | bottom h => exact .bottom h
  | cons ht _ ih => exact .cons (hle.pendings ht) ih

theorem Le.frames {f f' : Frame} (h : K.Frames S f f') : K'.Frames S f f' :=
  { h with
    later := h.later.trans hle.pair
    closure := hle.same h.closure
    receiver := hle.same h.receiver
    arguments := hle.words h.arguments
    value := fun hi hj => hle.same (h.value hi hj) }

theorem Le.callers {cs cs' : List Caller} (h : K.Callers S0 S cs cs') : K'.Callers S0 S cs cs' := by
  induction h with
  | nil => exact .nil
  | cons hw hf hc _ ih => exact .cons hw (hle.frames hf) (hle.conts hc) ih

end Mono

theorem Outcome.of_twins {K : Kin} {S0 : Scene} {m m' : Machine} (h : K.Twins S0 m m') :
    K.Outcome S0 m m' := .twins (.refl K) h

section Stores

variable {K : Kin} {s s' : Store}

theorem Stores.withDepth (h : K.Stores s s') (depth : Nat) :
    K.Stores { s with depth := depth } { s' with depth := depth } :=
  { h with
    first := h.first.trans (.of_heap rfl (fun _ => rfl) rfl rfl id)
    second := h.second.trans (.of_heap rfl (fun _ => rfl) rfl rfl id)
    depth := rfl }

theorem Stores.text (h : K.Stores s s') {P : Pair} (hP : P.Later K.pair) {i i' : Nat}
    (hi : P.Texts i i') : K.Same (.ofIndex i) (.ofIndex i') := by
  obtain ⟨text, hfst, hsnd⟩ := (hP.trans h.later).texts hi
  obtain ⟨j, hj, ho⟩ := h.heap.known hfst
  obtain rfl := Option.some.inj (hsnd.symm.trans hj)
  exact h.heap.same ho

end Stores

section Frames

variable {K : Kin} {S : Scene} {f f' : Frame}

theorem Frames.setVariable (h : K.Frames S f f') {i i' : Nat} (hi : S.view.Writes i i')
    {w w' : Word} (hw : K.Same w w') :
    K.Frames S (f.setVariable i w) (f'.setVariable i' w') := by
  obtain ⟨rfl, hlt⟩ := hi
  have hplace : S.view.place i < f'.locals.size :=
    Nat.lt_of_lt_of_le (S.view.place_lt hlt) h.bound
  refine { h with total := ?_, total' := ?_, bound := ?_, value := ?_, untouched := ?_ }
  · exact h.total.trans Array.size_setIfInBounds.symm
  · exact h.total'.trans Array.size_setIfInBounds.symm
  · exact Nat.le_trans h.bound (Nat.le_of_eq Array.size_setIfInBounds.symm)
  · intro k hk hkt
    rw [Frame.value_setVariable, Frame.value_setVariable]
    by_cases hik : i = k
    · subst hik
      rw [if_pos ⟨rfl, h.total ▸ hlt⟩, if_pos ⟨rfl, hplace⟩]
      exact hw
    · rw [if_neg fun hp => hik hp.1, if_neg fun hp => hik (S.view.injective hlt hkt hp.1)]
      exact h.value hk hkt
  · intro j hj
    rw [Frame.value_setVariable, if_neg, h.untouched hj]
    rintro ⟨rfl, _⟩
    exact absurd (S.view.place_lt hlt) (Nat.not_lt.mpr hj)

end Frames

variable {K K' : Kin} {S0 S : Scene} {m m' : Machine} {host : Host} {w w' : Word}

theorem Stage.withStore (h : K.Stage S0 S m m') (hle : K.Le K') {t t' : Store}
    (hs : K'.Stores t t') : K'.Stage S0 S { m with store := t } { m' with store := t' } :=
  ⟨hs, hle.frames h.frames, hle.callers h.callers⟩

section

variable (h : K.Stage S0 S m m') (hc : K.Conts S m.stack m'.stack)

include h hc

theorem Stage.give (hw : K.Same w w') : K.Outcome S0 (m.give w) (m'.give w') :=
  .of_twins ⟨S, ⟨h.stores, h.frames, h.callers⟩, .give hc hw⟩

theorem Stage.evalFor (ht : K.Pendings S task task') (he : S.Codes e e') :
    K.Outcome S0 (m.evalFor task e) (m'.evalFor task' e') :=
  .of_twins ⟨S, ⟨h.stores, h.frames, h.callers⟩, .eval (.cons ht hc) he⟩

theorem Stage.runs (hi : S.InstrLists S.leaves is is') :
    K.Outcome S0 { m with control := .run is } { m' with control := .run is' } :=
  .of_twins ⟨S, ⟨h.stores, h.frames, h.callers⟩, .run hc hi⟩

theorem Stage.giveUnlessPending
    (hw : K.Same w w') : K.Twins S0 (m.giveUnlessPending w) (m'.giveUnlessPending w') := by
  unfold Machine.giveUnlessPending
  rw [h.stores.pending]
  cases hp : m.store.pending with
  | false => exact ⟨S, ⟨h.stores, h.frames, h.callers⟩, .give hc hw⟩
  | true => exact ⟨S, ⟨h.stores, h.frames, h.callers⟩, .leave (.inr hp) .nil⟩

theorem Stage.checked [host.Attached] {routine routine' : Store → Word × Store}
    (hr : K.Served (routine m.store) (routine' m'.store)) :
    K.Outcome S0 (m.checked host routine) (m'.checked host routine') := by
  unfold Machine.checked Machine.serve
  simp only [host.attached_eq, if_true]
  generalize routine m.store = r at hr
  generalize routine' m'.store = r' at hr
  cases hr with
  | exhausted he herr =>
    exact .exhausted he ((congrArg Store.error (Machine.store_giveUnlessPending _ _)).trans herr)
  | done hm hw hs =>
    exact .twins hm ((h.withStore hm.toLe hs).giveUnlessPending (hm.toLe.conts hc) hw)

end

section

variable [host.Attached]

theorem serve_attached (routine : Store → Word × Store) :
    m.serve host routine = ((routine m.store).1, { m with store := (routine m.store).2 }) := by
  simp [Machine.serve]

theorem Stage.cellWord (h : K.Stage S0 S m m') {c c' : CellRef}
    (hc : S.view.Cells c c') : K.Same (m.cellWord host c) (m'.cellWord host c') := by
  cases hc with
  | own hr =>
    obtain ⟨rfl, hl, hlt⟩ := hr
    exact h.frames.value hl hlt
  | captured i =>
    rw [Machine.cellWord, Machine.cellWord, serve_attached, serve_attached]
    exact closureCell_same h.stores h.frames.closure i

theorem same_zero : K.Same .zero .zero := .atom (.canonical (.inl (by decide)))

theorem value_fresh (frame : Frame) (n k : Nat) :
    Frame.value { frame with locals := Array.replicate n .zero } k = .zero := by
  show ((Array.replicate n Word.zero)[k]?).getD .zero = .zero
  rw [Array.getElem?_replicate]
  split <;> rfl

theorem frames_start (hP : S.pair.Later K.pair) {n n' : Nat} (ht : S.view.total = n)
    (ht' : S.total' = n') (hb : S.view.bound ≤ n') {v v' x x' : Word}
    (hclo : K.Same v v') (hr : K.Same x x') (ha : List.Forall₂ K.Same ws ws')
    (hscr : S.script = true → v' = .nil ∧ x' = .nil ∧ ws' = []) :
    K.Frames S ⟨S.unit, v, x, ws, Array.replicate n .zero⟩
      ⟨S.unit', v', x', ws', Array.replicate n' .zero⟩ := by
  refine ⟨hP, rfl, rfl, hclo, hr, ha, hscr, ?_, ?_, ?_, fun {i} _ _ => ?_, fun {j} _ => ?_⟩
  · exact ht.trans Array.size_replicate.symm
  · exact ht'.trans Array.size_replicate.symm
  · exact Nat.le_trans hb (Nat.le_of_eq Array.size_replicate.symm)
  · rw [value_fresh ⟨S.unit, v, x, ws, #[]⟩ n i,
      value_fresh ⟨S.unit', v', x', ws', #[]⟩ n' (S.view.place i)]
    exact same_zero
  · exact value_fresh ⟨S.unit', v', x', ws', #[]⟩ n' j

theorem enter_twins (hs : K.Stores m.store m'.store) {f f' : Function} {frame frame' : Frame}
    (hfra : K.Frames S { frame with locals := Array.replicate f.locals .zero }
      { frame' with locals := Array.replicate f'.locals .zero })
    (hcs : K.Callers S0 S m.callers m'.callers) (hb : S.InstrLists S.leaves is is')
    (hf : f.body = is ++ S.rest) (hf' : f'.body = is' ++ S.rest') :
    K.Twins S0 (m.enter host frame f) (m'.enter host frame' f') := by
  have hd : m'.store.depth = m.store.depth := hs.depth
  have hmax : m'.store.maxDepth = m.store.maxDepth := hs.maxDepth
  have hs' := hs.withDepth (m.store.depth + 1)
  unfold Machine.enter
  by_cases hdeep : m.store.maxDepth < m.store.depth + 1
  · rw [if_pos hdeep, if_pos (by rw [hd, hmax]; exact hdeep), serve_attached,
      serve_attached]
    refine ⟨_, ⟨?_, hfra, hcs⟩, .leave (.inr rfl) .nil⟩
    rw [hd]
    exact hs'.raise .stackOverflow
  · rw [if_neg hdeep, if_neg (by rw [hd, hmax]; exact hdeep), hd]
    refine ⟨_, ⟨hs', hfra, hcs⟩, ?_⟩
    rw [hf, hf']
    exact .bottom hb

theorem Stage.callTarget (h : K.Stage S0 S m m') (hc : K.Conts S m.stack m'.stack)
    (hnow : host.now.Atomic) {target target' : CallTarget}
    {count : Nat} (ht : K.view.Targets count m.store m'.store target target')
    (hws : List.Forall₂ K.Same ws ws') :
    K.Twins S0 (m.callTarget host target ws) (m'.callTarget host target' ws') := by
  cases ht with
  | clock v v' => exact h.giveUnlessPending hc (.atom hnow)
  | construct v v' hw => exact h.giveUnlessPending hc hw
  | @closure _ _ c c' _ _ hi hj ho _ _ hcode _ hr =>
    have hclo : K.Same _ _ := .object hi hj ho
    have hent : K.Entries c.entry c'.entry := hcode.1
    generalize c.entry = e at hent
    generalize c'.entry = e' at hent
    cases hent with
    | compiled hP hf =>
      obtain ⟨hf, hf', hloc, hb⟩ := hf
      simp only [Machine.callTarget, hf, hf']
      refine enter_twins (S := .ofFunction _ _ _ _) ?_
        (frames_start hP rfl hloc.symm (Nat.le_of_eq hloc.symm) hclo hr hws (by rintro ⟨⟩))
        ?_ hb (List.append_nil _).symm (List.append_nil _).symm
      · exact h.stores
      · exact .cons ⟨rfl, rfl, rfl⟩ h.frames hc h.callers

theorem Stage.call (h : K.Stage S0 S m m') (hc : K.Conts S m.stack m'.stack)
    (hnow : host.now.Atomic) (herr : m'.store.error = none)
    (hw : K.Same w w') (hws : List.Forall₂ K.Same ws ws') :
    K.Outcome S0 (m.call host w ws) (m'.call host w' ws') := by
  have ha := lawful.prepareCall h.stores hw ws.length
  unfold Machine.call Serve.prepareCall
  simp only [host.attached_eq, if_true, ← hws.length_eq]
  generalize m.store.prepareCall w ws.length = r at ha
  generalize m'.store.prepareCall w' ws.length = r' at ha
  cases ha with
  | @exhausted _ e t' he hsig =>
    refine .exhausted (e := e) he ?_
    show some (t'.error.getD (.heap e)) = _
    rw [Store.error_of_signals hsig, herr]
    rfl
  | error e hm hs =>
    exact .twins hm ⟨S, ⟨hs.raise e, hm.toLe.frames h.frames, hm.toLe.callers h.callers⟩,
      .leave (.inr rfl) .nil⟩
  | ok hm hs ht =>
    exact .twins hm ((h.withStore hm.toLe hs).callTarget (hm.toLe.conts hc) hnow
      ht (hm.toLe.words hws))

theorem Stage.unwind (h : K.Stage S0 S m m') (hl : S.leaves = true ∨ m.store.pending = true)
    (hw : K.Same w w') :
    K.Twins S0 (m.unwind w) (m'.unwind w') := by
  have hs := h.stores.withDepth (m.store.depth - 1)
  have hcs := h.callers
  unfold Machine.unwind
  rw [h.stores.depth]
  generalize m.callers = cs at hcs
  generalize m'.callers = cs' at hcs
  cases hcs with
  | nil => exact ⟨S0, ⟨hs, h.frames, .nil⟩, .stopped hl hw⟩
  | cons _ hf hc hr =>
    exact Stage.giveUnlessPending ⟨hs, hf, hr⟩ hc hw

theorem words_getD (h : List.Forall₂ K.Same ws ws') (k : Nat) :
    K.Same (ws[k]?.getD .zero) (ws'[k]?.getD .zero) := by
  induction h generalizing k with
  | nil =>
    exact same_zero
  | cons hw _ ih =>
    cases k with
    | zero => exact hw
    | succ k => exact ih k

theorem slots_of_words (h : List.Forall₂ K.Same ws ws') :
    K.object.Slots ws.toArray ws'.toArray := by
  refine ⟨h.length_eq.symm, fun k => ?_⟩
  rw [List.getElem?_toArray, List.getElem?_toArray]
  induction h generalizing k with
  | nil => exact .none
  | cons hw _ ih =>
    cases k with
    | zero => exact .some hw
    | succ k => exact ih k

theorem Stage.cellWords (h : K.Stage S0 S m m')
    {cells cells' : List CellRef} (hc : List.Forall₂ S.view.Cells cells cells') :
    List.Forall₂ K.Same (cells.map (m.cellWord host)) (cells'.map (m'.cellWord host)) := by
  induction hc with
  | nil => exact .nil
  | cons hcell _ ih => exact .cons (h.cellWord hcell) ih

end

variable (h : K.Stage S0 S m m') (hc : K.Conts S m.stack m'.stack)

include h hc

theorem Stage.eval [host.Attached] (herr : m'.store.error = none) (he : S.Codes e e') :
    K.Outcome S0 (m.eval host e) (m'.eval host e') := by
  have hl := h.frames.later
  cases he with
  | constant ha => exact h.give hc (.atom ha)
  | text hi => exact h.give hc (h.stores.text hl hi)
  | receiver => exact h.give hc h.frames.receiver
  | argument k => exact h.give hc (words_getD h.frames.arguments k)
  | readVariable hr =>
    obtain ⟨rfl, hleast, hlt⟩ := hr
    exact h.give hc (h.frames.value hleast hlt)
  | assignVariable hwr he => exact h.evalFor hc (.assignVariable hwr) he
  | newCell he => exact h.evalFor hc .newCell he
  | readCell hcell =>
    rw [Machine.eval, Machine.eval, serve_attached, serve_attached]
    exact h.give hc (h.stores.views.cellValue_same (h.cellWord hcell))
  | assignCell hcell he => exact h.evalFor hc (.assignCell hcell) he
  | readGlobal hs =>
    rw [Machine.eval, Machine.eval]
    exact h.checked hc (.of_agree (getGlobal_agree h.stores (hl.globals hs)) herr)
  | assignGlobal hs he => exact h.evalFor hc (.assignGlobal hs) he
  | negate he => exact h.evalFor hc .negate he
  | not he => exact h.evalFor hc .not he
  | binary op ha hb => exact h.evalFor hc (.leftOperand op hb) ha
  | logical op ha hb => exact h.evalFor hc (.logical op hb) ha
  | call he hes => exact h.evalFor hc (.callee hes) he
  | getProperty site site' he hn => exact h.evalFor hc (.getProperty site site' hn) he
  | setProperty site site' ha hn hb =>
    exact h.evalFor hc (.setObject site site' hn hb) ha
  | getSuper ha hb hn => exact h.evalFor hc (.superclass hb hn) ha
  | @closure _ d d' _ _ _ _ _ _ hp hcells hf hf' hloc hbody =>
    have hent : K.Entries (.compiled m.frame.unit d) (.compiled m'.frame.unit d') := by
      rw [h.frames.unit, h.frames.unit']
      exact .compiled hl (.intro hf hf' hloc hbody)
    rw [Machine.eval, Machine.eval]
    exact h.checked hc (.of_agree (makeClosure_agree h.stores (hl.prototypes hp) hent
      (slots_of_words (h.cellWords hcells))) herr)
  | @newClass _ name name' i i' hn hi =>
    have hsuper : Option.Rel K.Same (i.map m.frame.value) (i'.map m'.frame.value) := by
      cases hi with
      | none => exact .none
      | some hr =>
        obtain ⟨rfl, hleast, hlt⟩ := hr
        exact .some (h.frames.value hleast hlt)
    rw [Machine.eval, Machine.eval]
    exact h.checked hc (.of_agree (lawful.newClass h.stores (hl.symbols hn) hsuper) herr)

theorem Stage.callWith [host.Attached] (hnow : host.now.Atomic) (herr : m'.store.error = none)
    (hw : K.Same w w') (hws : List.Forall₂ K.Same ws ws') {es es' : List Code}
    (hes : S.CodeLists es es') :
    K.Outcome S0 (m.callWith host w ws es) (m'.callWith host w' ws' es') := by
  cases hes with
  | nil => exact h.call hc hnow herr hw hws
  | cons he hr => exact h.evalFor hc (.argument hw hws hr) he

theorem Stage.receive [host.Attached] (hnow : host.now.Atomic) (hcalm : m.store.pending = false)
    (herr : m'.store.error = none) (hb : Blank m.store.sites) (hb' : Blank m'.store.sites)
    (ht : K.Pendings S task task') (hw : K.Same w w') :
    K.Outcome S0 (m.receive host w task) (m'.receive host w' task') := by
  have hlater := h.frames.later
  have hcalm' : m'.store.pending = false := h.stores.pending.trans hcalm
  have hnil : K.Same .nil .nil := .nil
  cases ht with
  | assignVariable hwr =>
    refine Stage.give ?_ hc hw
    exact ⟨h.stores, h.frames.setVariable hwr hw, h.callers⟩
  | newCell =>
    rw [Machine.receive, Machine.receive]
    exact h.checked hc (.of_agree (alloc_agree h.stores (.cell hw)) herr)
  | assignCell hcell =>
    rw [Machine.receive, Machine.receive, serve_attached, serve_attached]
    refine Stage.give ?_ hc hw
    exact h.withStore (.refl K) (lawful.setCell h.stores (h.cellWord hcell) hw).1
  | assignGlobal hslot =>
    rw [Machine.receive_assignGlobal, Machine.receive_assignGlobal]
    exact h.checked hc (.of_agree (setGlobal_agree h.stores (hlater.globals hslot) hw) herr)
  | negate =>
    show K.Outcome S0 (m.negate host w) (m'.negate host w')
    unfold Machine.negate
    rw [hw.isPlain_eq]
    split
    · next hp => exact h.give hc (hw.flipSign hp)
    · exact h.checked hc (.of_agree (lawful.negate h.stores hw) herr)
  | not =>
    refine h.give hc ?_
    rw [hw.isFalsy_eq]
    exact .atom (.ofBool _)
  | leftOperand op he => exact h.evalFor hc (.rightOperand op hw) he
  | rightOperand op hleft =>
    show K.Outcome S0 (m.binary host op _ w) (m'.binary host op _ w')
    rw [Machine.binary_eq_checked hcalm, Machine.binary_eq_checked hcalm']
    exact h.checked hc (.of_agree (lawful.binary h.stores op hleft hw) herr)
  | logical op he =>
    have hg := h.give hc hw
    have heval : K.Outcome S0 { m with control := .eval _ } { m' with control := .eval _ } :=
      .of_twins ⟨S, ⟨h.stores, h.frames, h.callers⟩, .eval hc he⟩
    cases op with
    | and | or =>
      rw [Machine.receive, Machine.receive, hw.isFalsy_eq]
      split <;> assumption
  | callee hes => exact h.callWith hc hnow herr hw .nil hes
  | argument hf hws hes =>
    exact h.callWith hc hnow herr hf (List.rel_append hws (.cons hw .nil)) hes
  | getProperty site site' hn =>
    show K.Outcome S0 (m.getProperty host w _ site) (m'.getProperty host w' _ site')
    rw [Machine.getProperty_of_blank hb, Machine.getProperty_of_blank hb']
    refine h.checked hc (.of_agree ?_ herr)
    exact lawful.getProperty h.stores hw (hlater.symbols hn) site site'
  | setObject site site' hn he => exact h.evalFor hc (.setProperty site site' hw hn) he
  | setProperty site site' ho hn =>
    show K.Outcome S0 (m.setProperty host _ _ w site) (m'.setProperty host _ _ w' site')
    rw [Machine.setProperty_of_blank hb, Machine.setProperty_of_blank hb']
    refine h.checked hc (.of_agree ?_ herr)
    exact lawful.setProperty h.stores ho hw (hlater.symbols hn) site site'
  | superclass he hn => exact h.evalFor hc (.superReceiver hw hn) he
  | superReceiver ho hn =>
    rw [Machine.receive, Machine.receive]
    exact h.checked hc (.of_agree (lawful.getSuper h.stores ho hw (hlater.symbols hn)) herr)
  | discard => exact h.runs hc .nil
  | print =>
    rw [Machine.receive, Machine.receive, serve_attached, serve_attached]
    exact (h.withStore (.refl K) (print_stores h.stores hw)).runs hc .nil
  | defineGlobal hslot =>
    rw [Machine.receive, Machine.receive, serve_attached, serve_attached]
    exact (h.withStore (.refl K) (putSlot_stores h.stores (hlater.globals hslot) hw)).runs hc .nil
  | branch hyes hno =>
    rw [Machine.receive, Machine.receive, hw.isFalsy_eq]
    split
    · exact h.runs hc hno
    · exact h.runs hc hyes
  | loopTest he hbody =>
    rw [Machine.receive, Machine.receive, hw.isFalsy_eq]
    split
    · exact h.runs hc .nil
    · exact .of_twins ⟨S, ⟨h.stores, h.frames, h.callers⟩, .run (.cons (.again he hbody) hc) hbody⟩
  | addMethod hr hn =>
    obtain ⟨rfl, hleast, hlt⟩ := hr
    rw [Machine.receive, Machine.receive, serve_attached, serve_attached]
    have hs := lawful.addMethod h.stores (h.frames.value hleast hlt) (hlater.symbols hn) hw
    exact (h.withStore (.refl K) hs.1).runs hc .nil
  | leave hl => exact .of_twins ⟨S, ⟨h.stores, h.frames, h.callers⟩, .leave (.inl hl) hw⟩
  | rest his => exact h.runs hc his
  | again he hbody => exact h.evalFor hc (.loopTest he hbody) he

theorem Stage.exec {leaves : Bool}
    (hl : S.leaves = leaves) {i i' : Instr} (hi : S.Instrs leaves i i') :
    K.Outcome S0 (m.exec i) (m'.exec i') := by
  subst hl
  generalize hlvs : S.leaves = leaves at hi
  cases hi with
  | evaluate he => exact h.evalFor hc .discard he
  | print he => exact h.evalFor hc .print he
  | defineGlobal hs he => exact h.evalFor hc (.defineGlobal hs) he
  | branch he hyes hno =>
    subst hlvs
    exact h.evalFor hc (.branch hyes hno) he
  | loop he hb =>
    subst hlvs
    exact h.evalFor hc (.loopTest he hb) he
  | addMethod hr hn he => exact h.evalFor hc (.addMethod hr hn) he
  | leave he => exact h.evalFor hc (.leave hlvs) he

end Kin

structure Machine.AtEnd (S0 : Scene) (m : Machine) : Prop where
  callers : m.callers = []
  stack : m.stack = []
  control : m.control = .run S0.rest

namespace Kin

variable {K K' : Kin} {S0 S : Scene} {m m' : Machine} {host : Host} {w w' : Word}
  {stack stack' : List Pending}

theorem Callers.whole {cs cs' : List Caller} (h : K.Callers S0 S cs cs') :
    S.Whole ∨ (S = S0 ∧ cs = [] ∧ cs' = []) := by
  cases h with
  | nil => exact .inr ⟨rfl, rfl, rfl⟩
  | cons hw _ _ _ => exact .inl hw

theorem Stage.pass (h : K.Stage S0 S m m') (hc : K.Conts S m.stack m'.stack)
    [host.Attached] (hnow : host.now.Atomic) (hcalm : m.store.pending = false)
    (herr : m'.store.error = none) (hb : Blank m.store.sites) (hb' : Blank m'.store.sites)
    (hw : K.Same w w') {task task' : Pending} (hs : m.stack = task :: stack)
    (hs' : m'.stack = task' :: stack') :
    K.Outcome S0 ({ m with stack := stack }.receive host w task)
      ({ m' with stack := stack' }.receive host w' task') := by
  rw [hs, hs'] at hc
  cases hc with
  | bottom his => exact .of_twins ⟨S, ⟨h.stores, h.frames, h.callers⟩, .bottom his⟩
  | cons ht hc =>
    have hstage : K.Stage S0 S { m with stack := stack } { m' with stack := stack' } :=
      ⟨h.stores, h.frames, h.callers⟩
    exact hstage.receive hc hnow hcalm herr hb hb' ht hw

theorem Conts.exists_cons (h : K.Conts S stack stack') :
    ∃ task rest task' rest', stack = task :: rest ∧ stack' = task' :: rest' := by
  cases h with
  | bottom => exact ⟨_, _, _, _, rfl, rfl⟩
  | cons => exact ⟨_, _, _, _, rfl, rfl⟩

theorem Twins.step_blank (h : K.Twins S0 m m') (ho : m.Orderly) (ho' : m'.Orderly)
    [host.Attached] (hnow : host.now.Atomic) (hb : Blank m.store.sites)
    (hb' : Blank m'.store.sites) (hend : S0.Whole ∨ ¬m.AtEnd S0) :
    K.Outcome S0 (m.step host) (m'.step host) := by
  obtain ⟨S, hstage, hctl⟩ := h
  -- Unless the function is being left, no error is being raised.
  have hcalm : m.control.isExit = false → m.store.pending = false ∧ m'.store.error = none := by
    intro hexit
    have hp : m.store.pending = false := by
      cases hp : m.store.pending with
      | false => rfl
      | true => rw [ho.exits hp] at hexit; cases hexit
    have hp' : m'.store.pending = false := hstage.stores.pending.trans hp
    have hf : m'.store.pending = m'.store.error.isSome := ho'.flagged
    rw [hp'] at hf
    exact ⟨hp, Option.not_isSome_iff_eq_none.mp (by rw [← hf]; decide)⟩
  generalize hst : m.stack = stack at hctl
  generalize hst' : m'.stack = stack' at hctl
  generalize hct : m.control = control at hctl hcalm
  generalize hct' : m'.control = control' at hctl
  cases hctl with
  | bottom his =>
    cases his with
    | nil =>
      have hwhole : S.Whole := by
        rcases hstage.callers.whole with hw | ⟨rfl, hcs, _⟩
        · exact hw
        · exact hend.resolve_right fun hne => hne ⟨hcs, hst, hct⟩
      rw [List.nil_append, hwhole.rest] at hct
      rw [List.nil_append, hwhole.rest'] at hct'
      rw [Machine.step_ends hst (.inr ⟨hct, rfl⟩), Machine.step_ends hst' (.inr ⟨hct', rfl⟩)]
      exact .of_twins ⟨S, ⟨hstage.stores, hstage.frames, hstage.callers⟩,
        .leave (.inl hwhole.leaves) .nil⟩
    | cons hi his =>
      rw [Machine.step_run_cons hct, Machine.step_run_cons hct', hst, hst']
      refine Stage.exec ?_ (.bottom his) rfl hi
      exact ⟨hstage.stores, hstage.frames, hstage.callers⟩
  | run hc his =>
    obtain ⟨hp, herr⟩ := hcalm rfl
    subst hst hst'
    cases his with
    | nil =>
      obtain ⟨task, rest, task', rest', hs, hs'⟩ := hc.exists_cons
      rw [Machine.step_receives hs (.inr ⟨hct, rfl⟩), Machine.step_receives hs' (.inr ⟨hct', rfl⟩)]
      exact hstage.pass hc hnow hp herr hb hb' .nil hs hs'
    | cons hi his =>
      rw [Machine.step_run_cons hct, Machine.step_run_cons hct']
      refine Stage.exec ?_ (.cons (.rest his) hc) rfl hi
      exact ⟨hstage.stores, hstage.frames, hstage.callers⟩
  | eval hc he =>
    obtain ⟨hp, herr⟩ := hcalm rfl
    subst hst hst'
    rw [Machine.step_eval hct, Machine.step_eval hct']
    exact hstage.eval hc herr he
  | give hc hw =>
    obtain ⟨hp, herr⟩ := hcalm rfl
    subst hst hst'
    obtain ⟨task, rest, task', rest', hs, hs'⟩ := hc.exists_cons
    rw [Machine.step_receives hs (.inl hct), Machine.step_receives hs' (.inl hct')]
    exact hstage.pass hc hnow hp herr hb hb' hw hs hs'
  | leave hl hw =>
    rw [Machine.step_leave hct, Machine.step_leave hct']
    exact .of_twins (hstage.unwind hl hw)
  | stopped hl hw =>
    rw [Machine.step_stopped hct, Machine.step_stopped hct']
    refine .of_twins ⟨S, hstage, ?_⟩
    rw [hct, hct']
    exact .stopped hl hw

theorem Twins.step (h : K.Twins S0 m m') (ho : m.Orderly) (ho' : m'.Orderly)
    [host.Attached] (hnow : host.now.Atomic) (hend : S0.Whole ∨ ¬m.AtEnd S0) :
    K.Outcome S0 (m.searchStep host) (m'.searchStep host) := by
  obtain ⟨S, hs, hctl⟩ := h
  have hfor : K.Twins S0 m.forget m'.forget :=
    ⟨S, ⟨hs.stores.withSites _ _, hs.frames, hs.callers⟩, hctl⟩
  have he : S0.Whole ∨ ¬m.forget.AtEnd S0 :=
    hend.imp_right fun hne hat => hne ⟨hat.callers, hat.stack, hat.control⟩
  exact hfor.step_blank ⟨ho.depth, ho.flagged, ho.exits⟩ ⟨ho'.depth, ho'.flagged, ho'.exits⟩
    hnow (blank_forget _) (blank_forget _) he

end Kin

namespace Machine

variable {m : Machine} {host : Host}

theorem searchRun_of_stop {stop : Stop} (h : m.stop? = some stop) (n : Nat) :
    m.searchRun host n = m := by
  cases n with
  | zero => rfl
  | succ n => rw [Machine.searchRun, h, Option.isSome_some, if_pos rfl]

theorem searchRun_succ (h : m.stop? = none) (n : Nat) :
    m.searchRun host (n + 1) = (m.searchStep host).searchRun host n := by
  rw [Machine.searchRun, h]
  rfl

theorem searchRun_add (m : Machine) (n k : Nat) :
    m.searchRun host (n + k) = (m.searchRun host n).searchRun host k := by
  induction n generalizing m with
  | zero => rw [Nat.zero_add, searchRun]
  | succ n ih =>
    rw [Nat.succ_add]
    cases hs : m.stop? with
    | none => rw [searchRun_succ hs, searchRun_succ hs, ih]
    | some stop => rw [searchRun_of_stop hs, searchRun_of_stop hs, searchRun_of_stop hs]

theorem Orderly.searchStep (h : m.Orderly) : (m.searchStep host).Orderly :=
  Orderly.step ⟨h.depth, h.flagged, h.exits⟩

theorem Orderly.searchRun (h : m.Orderly) (n : Nat) : (m.searchRun host n).Orderly := by
  induction n generalizing m with
  | zero => exact h
  | succ n ih =>
    cases hs : m.stop? with
    | none =>
      rw [searchRun_succ hs]
      exact ih h.searchStep
    | some stop =>
      rw [searchRun_of_stop hs]
      exact h

end Machine

namespace Kin

variable {K : Kin} {S0 : Scene} {m m' : Machine} {host : Host}

theorem Twins.stops (h : K.Twins S0 m m') :
    (m.stop? = none ∧ m'.stop? = none) ∨
      ∃ w w', m.stop? = some (.returned w) ∧ m'.stop? = some (.returned w') ∧ K.Same w w' ∧
        (S0.leaves = true ∨ m.store.pending = true) := by
  obtain ⟨S, _, hctl⟩ := h
  unfold Machine.stop?
  generalize m.stack = stack at hctl
  generalize m'.stack = stack' at hctl
  generalize m.control = control at hctl
  generalize m'.control = control' at hctl
  cases hctl with
  | stopped hl hw => exact .inr ⟨_, _, rfl, rfl, hw, hl⟩
  | bottom | run | eval | give | leave => exact .inl ⟨rfl, rfl⟩

theorem Twins.run (h : K.Twins S0 m m') (ho : m.Orderly) (ho' : m'.Orderly)
    [host.Attached] (hnow : host.now.Atomic) (n : Nat)
    (hend : ∀ k < n, S0.Whole ∨ ¬(m.searchRun host k).AtEnd S0) :
    (∃ K', K.Moves K' ∧ K'.Twins S0 (m.searchRun host n) (m'.searchRun host n)) ∨
      (¬K.even ∧ ∃ k ≤ n, ∃ e, (m'.searchRun host k).store.error = some (.heap e)) := by
  induction n generalizing K m m' with
  | zero => exact .inl ⟨K, .refl K, h⟩
  | succ n ih =>
    rcases h.stops with ⟨hs, hs'⟩ | ⟨w, w', hs, hs', _, _⟩
    · rw [Machine.searchRun_succ hs, Machine.searchRun_succ hs']
      have hstep := h.step ho ho' hnow (hend 0 (Nat.succ_pos n))
      cases hstep with
      | @exhausted e heven herr =>
        refine .inr ⟨heven, 1, Nat.succ_le_succ (Nat.zero_le n), e, ?_⟩
        rw [Machine.searchRun_succ hs']
        exact herr
      | twins hm ht =>
        have hend' : ∀ k < n, S0.Whole ∨ ¬((m.searchStep host).searchRun host k).AtEnd S0 := by
          intro k hk
          rw [← Machine.searchRun_succ hs]
          exact hend (k + 1) (Nat.succ_lt_succ hk)
        rcases ih ht ho.searchStep ho'.searchStep hend' with
          ⟨K', hm', ht'⟩ | ⟨heven, k, hk, e, he⟩
        · exact .inl ⟨K', hm.trans hm', ht'⟩
        · refine .inr ⟨fun he => heven (hm.even he), k + 1, Nat.succ_le_succ hk, e, ?_⟩
          rw [Machine.searchRun_succ hs']
          exact he
    · rw [Machine.searchRun_of_stop hs, Machine.searchRun_of_stop hs']
      exact .inl ⟨K, .refl K, h⟩

theorem Twins.atEnd (h : K.Twins S0 m m') (hat : m.AtEnd S0) :
    K.Stage S0 S0 m m' ∧ m'.callers = [] ∧ m'.stack = [] ∧ m'.control = .run S0.rest' := by
  obtain ⟨S, hs, hctl⟩ := h
  have hcal := hs.callers
  rw [hat.callers] at hcal
  generalize hcs : m'.callers = cs' at hcal
  cases hcal
  rw [hat.stack, hat.control] at hctl
  generalize hst : m'.stack = stack' at hctl
  generalize hct : m'.control = control' at hctl
  generalize hrun : Control.run S0.rest = control at hctl
  cases hctl with
  | @bottom is is' his =>
    have hnil : is = [] := by
      have hlen := congrArg List.length (Control.run.inj hrun)
      rw [List.length_append] at hlen
      exact List.eq_nil_of_length_eq_zero (by omega)
    subst hnil
    cases his
    exact ⟨⟨hs.stores, hs.frames, hs.callers⟩, rfl, rfl, rfl⟩
  | run hc _ => cases hc
  | _ => cases hrun

end Kin

end ScriptMachine
