/-
ScriptMachine.Proofs.Lexical.Following — how a run of code follows the
interpreter.
-/
import ScriptMachine.Proofs.Lexical.Frames
import ScriptMachine.Proofs.Runs.Searching

namespace ScriptMachine.Lexical

variable {host : Host} {m m' m'' : Machine} {n k : Nat} {σ σ' : State} {s : Store}

/-! ## §1 Steps -/

inductive Reaches (host : Host) : Nat → Machine → Machine → Prop
  | refl (m : Machine) : Reaches host 0 m m
  | step {n : Nat} {m m' : Machine} : m.stop? = none → Reaches host n (m.searchStep host) m' →
      Reaches host (n + 1) m m'

namespace Reaches

theorem trans (h : Reaches host n m m') (h' : Reaches host k m' m'') :
    Reaches host (n + k) m m'' := by
  induction h with
  | refl => rwa [Nat.zero_add]
  | step hs _ ih =>
    rw [Nat.succ_add]
    exact .step hs (ih h')

theorem stepTo (hs : m.stop? = none) (hstep : m.searchStep host = m') (h : Reaches host n m' m'') :
    Reaches host (n + 1) m m'' :=
  .step hs (hstep ▸ h)

theorem searchRun (h : Reaches host n m m') (k : Nat) :
    m.searchRun host (n + k) = m'.searchRun host k := by
  induction h with
  | refl => rw [Nat.zero_add]
  | step hs _ ih =>
    rw [Nat.succ_add, Machine.searchRun, hs]
    exact ih

end Reaches

/-! ## §2 Following -/

def Exhausts (host : Host) (m : Machine) : Prop :=
  ∃ n m' e, Reaches host n m m' ∧ m'.store.error = some (.heap e)

structure Got (host : Host) (base : Nat) (p : Moment) (m : Machine) (p' : Moment) (m' : Machine) :
    Prop where
  reaches : ∃ n, Reaches host n m m'
  advances : p.Advances base p'
  store : p'.store = m'.store

structure Moment.Leaves (p : Moment) (m : Machine) (callers : List Caller) (w : Word) : Prop where
  linked : p.Linked
  control : m.control = .leave w
  callers_eq : m.callers = callers

inductive Follows {α : Type} (host : Host) (least base : Nat) (cs : List Caller) (p : Moment)
    (m : Machine) (Q : α → Moment → Machine → Prop) : EStateM.Result Exit State α → Prop
  | exhausted {r : EStateM.Result Exit State α} : Exhausts host m →
      Follows host least base cs p m Q r
  | ok {a : α} {p' : Moment} {m' : Machine} : Got host base p m p' m' → Q a p' m' →
      Follows host least base cs p m Q (.ok a p'.state)
  | returned {w w' : Word} {p' : Moment} {m' : Machine} : Got host base p m p' m' →
      p'.Leaves m' cs w' → p'.Calm → p'.link.Same w w' →
        Follows host least base cs p m Q (.error (.returned w) p'.state)
  | raised {e : Failure} {w : Word} {p' : Moment} {m' : Machine} : Got host base p m p' m' →
      p'.Leaves m' cs w → p'.store.pending = true → p'.store.error = some e →
        Follows host least base cs p m Q (.error (.raised e) p'.state)
  | unfinished {n : Nat} {m' : Machine} {σ : State} : least ≤ n → Reaches host n m m' →
      m'.stop? = none → m'.store.printed = σ.store.printed →
        Follows host least base cs p m Q (.error .unfinished σ)

abbrev FollowsIn {α : Type} (host : Host) (least : Nat) (A : Activation) (cs : List Caller)
    (p : Moment) (locals : Array Word) (K : List Pending) (control : Control)
    (Q : α → Moment → Machine → Prop) (r : EStateM.Result Exit State α) : Prop :=
  Follows host least A.base cs p ⟨p.store, A.frameWith locals, K, cs, control⟩ Q r

variable {α β : Type} {least least' base base' : Nat} {cs : List Caller} {p p' : Moment}
  {Q Q' : α → Moment → Machine → Prop} {R : β → Moment → Machine → Prop}
  {r : EStateM.Result Exit State α}

theorem Exhausts.of_reaches (hr : Reaches host n m m') (h : Exhausts host m') :
    Exhausts host m := by
  obtain ⟨k, m'', e, hk, he⟩ := h
  exact ⟨n + k, m'', e, hr.trans hk, he⟩

theorem Got.refl (h : p.store = m.store) : Got host base p m p m :=
  ⟨⟨0, .refl m⟩, .refl base p, h⟩

namespace Follows

theorem done {a : α} (hs : p.store = m.store) (hq : Q a p m) :
    Follows host least base cs p m Q (.ok a p.state) :=
  .ok (.refl hs) hq

theorem returns {w w' : Word} (hs : p.store = m.store) (hlvs : p.Leaves m cs w') (hc : p.Calm)
    (hw : p.link.Same w w') : Follows host least base cs p m Q (.error (.returned w) p.state) :=
  .returned (.refl hs) hlvs hc hw

theorem raises {e : Failure} {w : Word} (hs : p.store = m.store) (hlvs : p.Leaves m cs w)
    (hp : p.store.pending = true) (he : p.store.error = some e) :
    Follows host least base cs p m Q (.error (.raised e) p.state) :=
  .raised (.refl hs) hlvs hp he

theorem after (hr : Reaches host k m m') (ha : p.Advances base p') (hl : least' ≤ k + least)
    (h : Follows host least base cs p' m' Q r) : Follows host least' base cs p m Q r := by
  have hgot : ∀ {p'' m''}, Got host base p' m' p'' m'' → Got host base p m p'' m'' := fun hg => by
    obtain ⟨n, hn⟩ := hg.reaches
    exact ⟨⟨k + n, hr.trans hn⟩, ha.trans hg.advances, hg.store⟩
  cases h with
  | exhausted he => exact .exhausted (he.of_reaches hr)
  | ok hg hq => exact .ok (hgot hg) hq
  | returned hg hlvs hc hw => exact .returned (hgot hg) hlvs hc hw
  | raised hg hlvs hp he => exact .raised (hgot hg) hlvs hp he
  | unfinished hn hr' hs hprt =>
    exact .unfinished (Nat.le_trans hl (Nat.add_le_add_left hn k)) (hr.trans hr') hs hprt

theorem reach (hr : Reaches host k m m') (ha : p.Advances base p')
    (h : Follows host least base cs p' m' Q r) : Follows host least base cs p m Q r :=
  after hr ha (Nat.le_add_left _ _) h

theorem weaken (h : Follows host least base cs p m Q r) (hb : base' ≤ base) :
    Follows host least base' cs p m Q r := by
  have hgot : ∀ {p' m'}, Got host base p m p' m' → Got host base' p m p' m' := fun hg =>
    ⟨hg.reaches, hg.advances.weaken hb, hg.store⟩
  cases h with
  | exhausted he => exact .exhausted he
  | ok hg hq => exact .ok (hgot hg) hq
  | returned hg hlvs hc hw => exact .returned (hgot hg) hlvs hc hw
  | raised hg hlvs hp he => exact .raised (hgot hg) hlvs hp he
  | unfinished hn hr hs hprt => exact .unfinished hn hr hs hprt

theorem of_advances (ha : p.Advances base p') (h : Follows host least base cs p' m Q r) :
    Follows host least base cs p m Q r :=
  reach (.refl m) ha h

theorem atLeast (h : Follows host least base cs p m Q r) (hl : least' ≤ least) :
    Follows host least' base cs p m Q r :=
  after (.refl m) (.refl base p) ((Nat.zero_add least).symm ▸ hl) h

theorem value {f : α → State → EStateM.Result Exit State β} (h : Follows host least base cs p m Q r)
    (hf : ∀ {a p' m'}, p.Advances base p' → p'.store = m'.store → Q a p' m' →
      Follows host least base cs p' m' R (f a p'.state)) :
    Follows host least base cs p m R
      (match r with
      | .ok a σ => f a σ
      | .error e σ => .error e σ) := by
  cases h with
  | exhausted he => exact .exhausted he
  | ok hg hq =>
    obtain ⟨n, hn⟩ := hg.reaches
    exact reach hn hg.advances (hf hg.advances hg.store hq)
  | returned hg hlvs hc hw => exact .returned hg hlvs hc hw
  | raised hg hlvs hp he => exact .raised hg hlvs hp he
  | unfinished hn hr hs hprt => exact .unfinished hn hr hs hprt

theorem bind {x : Interp α} {f : α → Interp β}
    (h : Follows host least base cs p m Q (x.run p.state))
    (hf : ∀ {a p' m'}, p.Advances base p' → p'.store = m'.store → Q a p' m' →
      Follows host least base cs p' m' R ((f a).run p'.state)) :
    Follows host least base cs p m R ((x >>= f).run p.state) :=
  h.value hf

theorem andThen (h : Follows host least base cs p m Q r)
    (hQ : ∀ {a p' m'}, p.Advances base p' → p'.store = m'.store → Q a p' m' →
      Follows host least base cs p' m' Q' (.ok a p'.state)) :
        Follows host least base cs p m Q' r := by
  have hval := h.value hQ
  cases r <;> exact hval

theorem imp (h : Follows host least base cs p m Q r)
    (hQ : ∀ {a p' m'}, p.Advances base p' → Q a p' m' → Q' a p' m') :
    Follows host least base cs p m Q' r :=
  h.andThen fun ha hs hq => .done hs (hQ ha hq)

end Follows

theorem run_bind_of_ok {x : Interp α} {f : α → Interp β} {a : α} (h : x.run σ = .ok a σ') :
    (x >>= f).run σ = (f a).run σ' := by
  show (match x.run σ with
    | .ok a σ => (f a).run σ
    | .error e σ => .error e σ) = _
  rw [h]

theorem run_bind_of_error {x : Interp α} {f : α → Interp β} {e : Exit} (h : x.run σ = .error e σ') :
    (x >>= f).run σ = .error e σ' := by
  show (match x.run σ with
    | .ok a σ => (f a).run σ
    | .error e σ => .error e σ) = _
  rw [h]

theorem run_bind_assoc {γ : Type} (x : Interp α) (f : α → Interp β) (g : β → Interp γ) (σ : State) :
    (x >>= f >>= g).run σ = (x >>= fun a => f a >>= g).run σ := by
  cases h : x.run σ with
  | ok a σ' => rw [run_bind_of_ok h]; cases hf : (f a).run σ' with
    | ok b σ'' => rw [run_bind_of_ok hf, run_bind_of_ok ((run_bind_of_ok h).trans hf)]
    | error e σ'' => rw [run_bind_of_error hf, run_bind_of_error ((run_bind_of_ok h).trans hf)]
  | error e σ' => rw [run_bind_of_error h, run_bind_of_error (run_bind_of_error h)]

theorem run_onStore_ok {f : Store → Except Failure α × Store}
    (hf : ∀ s : Store, s.Continues (f s).2) {a : α} (h : f σ.store = (.ok a, s)) :
    (onStore f hf).run σ = .ok a { σ with store := s } := by
  simp [onStore, h]

theorem run_onStore_error {f : Store → Except Failure α × Store}
    (hf : ∀ s : Store, s.Continues (f s).2) {e : Failure} (h : f σ.store = (.error e, s)) :
    (onStore f hf).run σ = .error (.raised e) { σ with store := s } := by
  simp [onStore, h]

/-! ### Guards -/

def Moment.forget (p : Moment) : Moment :=
  { p with store := p.store.withSites (p.store.sites.map Site.forget) }

@[simp] theorem Moment.forget_forget (p : Moment) : p.forget.forget = p.forget := by
  have hs : (p.store.sites.map Site.forget).map Site.forget = p.store.sites.map
    Site.forget := by
    rw [Array.map_map]
    rfl
  simp [forget, Store.withSites, hs]

theorem Moment.moves_forget (p : Moment) : p.link.Moves p.link p.store p.forget.store :=
  .of_heap_eq rfl rfl (.of_heap rfl (fun _ => rfl) rfl rfl id)

theorem Moment.advances_forget (p : Moment) (base : Nat) : p.Advances base p.forget :=
  p.advances_moved p.moves_forget base

theorem Moment.Linked.forget (h : p.Linked) : p.forget.Linked :=
  h.moved p.moves_forget { h.stores with }

theorem Moment.Calm.forget (h : p.Calm) : p.forget.Calm := h

theorem At.forget {A : Activation} {env : Option Nat} {sc : Scopes} {es : List Nat}
    {locals : Array Word} {last : Word} (h : At A env sc es locals last p) :
    At A env sc es locals last p.forget :=
  h.moved p.moves_forget { h.alive.linked.stores with }

theorem Follows.stepCounted (hs : m.stop? = none)
    (h : Follows host least base cs p.forget (m.searchStep host) Q r) :
    Follows host (least + 1) base cs p m Q r :=
  after (.step hs (.refl _)) (p.advances_forget base) (Nat.le_of_eq (Nat.add_comm _ _)) h

theorem Follows.step (hs : m.stop? = none)
    (h : Follows host least base cs p.forget (m.searchStep host) Q r) :
    Follows host least base cs p m Q r :=
  reach (.step hs (.refl _)) (p.advances_forget base) h

theorem Follows.stepTo (hs : m.stop? = none) (hstep : m.searchStep host = m')
    (h : Follows host least base cs p.forget m' Q r) : Follows host least base cs p m Q r :=
  step hs (hstep ▸ h)

/-! ## §3 Routines -/

def Moment.raise (p : Moment) (e : Failure) : Moment := { p with store := p.store.raise e }

theorem Moment.advances_raise (p : Moment) (e : Failure) (base : Nat) :
    p.Advances base (p.raise e) :=
  ⟨id, id, fun _ => id, Nat.le_refl _, .refl _, fun _ _ => rfl,
    .of_heap rfl (fun _ => rfl) rfl rfl id⟩

theorem Moment.Linked.raise (h : p.Linked) (e : Failure) : (p.raise e).Linked :=
  h.advance (p.advances_raise e 0) { h.stores with } h.cells h.cell_unique h.cell_injective rfl
    rfl (Nat.le_refl _)

def Answers (fr : Frame) (K : List Pending) (cs : List Caller) (w : Word) (p : Moment)
    (m : Machine) : Prop :=
  p.Linked ∧ p.Calm ∧ ∃ w', p.link.Same w w' ∧ m = ⟨p.store, fr, K, cs, .give w'⟩

def Gives (A : Activation) (env : Option Nat) (sc : Scopes) (es : List Nat) (last : Word)
    (K : List Pending) (cs : List Caller) (w : Word) (p : Moment) (m : Machine) : Prop :=
  ∃ locals w', At A env sc es locals last p ∧ p.link.Same w w' ∧
    m = ⟨p.store, A.frameWith locals, K, cs, .give w'⟩

def GivesKeeping (A : Activation) (env : Option Nat) (sc : Scopes) (es : List Nat)
    (locals : Array Word) (last : Word) (K : List Pending) (cs : List Caller)
      (w : Word) (p : Moment)
    (m : Machine) : Prop :=
  ∃ w', At A env sc es locals last p ∧ p.link.Same w w' ∧
    m = ⟨p.store, A.frameWith locals, K, cs, .give w'⟩

section Asked

variable {A : Activation} {env : Option Nat} {sc : Scopes} {es : List Nat} {locals : Array Word}
  {last : Word} {K : List Pending} {fr : Frame} {control : Control}
  {f : Store → Except Failure Word × Store} {answer : Except Failure Word × Store}

theorem Follows.raise (hl : p.Linked) (hc : p.Calm) (e : Failure) (w : Word) :
    Follows host least base cs p ⟨p.store.raise e, fr, K, cs, .leave w⟩ Q
      (.error (.raised e) p.state) := by
  have herr : (p.raise e).store.error = some e := by
    show some (p.store.error.getD e) = some e
    rw [hc.2]
    rfl
  exact of_advances (p.advances_raise e base) (raises rfl ⟨hl.raise e, rfl, rfl⟩ rfl herr)

/-- A routine that comes to the same is followed, wherever it is called. -/
theorem Follows.asked (hl : p.Linked) (hc : p.Calm) [host.Attached] (routine : Store → Word × Store)
    (hm : m = (⟨p.store, fr, K, cs, control⟩ : Machine).checked host routine)
    (hf : ∀ s : Store, s.Continues (f s).2) (hrtn : routine p.store = Serve.report answer)
    (ha : p.link.AgreeWords p.store (f p.state.store) answer) :
    Follows host least base cs p m (Answers fr K cs) ((onStore f hf).run p.state) := by
  have hrun : (⟨p.store, fr, K, cs, control⟩ : Machine).checked host routine =
      if (Serve.report answer).2.pending then ⟨(Serve.report answer).2, fr, K, cs, .leave .nil⟩
      else ⟨(Serve.report answer).2, fr, K, cs, .give (Serve.report answer).1⟩ := by
    simp only [Machine.checked, Machine.serve, host.attached_eq, if_true, hrtn,
      Machine.giveUnlessPending]
    rfl
  rw [hm, hrun]
  generalize hres : f p.state.store = result at ha
  cases ha with
  | @exhausted _ e t' _ hs =>
    refine exhausted ⟨0, _, e, .refl _, ?_⟩
    show some (t'.error.getD (.heap e)) = _
    rw [Store.error_of_signals hs, hc.2]
    rfl
  | @error L t t' e hm hs =>
    rw [run_onStore_error hf hres]
    exact of_advances (p.advances_moved hm base) (raise (hl.moved hm hs) (hc.moved hm) e .nil)
  | @ok L t t' a b hm hs hr =>
    have hc' : t'.pending = false := (hc.moved (t := t) hm).1
    rw [run_onStore_ok hf hres]
    rw [if_neg (by simp [Serve.report, hc'])]
    exact of_advances (p.advances_moved hm base)
      (done rfl ⟨hl.moved hm hs, hc.moved hm, b, hr, rfl⟩)

/-- An answer to a function that runs finds its variables where they were. -/
theorem Follows.answered (h : At A env sc es locals last p) {r : EStateM.Result Exit State Word}
    (hf : Follows host least p.state.envs.size cs p m (Answers (A.frameWith locals) K cs) r) :
    Follows host least A.base cs p m (GivesKeeping A env sc es locals last K cs) r :=
  (hf.imp fun ha ⟨hl, hc, w', hw, hm⟩ => ⟨w', h.advance ha hl hc, hw, hm⟩).weaken h.alive.base_le

end Asked

end ScriptMachine.Lexical
