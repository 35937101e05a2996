/-
ScriptMachine.Proofs.Fittings — what does not depend on how a store is fitted
out.
-/
import ScriptMachine.Proofs.Sites

namespace ScriptMachine

variable {α : Type} {s : Store} {f : Fitting}

structure Fitting where
  sites : Array Site
  limit : Nat
  depth : Nat

def Store.refit (s : Store) (f : Fitting) : Store :=
  { s with sites := f.sites, heap := { s.heap with limit := f.limit }, maxDepth := f.depth }

inductive Comes {α : Type} (Full : Store → α × Store → Prop) (s : Store) (f : Fitting) :
    α × Store → α × Store → Prop
  | same {a : α} {t : Store} (tell : Array Site → Array Site) :
      (∀ sites, SameKinds (tell sites) sites) → t.sites = tell s.sites →
        Comes Full s f (a, t) (a, t.refit { f with sites := tell f.sites })
  | full {r r' : α × Store} : s.heap.limit < f.limit → Full s r → Comes Full s f r r'

def Fits {α : Type} (Full : Store → α × Store → Prop) (routine : Store → α × Store) : Prop :=
  ∀ s f, s.heap.limit ≤ f.limit → Comes Full s f (routine s) (routine (s.refit f))

theorem Comes.keeps {Full : Store → α × Store → Prop} {t : Store} {a : α} (h : t.sites = s.sites) :
    Comes Full s f (a, t) (a, t.refit f) :=
  .same id (fun _ => rfl) h

theorem Comes.told {Full : Store → α × Store → Prop} {r r' : α × Store}
    {tell : Array Site → Array Site} (htell : ∀ sites, SameKinds (tell sites) sites)
    (h : Comes Full { s with sites := tell s.sites } { f with sites := tell f.sites } r r')
    (hf : Full { s with sites := tell s.sites } r → Full s r) : Comes Full s f r r' := by
  cases h with
  | same more hm ht => exact .same (more ∘ tell) (fun _ => (hm _).trans (htell _)) ht
  | full hlt h => exact .full hlt (hf h)

namespace Fits

variable {α : Type} {Full : Store → α × Store → Prop} {routine : Store → α × Store}

theorem steady (h : ∀ s f, routine (s.refit f) = ((routine s).1, (routine s).2.refit f)) :
    Fits Full routine := by
  intro s f _
  have hs : (routine s).2.sites = s.sites :=
    congrArg (·.2.sites) (h s ⟨s.sites, s.heap.limit, s.maxDepth⟩)
  rw [h s f]
  exact .keeps hs

theorem limits (h : Fits Full routine) (s : Store) :
    (routine s).2.heap.limit = s.heap.limit ∧ (routine s).2.maxDepth = s.maxDepth := by
  have hown := h s ⟨s.sites, s.heap.limit, s.maxDepth⟩ (Nat.le_refl _)
  have hs : routine (s.refit ⟨s.sites, s.heap.limit, s.maxDepth⟩) = routine s := rfl
  generalize routine (s.refit _) = r' at hown hs
  generalize routine s = r at hown hs
  cases hown with
  | same => exact ⟨congrArg (·.2.heap.limit) hs.symm, congrArg (·.2.maxDepth) hs.symm⟩
  | full hlt => exact absurd hlt (Nat.lt_irrefl _)

theorem alike (h : Fits Full routine) {s s' : Store} (hs : s.Alike s') :
    (routine s).1 = (routine s').1 ∧ (routine s).2.Alike (routine s').2 := by
  obtain ⟨sites, hk, rfl⟩ := hs
  have hb := h s' ⟨sites, s'.heap.limit, s'.maxDepth⟩ (Nat.le_refl _)
  obtain ⟨hlim, hd⟩ := h.limits s'
  rw [show s'.withSites sites = s'.refit ⟨sites, s'.heap.limit, s'.maxDepth⟩ from rfl]
  generalize routine (s'.refit _) = r' at hb ⊢
  generalize routine s' = r at hb hlim hd ⊢
  cases hb with
  | @same a t tell htell ht =>
    refine ⟨rfl, tell sites, ?_, ?_⟩
    · show SameKinds (tell sites) t.sites
      rw [ht]
      exact (htell sites).trans (hk.trans (htell s'.sites).symm)
    · show t.refit ⟨tell sites, s'.heap.limit, s'.maxDepth⟩ = t.withSites (tell sites)
      rw [← hlim, ← hd]
      rfl
  | full hlt => exact absurd hlt (Nat.lt_irrefl _)

end Fits

def NoRoom {α : Type} (s : Store) (r : Except Failure α × Store) : Prop :=
  ∃ e full, r = (.error (.heap e), full) ∧ full.error = s.error ∧ full.printed = s.printed

namespace Fits

theorem alloc (o : Object) : Fits NoRoom (·.alloc o) := by
  intro s f hle
  dsimp only
  unfold Store.alloc Heap.allocate
  by_cases hr : s.heap.size < s.heap.limit
  · have hr' : (s.refit f).heap.size < (s.refit f).heap.limit := Nat.lt_of_lt_of_le hr hle
    rw [if_pos hr, if_pos hr']
    exact .keeps rfl
  · rw [if_neg hr]
    by_cases hr' : (s.refit f).heap.size < (s.refit f).heap.limit
    · exact .full (Nat.lt_of_le_of_lt (Nat.le_of_not_lt hr) hr') ⟨_, s, rfl, rfl, rfl⟩
    · rw [if_neg hr']
      exact .keeps rfl

theorem internText (text : String) : Fits (fun _ r => ∃ e, r.1 = .error e) (·.internText text) := by
  intro s f hle
  dsimp only
  unfold Store.internText Heap.internText
  rw [show (s.refit f).heap.interned = s.heap.interned from rfl]
  cases s.heap.interned.get? text with
  | some index => exact .keeps rfl
  | none =>
    dsimp only [Heap.allocate]
    by_cases hr : s.heap.size < s.heap.limit
    · have hr' : (s.refit f).heap.size < (s.refit f).heap.limit := Nat.lt_of_lt_of_le hr hle
      rw [if_pos hr, if_pos hr']
      exact .keeps rfl
    · rw [if_neg hr]
      by_cases hr' : (s.refit f).heap.size < (s.refit f).heap.limit
      · exact .full (Nat.lt_of_le_of_lt (Nat.le_of_not_lt hr) hr') ⟨_, rfl⟩
      · rw [if_neg hr']
        exact .keeps rfl

theorem binary (op : BinaryOp) (left right : Word) : Fits NoRoom (·.binary op left right) := by
  intro s f hle
  unfold Store.binary
  cases op with
  | equal | notEqual => exact .keeps rfl
  | add =>
    dsimp only
    split
    · exact .keeps rfl
    · rw [if_pos rfl, if_pos rfl]
      unfold Store.concatenate
      rw [show (s.refit f).heap.text? left = s.heap.text? left from rfl,
        show (s.refit f).heap.text? right = s.heap.text? right from rfl]
      split
      · exact alloc _ s f hle
      · exact .keeps rfl
  | subtract | multiply | divide | less | lessEqual | greater | greaterEqual =>
    dsimp only
    split <;> exact .keeps rfl

theorem makeClosure (proto : Nat) (entry : Entry) (cells : Array Word) :
    Fits NoRoom (·.makeClosure proto entry cells) := by
  intro s f hle
  dsimp only
  unfold Store.makeClosure
  rw [show (s.refit f).prototypes = s.prototypes from rfl]
  cases s.prototypes[proto]? with
  | some p => exact alloc _ s f hle
  | none => exact .keeps rfl

theorem newClass (name : Symbol) (sup : Option Word) : Fits NoRoom (·.newClass name sup) := by
  intro s f hle
  dsimp only
  unfold Store.newClass
  rw [show (s.refit f).inherited sup = s.inherited sup by cases sup <;> rfl]
  cases s.inherited sup with
  | ok methods => exact alloc _ s f hle
  | error e => exact .keeps rfl

theorem getSuper (sup receiver : Word) (name : Symbol) :
    Fits NoRoom (·.getSuper sup receiver name) := by
  intro s f hle
  dsimp only
  unfold Store.getSuper
  rw [show (s.refit f).heap.deref? sup = s.heap.deref? sup from rfl]
  dsimp only
  split
  · exact alloc _ s f hle
  · exact .keeps rfl

theorem prepareConstruction (callee : Word) (c : Class) (count : Nat) :
    Fits NoRoom (·.prepareConstruction callee c count) := by
  intro s f hle
  unfold Store.prepareConstruction
  dsimp only
  rw [show (s.refit f).initializer = s.initializer from rfl]
  split
  · exact .keeps rfl
  · have ha := alloc (.ofInstance { classHandle := ⟨callee.payload⟩ }) s f hle
    dsimp only at ha
    generalize s.alloc _ = r, (s.refit f).alloc _ = r' at ha
    cases ha with
    | @same a t tell htell ht =>
      cases a with
      | error e => exact .same tell htell ht
      | ok created => cases c.method? s.initializer <;> exact .same tell htell ht
    | full hlt hf =>
      obtain ⟨e, full, rfl, hs⟩ := hf
      exact .full hlt ⟨e, full, rfl, hs⟩

theorem prepareCall (callee : Word) (count : Nat) : Fits NoRoom (·.prepareCall callee count) := by
  intro s f hle
  dsimp only
  unfold Store.prepareCall
  rw [show (s.refit f).heap.deref? callee = s.heap.deref? callee from rfl]
  split
  · exact .keeps rfl
  · exact .keeps rfl
  · exact .keeps rfl
  · exact prepareConstruction callee _ count s f hle
  · exact .keeps rfl

theorem getProperty (object : Word) (name : Symbol) (site : Nat) :
    Fits NoRoom (·.getProperty object name site) := by
  intro s f hle
  have hm : ∀ sites : Array Site, SameKinds (sites.modify site .miss) sites :=
    fun sites => .modify sites site fun _ => rfl
  unfold Store.getProperty
  dsimp only
  rw [show ((s.refit f).modifySite site .miss).heap.instance? object =
      (s.modifySite site .miss).heap.instance? object from rfl]
  split
  · exact .same (·.modify site .miss) hm rfl
  · next i _ =>
    rw [show ((s.refit f).modifySite site .miss).shapes = (s.modifySite site .miss).shapes from rfl,
      show ((s.refit f).modifySite site .miss).heap.class? i.classHandle =
        (s.modifySite site .miss).heap.class? i.classHandle from rfl]
    split
    · next slot _ =>
      refine .same (fun sites => (sites.modify site .miss).modify site (·.refresh i.shape slot))
        (fun sites => ?_) rfl
      exact (SameKinds.modify _ site (·.refresh_kind _ _)).trans (hm sites)
    · split
      · exact (alloc _ (s.modifySite site .miss) { f with sites := f.sites.modify site .miss }
          hle).told hm id
      · exact .same (·.modify site .miss) hm rfl

theorem setProperty (object : Word) (name : Symbol) (w : Word) (site : Nat) :
    Fits NoRoom (·.setProperty object name w site) := by
  intro s f _
  have hm : ∀ sites : Array Site, SameKinds (sites.modify site .miss) sites :=
    fun sites => .modify sites site fun _ => rfl
  dsimp only
  unfold Store.setProperty
  rw [show (s.refit f).heap.instance? object = s.heap.instance? object from rfl,
    show (s.refit f).shapes = s.shapes from rfl]
  split
  · exact .keeps rfl
  · dsimp only
    split
    · refine .same (fun sites => (sites.modify site .miss).modify site (·.refresh _ _))
        (fun sites => ?_) rfl
      exact (SameKinds.modify _ site (·.refresh_kind _ _)).trans (hm sites)
    · exact .same (·.modify site .miss) hm rfl

end Fits

def Failure.isLimit : Failure → Bool
  | .heap _ | .stackOverflow => true
  | _ => false

def Store.Exhausts (s s' : Store) : Prop :=
  s.error = none → (∃ e, s'.error = some e ∧ e.isLimit = true) ∧ s'.printed = s.printed

theorem Store.exhausts_raise {full : Store} (herr : full.error = s.error)
    (hprt : full.printed = s.printed) {e : Failure} (hlim : e.isLimit = true) :
    s.Exhausts (full.raise e) :=
  fun he => ⟨⟨e, by simp [raise, herr, he], hlim⟩, hprt⟩

abbrev Serves {α : Type} (routine : Store → α × Store) : Prop :=
  Fits (fun s r => s.Exhausts r.2) routine

namespace Serves

theorem report {op : Store → Except Failure Word × Store} (h : Fits NoRoom op) :
    Serves fun s => Serve.report (op s) := by
  intro s f hle
  have hop := h s f hle
  dsimp only
  generalize op s = r, op (s.refit f) = r' at hop
  cases hop with
  | @same a t tell htell ht => cases a <;> exact .same tell htell ht
  | full hlt hf =>
    obtain ⟨e, full, rfl, herr, hprt⟩ := hf
    exact .full hlt (Store.exhausts_raise herr hprt rfl)

theorem print (w : Word) : Serves (Serve.print w) := by
  refine .steady fun s f => ?_
  unfold Serve.print Store.print
  rw [show (s.refit f).muted = s.muted from rfl]
  split <;> rfl

theorem binary (op : BinaryOp) (left right : Word) : Serves (Serve.binary op left right) :=
  report (.binary op left right)

theorem negate (w : Word) : Serves (Serve.negate w) :=
  @report (fun s => (Store.negate w, s)) (.steady fun _ _ => rfl)

theorem valuesEqual (left right : Word) : Serves (Serve.valuesEqual left right) :=
  .steady fun _ _ => rfl

theorem globalGet (slot : Nat) : Serves (Serve.globalGet slot) :=
  @report (fun s => (s.getGlobal slot, s)) (.steady fun _ _ => rfl)

theorem globalSet (slot : Nat) (w : Word) : Serves (Serve.globalSet slot w) := by
  refine report (.steady fun s f => ?_)
  unfold Store.setGlobal
  rw [show (s.refit f).slotValue? slot = s.slotValue? slot from rfl]
  split <;> rfl

theorem globalDefine (slot : Nat) (w : Word) : Serves (Serve.globalDefine slot w) :=
  .steady fun _ _ => rfl

theorem newCell (w : Word) : Serves (Serve.newCell w) := report (.alloc _)

theorem cellGet (c : Word) : Serves (Serve.cellGet c) := .steady fun _ _ => rfl

theorem cellSet (c w : Word) : Serves (Serve.cellSet c w) := by
  refine .steady fun s f => ?_
  unfold Serve.cellSet Store.setCell Heap.setCell
  rw [show (s.refit f).heap.deref? c = s.heap.deref? c from rfl]
  split <;> rfl

theorem makeClosure (proto : Nat) (entry : Entry) (cells : Array Word) :
    Serves (Serve.makeClosure proto entry cells) := report (.makeClosure proto entry cells)

theorem newClass (name : Symbol) (sup : Option Word) :
    Serves (Serve.newClass name sup) := report (.newClass name sup)

theorem addMethod (w : Word) (name : Symbol) (method : Word) :
    Serves (Serve.addMethod w name method) := by
  refine .steady fun s f => ?_
  unfold Serve.addMethod Store.addMethod
  cases w.toHandle? with
  | error e => rfl
  | ok h =>
    dsimp only
    unfold Heap.addMethod
    rw [show (s.refit f).heap.class? h = s.heap.class? h from rfl]
    split <;> rfl

theorem getSuper (sup receiver : Word) (name : Symbol) :
    Serves (Serve.getSuper sup receiver name) := report (.getSuper sup receiver name)

theorem getProperty (object : Word) (name : Symbol) (site : Nat) :
    Serves (Serve.getProperty object name site) := report (.getProperty object name site)

theorem setProperty (object : Word) (name : Symbol) (w : Word) (site : Nat) :
    Serves (Serve.setProperty object name w site) := report (.setProperty object name w site)

theorem prepareCall (callee : Word) (count : Nat) : Serves (Serve.prepareCall callee count) := by
  intro s f hle
  have hop := Fits.prepareCall callee count s f hle
  dsimp only at hop
  unfold Serve.prepareCall
  generalize s.prepareCall _ _ = r, (s.refit f).prepareCall _ _ = r' at hop
  cases hop with
  | @same a t tell htell ht => cases a <;> exact .same tell htell ht
  | full hlt hf =>
    obtain ⟨e, full, rfl, herr, hprt⟩ := hf
    exact .full hlt (Store.exhausts_raise herr hprt rfl)

end Serves

namespace Fits

theorem intern (name : String) : Fits (fun _ _ => False) (·.intern name) := .steady fun _ _ => rfl

theorem addPrototype (name : String) (arity : Nat) :
    Fits (fun _ _ => False) (·.addPrototype name arity) :=
  .steady fun _ _ => rfl

theorem globalSlot (name : String) : Fits (fun _ _ => False) (·.globalSlot name) := by
  refine .steady fun s f => ?_
  unfold Store.globalSlot
  dsimp only
  rw [show ((s.refit f).intern name).2.globalSlot? ((s.refit f).intern name).1 =
      (s.intern name).2.globalSlot? (s.intern name).1 from rfl]
  cases (s.intern name).2.globalSlot? (s.intern name).1 <;> rfl

end Fits

end ScriptMachine
