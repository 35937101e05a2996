/-
ScriptMachine.Proofs.Lexical.Frames — where the variables of environments are.
-/
import Mathlib.Data.List.Nodup
import ScriptMachine.Proofs.Lexical.Moments

namespace ScriptMachine.Lexical

variable {env : Option Nat} {es : List Nat} {e : Nat} {name : String} {w w' : Word}

/-! ## §1 Activations -/

structure Activation where
  G : Final
  F : FunctionState
  frame : Frame
  cells : Array Word
  base : Nat
  bare : Word

def Activation.frameWith (A : Activation) (locals : Array Word) : Frame :=
  { A.frame with locals := locals }

structure Placed (A : Activation) (sc : Scopes) : Prop where
  regular : sc.Regular
  top : sc.TopOwn
  binds : Binds A.G sc
  separate : Separate A.G
  unit : A.frame.unit = A.G.unit
  atTop : sc.atTop = true → A.F.kind = .script
  result : A.F.kind = .script → Lower.resultVariable < A.F.locals ∧
    ∀ {key storage}, A.G.bindings.get? key = some ⟨sc.frame, storage⟩ →
      storage.index ≠ Lower.resultVariable

/-! ## §2 Levels -/

def Kept (p : Moment) (locals : Array Word) (e : Nat) (name : String) : Storage → Prop
  | .direct index => ∃ w w', value? p.state.envs e name = some w ∧ locals[index]? = some w' ∧
      p.link.Same w w' ∧ ∀ c, ¬p.link.cell e name c
  | .boxed index => ∃ c, locals[index]? = some (.ofIndex c) ∧ p.link.cell e name c

structure Level (A : Activation) (frame : Nat) (but : Option Key) (locals : Array Word) (p : Moment)
    (scope : Scope) (e : Nat) : Prop where
  base_le : scope.frame = frame → A.base ≤ e
  declared : scope.frame = frame → ∀ {name c}, p.link.cell e name c →
    ∃ key, (name, key) ∈ scope.entries
  own : ∀ {name key storage}, (name, key) ∈ scope.entries → some key ≠ but →
    A.G.bindings.get? key = some ⟨frame, storage⟩ → Kept p locals e name storage
  outer : scope.frame ≠ frame → ∀ {name key}, (name, key) ∈ scope.entries →
    Carries p.link A.F.upvalues A.cells e name key

def Keeps (A : Activation) (frame : Nat) (locals locals' : Array Word) : Prop :=
  ∀ ⦃index : Nat⦄, (∀ {key storage}, A.G.bindings.get? key = some ⟨frame, storage⟩ →
    storage.index ≠ index) → locals'[index]? = locals[index]?

structure Holds (A : Activation) (but : Option Key) (env : Option Nat) (sc : Scopes)
    (es : List Nat) (locals : Array Word) (p : Moment) : Prop where
  chain : Chain p.state.envs env es
  length : es.length = sc.stack.length
  nodup : es.Nodup
  levels : ∀ {d e : Nat} {scope}, sc.stack[d]? = some scope → es[d]? = some e →
    Level A sc.frame but locals p scope e

section Holds

variable {A : Activation} {but : Option Key} {sc sc' : Scopes} {locals : Array Word}
  {p p' : Moment} {base : Nat} {storage : Storage} {key : Key} {scope : Scope}

theorem Kept.advance (h : Kept p locals e name storage) (he : e < p.state.envs.size)
    (ha : p.Advances p.state.envs.size p') : Kept p' locals e name storage := by
  cases storage with
  | direct index =>
    obtain ⟨w, w', hv, hl, hw, hf⟩ := h
    exact ⟨w, w', (ha.value_old he hf).trans hv, hl, hw.mono ha.object,
      fun c hc => hf c (ha.cell_old he hc)⟩
  | boxed index =>
    obtain ⟨c, hl, hc⟩ := h
    exact ⟨c, hl, ha.cell hc⟩

theorem Keeps.refl (A : Activation) (frame : Nat) (locals : Array Word) :
    Keeps A frame locals locals := fun _ _ => rfl

theorem Keeps.set {frame : Nat} (hb : A.G.bindings.get? key = some ⟨frame, storage⟩)
    (locals : Array Word) (x : Word) :
    Keeps A frame locals (locals.setIfInBounds storage.index x) := fun _ hunb =>
  Array.getElem?_setIfInBounds_ne (hunb hb)

theorem Carries.mono {L L' : Link} {upvalues : List Key} {cells : Array Word}
    (h : Carries L upvalues cells e name key)
    (hle : ∀ {e name c}, L.cell e name c → L'.cell e name c) :
    Carries L' upvalues cells e name key := by
  intro position hp
  obtain ⟨c, hc, hcell⟩ := h hp
  exact ⟨c, hc, hle hcell⟩

theorem Holds.advance (h : Holds A but env sc es locals p)
    (ha : p.Advances p.state.envs.size p') : Holds A but env sc es locals p' where
  chain := h.chain.mono ha.parents
  length := h.length
  nodup := h.nodup
  levels hd he := by
    have hl := h.levels hd he
    have hlt := h.chain.lt _ (List.mem_of_getElem? he)
    exact
      { base_le := hl.base_le
        declared := fun hf _ _ hc => hl.declared hf (ha.cell_old hlt hc)
        own := fun hm hb hbind => (hl.own hm hb hbind).advance hlt ha
        outer := fun hf _ _ hm => (hl.outer hf hm).mono ha.cell }

theorem Around.holds (h : Around p sc A.F.upvalues A.cells env es) (hr : sc.Regular)
    (hb : Binds A.G sc) (locals : Array Word) : Holds A none env sc.enter es locals p where
  chain := h.chain
  length := h.length
  nodup := h.nodup
  levels {d e scope} hd he := by
    have hmem : scope ∈ sc.stack := List.mem_of_getElem? hd
    have hfr : scope.frame ≠ sc.enter.frame := Nat.ne_of_lt (hr.frames_lt hmem)
    refine ⟨fun hf => absurd hf hfr, fun hf => absurd hf hfr, ?_, fun _ _ _ =>
      h.carries hd he⟩
    intro name key storage hm _ hbind
    obtain ⟨storage', hbind'⟩ := hb hmem hm
    rw [hbind'] at hbind
    exact absurd (congrArg Binding.frame (Option.some.inj hbind)) hfr

theorem Holds.push (h : Holds A but env sc es locals p) (hl : p.Linked)
    (hb : A.base ≤ p.state.envs.size) :
    Holds A but (some p.state.envs.size) sc.push (p.state.envs.size :: es) locals
      (p.openEnv env) := by
  have ha := h.advance (p.advances_openEnv env)
  refine ⟨.cons Array.getElem?_push_size ha.chain, congrArg (· + 1) ha.length, ?_, ?_⟩
  · exact List.nodup_cons.mpr ⟨fun hmem => Nat.lt_irrefl _ (h.chain.lt _ hmem), h.nodup⟩
  · intro d e scope hd he
    cases d with
    | succ d => exact ha.levels hd he
    | zero =>
      cases hd
      cases he
      refine ⟨fun _ => hb, ?_, fun hm => absurd hm List.not_mem_nil, fun hf => absurd rfl hf⟩
      intro _ name c hc
      exact absurd (hl.cell_lt hc).1 (Nat.lt_irrefl _)

theorem Holds.pop {env' : Option Nat} (h : Holds A but env' sc' (e :: es) locals p)
    (hc : Chain p.state.envs env es) (hs : sc'.stack = scope :: sc.stack)
    (hf : sc'.frame = sc.frame) :
    Holds A but env sc es locals p where
  chain := hc
  length := by
    have hlen := h.length
    rw [hs] at hlen
    exact Nat.succ.inj hlen
  nodup := (List.nodup_cons.mp h.nodup).2
  levels {d} _ _ hd he := by
    rw [← hf]
    refine h.levels (d := d + 1) ?_ he
    rw [hs]
    exact hd

theorem Holds.later (h : Holds A but env sc es locals p) (hs : sc'.stack = sc.stack)
    (hf : sc'.frame = sc.frame) : Holds A but env sc' es locals p where
  chain := h.chain
  length := by rw [hs, h.length]
  nodup := h.nodup
  levels hd he := by
    rw [hs] at hd
    rw [hf]
    exact h.levels hd he

theorem Holds.declare (h : Holds A none env sc es locals p) (htop : sc.TopOwn) (name : String) :
    Holds A (some sc.nextKey) env (sc.declare name) es locals p := by
  have hw : ∀ {d e : Nat} {scope}, sc.stack[d]? = some scope → es[d]? = some e →
      Level A sc.frame (some sc.nextKey) locals p scope e := fun hd he =>
    { h.levels hd he with own := fun hm _ hb => (h.levels hd he).own hm nofun hb }
  cases hs : sc.stack with
  | nil =>
    rw [Scopes.declare_of_nil name hs]
    exact ⟨h.chain, h.length, h.nodup, hw⟩
  | cons scope rest =>
    have hlen := h.length
    rw [Scopes.declare_of_cons name hs]
    rw [hs] at hlen hw
    refine ⟨h.chain, hlen, h.nodup, ?_⟩
    intro d e scope' hd he
    cases d with
    | succ d => exact hw hd he
    | zero =>
      cases hd
      have hl := hw rfl he
      refine ⟨hl.base_le, ?_, ?_, fun hf => absurd (htop hs) hf⟩
      · intro hf name' c hc
        obtain ⟨key, hm⟩ := hl.declared hf hc
        exact ⟨key, List.mem_cons_of_mem _ hm⟩
      · intro name' key storage hm hbut hb
        rcases List.mem_cons.mp hm with heq | hm
        · cases heq
          exact absurd rfl hbut
        · exact hl.own hm hbut hb

theorem Holds.update {d : Nat} {x : Word} (h : Holds A (some key) env sc es locals p)
    (hr : sc.Regular) (hsep : Separate A.G) (hd : sc.stack[d]? = some scope)
    (he : es[d]? = some e) (hm : (name, key) ∈ scope.entries)
    (hb : A.G.bindings.get? key = some ⟨sc.frame, storage⟩)
    (henvs : p'.state.envs = write p.state.envs e name w)
    (hobj : ∀ {i j}, p.link.object i j → p'.link.object i j)
    (hcell : ∀ {e name c}, p.link.cell e name c → p'.link.cell e name c)
    (hcell' : ∀ {e' name' c}, p'.link.cell e' name' c →
      p.link.cell e' name' c ∨ e' = e ∧ name' = name)
    (hk : Kept p' (locals.setIfInBounds storage.index x) e name storage) :
    Holds A none env sc es (locals.setIfInBounds storage.index x) p' where
  chain := by
    rw [henvs]
    exact h.chain.mono (.write _ _ _ _)
  length := h.length
  nodup := h.nodup
  levels {d' e' scope'} hd' he' := by
    have hlevel := h.levels hd' he'
    -- environments at different levels differ, and so do the names of one level
    have hlevel_eq : e' = e → scope' = scope := by
      rintro rfl
      obtain rfl := (List.getElem?_inj (List.getElem?_eq_some_iff.mp he').1 h.nodup).mp
        (he'.trans he.symm)
      rw [hd] at hd'
      exact (Option.some.inj hd').symm
    have hkey_eq : ∀ {key'}, (name, key') ∈ scope.entries → key' = key := by
      intro key' hm'
      have hn := hr.names _ (List.mem_map_of_mem (List.mem_of_getElem? hd))
      exact congrArg Prod.snd (List.inj_on_of_nodup_map hn hm' hm rfl)
    refine ⟨hlevel.base_le, ?_, ?_, fun hf _ _ hm' => (hlevel.outer hf hm').mono hcell⟩
    · intro hf name' c hc
      rcases hcell' hc with hc | ⟨heq, rfl⟩
      · exact hlevel.declared hf hc
      · exact ⟨key, hlevel_eq heq ▸ hm⟩
    · intro name' key' storage' hm' _ hb'
      by_cases hkey : key' = key
      · subst hkey
        obtain ⟨rfl, rfl⟩ := hr.keys hd' hd hm' hm
        rw [he] at he'
        rw [hb] at hb'
        cases he'
        cases hb'
        exact hk
      · have hidx : storage.index ≠ storage'.index :=
          fun heq => hkey (hsep hb' hb heq.symm)
        have hvar : e' = e → name' ≠ name := by
          rintro heq rfl
          exact hkey (hkey_eq (hlevel_eq heq ▸ hm'))
        have hold := hlevel.own hm' (fun heq => hkey (Option.some.inj heq)) hb'
        have hlocal : ∀ {index}, storage'.index = index →
            (locals.setIfInBounds storage.index x)[index]? = locals[index]? := by
          rintro index rfl
          rw [Array.getElem?_setIfInBounds_ne hidx]
        cases storage' with
        | direct index =>
          obtain ⟨v, v', hv, hl, hs, hfree⟩ := hold
          refine ⟨v, v', ?_, (hlocal rfl).trans hl, hs.mono hobj, ?_⟩
          · rw [henvs, value?_write_ne w hvar, hv]
          · intro c hc
            rcases hcell' hc with hc | ⟨heq, hname⟩
            · exact hfree c hc
            · exact hvar heq hname
        | boxed index =>
          obtain ⟨c, hl, hc⟩ := hold
          exact ⟨c, (hlocal rfl).trans hl, hcell hc⟩

theorem Holds.setSpare {index : Nat} (h : Holds A but env sc es locals p)
    (hunb : ∀ {key storage}, A.G.bindings.get? key = some ⟨sc.frame, storage⟩ →
      storage.index ≠ index) (x : Word) :
    Holds A but env sc es (locals.setIfInBounds index x) p where
  chain := h.chain
  length := h.length
  nodup := h.nodup
  levels hd he := by
    have hlevel := h.levels hd he
    refine ⟨hlevel.base_le, hlevel.declared, ?_, hlevel.outer⟩
    intro name key storage hm hbut hb
    have hidx := hunb hb
    have hold := hlevel.own hm hbut hb
    cases storage with
    | direct i =>
      obtain ⟨v, v', hv, hl, hs, hf⟩ := hold
      exact ⟨v, v', hv, (Array.getElem?_setIfInBounds_ne hidx.symm).trans hl, hs, hf⟩
    | boxed i =>
      obtain ⟨c, hl, hc⟩ := hold
      exact ⟨c, (Array.getElem?_setIfInBounds_ne hidx.symm).trans hl, hc⟩

end Holds

/-! ## §3 Running -/

structure Alive (A : Activation) (locals : Array Word) (last : Word) (p : Moment) : Prop where
  linked : p.Linked
  calm : p.Calm
  fits : A.G.store.Later p.store
  carried : A.cells = #[] ∨
    ∃ c, p.store.heap.deref? A.frame.closure = some (.closure c) ∧ c.cells = A.cells
  base_le : A.base ≤ p.state.envs.size
  bare : p.link.Same A.bare (if A.F.kind = .initializer then A.frame.receiver else .nil)
  size : locals.size = A.F.locals
  result : A.F.kind = .script →
    ∃ w, locals[Lower.resultVariable]? = some w ∧ p.link.Same last w

structure At (A : Activation) (env : Option Nat) (sc : Scopes) (es : List Nat)
    (locals : Array Word) (last : Word) (p : Moment) : Prop where
  placed : Placed A sc
  alive : Alive A locals last p
  holds : Holds A none env sc es locals p

section Running

variable {A : Activation} {sc sc' : Scopes} {locals : Array Word} {last x : Word}
  {p p' : Moment} {base index d : Nat} {scope : Scope} {key : Key}

theorem Store.Later.deref?_closure {s t : Store} (h : s.Later t) {c : Closure}
    (hd : s.heap.deref? w = some (.closure c)) : t.heap.deref? w = some (.closure c) := by
  unfold Heap.deref? Heap.get? at hd ⊢
  split at hd
  · split at hd
    · next hg => exact (if_pos hg).trans (h.closures hd)
    · cases hd
  · cases hd

theorem Alive.advance (h : Alive A locals last p) (ha : p.Advances base p') (hl : p'.Linked)
    (hc : p'.Calm) : Alive A locals last p' where
  linked := hl
  calm := hc
  fits := h.fits.trans ha.later
  carried := h.carried.imp_right fun ⟨c, hd, hcells⟩ =>
    ⟨c, Store.Later.deref?_closure ha.later hd, hcells⟩
  base_le := Nat.le_trans h.base_le ha.size
  bare := h.bare.mono ha.object
  size := h.size
  result hk := by
    obtain ⟨w, hw, hs⟩ := h.result hk
    exact ⟨w, hw, hs.mono ha.object⟩

theorem Alive.set (h : Alive A locals last p)
    (hne : A.F.kind = .script → index ≠ Lower.resultVariable)
    (x : Word) : Alive A (locals.setIfInBounds index x) last p :=
  { h with
    size := by rw [Array.size_setIfInBounds, h.size]
    result := fun hk => by
      rw [Array.getElem?_setIfInBounds_ne (hne hk)]
      exact h.result hk }

theorem Placed.declare {storage : Storage} (h : Placed A sc) (hd : (sc.declare name).Distinct)
    (hb : A.G.bindings.get? sc.nextKey = some ⟨sc.frame, storage⟩) :
    Placed A (sc.declare name) where
  regular := h.regular.declare name hd
  top {scope rest} hs := by
    rw [Scopes.declare_frame]
    cases hstk : sc.stack with
    | nil =>
      rw [Scopes.declare_of_nil name hstk, hstk] at hs
      cases hs
    | cons =>
      rw [Scopes.declare_of_cons name hstk] at hs
      have htop := h.top hstk
      rw [← (List.cons.inj hs).1]
      exact htop
  binds scope name' key hs hm := by
    cases hstk : sc.stack with
    | nil =>
      rw [Scopes.declare_of_nil name hstk] at hs
      exact h.binds hs hm
    | cons top rest =>
      rw [Scopes.declare_of_cons name hstk] at hs
      rcases List.mem_cons.mp hs with rfl | hs
      · rcases List.mem_cons.mp hm with heq | hm
        · cases heq
          rw [h.top hstk]
          exact ⟨storage, hb⟩
        · have htop : top ∈ sc.stack := hstk ▸ List.mem_cons_self
          have hold := h.binds htop hm
          exact hold
      · exact h.binds (hstk ▸ List.mem_cons_of_mem _ hs) hm
  separate := h.separate
  unit := h.unit
  atTop ht := h.atTop ((Scopes.Extends.declare sc name).atTop.symm.trans ht)
  result hk := by
    rw [Scopes.declare_frame]
    exact h.result hk

theorem Placed.push (h : Placed A sc) : Placed A sc.push where
  regular := h.regular.push
  top hs := by
    cases hs
    rfl
  binds scope name key hs hm := by
    rcases List.mem_cons.mp hs with rfl | hs
    · cases hm
    · exact h.binds hs hm
  separate := h.separate
  unit := h.unit
  atTop := nofun
  result := h.result

theorem Placed.later (h : Placed A sc) (hs : sc'.stack = sc.stack)
    (hf : sc'.frame = sc.frame) (hn : sc.nextFrame ≤ sc'.nextFrame)
    (hk : sc.nextKey ≤ sc'.nextKey) : Placed A sc' where
  regular := h.regular.later hs hf hn hk
  top hstk := hf ▸ h.top (hs ▸ hstk)
  binds scope name key hmem hm := h.binds (hs ▸ hmem) hm
  separate := h.separate
  unit := h.unit
  atTop ht := h.atTop (by rwa [Scopes.atTop, hs] at ht)
  result hk := by
    rw [hf]
    exact h.result hk

namespace At

section

variable (h : At A env sc es locals last p)

include h

theorem advance (ha : p.Advances p.state.envs.size p')
    (hl : p'.Linked) (hc : p'.Calm) : At A env sc es locals last p' :=
  ⟨h.placed, h.alive.advance ha hl hc, h.holds.advance ha⟩

theorem moved {L : Link} {t t' : Store} (hm : p.link.Moves L p.store t') (hs : L.Stores t t') :
    At A env sc es locals last (p.withStores L t t') :=
  h.advance (p.advances_moved hm _) (h.alive.linked.moved hm hs) (h.alive.calm.moved hm)

theorem later (hs : sc'.stack = sc.stack)
    (hf : sc'.frame = sc.frame) (hn : sc.nextFrame ≤ sc'.nextFrame)
    (hk : sc.nextKey ≤ sc'.nextKey) : At A env sc' es locals last p :=
  ⟨h.placed.later hs hf hn hk, h.alive, h.holds.later hs hf⟩

theorem isNone : env.isNone = sc.atTop := by
  rw [h.holds.chain.isNone, Scopes.atTop, Bool.eq_iff_iff, List.isEmpty_iff_length_eq_zero,
    List.isEmpty_iff_length_eq_zero, h.holds.length]

theorem top (ht : sc.atTop = false) :
    ∃ e es' scope rest, es = e :: es' ∧ env = some e ∧ sc.stack = scope :: rest := by
  have hlen := h.holds.length
  cases hs : sc.stack with
  | nil =>
    rw [Scopes.atTop, hs] at ht
    cases ht
  | cons scope rest =>
    rw [hs] at hlen
    have hc := h.holds.chain
    cases hc with
    | nil => cases hlen
    | cons => exact ⟨_, _, scope, rest, rfl, rfl, rfl⟩

theorem push : At A (some p.state.envs.size) sc.push (p.state.envs.size :: es) locals last
      (p.openEnv env) :=
  ⟨h.placed.push,
    h.alive.advance (p.advances_openEnv env) (h.alive.linked.openEnv env) h.alive.calm,
    h.holds.push h.alive.linked h.alive.base_le⟩

end

theorem pop {env' : Option Nat} (h : At A env' sc' (e :: es) locals last p)
    (hplc : Placed A sc) (hc : Chain p.state.envs env es)
    (hext : sc.push.Extends sc') : At A env sc'.pop es locals last p := by
  have hb := hext.block
  refine ⟨hplc.later hext.pop hb.frame hb.nextFrame hb.nextKey, h.alive, ?_⟩
  rcases hext.stack with ⟨hnil, _⟩ | ⟨scope, rest, more, hcons, hs⟩
  · cases hnil
  · obtain ⟨_, rfl⟩ := List.cons.inj hcons
    exact (h.holds.pop hc hs hext.frame).later hext.pop hb.frame

theorem resolve (h : At A env sc es locals last p) {depth : UInt64}
    (hr : Translate.Resolves A.G sc name depth key) : ∃ e scope storage,
      sc.stack[depth.toNat]? = some scope ∧ es[depth.toNat]? = some e ∧
        (name, key) ∈ scope.entries ∧ A.G.bindings.get? key = some ⟨scope.frame, storage⟩ := by
  obtain ⟨frame, storage, hrsv, hb⟩ := hr
  unfold Scopes.resolve at hrsv
  split at hrsv
  · cases hrsv
  · simp only [Except.ok.injEq, Option.bind_eq_bind, Option.bind_eq_some_iff, pure,
      Option.some.injEq, Declared.mk.injEq] at hrsv
    obtain ⟨scope, hs, key', hkey, rfl, rfl⟩ := hrsv
    obtain ⟨before, after, heq, _⟩ := List.lookup_eq_some_iff.mp hkey
    have hlt : depth.toNat < es.length := by
      rw [h.holds.length]
      exact (List.getElem?_eq_some_iff.mp hs).1
    exact ⟨es[depth.toNat], scope, storage, hs, List.getElem?_eq_getElem hlt, by simp [heq], hb⟩

section

variable (h : At A env sc es locals last p) (hd : sc.stack[d]? = some scope)

include h hd

theorem frame_eq {storage : Storage} {frame : Nat} (hm : (name, key) ∈ scope.entries)
    (hb : A.G.bindings.get? key = some ⟨frame, storage⟩) : scope.frame = frame := by
  obtain ⟨storage', hb'⟩ := h.placed.binds (List.mem_of_getElem? hd) hm
  rw [hb'] at hb
  exact congrArg Binding.frame (Option.some.inj hb)

variable (he : es[d]? = some e) (hm : (name, key) ∈ scope.entries)

include he hm

theorem direct (hb : A.G.bindings.get? key = some ⟨sc.frame, .direct index⟩) :
    ∃ w w', value? p.state.envs e name = some w ∧ locals[index]? = some w' ∧ p.link.Same w w' ∧
      ∀ c, ¬p.link.cell e name c :=
  (h.holds.levels hd he).own hm nofun hb

theorem cell {cell : CellRef} (hc : Translate.CellAt A.G A.F sc.frame key cell) :
    ∃ c, p.link.cell e name c ∧ ∀ {m : Machine} {host : Host}, m.store.heap = p.store.heap →
      m.frame = A.frameWith locals → host.attached = true → m.cellWord host cell = .ofIndex c := by
  obtain ⟨owner, index, hb, hc⟩ := hc
  have hlevel := h.holds.levels hd he
  rcases hc with ⟨rfl, rfl⟩ | ⟨hne, position, hpos, rfl⟩
  · obtain ⟨c, hl, hcell⟩ := hlevel.own hm nofun hb
    refine ⟨c, hcell, fun hs hf _ => ?_⟩
    simp [Machine.cellWord, Frame.value, hf, Activation.frameWith, hl]
  · have ho := h.frame_eq hd hm hb
    obtain ⟨c, hcells, hcell⟩ := hlevel.outer (ho ▸ hne) hm hpos
    refine ⟨c, hcell, fun hs hf hatt => ?_⟩
    rcases h.alive.carried with hempty | ⟨closure, hderef, hcar⟩
    · simp [hempty] at hcells
    · simp [Machine.cellWord, Machine.serve, hatt, Serve.closureCell, Store.closureCell, hs, hf,
        Activation.frameWith, hderef, hcar, hcells]

theorem assignDirect
    (hb : A.G.bindings.get? key = some ⟨sc.frame, .direct index⟩) (hw : p.link.Same w w') :
    At A env sc es (locals.setIfInBounds index w') last (p.write e name w) ∧
      p.Advances A.base (p.write e name w) := by
  obtain ⟨v, v', hv, hl, _, hf⟩ := h.direct hd he hm hb
  have hbase := (h.holds.levels hd he).base_le (h.frame_eq hd hm hb)
  have hadv := p.advances_write name w hbase
  have hbut : Holds A (some key) env sc es locals p :=
    ⟨h.holds.chain, h.holds.length, h.holds.nodup, fun hd he =>
      { h.holds.levels hd he with
        own := fun hm _ hb => (h.holds.levels hd he).own hm nofun hb }⟩
  have hidx := (Array.getElem?_eq_some_iff.mp hl).1
  refine ⟨⟨h.placed, ?_, ?_⟩, hadv⟩
  · exact (h.alive.advance hadv (h.alive.linked.write w hf) h.alive.calm).set
      (fun hk => (h.placed.result hk).2 hb) w'
  · refine hbut.update h.placed.regular h.placed.separate hd he hm hb rfl id id .inl ?_
    exact ⟨w, w', value?_write_same (lt_of_value? hv) _ _,
      Array.getElem?_setIfInBounds_self_of_lt hidx,
      hw, hf⟩

end

section

variable (h : At A env sc (e :: es) locals last p) (ht : sc.atTop = false)

include h ht

theorem free (hd : (sc.declare name).Distinct) (c : Nat) : ¬p.link.cell e name c := by
  intro hc
  obtain ⟨_, _, scope, rest, _, _, hs⟩ := h.top ht
  have hl := h.holds.levels (d := 0) (by rw [hs]; rfl) rfl
  obtain ⟨key, hm⟩ := hl.declared (h.placed.top hs) hc
  rw [Scopes.Distinct, Scopes.nest, Scopes.declare_of_cons name hs] at hd
  have hn := hd _ List.mem_cons_self
  exact (List.nodup_cons.mp hn).1 (List.mem_map.mpr ⟨_, hm, rfl⟩)

theorem declaring (name : String) : A.base ≤ e ∧ e < p.state.envs.size ∧
      ∃ scope, (sc.declare name).stack[0]? = some scope ∧ (name, sc.nextKey) ∈ scope.entries := by
  obtain ⟨_, _, scope, rest, _, _, hs⟩ := h.top ht
  have hl := h.holds.levels (d := 0) (by rw [hs]; rfl) rfl
  refine ⟨hl.base_le (h.placed.top hs), h.holds.chain.lt e List.mem_cons_self, ?_⟩
  rw [Scopes.declare_of_cons name hs]
  exact ⟨_, rfl, List.mem_cons_self⟩

theorem declareDirect (hd : (sc.declare name).Distinct)
    (hb : A.G.bindings.get? sc.nextKey = some ⟨sc.frame, .direct index⟩)
    (hlt : index < A.F.locals) (hw : p.link.Same w w') :
    At A env (sc.declare name) (e :: es) (locals.setIfInBounds index w') last
        (p.write e name w) ∧ p.Advances A.base (p.write e name w) := by
  obtain ⟨hbase, he, scope, hs, hm⟩ := h.declaring ht name
  have hf := h.free ht hd
  have hplc := h.placed.declare hd hb
  have hh := h.holds.declare h.placed.top name
  have hb' : A.G.bindings.get? sc.nextKey =
      some ⟨(sc.declare name).frame, .direct index⟩ := by rw [Scopes.declare_frame, hb]
  have hadv := p.advances_write name w hbase
  refine ⟨⟨hplc, ?_, ?_⟩, hadv⟩
  · exact (h.alive.advance hadv (h.alive.linked.write w hf) h.alive.calm).set
      (fun hk => (h.placed.result hk).2 hb) w'
  · refine hh.update hplc.regular hplc.separate hs rfl hm hb' rfl id id .inl ?_
    exact ⟨w, w', value?_write_same he _ _,
      Array.getElem?_setIfInBounds_self_of_lt (by rw [h.alive.size]; exact hlt), hw, hf⟩

theorem declareBoxed (hd : (sc.declare name).Distinct)
    (hb : A.G.bindings.get? sc.nextKey = some ⟨sc.frame, .boxed index⟩)
    (hlt : index < A.F.locals) (hw : p.link.Same w w')
    (hr : p.store.heap.size < p.store.heap.limit) : At A env (sc.declare name) (e :: es)
        (locals.setIfInBounds index (.ofIndex p.store.heap.size)) last
        (p.declareCell e name w w') ∧ p.Advances A.base (p.declareCell e name w w') := by
  obtain ⟨hbase, he, scope, hs, hm⟩ := h.declaring ht name
  have hf := h.free ht hd
  have hplc := h.placed.declare hd hb
  have hh := h.holds.declare h.placed.top name
  have hb' : A.G.bindings.get? sc.nextKey =
      some ⟨(sc.declare name).frame, .boxed index⟩ := by rw [Scopes.declare_frame, hb]
  have hadv := p.advances_declareCell name w w' hbase
  refine ⟨⟨hplc, ?_, ?_⟩, hadv⟩
  · exact (h.alive.advance hadv (h.alive.linked.declareCell he hf hw hr) h.alive.calm).set
      (fun hk => (h.placed.result hk).2 hb) _
  · refine hh.update hplc.regular hplc.separate hs rfl hm hb'
      rfl id .inl ?_ ?_
    · rintro e' name' c (hc | ⟨rfl, rfl, _⟩)
      · exact .inl hc
      · exact .inr ⟨rfl, rfl⟩
    · exact ⟨p.store.heap.size,
        Array.getElem?_setIfInBounds_self_of_lt (by rw [h.alive.size]; exact hlt),
        .inr ⟨rfl, rfl, rfl⟩⟩

end

theorem setSpare (h : At A env sc es locals last p)
    (hs : Translate.Spare A.G A.F sc.frame index) (x : Word) :
    At A env sc es (locals.setIfInBounds index x) last p :=
  ⟨h.placed, h.alive.set hs.not_result x, h.holds.setSpare hs.unbound x⟩

theorem setResult (h : At A env sc es locals last p) (hk : A.F.kind = .script)
    (hw : p.link.Same w w') :
    At A env sc es (locals.setIfInBounds Lower.resultVariable w') w p := by
  refine ⟨h.placed, ?_, h.holds.setSpare (h.placed.result hk).2 w'⟩
  refine { h.alive with
           size := by rw [Array.size_setIfInBounds, h.alive.size], result := fun _ => ?_ }
  refine ⟨w', Array.getElem?_setIfInBounds_self_of_lt ?_, hw⟩
  rw [h.alive.size]
  exact (h.placed.result hk).1

end At

end Running

end ScriptMachine.Lexical
