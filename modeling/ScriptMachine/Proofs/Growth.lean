/-
ScriptMachine.Proofs.Growth — how the state of lowering grows.
-/
import ScriptMachine.Proofs.Mentions

namespace ScriptMachine

variable {l l' : Lowering}

namespace Lower

variable {α β : Type} {l l' m : Lowering} {u : Unit}

theorem bind_eq_ok {x : Lower α} {f : α → Lower β} {b : β} :
    (x >>= f) l = .ok b l' ↔ ∃ a m, x l = .ok a m ∧ f a m = .ok b l' := by
  show EStateM.bind x f l = _ ↔ _
  unfold EStateM.bind
  cases h : x l with
  | ok a m =>
    constructor
    · intro hf
      exact ⟨a, m, rfl, hf⟩
    · rintro ⟨_, _, heq, hf⟩
      cases heq
      exact hf
  | error e m => simp

variable {a : α}

theorem bind_of_ok {x : Lower α} (h : x l = .ok a m) (f : α → Lower β) : (x >>= f) l = f a m := by
  show EStateM.bind x f l = _
  rw [EStateM.bind, h]

@[simp] theorem pure_eq_ok {b : α} : (pure a : Lower α) l = .ok b l' ↔ a = b ∧ l = l' := by
  show EStateM.Result.ok a l = .ok b l' ↔ _
  simp

@[simp] theorem get_eq_ok : (get : Lower Lowering) l = .ok m l' ↔ l = m ∧ l = l' := by
  show EStateM.Result.ok l l = .ok m l' ↔ _
  simp

@[simp] theorem modify_eq_ok {f : Lowering → Lowering} :
    (modify f : Lower Unit) l = .ok u l' ↔ f l = l' := by
  show EStateM.Result.ok () (f l) = .ok u l' ↔ _
  simp

@[simp] theorem modifyGet_eq_ok {f : Lowering → α × Lowering} :
    (modifyGet f : Lower α) l = .ok a l' ↔ f l = (a, l') := by
  show EStateM.modifyGet f l = .ok a l' ↔ _
  unfold EStateM.modifyGet
  cases f l
  simp

@[simp] theorem throw_eq_ok {e : CompileError} : ¬(throw e : Lower α) l = .ok a l' := by
  show ¬EStateM.Result.error e l = .ok a l'
  simp

theorem onStore_eq_ok {f : Store → α × Store} :
    onStore f l = .ok a l' ↔ a = (f l.store).1 ∧ l' = { l with store := (f l.store).2 } := by
  rw [onStore, modifyGet_eq_ok]
  simp [eq_comm]

theorem onScopes_eq_ok {f : Scopes → Scopes} :
    onScopes f l = .ok u l' ↔ l' = { l with scopes := f l.scopes } := by
  rw [onScopes, modify_eq_ok, eq_comm]

end Lower

/-- The variable a local has in its frame. -/
def Storage.index : Storage → Nat
  | .direct index => index
  | .boxed index => index

abbrev Scopes.Opens (scopes : Scopes) (key : Key) : Prop :=
  ∃ scope ∈ scopes.stack, ∃ name, (name, key) ∈ scope.entries

def Scopes.Declares (scopes : Scopes) (key : Key) : Prop :=
  ∃ scope ∈ scopes.stack, scope.frame ≠ scopes.frame ∧ ∃ name, (name, key) ∈ scope.entries

structure Lowering.Tidy (l : Lowering) : Prop where
  keys : ∀ {k b}, l.bindings.get? k = some b → k < l.scopes.nextKey
  bound : ∀ scope ∈ l.scopes.stack, ∀ {name k}, (name, k) ∈ scope.entries →
    ∃ storage, l.bindings.get? k = some ⟨scope.frame, storage⟩
  top : ∀ {scope rest}, l.scopes.stack = scope :: rest → scope.frame = l.scopes.frame
  frame_lt : l.scopes.frame < l.scopes.nextFrame
  scopes_lt : ∀ scope ∈ l.scopes.stack, scope.frame < l.scopes.nextFrame
  bindings_lt : ∀ {k b}, l.bindings.get? k = some b → b.frame < l.scopes.nextFrame
  locals_lt : ∀ {k storage}, l.bindings.get? k = some ⟨l.scopes.frame, storage⟩ →
    storage.index < l.current.locals
  injective : ∀ {k k' frame storage storage'}, l.bindings.get? k = some ⟨frame, storage⟩ →
    l.bindings.get? k' = some ⟨frame, storage'⟩ → storage.index = storage'.index → k = k'
  upvalues : ∀ k ∈ l.current.upvalues, l.scopes.Declares k
  definitions : ∀ d ∈ l.unit.definitions, d.declaration < l.unit.declarations.size
  result : l.current.kind = .script → 0 < l.current.locals

structure FunctionState.Grows (f f' : FunctionState) : Prop where
  kind : f'.kind = f.kind
  upvalues : f.upvalues <+: f'.upvalues
  locals : f.locals ≤ f'.locals

theorem FunctionState.Grows.refl (f : FunctionState) : f.Grows f :=
  ⟨rfl, List.prefix_rfl, Nat.le_refl _⟩

theorem FunctionState.Grows.trans {a b c : FunctionState} (h : a.Grows b) (h' : b.Grows c) :
    a.Grows c :=
  ⟨h'.kind.trans h.kind, h.upvalues.trans h'.upvalues, Nat.le_trans h.locals h'.locals⟩

structure Lowering.Grows (l l' : Lowering) : Prop where
  store : l.store.Prepares l'.store
  bindings : ∀ {k b}, l.bindings.get? k = some b → l'.bindings.get? k = some b
  own : ∀ {k storage}, l'.bindings.get? k = some ⟨l.scopes.frame, storage⟩ →
    l.bindings.get? k = some ⟨l.scopes.frame, storage⟩ ∨ l.current.locals ≤ storage.index
  others : ∀ {k b}, l'.bindings.get? k = some b → b.frame ≠ l.scopes.frame →
    b.frame < l.scopes.nextFrame → l.bindings.get? k = some b
  bodies : ∀ {d}, d < l.unit.declarations.size → l'.unit.body? d = l.unit.body? d
  declarations : l.unit.declarations.size ≤ l'.unit.declarations.size
  captured : l'.captured = l.captured
  frame : l'.scopes.frame = l.scopes.frame
  nextFrame : l.scopes.nextFrame ≤ l'.scopes.nextFrame
  nextKey : l.scopes.nextKey ≤ l'.scopes.nextKey
  current : l.current.Grows l'.current

theorem Lowering.Grows.refl (l : Lowering) : l.Grows l where
  store := .refl _
  bindings h := h
  own h := .inl h
  others h _ _ := h
  bodies _ := rfl
  declarations := Nat.le_refl _
  captured := rfl
  frame := rfl
  nextFrame := Nat.le_refl _
  nextKey := Nat.le_refl _
  current := .refl _

theorem Lowering.Grows.trans {a b c : Lowering} (h : a.Grows b) (h' : b.Grows c) : a.Grows c where
  store := h.store.trans h'.store
  bindings hk := h'.bindings (h.bindings hk)
  own hk := by
    rcases h'.own (h.frame ▸ hk) with hb | hb
    · exact h.own (h.frame ▸ hb)
    · exact .inr (Nat.le_trans h.current.locals hb)
  others hk hne hlt := by
    have hb := h'.others hk (h.frame ▸ hne) (Nat.lt_of_lt_of_le hlt h.nextFrame)
    exact h.others hb hne hlt
  bodies hd := (h'.bodies (Nat.lt_of_lt_of_le hd h.declarations)).trans (h.bodies hd)
  declarations := Nat.le_trans h.declarations h'.declarations
  captured := h'.captured.trans h.captured
  frame := h'.frame.trans h.frame
  nextFrame := Nat.le_trans h.nextFrame h'.nextFrame
  nextKey := Nat.le_trans h.nextKey h'.nextKey
  current := h.current.trans h'.current

/-- The tables lowering a program ends with, and the name each site is
an access to. -/
structure Final where
  store : Store
  unit : CodeUnit
  bindings : Table Key Binding
  site : Nat → Symbol

structure Lowering.Below (l : Lowering) (sites : Nat → Symbol) (G : Final) (F : FunctionState) :
    Prop where
  store : l.store.Prepares G.store
  bindings : ∀ {k b}, l.bindings.get? k = some b → G.bindings.get? k = some b
  own : ∀ {k storage}, G.bindings.get? k = some ⟨l.scopes.frame, storage⟩ →
    l.bindings.get? k = some ⟨l.scopes.frame, storage⟩ ∨ l.current.locals ≤ storage.index
  closed : ∀ {k b}, G.bindings.get? k = some b → l.scopes.frame < b.frame →
    b.frame < l.scopes.nextFrame → l.bindings.get? k = some b
  bodies : ∀ {d b}, l.unit.body? d = some b → G.unit.body? d = some b
  current : l.current.Grows F
  sites : ∀ {k}, k < l.store.sites.size → G.site k = sites k

theorem Lowering.Grows.body (h : l.Grows l') (ht : l.Tidy) {d : Nat} {b : Body}
    (hb : l.unit.body? d = some b) : l'.unit.body? d = some b := by
  have hd : d < l.unit.declarations.size := by
    simp only [CodeUnit.body?, Option.map_eq_some_iff] at hb
    obtain ⟨x, hx, _⟩ := hb
    have hmem := Array.mem_of_find?_eq_some hx
    have hp := Array.find?_some hx
    simp only [decide_eq_true_eq] at hp
    exact hp ▸ ht.definitions x hmem
  rw [h.bodies hd, hb]

theorem Lowering.Below.of_grows {sites sites' : Nat → Symbol} {G : Final} {F : FunctionState}
    (h : l.Grows l') (ht : l.Tidy) (hs : ∀ k < l.store.sites.size, sites' k = sites k)
    (hb : l'.Below sites' G F) :
    l.Below sites G F where
  store := h.store.trans hb.store
  bindings hk := hb.bindings (h.bindings hk)
  own hk := by
    rcases hb.own (h.frame ▸ hk) with hk | hk
    · exact h.own (h.frame ▸ hk)
    · exact .inr (Nat.le_trans h.current.locals hk)
  closed hk hlt hlt' := by
    have hk' := hb.closed hk (h.frame ▸ hlt) (Nat.lt_of_lt_of_le hlt' h.nextFrame)
    exact h.others hk' (Nat.ne_of_gt hlt) hlt'
  bodies hd := hb.bodies (h.body ht hd)
  current := h.current.trans hb.current
  sites hk := (hb.sites (Nat.lt_of_lt_of_le hk h.store.sites_size_le)).trans (hs _ hk)

structure Yields (l l' : Lowering) (mentions : List Mention)
    (P : Final → FunctionState → Prop) : Prop where
  tidy : l'.Tidy
  grows : l.Grows l'
  store : l'.store = l.store.mentionAll mentions
  holds : ∀ sites : Nat → Symbol, ∃ sites' : Nat → Symbol,
    (∀ k < l.store.sites.size, sites' k = sites k) ∧
      ∀ {G F}, l'.Below sites' G F → P G F

namespace Yields

variable {l m l' : Lowering} {ms ns : List Mention} {P Q : Final → FunctionState → Prop}

theorem mono (h : Yields l l' ms P) (hpq : ∀ {G F}, P G F → Q G F) : Yields l l' ms Q :=
  { h with
    holds := fun sites => by
      obtain ⟨sites', hs, hp⟩ := h.holds sites
      exact ⟨sites', hs, fun hb => hpq (hp hb)⟩ }

theorem seq (h : Yields l m ms P) (h' : Yields m l' ns Q) :
    Yields l l' (ms ++ ns) fun G F => P G F ∧ Q G F where
  tidy := h'.tidy
  grows := h.grows.trans h'.grows
  store := by rw [h'.store, h.store, Store.mentionAll_append]
  holds sites := by
    obtain ⟨s1, hs1, hp⟩ := h.holds sites
    obtain ⟨s2, hs2, hq⟩ := h'.holds s1
    refine ⟨s2, ?_, ?_⟩
    · intro k hk
      rw [hs2 k (Nat.lt_of_lt_of_le hk h.grows.store.sites_size_le), hs1 k hk]
    · intro G F hb
      exact ⟨hp (.of_grows h'.grows h.tidy hs2 hb), hq hb⟩

theorem of_below (ht : l'.Tidy) (hg : l.Grows l') (hs : l'.store = l.store.mentionAll ms)
    (hp : ∀ {sites G F}, l'.Below sites G F → P G F) : Yields l l' ms P where
  tidy := ht
  grows := hg
  store := hs
  holds sites := ⟨sites, fun _ _ => rfl, hp⟩

theorem refl (ht : l.Tidy) : Yields l l [] fun _ _ => True :=
  of_below ht (.refl l) rfl fun _ => trivial

end Yields

structure Lowering.Quiet (l l' : Lowering) : Prop where
  store : l'.store = l.store
  scopes : l'.scopes = l.scopes
  bindings : l'.bindings = l.bindings
  captured : l'.captured = l.captured
  definitions : l'.unit.definitions = l.unit.definitions
  declarations : l.unit.declarations.size ≤ l'.unit.declarations.size
  kind : l'.current.kind = l.current.kind
  upvalues : l'.current.upvalues = l.current.upvalues
  locals : l'.current.locals = l.current.locals

namespace Lowering.Quiet

variable {l l' l'' : Lowering}

theorem refl (l : Lowering) : l.Quiet l :=
  ⟨rfl, rfl, rfl, rfl, rfl, Nat.le_refl _, rfl, rfl, rfl⟩

variable (h : l.Quiet l')

include h

theorem trans (h' : l'.Quiet l'') : l.Quiet l'' :=
  ⟨h'.store.trans h.store, h'.scopes.trans h.scopes, h'.bindings.trans h.bindings,
    h'.captured.trans h.captured, h'.definitions.trans h.definitions,
    Nat.le_trans h.declarations h'.declarations, h'.kind.trans h.kind,
    h'.upvalues.trans h.upvalues, h'.locals.trans h.locals⟩

theorem body? (d : Nat) : l'.unit.body? d = l.unit.body? d := by
  simp [CodeUnit.body?, h.definitions]

theorem tidy (ht : l.Tidy) : l'.Tidy := by
  obtain ⟨_, _, _, _, _, _, _, _⟩ := l'
  obtain ⟨rfl, rfl, rfl, rfl, hdefs, hdecls, hkind, hups, hloc⟩ := h
  exact
    { ht with
      locals_lt := fun hk => Nat.lt_of_lt_of_eq (ht.locals_lt hk) hloc.symm
      upvalues := fun k hk => ht.upvalues k (hups ▸ hk)
      definitions := fun d hd => Nat.lt_of_lt_of_le (ht.definitions d (hdefs ▸ hd)) hdecls
      result := fun hk => Nat.lt_of_lt_of_eq (ht.result (hkind ▸ hk)) hloc.symm }

theorem grows : l.Grows l' where
  store := h.store ▸ .refl _
  bindings hk := h.bindings ▸ hk
  own hk := .inl (h.bindings ▸ hk)
  others hk _ _ := h.bindings ▸ hk
  bodies _ := h.body? _
  declarations := h.declarations
  captured := h.captured
  frame := by rw [h.scopes]
  nextFrame := Nat.le_of_eq (by rw [h.scopes])
  nextKey := Nat.le_of_eq (by rw [h.scopes])
  current := ⟨h.kind, h.upvalues ▸ List.prefix_rfl, Nat.le_of_eq h.locals.symm⟩

theorem yields (ht : l.Tidy) : Yields l l' [] fun _ _ => True :=
  .of_below (h.tidy ht) h.grows h.store fun _ => trivial

end Lowering.Quiet

namespace Lower

variable {l l' : Lowering} {u : Unit} {service : Service}

theorem refer_quiet {declaration : Nat} (h : refer declaration l = .ok u l') : l.Quiet l' := by
  rw [refer, onCurrent, modify_eq_ok] at h
  subst h
  refine ⟨rfl, rfl, rfl, rfl, rfl, Nat.le_refl _, ?_, ?_, ?_⟩ <;> dsimp only <;> split <;> rfl

theorem declare_quiet {d : Declaration} {n : Nat} (h : declare d l = .ok n l') :
    n = l.unit.declarations.size ∧ l.Quiet l' ∧
      l'.unit.declarations.size = l.unit.declarations.size + 1 ∧ l'.current = l.current := by
  rw [declare, modifyGet_eq_ok] at h
  obtain ⟨rfl, rfl⟩ := h
  refine ⟨rfl, ⟨rfl, rfl, rfl, rfl, rfl, ?_, rfl, rfl, rfl⟩, ?_, rfl⟩ <;> simp

theorem use_quiet (h : use service l = .ok u l') : l.Quiet l' := by
  simp only [use, bind_eq_ok, get_eq_ok] at h
  obtain ⟨_, _, ⟨rfl, rfl⟩, h⟩ := h
  cases hi : l.imports.get? service with
  | some declaration =>
    simp only [hi] at h
    exact refer_quiet h
  | none =>
    simp only [hi, bind_eq_ok, modify_eq_ok] at h
    obtain ⟨n, m, hd, _, _, rfl, hr⟩ := h
    obtain ⟨_, hq, _⟩ := declare_quiet hd
    refine (hq.trans ?_).trans (refer_quiet hr)
    exact ⟨rfl, rfl, rfl, rfl, rfl, Nat.le_refl _, rfl, rfl, rfl⟩

theorem useIf_quiet {c : Bool} (h : useIf c service l = .ok u l') : l.Quiet l' := by
  unfold useIf at h
  split at h
  · exact use_quiet h
  · rw [pure_eq_ok] at h
    exact h.2 ▸ .refl l

theorem use_ok (service : Service) (l : Lowering) :
    ∃ m, use service l = .ok () m ∧ l.Quiet m := by
  have hok : ∃ m, use service l = .ok () m := by
    rw [use, bind_of_ok (get_eq_ok.mpr ⟨rfl, rfl⟩)]
    cases l.imports.get? service with
    | some declaration => exact ⟨_, rfl⟩
    | none => exact ⟨_, rfl⟩
  obtain ⟨m, hm⟩ := hok
  exact ⟨m, hm, use_quiet hm⟩

theorem useIf_ok (c : Bool) (service : Service) (l : Lowering) :
    ∃ m, useIf c service l = .ok () m ∧ l.Quiet m := by
  cases c with
  | false => exact ⟨l, rfl, .refl l⟩
  | true => exact use_ok service l

theorem store_yields (ht : l.Tidy) (m : Mention) {store : Store} (hs : store = l.store.mention m) :
    Yields l { l with store := store } [m] fun G _ => store.Prepares G.store := by
  subst hs
  refine .of_below ?_ ?_ rfl fun hb => hb.store
  · exact { ht with }
  · exact { Lowering.Grows.refl l with store := l.store.prepares_mention m }

theorem newVariable_yields (ht : l.Tidy) {index : Nat} (h : newVariable l = .ok index l') :
    index = l.current.locals ∧ l'.scopes = l.scopes ∧ l'.bindings = l.bindings ∧
      l'.captured = l.captured ∧ l'.current.kind = l.current.kind ∧
      Yields l l' [] fun G F => index < F.locals ∧ ∀ {k storage},
        G.bindings.get? k = some ⟨l.scopes.frame, storage⟩ → storage.index ≠ index := by
  rw [newVariable, modifyGet_eq_ok] at h
  obtain ⟨rfl, rfl⟩ := h
  refine ⟨rfl, rfl, rfl, rfl, rfl, .of_below ?_ ?_ rfl ?_⟩
  · exact
      { ht with
        locals_lt := fun hk => Nat.lt_succ_of_lt (ht.locals_lt hk)
        result := fun _ => Nat.succ_pos _ }
  · exact { Lowering.Grows.refl l with current := ⟨rfl, List.prefix_rfl, Nat.le_succ _⟩ }
  · intro sites G F hb
    refine ⟨Nat.lt_of_lt_of_le (Nat.lt_succ_self _) hb.current.locals, fun hk => ?_⟩
    rcases hb.own hk with hk | hk
    · exact Nat.ne_of_lt (ht.locals_lt hk)
    · exact Nat.ne_of_gt hk

end Lower

end ScriptMachine
