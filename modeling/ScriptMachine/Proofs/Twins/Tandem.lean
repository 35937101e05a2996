/-
ScriptMachine.Proofs.Twins.Tandem — one tree lowered twice, in tandem.
-/
import ScriptMachine.Proofs.Twins.Code

namespace ScriptMachine

structure Tandem where
  keys : Nat
  frames : Nat
  places : Nat
  bound : Key
  stores : Store → Store → Prop
  tight : Prop
  tight' : Prop
  mention : ∀ {s s' : Store} {k : Mention}, k.text? = none → stores s s' →
    stores (s.mention k) (s'.mention k)
  text : ∀ {s s' : Store} (text : String), stores s s' →
    (stores (s.internText text).2 (s'.internText text).2 ∧
      ((∃ w w', (s.internText text).1 = .ok w ∧ (s'.internText text).1 = .ok w') ∨
        ∃ e, (s.internText text).1 = .error e ∧ (s'.internText text).1 = .error e)) ∨
    (tight ∧ ∃ e, (s.internText text).1 = .error e) ∨
    (tight' ∧ ∃ e, (s'.internText text).1 = .error e)

namespace Tandem

variable (T : Tandem) {frame : Nat} {sc : Scopes} {l l' m m' : Lowering}

def frameOf (frame : Nat) : Nat := if frame = 0 then 0 else frame + T.frames

def placeOf (frame i : Nat) : Nat := if frame = 0 ∧ i ≠ 0 then i + T.places else i

def storageOf (frame : Nat) : Storage → Storage
  | .direct i => .direct (T.placeOf frame i)
  | .boxed i => .boxed (T.placeOf frame i)

def bindingAt (b : Binding) : Binding := ⟨T.frameOf b.frame, T.storageOf b.frame b.storage⟩

def scopeOf (scope : Scope) : Scope :=
  ⟨T.frameOf scope.frame, scope.entries.map fun entry => (entry.1, entry.2 + T.keys)⟩

def scopesOf (scs : Scopes) : Scopes :=
  ⟨scs.stack.map T.scopeOf, T.frameOf scs.frame, scs.nextFrame + T.frames, scs.nextKey + T.keys⟩

def errorOf : CompileError → CompileError
  | .captureMismatch key => .captureMismatch (key + T.keys)
  | e => e

variable {T}

theorem frameOf_inj {a b : Nat} : T.frameOf a = T.frameOf b ↔ a = b := by
  unfold frameOf
  split <;> split <;> omega

theorem frameOf_of_ne (h : frame ≠ 0) : T.frameOf frame = frame + T.frames :=
  if_neg h

theorem placeOf_of_ne (h : frame ≠ 0) (i : Nat) : T.placeOf frame i = i :=
  if_neg fun hf => h hf.1

@[simp] theorem scopesOf_atTop (scs : Scopes) : (T.scopesOf scs).atTop = scs.atTop := by
  simp [scopesOf, Scopes.atTop]

theorem scopesOf_push (scs : Scopes) : (T.scopesOf scs).push = T.scopesOf scs.push := rfl

theorem scopesOf_pop (scs : Scopes) : (T.scopesOf scs).pop = T.scopesOf scs.pop := by
  simp [scopesOf, Scopes.pop]

theorem scopesOf_declare (scs : Scopes) (name : String) :
    (T.scopesOf scs).declare name = T.scopesOf (scs.declare name) := by
  obtain ⟨stack, frame, nextFrame, nextKey⟩ := scs
  cases stack with
  | nil => rfl
  | cons scope rest => simp [scopesOf, scopeOf, Scopes.declare, Nat.add_right_comm]

theorem scopesOf_enter {scs : Scopes} (h : scs.frame < scs.nextFrame) :
    (T.scopesOf scs).enter = T.scopesOf scs.enter := by
  have hne : scs.nextFrame ≠ 0 := by omega
  simp [scopesOf, Scopes.enter, frameOf_of_ne hne, Nat.add_right_comm]

theorem scopesOf_backTo (scs : Scopes) (frame : Nat) :
    (T.scopesOf scs).backTo (T.frameOf frame) = T.scopesOf (scs.backTo frame) := rfl

theorem lookup_shifted (entries : List (String × Key)) (name : String) (n : Nat) :
    (entries.map fun entry => (entry.1, entry.2 + n)).lookup name =
      (entries.lookup name).map (· + n) := by
  induction entries with
  | nil => rfl
  | cons entry rest ih =>
    obtain ⟨other, key⟩ := entry
    simp only [List.map_cons, List.lookup_cons]
    split
    · rfl
    · exact ih

theorem resolve_scopesOf (scs : Scopes) (name : String) (depth : UInt64) :
    (T.scopesOf scs).resolve name depth =
      (scs.resolve name depth).map (Option.map fun d =>
        ⟨T.frameOf d.frame, d.key + T.keys⟩) := by
  unfold Scopes.resolve
  split
  · rfl
  · simp only [scopesOf, List.getElem?_map, Except.map]
    cases scs.stack[depth.toNat]? with
    | none => rfl
    | some scope =>
      simp only [Option.map_some, Option.bind_eq_bind, Option.bind_some, scopeOf, lookup_shifted]
      cases scope.entries.lookup name <;> rfl

structure Twins (T : Tandem) (l l' : Lowering) : Prop where
  tidy : l.Tidy
  tidy' : l'.Tidy
  store : T.stores l.store l'.store
  scopes : l'.scopes = T.scopesOf l.scopes
  bindings : ∀ k, l'.bindings.get? (k + T.keys) = (l.bindings.get? k).map T.bindingAt
  captured : ∀ k < T.bound, l'.captured.contains (k + T.keys) = l.captured.contains k
  kind : l'.current.kind = l.current.kind
  script : l.scopes.frame = 0 → l.current.kind = .script
  upvalues : l'.current.upvalues = l.current.upvalues.map (· + T.keys)
  locals : l'.current.locals = l.current.locals + if l.scopes.frame = 0 then T.places else 0
  unbound : ∀ {k storage}, l.bindings.get? k = some ⟨0, storage⟩ → 0 < storage.index

structure At (T : Tandem) (sc : Scopes) (l l' : Lowering) : Prop extends T.Twins l l' where
  opened : l.scopes = sc

theorem At.atTop (h : T.At sc l l') : l'.scopes.atTop = sc.atTop := by
  rw [h.scopes, scopesOf_atTop, h.opened]

theorem At.nextKey (h : T.At sc l l') : l'.scopes.nextKey = sc.nextKey + T.keys := by
  rw [h.scopes, h.opened]
  rfl

structure Toward (T : Tandem) (l l' : Lowering) (E : Setting) : Prop where
  first : l.store.Later E.pair.first
  second : l'.store.Later E.pair.second
  bodies : ∀ {d b}, l.unit.body? d = some b → E.unit.body? d = some b
  bodies' : ∀ {d b}, l'.unit.body? d = some b → E.unit'.body? d = some b
  place : ∀ {i}, i < E.view.total → E.view.place i = T.placeOf l.scopes.frame i
  least : E.view.least ≤ if l.scopes.frame = 0 then 1 else 0
  total : l.current.locals ≤ E.view.total

theorem Toward.of_grows {E : Setting} (hg : l.Grows m) (hg' : l'.Grows m') (ht : l.Tidy)
    (ht' : l'.Tidy) (h : T.Toward m m' E) : T.Toward l l' E where
  first := hg.store.later.trans h.first
  second := hg'.store.later.trans h.second
  bodies hb := h.bodies (hg.body ht hb)
  bodies' hb := h.bodies' (hg'.body ht' hb)
  place := hg.frame ▸ h.place
  least := hg.frame ▸ h.least
  total := Nat.le_trans hg.current.locals h.total

structure Together (T : Tandem) (l l' m m' : Lowering) (sc : Scopes) (X : Setting → Prop) :
    Prop where
  twins : T.Twins m m'
  grows : l.Grows m
  grows' : l'.Grows m'
  scopes : m.scopes = sc
  ends : ∀ {E}, T.Toward m m' E → X E

namespace Together

variable {l l' m m' n n' : Lowering} {sc sc' : Scopes} {X Y : Setting → Prop}

theorem mono (h : T.Together l l' m m' sc X) (hxy : ∀ {E}, X E → Y E) : T.Together l l' m m' sc Y :=
  { h with ends := fun hE => hxy (h.ends hE) }

theorem seq (h : T.Together l l' m m' sc X) (h' : T.Together m m' n n' sc' Y) :
    T.Together l l' n n' sc' fun E => X E ∧ Y E where
  twins := h'.twins
  grows := h.grows.trans h'.grows
  grows' := h.grows'.trans h'.grows'
  scopes := h'.scopes
  ends hE := ⟨h.ends (.of_grows h'.grows h'.grows' h.twins.tidy h.twins.tidy' hE), h'.ends hE⟩

theorem refl (h : T.At sc l l') : T.Together l l' l l' sc fun _ => True :=
  ⟨h.toTwins, .refl l, .refl l', h.opened, fun _ => trivial⟩

theorem here (h : T.Together l l' m m' sc X) : T.At sc m m' := ⟨h.twins, h.scopes⟩

end Together

inductive Meets (T : Tandem) {α β : Type} (Q : α → Lowering → β → Lowering → Prop) :
    EStateM.Result CompileError Lowering α → EStateM.Result CompileError Lowering β → Prop
  | ok {a : α} {m : Lowering} {a' : β} {m' : Lowering} : Q a m a' m' →
      Meets T Q (.ok a m) (.ok a' m')
  | error {e : CompileError} {m m' : Lowering} : T.stores m.store m'.store →
      Meets T Q (.error e m) (.error (T.errorOf e) m')
  | first {e : HeapError} {m : Lowering} {r' : EStateM.Result CompileError Lowering β} : T.tight →
      Meets T Q (.error (.heap e) m) r'
  | second {e : HeapError} {m' : Lowering} {r : EStateM.Result CompileError Lowering α} : T.tight' →
      Meets T Q r (.error (.heap e) m')

namespace Meets

variable {α β γ δ : Type} {l l' : Lowering} {Q : α → Lowering → β → Lowering → Prop}

theorem bind {x : Lower α} {x' : Lower β} {f : α → Lower γ} {f' : β → Lower δ}
    {Q' : γ → Lowering → δ → Lowering → Prop}
    (h : T.Meets Q (x l) (x' l'))
    (hf : ∀ {a m a' m'}, Q a m a' m' → T.Meets Q' (f a m) (f' a' m')) :
    T.Meets Q' ((x >>= f) l) ((x' >>= f') l') := by
  show T.Meets Q' (EStateM.bind x f l) (EStateM.bind x' f' l')
  unfold EStateM.bind
  generalize x l = r, x' l' = r' at h
  cases h with
  | ok hq => exact hf hq
  | error hs => exact .error hs
  | first ht => exact .first ht
  | second ht =>
    cases r with
    | ok a m => exact .second ht
    | error e m => exact .second ht

theorem mono {r : EStateM.Result CompileError Lowering α}
    {r' : EStateM.Result CompileError Lowering β} {Q' : α → Lowering → β → Lowering → Prop}
    (h : T.Meets Q r r') (hq : ∀ {a m a' m'}, Q a m a' m' → Q' a m a' m') : T.Meets Q' r r' := by
  cases h with
  | ok h => exact .ok (hq h)
  | error hs => exact .error hs
  | first ht => exact .first ht
  | second ht => exact .second ht

theorem noting {r : EStateM.Result CompileError Lowering α}
    {r' : EStateM.Result CompileError Lowering β} (h : T.Meets Q r r') :
    T.Meets (fun a m a' m' => (r = .ok a m ∧ r' = .ok a' m') ∧ Q a m a' m') r r' := by
  cases h with
  | ok h => exact .ok ⟨⟨rfl, rfl⟩, h⟩
  | error hs => exact .error hs
  | first ht => exact .first ht
  | second ht => exact .second ht

theorem pure {a : α} {a' : β} (h : Q a l a' l') :
    T.Meets Q ((Pure.pure a : Lower α) l) ((Pure.pure a' : Lower β) l') := .ok h

theorem get_bind {f : Lowering → Lower α} {f' : Lowering → Lower β}
    (h : T.Meets Q (f l l) (f' l' l')) :
    T.Meets Q (((get : Lower Lowering) >>= f) l) (((get : Lower Lowering) >>= f') l') := h

theorem throw {e : CompileError} (h : T.stores l.store l'.store) (he : T.errorOf e = e) :
    T.Meets Q ((MonadExcept.throw e : Lower α) l) ((MonadExcept.throw e : Lower β) l') := by
  have : T.Meets Q (.error e l) (.error (T.errorOf e) l') := .error h
  rwa [he] at this

end Meets

def Steps (T : Tandem) {α β : Type} (l l' : Lowering) (sc : Scopes) (X : Setting → α → β → Prop)
    (x : Lower α) (x' : Lower β) : Prop :=
  T.Meets (fun a m a' m' => T.Together l l' m m' sc fun E => X E a a') (x l) (x' l')

theorem Steps.after {α β : Type} {sc' : Scopes} {X : Setting → Prop} {Y : Setting → α → β → Prop}
    {x : Lower α} {x' : Lower β} (h : T.Steps m m' sc' Y x x') (hb : T.Together l l' m m' sc X) :
    T.Meets (fun a n a' n' => T.Together l l' n n' sc' fun E => X E ∧ Y E a a') (x m) (x' m') :=
  h.mono hb.seq

open Lower

variable {T : Tandem} {l l' m m' n n' : Lowering} {sc : Scopes} {X : Setting → Prop} {E : Setting}
  {value value' : Code} {key : Key}

theorem Twins.quiet (h : T.Twins l l') (hq : l.Quiet m) (hq' : l'.Quiet m') : T.Twins m m' where
  tidy := hq.tidy h.tidy
  tidy' := hq'.tidy h.tidy'
  store := by
    rw [hq.store, hq'.store]
    exact h.store
  scopes := by
    rw [hq.scopes, hq'.scopes]
    exact h.scopes
  bindings := by
    rw [hq.bindings, hq'.bindings]
    exact h.bindings
  captured := by
    rw [hq.captured, hq'.captured]
    exact h.captured
  kind := by
    rw [hq.kind, hq'.kind]
    exact h.kind
  script := by
    rw [hq.scopes, hq.kind]
    exact h.script
  upvalues := by
    rw [hq.upvalues, hq'.upvalues]
    exact h.upvalues
  locals := by
    rw [hq.locals, hq'.locals, hq.scopes]
    exact h.locals
  unbound := by
    rw [hq.bindings]
    exact h.unbound

theorem Together.quiet (h : T.Together l l' m m' sc X) (hq : m.Quiet n) (hq' : m'.Quiet n') :
    T.Together l l' n n' sc X where
  twins := h.twins.quiet hq hq'
  grows := h.grows.trans hq.grows
  grows' := h.grows'.trans hq'.grows
  scopes := hq.scopes.trans h.scopes
  ends hE := h.ends (.of_grows hq.grows hq'.grows h.twins.tidy h.twins.tidy' hE)

theorem use_meets (service : Service) (h : T.Together l l' m m' sc X) :
    T.Meets (fun _ n _ n' => T.Together l l' n n' sc X) (use service m) (use service m') := by
  obtain ⟨n, hn, hq⟩ := use_ok service m
  obtain ⟨n', hn', hq'⟩ := use_ok service m'
  rw [hn, hn']
  exact .ok (h.quiet hq hq')

theorem refer_meets (d d' : Nat) (h : T.Together l l' m m' sc X) :
    T.Meets (fun _ n _ n' => T.Together l l' n n' sc X) (refer d m) (refer d' m') :=
  .ok (h.quiet (refer_quiet rfl) (refer_quiet rfl))

theorem mention_meets {α : Type} {f : Store → α × Store} {k : Mention} {X : Setting → α → α → Prop}
    (hk : k.text? = none) (hf : ∀ s, (f s).2 = s.mention k) (h : T.At sc l l')
    (hX : ∀ {E : Setting}, (f l.store).2.Later E.pair.first → (f l'.store).2.Later E.pair.second →
      X E (f l.store).1 (f l'.store).1) :
    T.Steps l l' sc X (onStore f) (onStore f) := by
  have hy := store_yields h.tidy k (hf l.store)
  have hy' := store_yields h.tidy' k (hf l'.store)
  have hs : T.stores (f l.store).2 (f l'.store).2 := by
    rw [hf, hf]
    exact T.mention hk h.store
  exact .ok
    ⟨{ h with tidy := hy.tidy, tidy' := hy'.tidy, store := hs }, hy.grows, hy'.grows, h.opened,
    fun hE => hX hE.first hE.second⟩

theorem name_meets (name : String) (h : T.At sc l l') :
    T.Steps l l' sc (·.pair.Symbols) (onStore (·.intern name)) (onStore (·.intern name)) :=
  mention_meets (k := .name name) rfl (fun _ => rfl) h fun hfst hsnd =>
    ⟨name, hfst.names.find (l.store.names.find?_intern name),
      hsnd.names.find (l'.store.names.find?_intern name)⟩

theorem globalSlot_meets (name : String) (h : T.At sc l l') :
    T.Steps l l' sc (·.pair.Globals) (onStore (·.globalSlot name)) (onStore (·.globalSlot name)) :=
  mention_meets (k := .global name) rfl (fun _ => rfl) h fun hfst hsnd =>
    ⟨name, hfst.slotOf? (slotOf?_globalSlot l.store name),
      hsnd.slotOf? (slotOf?_globalSlot l'.store name)⟩

theorem addSite_meets (kind : SiteKind) (h : T.At sc l l') :
    T.Steps l l' sc (fun _ _ _ => True) (onStore (·.addSite kind)) (onStore (·.addSite kind)) :=
  mention_meets (k := .site kind) rfl (fun _ => rfl) h
    fun _ _ => trivial

theorem addPrototype_meets (name : String) (arity : Nat) (h : T.At sc l l') :
    T.Steps l l' sc (·.pair.Prototypes) (onStore (·.addPrototype name arity))
      (onStore (·.addPrototype name arity)) := by
  refine mention_meets (k := .prototype name arity) rfl (fun _ => rfl) h fun {E} hfst hsnd => ?_
  have hl : ∀ s : Store, (s.addPrototype name arity).2.prototypes[(s.addPrototype name arity).1]? =
      some ⟨(s.intern name).1, arity⟩ := by
    intro s
    simp [Store.addPrototype]
  refine ⟨_, _, hfst.prototypes (hl _), hsnd.prototypes (hl _), ⟨name, ?_, ?_⟩, rfl⟩
  · exact hfst.names.find (l.store.names.find?_intern name)
  · exact hsnd.names.find (l'.store.names.find?_intern name)

theorem literal_meets (value : Literal) (h : T.At sc l l') :
    T.Steps l l' sc Setting.Codes (literal value) (literal value) := by
  have hc : ∀ w : Word, w.Atomic → T.Together l l' l l' sc fun E =>
      E.Codes (.constant w) (.constant w) := fun w hw =>
        (Together.refl h).mono fun _ => .constant hw
  cases value with
  | nil => exact .pure (hc _ (.inr (.inl rfl)))
  | bool b => exact .pure (hc _ (.inr (.inr ⟨b, rfl⟩)))
  | number bits => exact .pure (hc _ (.inl (.of_number bits)))
  | text text =>
    have hy := store_yields h.tidy (.text text) rfl
    have hy' := store_yields h.tidy' (.text text) rfl
    rw [Steps, literal_text, literal_text]
    rcases T.text text h.store with ⟨hs, ⟨w, w', hw, hw'⟩ | ⟨e, he, he'⟩⟩ | ⟨ht, e,
      he⟩ | ⟨ht, e, he⟩
    · rw [hw, hw']
      refine .ok
        ⟨{ h with tidy := hy.tidy, tidy' := hy'.tidy, store := hs }, hy.grows, hy'.grows, h.opened,
        fun hE => ?_⟩
      obtain ⟨i, hi, rfl⟩ := interned_of_internText hw
      obtain ⟨i', hi', rfl⟩ := interned_of_internText hw'
      exact .text ⟨text, hE.first.interned hi, hE.second.interned hi'⟩
    · rw [he, he']
      exact .error hs
    · rw [he]
      exact .first ht
    · rw [he]
      exact .second ht

theorem Toward.place_locals (h : T.Twins l l') (hE : T.Toward l l' E)
    (hlt : l.current.locals < E.view.total) : E.view.Reads l.current.locals l'.current.locals := by
  have hres : l.scopes.frame = 0 → 0 < l.current.locals := fun hf => h.tidy.result (h.script hf)
  have hl := hE.least
  refine ⟨?_, ?_, hlt⟩
  · rw [hE.place hlt, h.locals, placeOf]
    split <;> split <;> omega
  · split at hl <;> omega

theorem newVariable_meets (h : T.At sc l l') :
    T.Steps l l' sc (·.view.Reads) newVariable newVariable := by
  have hv : ∀ l : Lowering, newVariable l = .ok l.current.locals
      { l with current := { l.current with locals := l.current.locals + 1 } } := fun _ => rfl
  obtain ⟨_, _, _, _, _, hy⟩ := newVariable_yields h.tidy (hv l)
  obtain ⟨_, _, _, _, _, hy'⟩ := newVariable_yields h.tidy' (hv l')
  refine .ok
    ⟨{ h with tidy := hy.tidy, tidy' := hy'.tidy, locals := ?_ }, hy.grows, hy'.grows, h.opened, ?_⟩
  · show l'.current.locals + 1 = l.current.locals + 1 + _
    rw [h.locals, Nat.add_right_comm]
  · intro E hE
    have ht : l.current.locals + 1 ≤ E.view.total := hE.total
    exact Toward.place_locals h.toTwins (.of_grows hy.grows hy'.grows h.tidy h.tidy' hE) ht

theorem Twins.nextStorage_eq (h : T.Twins l l') (hkey : l.scopes.nextKey < T.bound) :
    nextStorage l' = T.storageOf l.scopes.frame (nextStorage l) := by
  have hres : l.scopes.frame = 0 → 0 < l.current.locals := fun hf => h.tidy.result (h.script hf)
  have hloc : l'.current.locals = T.placeOf l.scopes.frame l.current.locals := by
    rw [h.locals, placeOf]
    split <;> split <;> omega
  unfold nextStorage
  rw [h.scopes, show (T.scopesOf l.scopes).nextKey = l.scopes.nextKey + T.keys from rfl,
    h.captured _ hkey, hloc]
  split <;> rfl

theorem Twins.declared {name : String} (h : T.Twins l l') (hne : l.scopes.atTop = false)
    (hkey : l.scopes.nextKey < T.bound) : T.Twins (l.declared name) (l'.declared name) := by
  have hne' : l'.scopes.atTop = false := by rw [h.scopes, scopesOf_atTop, hne]
  refine
    { h with
      tidy := h.tidy.declared hne, tidy' := h.tidy'.declared hne', scopes := ?scopes
      bindings := ?bindings, script := ?script, locals := ?locals, unbound := ?unbound }
  case scopes =>
    show l'.scopes.declare name = _
    rw [h.scopes, scopesOf_declare]
    rfl
  case bindings =>
    intro k
    rw [Lowering.declared_get?, Lowering.declared_get?, h.scopes]
    show (if l.scopes.nextKey + T.keys = k + T.keys then _ else _) = _
    by_cases hk : l.scopes.nextKey = k
    · rw [if_pos (by rw [hk]), if_pos hk, h.nextStorage_eq hkey]
      rfl
    · rw [if_neg fun heq => hk (Nat.add_right_cancel heq), if_neg hk]
      exact h.bindings k
  case script =>
    rw [Lowering.declared_frame]
    exact h.script
  case locals =>
    show l'.current.locals + 1 = l.current.locals + 1 + _
    rw [Lowering.declared_frame, h.locals, Nat.add_right_comm]
  case unbound =>
    intro k storage hk
    rcases Lowering.of_declared_get? hk with hk | ⟨_, heq⟩
    · exact h.unbound hk
    · obtain ⟨hf, rfl⟩ := Binding.mk.inj heq
      rw [nextStorage_index]
      exact h.tidy.result (h.script hf.symm)

theorem declareLocal_meets {name : String} (h : T.At sc l l') (hne : sc.atTop = false)
    (hkey : sc.nextKey < T.bound) :
    T.Steps l l' (sc.declare name)
      (fun E i i' => ∀ leaves, E.Codes value value' → E.Instrs leaves i i')
      (declareLocal name value) (declareLocal name value') := by
  obtain rfl := h.opened
  obtain ⟨m, hm, hq⟩ := declareLocal_ok name value l
  obtain ⟨m', hm', hq'⟩ := declareLocal_ok name value' l'
  rw [Steps, hm, hm']
  refine .ok (Together.quiet ⟨h.declared hne hkey, h.tidy.grows_declared, h.tidy'.grows_declared,
    rfl, ?_⟩ hq hq')
  intro E hE leaves hval
  have hlt : l.current.locals < E.view.total := hE.total
  obtain ⟨hp, _, _⟩ := Toward.place_locals h.toTwins
    (.of_grows h.tidy.grows_declared h.tidy'.grows_declared h.tidy h.tidy' hE) hlt
  refine .evaluate (.assignVariable ⟨hp, hlt⟩ ?_)
  rw [h.nextStorage_eq hkey]
  cases nextStorage l with
  | direct index => exact hval
  | boxed index => exact .newCell hval

theorem resolve?_meets (name : String) (depth : UInt64) (h : T.At sc l l') :
    T.Meets (fun a m a' m' => (l = m ∧ l' = m') ∧ a' = a.map (· + T.keys) ∧
        ∀ {key}, a = some key → sc.Opens key)
      (resolve? name depth l) (resolve? name depth l') := by
  refine .get_bind ?_
  rw [h.scopes, resolve_scopesOf]
  cases hr : l.scopes.resolve name depth with
  | ok d =>
    refine .pure ⟨⟨rfl, rfl⟩, ?_, ?_⟩
    · cases d <;> rfl
    · intro key hkey
      obtain ⟨⟨frame, _⟩, rfl, rfl⟩ := Option.map_eq_some_iff.mp hkey
      exact h.opened ▸ (resolve_declared h.tidy hr).1
  | error e =>
    obtain rfl : e = .depthOverflow := by
      unfold Scopes.resolve at hr
      split at hr
      · exact (Except.error.inj hr).symm
      · cases hr
    exact .throw h.store rfl

theorem bindingOf_meets (h : T.At sc l l') (hopen : sc.Opens key) :
    T.Meets (fun b m b' m' => (l = m ∧ l' = m') ∧ l.bindings.get? key = some b ∧ b' = T.bindingAt b)
      (bindingOf key l) (bindingOf (key + T.keys) l') := by
  obtain ⟨scope, hmem, name, hent⟩ := hopen
  obtain ⟨storage, hb⟩ := h.tidy.bound scope (h.opened ▸ hmem) hent
  refine .get_bind ?_
  rw [h.bindings, hb]
  exact .pure ⟨⟨rfl, rfl⟩, rfl, rfl⟩

theorem idxOf?_shifted (keys : List Key) (key : Key) (n : Nat) :
    (keys.map (· + n)).idxOf? (key + n) = keys.idxOf? key := by
  induction keys with
  | nil => rfl
  | cons other rest ih => simp [List.idxOf?_cons, ih]

theorem declares_scopesOf {scs : Scopes} (h : scs.Declares key) :
    (T.scopesOf scs).Declares (key + T.keys) := by
  obtain ⟨scope, hmem, hfr, name, hent⟩ := h
  exact ⟨T.scopeOf scope, List.mem_map_of_mem hmem, fun heq => hfr (frameOf_inj.mp heq), name,
    List.mem_map.mpr ⟨(name, key), hent, rfl⟩⟩

theorem upvalue_of_none (h : l.current.upvalues.idxOf? key = none) :
    upvalue key l = .ok l.current.upvalues.length
      { l with current := { l.current with upvalues := l.current.upvalues ++ [key] } } := by
  rw [upvalue, bind_of_ok (get_eq_ok.mpr ⟨rfl, rfl⟩), h]
  rfl

theorem upvalue_meets (h : T.At sc l l') (hd : l.scopes.Declares key) :
    T.Steps l l' sc (fun _ i i' => i' = i) (upvalue key) (upvalue (key + T.keys)) := by
  have hi' : l'.current.upvalues.idxOf? (key + T.keys) = l.current.upvalues.idxOf? key := by
    rw [h.upvalues, idxOf?_shifted]
  cases hi : l.current.upvalues.idxOf? key with
  | some i =>
    refine .get_bind ?_
    rw [hi', hi]
    exact .pure ((Together.refl h).mono fun _ => rfl)
  | none =>
    have hup := upvalue_of_none hi
    have hup' := upvalue_of_none (hi'.trans hi)
    have hy := upvalue_yields h.tidy hd hup
    have hy' := upvalue_yields h.tidy' (h.scopes ▸ declares_scopesOf hd) hup'
    rw [Steps, hup, hup']
    refine .ok
      ⟨{ h with tidy := hy.tidy, tidy' := hy'.tidy, upvalues := ?_ }, hy.grows, hy'.grows, h.opened,
      fun _ => ?_⟩
    · simp [h.upvalues]
    · simp [h.upvalues]

theorem Toward.reads (h : T.Twins l l') (hE : T.Toward l l' E) {storage : Storage}
    (hb : l.bindings.get? key = some ⟨l.scopes.frame, storage⟩) :
    E.view.Reads storage.index (T.placeOf l.scopes.frame storage.index) := by
  have hlt : storage.index < E.view.total :=
    Nat.lt_of_lt_of_le (h.tidy.locals_lt hb) hE.total
  have hpos : l.scopes.frame = 0 → 0 < storage.index := fun hf => h.unbound (hf ▸ hb)
  have hl := hE.least
  refine ⟨(hE.place hlt).symm, ?_, hlt⟩
  split at hl <;> omega

theorem cellOf_meets (h : T.At sc l l') (hopen : sc.Opens key) :
    T.Steps l l' sc (·.view.Cells) (cellOf key) (cellOf (key + T.keys)) := by
  obtain rfl := h.opened
  refine (bindingOf_meets h hopen).bind ?_
  rintro ⟨frame, storage⟩ _ _ _ ⟨⟨rfl, rfl⟩, hb, rfl⟩
  cases storage with
  | direct index => exact .error h.store
  | boxed index =>
    refine .get_bind ?_
    have hfr : T.frameOf frame = l'.scopes.frame ↔ frame = l.scopes.frame := by
      rw [h.scopes]
      exact frameOf_inj
    by_cases hf : frame = l.scopes.frame
    · have hf' : (T.bindingAt ⟨frame, .boxed index⟩).frame = l'.scopes.frame := hfr.mpr hf
      rw [if_pos hf, if_pos hf']
      subst hf
      exact .pure ⟨h.toTwins, .refl l, .refl l', rfl, fun hE => .own (hE.reads h.toTwins hb)⟩
    · have hf' : (T.bindingAt ⟨frame, .boxed index⟩).frame ≠ l'.scopes.frame :=
        fun heq => hf (hfr.mp heq)
      rw [if_neg hf, if_neg hf']
      have hd : l.scopes.Declares key := by
        obtain ⟨scope, hmem, name, hent⟩ := hopen
        obtain ⟨storage, hs⟩ := h.tidy.bound scope hmem hent
        refine ⟨scope, hmem, fun heq => hf ?_, name, hent⟩
        rw [hb] at hs
        exact (congrArg Binding.frame (Option.some.inj hs)).trans heq
      refine (upvalue_meets h hd).bind fun hu => ?_
      refine (use_meets .closureCell hu).bind fun hu => ?_
      exact .pure (hu.mono fun heq => heq ▸ .captured _)

theorem cellsOf_meets {keys : List Key} (h : T.At sc l l') (hopen : ∀ key ∈ keys, sc.Opens key) :
    T.Steps l l' sc (fun E cs cs' => List.Forall₂ E.view.Cells cs cs') (cellsOf keys)
      (cellsOf (keys.map (· + T.keys))) := by
  induction keys generalizing l l' with
  | nil => exact .pure ((Together.refl h).mono fun _ => .nil)
  | cons key keys ih =>
    refine (cellOf_meets h (hopen key List.mem_cons_self)).bind fun hc => ?_
    have hr := fun k hk => hopen k (List.mem_cons_of_mem key hk)
    refine (Steps.after (ih hc.here hr) hc).bind fun hcs => ?_
    exact .pure (hcs.mono fun hp => .cons hp.1 hp.2)

section

variable (h : T.At sc l l') (hopen : sc.Opens key)

include h hopen

theorem ownVariable?_meets :
    T.Meets (fun a m a' m' => (l = m ∧ l' = m') ∧ a' = a.map (T.placeOf l.scopes.frame) ∧
        ∀ {i}, a = some i → l.bindings.get? key = some ⟨l.scopes.frame, .direct i⟩)
      (ownVariable? key l) (ownVariable? (key + T.keys) l') := by
  refine (bindingOf_meets h hopen).bind ?_
  rintro ⟨frame, storage⟩ _ _ _ ⟨⟨rfl, rfl⟩, hb, rfl⟩
  cases storage with
  | boxed index => exact .pure ⟨⟨rfl, rfl⟩, rfl, nofun⟩
  | direct index =>
    refine .get_bind (.pure ⟨⟨rfl, rfl⟩, ?_, ?_⟩)
    · have hfr : (T.bindingAt ⟨frame, .direct index⟩).frame = l'.scopes.frame ↔
          frame = l.scopes.frame := by
        rw [h.scopes]
        exact frameOf_inj
      by_cases hf : frame = l.scopes.frame
      · rw [if_pos hf, if_pos (hfr.mpr hf), hf]
        rfl
      · rw [if_neg hf, if_neg fun heq => hf (hfr.mp heq)]
        rfl
    · intro i hi
      split at hi
      · next hf =>
        cases hi
        exact hf ▸ hb
      · cases hi

theorem readKey_meets : T.Steps l l' sc Setting.Codes (readKey key) (readKey (key + T.keys)) := by
  refine (ownVariable?_meets h hopen).bind ?_
  rintro found _ _ _ ⟨⟨rfl, rfl⟩, rfl, hown⟩
  cases found with
  | some index =>
    exact .pure ⟨h.toTwins, .refl l, .refl l', h.opened,
      fun hE => .readVariable (hE.reads h.toTwins (hown rfl))⟩
  | none =>
    refine (cellOf_meets h hopen).bind fun hc => ?_
    refine (use_meets .cellGet hc).bind fun hu => ?_
    exact .pure (hu.mono .readCell)

theorem assignKey_meets :
    T.Steps l l' sc (fun E c c' => E.Codes value value' → E.Codes c c') (assignKey key value)
      (assignKey (key + T.keys) value') := by
  refine (ownVariable?_meets h hopen).bind ?_
  rintro found _ _ _ ⟨⟨rfl, rfl⟩, rfl, hown⟩
  cases found with
  | some index =>
    refine .pure ⟨h.toTwins, .refl l, .refl l', h.opened, fun hE => .assignVariable ?_⟩
    obtain ⟨hp, _, hlt⟩ := hE.reads h.toTwins (hown rfl)
    exact ⟨hp, hlt⟩
  | none =>
    refine (cellOf_meets h hopen).bind fun hc => ?_
    refine (use_meets .cellSet hc).bind fun hu => ?_
    exact .pure (hu.mono .assignCell)

end

theorem read_meets (name : Ident) (target : Resolution) (h : T.At sc l l') :
    T.Steps l l' sc Setting.Codes (read name target) (read name target) := by
  cases target with
  | global =>
    refine (globalSlot_meets name.name h).bind fun hs => ?_
    refine (use_meets .globalGet hs).bind fun hu => ?_
    exact .pure (hu.mono .readGlobal)
  | scope depth =>
    refine (resolve?_meets name.name depth h).bind ?_
    rintro found _ _ _ ⟨⟨rfl, rfl⟩, rfl, hopen⟩
    cases found with
    | none => exact .throw h.store rfl
    | some key => exact readKey_meets h (hopen rfl)

theorem assign_meets (name : Ident) (target : Resolution) (h : T.At sc l l') :
    T.Steps l l' sc (fun E c c' => E.Codes value value' → E.Codes c c') (assign name value target)
      (assign name value' target) := by
  cases target with
  | global =>
    refine (globalSlot_meets name.name h).bind fun hs => ?_
    refine (use_meets .globalSet hs).bind fun hu => ?_
    exact .pure (hu.mono .assignGlobal)
  | scope depth =>
    refine (resolve?_meets name.name depth h).bind ?_
    rintro found _ _ _ ⟨⟨rfl, rfl⟩, rfl, hopen⟩
    cases found with
    | none => exact .throw h.store rfl
    | some key => exact assignKey_meets h (hopen rfl)

theorem readImplicit_meets (keyword : Ident) (name : String) (depth : UInt64) (h : T.At sc l l') :
    T.Steps l l' sc Setting.Codes (readImplicit keyword name depth)
      (readImplicit keyword name depth) := by
  refine (resolve?_meets name depth h).bind ?_
  rintro found _ _ _ ⟨⟨rfl, rfl⟩, rfl, hopen⟩
  cases found with
  | none => exact .throw h.store rfl
  | some key => exact readKey_meets h (hopen rfl)

theorem super_meets (keyword : Ident) (method : String) (target : Resolution) (h : T.At sc l l') :
    T.Steps l l' sc Setting.Codes (super keyword method target) (super keyword method target) := by
  cases target with
  | global => exact .throw h.store rfl
  | scope depth =>
    rw [super]
    by_cases hd : depth = 0
    · rw [if_pos hd]
      exact .throw h.store rfl
    · rw [if_neg hd]
      refine (readImplicit_meets keyword "super" depth h).bind fun hs => ?_
      refine ((readImplicit_meets keyword "this" (depth - 1) hs.here).after hs).bind
        fun ht => ?_
      refine ((name_meets method ht.here).after ht).bind fun hn => ?_
      refine (use_meets .getSuper hn).bind fun hu => ?_
      exact .pure (hu.mono fun hp => .getSuper hp.1.1 hp.1.2 hp.2)

theorem checkCount_meets {count : Nat} {e : CompileError} (h : T.Twins l l')
    (he : T.errorOf e = e) :
    T.Meets (fun _ m _ m' => l = m ∧ l' = m') (checkCount count e l) (checkCount count e l') := by
  unfold checkCount
  split
  · exact .throw h.store he
  · exact .pure ⟨rfl, rfl⟩

mutual

theorem expr_meets : ∀ (e : Expr) {l l' : Lowering} {sc : Scopes}, T.At sc l l' →
    T.Steps l l' sc Setting.Codes (expr e) (expr e)
  | .literal value, _, _, _, h => literal_meets value h
  | .group inner, _, _, _, h => expr_meets inner h
  | .unary .negate operand, _, _, _, h => by
    refine (expr_meets operand h).bind fun ho => ?_
    refine (use_meets .negate ho).bind fun hu => ?_
    exact .pure (hu.mono .negate)
  | .unary .not operand, _, _, _, h => by
    refine (expr_meets operand h).bind fun ho => ?_
    exact .pure (ho.mono .not)
  | .binary op left right, _, _, _, h => by
    refine (expr_meets left h).bind fun hl => ?_
    refine ((expr_meets right hl.here).after hl).bind fun hr => ?_
    refine (use_meets (operatorService op) hr).bind fun hu => ?_
    exact .pure (hu.mono fun hp => .binary op hp.1 hp.2)
  | .logical op left right, _, _, _, h => by
    refine (expr_meets left h).bind fun hl => ?_
    refine ((expr_meets right hl.here).after hl).bind fun hr => ?_
    exact .pure (hr.mono fun hp => .logical op hp.1 hp.2)
  | .read name target, _, _, _, h => read_meets name target h
  | .assign name target value, _, _, _, h => by
    refine (expr_meets value h).bind fun hv => ?_
    exact ((assign_meets name target hv.here).after hv).mono
      fun ha => ha.mono fun hp => hp.2 hp.1
  | .call callee arguments line, _, _, _, h => by
    refine (checkCount_meets h.toTwins rfl).bind ?_
    rintro _ _ _ _ ⟨rfl, rfl⟩
    refine (expr_meets callee h).bind fun hc => ?_
    refine ((exprs_meets arguments hc.here).after hc).bind fun ha => ?_
    refine (use_meets .prepareCall ha).bind fun hu => ?_
    exact .pure (hu.mono fun hp => .call hp.1 hp.2)
  | .get object name, _, _, _, h => by
    refine (expr_meets object h).bind fun ho => ?_
    refine ((addSite_meets .get ho.here).after ho).bind fun hs => ?_
    refine ((name_meets name hs.here).after hs).bind fun hn => ?_
    refine (use_meets .getProperty hn).bind fun hu => ?_
    exact .pure (hu.mono fun hp => .getProperty _ _ hp.1.1 hp.2)
  | .set object name value, _, _, _, h => by
    refine (expr_meets object h).bind fun ho => ?_
    refine ((expr_meets value ho.here).after ho).bind fun hv => ?_
    refine ((addSite_meets .set hv.here).after hv).bind fun hs => ?_
    refine ((name_meets name hs.here).after hs).bind fun hn => ?_
    refine (use_meets .setProperty hn).bind fun hu => ?_
    exact .pure (hu.mono fun hp => .setProperty _ _ hp.1.1.1 hp.2 hp.1.1.2)
  | .self keyword (.scope depth), _, _, _, h => readImplicit_meets keyword "this" depth h
  | .self _ .global, _, _, _, h => .throw h.store rfl
  | .super keyword method target, _, _, _, h => super_meets keyword method target h

theorem exprs_meets : ∀ (es : List Expr) {l l' : Lowering} {sc : Scopes}, T.At sc l l' →
      T.Steps l l' sc Setting.CodeLists (exprs es) (exprs es)
  | [], _, _, _, h => .pure ((Together.refl h).mono fun _ => .nil)
  | e :: rest, _, _, _, h => by
    refine (expr_meets e h).bind fun he => ?_
    refine ((exprs_meets rest he.here).after he).bind fun hr => ?_
    exact .pure (hr.mono fun hp => .cons hp.1 hp.2)

end

end Tandem

end ScriptMachine
