/-
ScriptMachine.Proofs.Twins.Programs — whole programs lowered twice.
-/
import ScriptMachine.Proofs.Twins.Mentions
import ScriptMachine.Proofs.Twins.Trees

namespace ScriptMachine

structure Lowering.Fresh (s : Store) (caps : List Key) (l : Lowering) : Prop where
  tidy : l.Tidy
  store : l.store = s
  scopes : l.scopes = {}
  bindings : l.bindings = []
  captured : l.captured = caps
  definitions : l.unit.definitions = #[]
  declarations : 0 < l.unit.declarations.size
  kind : l.current.kind = .script
  upvalues : l.current.upvalues = []
  locals : l.current.locals = 1

namespace Lower

def scriptOf (locals : Nat) (body : List Instr) : Function where
  locals := locals
  body := .evaluate (.assignVariable 0 (.constant .nil)) :: body ++ [.leave (.readVariable 0)]

def scriptUnit (l : Lowering) (body : List Instr) : CodeUnit :=
  l.unit.define ⟨0, .words 0, l.current.references.map .own,
    .lowered (scriptOf l.current.locals body)⟩

theorem scriptAfter_fresh (s : Store) (name : String) (caps : List Key) :
    ∃ l : Lowering, l.Fresh s caps ∧ ∀ program, scriptAfter program 0 (s.scriptStart name caps) =
        match stmts program l with
        | .ok body m => .ok (scriptUnit m body) m
        | .error e m => .error e m := by
  obtain ⟨m, hm, hq⟩ := use_ok .stackOverflow (s.scriptStart name caps)
  have hv : newVariable m = .ok 0 { m with current := { m.current with locals := 1 } } := by
    show EStateM.Result.ok m.current.locals
      { m with current := { m.current with locals := m.current.locals + 1 } } = _
    rw [hq.locals]
    rfl
  refine ⟨{ m with current := { m.current with locals := 1 } }, ?_, fun program => ?_⟩
  · have hd : declare ⟨name, .exported, .words 0⟩
        { store := s, unit := { name := name }, captured := caps } =
          .ok 0 (s.scriptStart name caps) := rfl
    obtain ⟨_, _, ht, hs, hsc, hb, hdefs, hpos, hk, hups, hloc⟩ := script_start hd hm hv
    exact ⟨ht, hs, hsc, hb, hq.captured, hdefs, hpos, hk, hups, hloc⟩
  · rw [scriptAfter, bind_of_ok hm, bind_of_ok hv]
    show EStateM.bind (stmts program) _ _ = _
    unfold EStateM.bind
    cases stmts program { m with current := { m.current with locals := 1 } } <;> rfl

variable {s : Store} {caps : List Key} {l m : Lowering}

theorem function?_scriptUnit (h : l.Fresh s caps) (hg : l.Grows m) (body : List Instr) :
    (scriptUnit m body).function? 0 = some (scriptOf m.current.locals body) := by
  have hn : m.unit.body? 0 = none := by
    rw [hg.bodies h.declarations]
    simp [CodeUnit.body?, h.definitions]
  rw [CodeUnit.function?, scriptUnit, body?_define, hn]
  rfl

theorem body?_scriptUnit (body : List Instr) {d : Nat} {b : Body} (h : m.unit.body? d = some b) :
    (scriptUnit m body).body? d = some b := by
  rw [scriptUnit, body?_define, h, Option.some_or]

end Lower

namespace Store

theorem compile_fresh (s : Store) (name : String) {program : Program} {caps : List Key}
    (h : Capture.captures program = .ok caps) :
    ∃ l : Lowering, l.Fresh s caps ∧ s.compile name program =
      match Lower.stmts program l with
      | .ok body m => (.ok (Lower.scriptUnit m body), m.store)
      | .error e m => (.error e, m.store) := by
  obtain ⟨l, hl, heq⟩ := Lower.scriptAfter_fresh s name caps
  refine ⟨l, hl, ?_⟩
  rw [compile_eq, h]
  dsimp only
  rw [heq program]
  cases Lower.stmts program l <;> rfl

end Store

namespace Tandem

open Lower

variable {T : Tandem} {s s' : Store} {caps caps' : List Key} {l l' m m' : Lowering}

structure Level (T : Tandem) : Prop where
  keys : T.keys = 0
  frames : T.frames = 0
  places : T.places = 0

theorem Level.errorOf (h : T.Level) (e : CompileError) : T.errorOf e = e := by
  cases e <;> simp [Tandem.errorOf, h.keys]

theorem Level.twins (hT : T.Level) (h : l.Fresh s caps) (h' : l'.Fresh s' caps')
    (hs : T.stores s s') (hc : ∀ k < T.bound, caps'.contains k = caps.contains k) :
    T.Twins l l' where
  tidy := h.tidy
  tidy' := h'.tidy
  store := by
    rw [h.store, h'.store]
    exact hs
  scopes := by
    rw [h.scopes, h'.scopes, scopesOf, hT.keys, hT.frames]
    rfl
  bindings k := by
    rw [h.bindings, h'.bindings]
    rfl
  captured := by
    rw [h.captured, h'.captured, hT.keys]
    exact hc
  kind := h'.kind.trans h.kind.symm
  script _ := h.kind
  upvalues := by
    rw [h.upvalues, h'.upvalues]
    rfl
  locals := by
    rw [h.locals, h'.locals, hT.places, ite_self]
  unbound hb := by
    rw [h.bindings] at hb
    cases hb

end Tandem

namespace Kin

def tandem (K : Kin) (bound : Key) : Tandem where
  keys := 0
  frames := 0
  places := 0
  bound := bound
  stores s s' := ∃ K', K.Moves K' ∧ K'.Stores s s'
  tight := False
  tight' := ¬K.even
  mention hk := by
    rintro ⟨K', hm, h⟩
    exact ⟨K', hm, (h.first_mention hk).second_mention hk⟩
  text text := by
    rintro ⟨K', hm, h⟩
    rcases h.internText text with ⟨K'', hm', h', hb⟩ | ⟨heven, hf⟩
    · exact .inl ⟨⟨K'', hm.trans hm', h'⟩, hb⟩
    · exact .inr (.inr ⟨fun he => heven (hm.even he), hf⟩)

inductive Lowers (K : Kin) : Except CompileError CodeUnit × Store →
    Except CompileError CodeUnit × Store → Prop
  | ok {K' : Kin} {u u' : CodeUnit} {t t' : Store} : K.Moves K' → K'.Stores t t' →
      Pair.Functions ⟨t, t'⟩ u u' 0 0 → Lowers K (.ok u, t) (.ok u', t')
  | error (e : CompileError) {K' : Kin} {t t' : Store} : K.Moves K' → K'.Stores t t' →
      Lowers K (.error e, t) (.error e, t')
  | exhausted {r : Except CompileError CodeUnit × Store} {e : HeapError} {t' : Store} : ¬K.even →
      Lowers K r (.error (.heap e), t')

theorem Stores.compile {K : Kin} {s s' : Store} (h : K.Stores s s') (name name' : String)
    (program : Program) : K.Lowers (s.compile name program) (s'.compile name' program) := by
  cases hcap : Capture.captures program with
  | error e =>
    rw [Store.compile_eq, Store.compile_eq, hcap]
    exact .error e (.refl K) h
  | ok caps =>
    obtain ⟨l, hl, heq⟩ := s.compile_fresh name hcap
    obtain ⟨l', hl', heq'⟩ := s'.compile_fresh name' hcap
    rw [heq, heq']
    let T := K.tandem (walkAll program {}).nextKey
    have hT : T.Level := ⟨rfl, rfl, rfl⟩
    have htwins : T.Twins l l' := hT.twins hl hl' ⟨K, .refl K, h⟩ fun _ _ => rfl
    have hm := Tandem.stmts_meets program true ⟨htwins, hl.scopes⟩ (Nat.le_refl _) (by rintro ⟨⟩)
    rw [Tandem.Steps] at hm
    generalize Lower.stmts program l = r, Lower.stmts program l' = r' at hm
    cases hm with
    | @ok body m body' m' ht =>
      obtain ⟨K', hmoves, hs⟩ := ht.twins.store
      refine .ok hmoves hs ?_
      have hloc : m'.current.locals = m.current.locals := by
        rw [ht.twins.locals]
        exact congrArg (_ + ·) (ite_self 0)
      let E : Setting :=
        ⟨⟨m.store, m'.store⟩, Lower.scriptUnit m body, Lower.scriptUnit m' body',
          .whole m.current.locals⟩
      have hE : T.Toward m m' E := by
        refine ⟨.refl _, .refl _, Lower.body?_scriptUnit body, Lower.body?_scriptUnit body',
          fun {i} _ => ?_, Nat.zero_le _, Nat.le_refl _⟩
        show i = T.placeOf m.scopes.frame i
        exact (ite_self i).symm
      have hpos : 0 < m.current.locals :=
        ht.twins.tidy.result (ht.grows.current.kind.trans hl.kind)
      have hr : E.view.Reads 0 0 := ⟨rfl, Nat.le_refl 0, hpos⟩
      refine .intro (Lower.function?_scriptUnit hl ht.grows body)
        (Lower.function?_scriptUnit hl' ht.grows' body') hloc ?_
      refine .cons (.evaluate (.assignVariable ⟨rfl, hpos⟩ (.constant (.inr (.inl rfl))))) ?_
      exact (ht.ends hE).append (.cons (.leave (.readVariable hr)) .nil)
    | error hs =>
      obtain ⟨K', hmoves, hs⟩ := hs
      rw [hT.errorOf]
      exact .error _ hmoves hs
    | first hf => exact hf.elim
    | second hf => exact .exhausted hf

end Kin

end ScriptMachine
