/-
ScriptMachine.Proofs.Lowers.Statements — programs are lowered to the code
they should be.
-/
import ScriptMachine.Proofs.Lowers.Expressions

namespace ScriptMachine

namespace Lower

variable {l l' : Lowering} {ms : List Mention} {P : Final → FunctionState → Prop} {value : Code}
  {instr : Instr} {a sc : Scopes} {m m1 m2 : Lowering} {index count decl v : Nat}
  {params : List String} {kind : FunctionKind} {u : Unit} {start : List Instr}
  {superVariable : Option Nat}

structure Executes (l l' : Lowering) (scopes : Scopes) (code : List Instr) (ms : List Mention)
    (P : Final → FunctionState → Prop) : Prop extends Yields l l' ms P where
  scopes_eq : l'.scopes = scopes
  boxed : ∀ {k i}, l'.bindings.get? k = some ⟨l.scopes.frame, .boxed i⟩ →
    l.bindings.get? k = some ⟨l.scopes.frame, .boxed i⟩ ∨ i ∈ Translate.boxes code

theorem Evaluates.executes (h : Evaluates l l' ms P) (code : List Instr) :
    Executes l l' l.scopes code ms P :=
  ⟨h.toYields, h.scopes, fun hk => .inl (h.bindings ▸ hk)⟩

namespace Executes

variable {m : Lowering} {sc sc' : Scopes} {code code' : List Instr} {ms ns : List Mention}
  {P Q : Final → FunctionState → Prop}

theorem mono (h : Executes l l' sc code ms P) (hpq : ∀ {G F}, P G F → Q G F) :
    Executes l l' sc code ms Q :=
  ⟨h.toYields.mono hpq, h.scopes_eq, h.boxed⟩

theorem within (h : Executes l l' sc code ms P)
    (hsub : ∀ i ∈ Translate.boxes code, i ∈ Translate.boxes code') :
    Executes l l' sc code' ms P :=
  ⟨h.toYields, h.scopes_eq, fun hk => (h.boxed hk).imp_right (hsub _)⟩

theorem seq (h : Executes l m sc code ms P) (h' : Executes m l' sc' code' ns Q) :
    Executes l l' sc' (code ++ code') (ms ++ ns) fun G F => P G F ∧ Q G F where
  toYields := h.toYields.seq h'.toYields
  scopes_eq := h'.scopes_eq
  boxed hk := by
    rw [Translate.boxes_append, List.mem_append]
    rcases h'.boxed (h.grows.frame ▸ hk) with hk | hi
    · rcases h.boxed (h.grows.frame ▸ hk) with hk | hi
      · exact .inl hk
      · exact .inr (.inl hi)
    · exact .inr (.inr hi)

end Executes

theorem declareLocal_executes {name : String} (ht : l.Tidy) (hne : l.scopes.atTop = false)
    (h : declareLocal name value l = .ok instr l') :
    Executes l l' (l.scopes.declare name) [instr] []
      fun G F => Translate.DeclaresLocal G F l.scopes value instr := by
  obtain ⟨rfl, hq⟩ := declareLocal_inv h
  refine ⟨declareLocal_yields ht hne h, hq.scopes, fun hk => ?_⟩
  rcases Lowering.of_declared_get? (hq.bindings ▸ hk) with hk | ⟨_, heq⟩
  · exact .inl hk
  · obtain ⟨_, hsto⟩ := Binding.mk.inj heq
    have hidx := nextStorage_index l
    rw [← hsto] at hidx ⊢
    simp [Translate.boxes, Translate.boxesOf, Storage.hold, ← hidx, Storage.index]

theorem push_executes (ht : l.Tidy) :
    Executes l { l with scopes := l.scopes.push } l.scopes.push [] [] fun _ _ => True := by
  refine ⟨.of_below ?_ { Lowering.Grows.refl l with } rfl fun _ => trivial, rfl, .inl⟩
  refine { ht with bound := ?_, top := ?_, scopes_lt := ?_, upvalues := ?_ }
  · intro scope hs _ _ hk
    rcases List.mem_cons.mp hs with rfl | hs
    · cases hk
    · exact ht.bound scope hs hk
  · intro scope rest hs
    obtain ⟨rfl, _⟩ := List.cons.inj hs
    rfl
  · intro scope hs
    rcases List.mem_cons.mp hs with rfl | hs
    · exact ht.frame_lt
    · exact ht.scopes_lt scope hs
  · intro k hk
    obtain ⟨scope, hs, hr⟩ := ht.upvalues k hk
    exact ⟨scope, List.mem_cons_of_mem _ hs, hr⟩

theorem pop_executes (ht : l.Tidy) (hext : a.push.Extends l.scopes)
    (htop : ∀ {scope rest}, a.stack = scope :: rest → scope.frame = a.frame) :
    Executes l { l with scopes := l.scopes.pop } l.scopes.pop [] [] fun _ _ => True := by
  have hpop : l.scopes.pop.stack = a.stack := hext.pop
  have hsub : ∀ {scope}, scope ∈ l.scopes.pop.stack → scope ∈ l.scopes.stack := List.mem_of_mem_tail
  refine ⟨.of_below ?_ { Lowering.Grows.refl l with } rfl fun _ => trivial, rfl, .inl⟩
  refine { ht with bound := ?_, top := ?_, scopes_lt := ?_, upvalues := ?_ }
  · exact fun scope hs => ht.bound scope (hsub hs)
  · intro scope rest hs
    rw [hpop] at hs
    exact (htop hs).trans hext.frame.symm
  · exact fun scope hs => ht.scopes_lt scope (hsub hs)
  · intro k hk
    obtain ⟨scope, hs, hfr, hr⟩ := ht.upvalues k hk
    refine ⟨scope, ?_, hfr, hr⟩
    -- The scope that closes is the function's own.
    cases hst : l.scopes.stack with
    | nil => simp [hst] at hs
    | cons first rest =>
      rw [hst] at hs
      rcases List.mem_cons.mp hs with rfl | hs
      · exact absurd (ht.top hst) hfr
      · simpa [Scopes.pop, hst] using hs

variable {code : List Instr}

theorem Executes.block (ht : l.Tidy)
    (h : Executes { l with scopes := l.scopes.push } m sc code ms P)
    (hext : l.scopes.push.Extends sc) :
    Executes l { m with scopes := m.scopes.pop } sc.pop code ms P := by
  obtain rfl := h.scopes_eq
  have hall := ((push_executes ht).seq h).seq (pop_executes h.tidy hext ht.top)
  simp only [List.nil_append, List.append_nil] at hall
  exact hall.mono fun hp => hp.1.2

theorem parameters_executes (ht : l.Tidy) (hne : l.scopes.atTop = false)
    (h : parameters index params l = .ok code l') :
    Executes l l' (params.foldl .declare l.scopes) code []
      fun G F => Translate.parameters G F index params l.scopes code := by
  induction params generalizing l index code with
  | nil =>
    obtain ⟨rfl, rfl⟩ := h
    exact ((Evaluates.refl ht).mono fun _ => rfl).executes []
  | cons name params ih =>
    simp only [parameters, bind_eq_ok, pure_eq_ok] at h
    obtain ⟨instr, m, hd, code', m', hps, rfl, rfl⟩ := h
    have hfst := declareLocal_executes ht hne hd
    have hne' : m.scopes.atTop = false := by
      rw [hfst.scopes_eq, (Scopes.Extends.declare l.scopes name).atTop, hne]
    have hr := ih hfst.tidy hne' hps
    rw [hfst.scopes_eq] at hr
    exact (hfst.seq hr).mono fun hp => ⟨instr, code', hp.1, hp.2, rfl⟩

structure Entered (l m : Lowering) (kind : FunctionKind) (decl : Nat) : Prop where
  store : m.store = l.store
  scopes : m.scopes = l.scopes.enter
  bindings : m.bindings = l.bindings
  captured : m.captured = l.captured
  definitions : m.unit.definitions = l.unit.definitions
  fresh : decl = l.unit.declarations.size
  declared : decl < m.unit.declarations.size
  kind : m.current.kind = kind
  upvalues : m.current.upvalues = []
  locals : m.current.locals = 0

theorem enterFunction_entered {name : Ident}
    (h : enterFunction name count kind l = .ok decl l') : Entered l l' kind decl := by
  simp only [enterFunction, bind_eq_ok, get_eq_ok, modify_eq_ok, pure_eq_ok] at h
  obtain ⟨_, _, ⟨rfl, rfl⟩, _, m, rfl, d, m', hd, _, _, hu, rfl, rfl⟩ := h
  obtain ⟨hs, hq, hsucc, _⟩ := declare_quiet hd
  have hq' := hq.trans (use_quiet hu)
  refine ⟨hq'.store, hq'.scopes, hq'.bindings, hq'.captured, hq'.definitions, hs, ?_, hq'.kind,
    hq'.upvalues, hq'.locals⟩
  rw [hs]
  exact Nat.lt_of_lt_of_le (hsucc ▸ Nat.lt_succ_self _) (use_quiet hu).declarations

theorem enter_tidy (ht : l.Tidy) (hk : kind ≠ .script) : Lowering.Tidy
    { l with scopes := l.scopes.enter.push, current := { kind := kind } } where
  keys := ht.keys
  bound scope hs _ _ hk := by
    rcases List.mem_cons.mp hs with rfl | hs
    · cases hk
    · exact ht.bound scope hs hk
  top hs := by
    obtain ⟨rfl, _⟩ := List.cons.inj hs
    rfl
  frame_lt := Nat.lt_succ_self _
  scopes_lt scope hs := by
    rcases List.mem_cons.mp hs with rfl | hs
    · exact Nat.lt_succ_self _
    · exact Nat.lt_succ_of_lt (ht.scopes_lt scope hs)
  bindings_lt hb := Nat.lt_succ_of_lt (ht.bindings_lt hb)
  locals_lt hb := absurd (ht.bindings_lt hb) (Nat.lt_irrefl _)
  injective := ht.injective
  upvalues _ hk := absurd hk List.not_mem_nil
  definitions := ht.definitions
  result hkind := absurd hkind hk

theorem Entered.tidy (h : Entered l m kind decl) (ht : l.Tidy) (hk : kind ≠ .script) :
    Lowering.Tidy { m with scopes := m.scopes.push } := by
  have hq : Lowering.Quiet { l with scopes := l.scopes.enter.push, current := { kind := kind } }
      { m with scopes := m.scopes.push } :=
    ⟨h.store, congrArg Scopes.push h.scopes, h.bindings, h.captured, h.definitions,
      Nat.le_of_lt (h.fresh ▸ h.declared), h.kind, h.upvalues, h.locals⟩
  exact hq.tidy (enter_tidy ht hk)

theorem Entered.push_frame (h : Entered l m kind decl) :
    m.scopes.push.frame = l.scopes.nextFrame := by
  rw [h.scopes]
  rfl

theorem openScopes_executes (he : Entered l m kind decl) (ht : l.Tidy)
    (hk : kind ≠ .script) (h : openScopes kind params m = .ok code l') :
    Executes { m with scopes := m.scopes.push } l'
      (l.scopes.openFunction kind.hasReceiver params) code []
        fun G F => Translate.opening G F l.scopes kind params code := by
  have htidy := he.tidy ht hk
  have hsc := he.scopes
  simp only [openScopes, receiverScope, bind_eq_ok, onScopes_eq_ok, pure_eq_ok] at h
  obtain ⟨receiver, m1, hr, _, m2, rfl, arguments, m3, hp, rfl, rfl⟩ := h
  cases hkind : kind.hasReceiver with
  | false =>
    simp only [hkind, Bool.false_eq_true, if_false, pure_eq_ok] at hr
    obtain ⟨rfl, rfl⟩ := hr
    have hpar := parameters_executes htidy rfl hp
    simpa [Scopes.openFunction, Translate.opening, hkind, ← hsc] using hpar
  | true =>
    simp only [hkind, if_true, bind_eq_ok, onScopes_eq_ok, pure_eq_ok] at hr
    obtain ⟨_, _, rfl, instr, m', hd, rfl, rfl⟩ := hr
    have hthis := declareLocal_executes htidy rfl hd
    have hpush := push_executes hthis.tidy
    have hpar := parameters_executes hpush.tidy rfl hp
    have hall := (hthis.seq hpush).seq hpar
    simp only [hthis.scopes_eq, List.append_nil] at hall
    simp only [Scopes.openFunction, Translate.opening, hkind, if_true, ← hsc]
    exact hall.mono fun hp => ⟨instr, arguments, hp.1.1, hp.2, rfl⟩

def left (l m : Lowering) (definition : Definition) (scopes : Scopes) : Lowering :=
  { m with unit := m.unit.define definition, scopes := scopes, current := l.current }

theorem body?_define (unit : CodeUnit) (definition : Definition) (d : Nat) :
    (unit.define definition).body? d =
      (unit.body? d).or (if definition.declaration = d then some definition.body else none) := by
  simp only [CodeUnit.body?, CodeUnit.define, Array.find?_push]
  cases unit.definitions.find? (·.declaration = d) with
  | some x => rfl
  | none => by_cases h : definition.declaration = d <;> simp

section Leaving

variable {m m' : Lowering} {kind : FunctionKind} {decl : Nat} {params : List String}
  {sc : Scopes} {code : List Instr} {ms : List Mention} {P : Final → FunctionState → Prop}
  {definition : Definition} (he : Entered l m kind decl)

include he

section

variable (h : Executes { m with scopes := m.scopes.push } m' sc code ms P)

include h

theorem Entered.frame : m'.scopes.frame = l.scopes.nextFrame :=
  h.grows.frame.trans he.push_frame

theorem Entered.older {k : Key} {b : Binding}
    (hk : m'.bindings.get? k = some b) (hlt : b.frame < l.scopes.nextFrame) :
    l.bindings.get? k = some b := by
  have hn : m.scopes.push.nextFrame = l.scopes.nextFrame + 1 := by rw [he.scopes]; rfl
  have hb := h.grows.others hk (by rw [he.push_frame]; exact Nat.ne_of_lt hlt)
    (by rw [hn]; exact Nat.lt_succ_of_lt hlt)
  exact he.bindings ▸ hb

theorem Entered.left_bodies
    (hd : definition.declaration = decl) {d : Nat} (hlt : d < l.unit.declarations.size) :
    (m'.unit.define definition).body? d = l.unit.body? d := by
  have hm : d < m.unit.declarations.size := Nat.lt_trans (he.fresh ▸ hlt) he.declared
  have hb : m'.unit.body? d = m.unit.body? d := h.grows.bodies hm
  have hne : definition.declaration ≠ d := by
    rw [hd, he.fresh]
    exact Nat.ne_of_gt hlt
  rw [body?_define, if_neg hne, Option.or_none, hb]
  simp [CodeUnit.body?, he.definitions]

end

section

variable (ht : l.Tidy) (h : Executes { m with scopes := m.scopes.push } m' sc code ms P)

include ht h

theorem Entered.left_body (hd : definition.declaration = decl) :
    (m'.unit.define definition).body? decl = some definition.body := by
  have hn : m'.unit.body? decl = none := by
    rw [show m'.unit.body? decl = m.unit.body? decl from h.grows.bodies he.declared]
    simp only [CodeUnit.body?, he.definitions, Option.map_eq_none_iff, Array.find?_eq_none,
      decide_eq_true_eq]
    intro x hx heq
    exact absurd (ht.definitions x hx) (by rw [heq, he.fresh]; exact Nat.lt_irrefl _)
  rw [body?_define, hn, hd, if_pos rfl]
  rfl

theorem Entered.left_tidy (hext : (l.scopes.openFunction kind.hasReceiver params).Extends sc)
    (hd : definition.declaration = decl) :
    (left l m' definition (sc.closeFunction kind.hasReceiver l.scopes.frame)).Tidy := by
  have hc := hext.closeFunction
  obtain ⟨own, hown, hsc, _, hstk⟩ := hext.openFunction_stack
  constructor
  · intro k b hk
    show k < (sc.closeFunction kind.hasReceiver l.scopes.frame).nextKey
    rw [Scopes.closeFunction_nextKey, ← h.scopes_eq]
    exact h.tidy.keys hk
  · intro scope hs n k hk
    rw [left, hstk] at hs
    obtain ⟨st, hst⟩ := ht.bound scope hs hk
    exact ⟨st, h.grows.bindings (by rw [show m.bindings = _ from he.bindings]; exact hst)⟩
  · intro scope rest hs
    rw [left, hstk] at hs
    exact ht.top hs
  · exact Nat.lt_of_lt_of_le ht.frame_lt hc.nextFrame
  · intro scope hs
    rw [left, hstk] at hs
    exact Nat.lt_of_lt_of_le (ht.scopes_lt scope hs) hc.nextFrame
  · intro k b hk
    show _ < (sc.closeFunction kind.hasReceiver l.scopes.frame).nextFrame
    rw [Scopes.closeFunction_nextFrame, ← h.scopes_eq]
    exact h.tidy.bindings_lt hk
  · intro k st hk
    exact ht.locals_lt (he.older h hk ht.frame_lt)
  · exact h.tidy.injective
  · intro k hk
    obtain ⟨scope, hs, hr⟩ := ht.upvalues k hk
    exact ⟨scope, by rw [left, hstk]; exact hs, hr⟩
  · intro d hmem
    rw [left, CodeUnit.define, Array.mem_push] at hmem
    show d.declaration < m'.unit.declarations.size
    rcases hmem with hmem | rfl
    · exact h.tidy.definitions d hmem
    · rw [hd]
      exact Nat.lt_of_lt_of_le he.declared h.grows.declarations
  · exact ht.result

theorem Entered.left_grows (hext : (l.scopes.openFunction kind.hasReceiver params).Extends sc)
    (hd : definition.declaration = decl) :
    l.Grows (left l m' definition (sc.closeFunction kind.hasReceiver l.scopes.frame)) where
  store := he.store ▸ h.grows.store
  bindings hk := h.grows.bindings (by rw [show m.bindings = _ from he.bindings]; exact hk)
  own hk := .inl (he.older h hk ht.frame_lt)
  others hk _ hlt := he.older h hk hlt
  bodies hlt := he.left_bodies h hd hlt
  declarations := Nat.le_of_lt (Nat.lt_of_lt_of_le (he.fresh ▸ he.declared) h.grows.declarations)
  captured := h.grows.captured.trans he.captured
  frame := rfl
  nextFrame := hext.closeFunction.nextFrame
  nextKey := hext.closeFunction.nextKey
  current := .refl _

theorem Entered.below_inner {sites : Nat → Symbol} {G : Final} {F : FunctionState}
    (hb : (left l m' definition (sc.closeFunction kind.hasReceiver l.scopes.frame)).Below
      sites G F) : m'.Below sites G m'.current := by
  have hfr := he.frame h
  have hn : (sc.closeFunction kind.hasReceiver l.scopes.frame).nextFrame = m'.scopes.nextFrame := by
    rw [Scopes.closeFunction_nextFrame, h.scopes_eq]
  have hlt : l.scopes.frame < m'.scopes.frame := hfr ▸ ht.frame_lt
  refine { store := hb.store, bindings := hb.bindings, own := ?_, closed := ?_, bodies := ?_,
           current := .refl _, sites := hb.sites }
  · intro k st hk
    exact .inl (hb.closed hk hlt (Nat.lt_of_lt_of_eq h.tidy.frame_lt hn.symm))
  · intro k b hk hfr hlt'
    exact hb.closed hk (Nat.lt_trans hlt hfr) (Nat.lt_of_lt_of_eq hlt' hn.symm)
  · intro d b hk
    refine hb.bodies ?_
    show (m'.unit.define definition).body? d = _
    rw [body?_define, hk, Option.some_or]

end

theorem Entered.upvalues_declared (h : Executes { m with scopes := m.scopes.push } m' sc code ms P)
    (hext : (l.scopes.openFunction kind.hasReceiver params).Extends sc) :
    ∀ key ∈ m'.current.upvalues, l.scopes.Opens key := by
  intro key hkey
  obtain ⟨own, hown, hsc, _, _⟩ := hext.openFunction_stack
  have hfr := he.frame h
  obtain ⟨scope, hs, hne, hent⟩ := h.tidy.upvalues key hkey
  rw [h.scopes_eq, hsc, List.mem_append] at hs
  rcases hs with hs | hs
  · exact absurd ((hown scope hs).trans hfr.symm) hne
  · exact ⟨scope, hs, hent⟩

end Leaving

section

variable (ht : l.Tidy)

include ht

variable {name : String} {code : Code}

theorem closureOf_evaluates {keys : List Key}
    (ho : ∀ key ∈ keys, l.scopes.Opens key)
    (h : closureOf name count decl keys l = .ok code l') :
    Evaluates l l' [.prototype name count] fun G F => ∃ proto cells symbol,
      code = .closure decl proto cells ∧
        G.store.prototypes[proto]? = some ⟨symbol, count⟩ ∧ Translate.Named G name symbol ∧
          Translate.CellsAt G F l.scopes.frame keys cells := by
  simp only [closureOf, bind_eq_ok, onStore_eq_ok, pure_eq_ok] at h
  obtain ⟨proto, m, ⟨hp, hm⟩, _, m1, hr, cells, m2, hc, _, m3, hu, rfl, rfl⟩ := h
  have hproto : Evaluates l m [.prototype name count] fun G _ =>
      (l.store.mention (.prototype name count)).Prepares G.store :=
    ⟨hm ▸ store_yields ht (.prototype name count) rfl, by rw [hm], by rw [hm]⟩
  have hq := hproto.quiet (refer_quiet hr)
  have hcells := cellsOf_yields hq.tidy (hq.scopes ▸ ho) hc
  rw [hq.scopes] at hcells
  have hall := ((hq.seq hcells).quiet (use_quiet hu))
  refine hall.mono fun hp' => ?_
  refine ⟨proto, cells, (l.store.names.intern name).1, rfl, ?_, ?_, hp'.2⟩
  · refine hp'.1.prototypes ?_
    rw [hp]
    simp [Store.mention, Store.addPrototype, Store.intern]
  · exact hp'.1.names.find (l.store.names.find?_intern name)

theorem function_executes {name : Ident} {body : Lower (List Instr)}
    {B : List Instr → Final → FunctionState → Prop}
    (hk : kind ≠ .script) (hext : (l.scopes.openFunction kind.hasReceiver params).Extends sc)
    (hbody : ∀ {m m' rest}, m.Tidy → m.scopes = l.scopes.openFunction kind.hasReceiver params →
      body m = .ok rest m' → Executes m m' sc rest ms (B rest))
    (h : function name params kind body l = .ok code l') :
    Executes l l' (sc.closeFunction kind.hasReceiver l.scopes.frame) []
      (ms ++ [.prototype name.name params.length]) fun G F => ∃ inner start rest,
        Translate.opening G inner l.scopes kind params start ∧ B rest G inner ∧
          Translate.ClosureOf G F l.scopes name.name params.length kind inner
            (start ++ rest ++ [.leave (bareReturn kind)]) code := by
  simp only [function, checkCount, bind_eq_ok, get_eq_ok] at h
  obtain ⟨_, m0, hc, _, _, ⟨rfl, rfl⟩, decl, m, hen, start, m1, ho, rest, m2, hb, _, m3,
    hcl, upvalues, m4, hl, hco⟩ := h
  have hm0 : l = m0 := by
    split at hc
    · simp at hc
    · exact (pure_eq_ok.mp hc).2
  subst hm0
  simp only [closeScopes, onScopes_eq_ok] at hcl
  simp only [leaveFunction, bind_eq_ok, get_eq_ok, modify_eq_ok, pure_eq_ok] at hl
  obtain ⟨_, _, ⟨rfl, rfl⟩, _, m4, hm4, rfl, rfl⟩ := hl
  subst hcl
  have he := enterFunction_entered hen
  have hopen := openScopes_executes he ht hk ho
  have hin := hopen.seq (hbody hopen.tidy hopen.scopes_eq hb)
  obtain rfl := hin.scopes_eq
  generalize hdef : (⟨decl, .words (params.length + 2), m2.current.references.map .own,
    .lowered ⟨m2.current.locals, start ++ rest ++ [.leave (bareReturn kind)]⟩⟩ : Definition) =
      definition
  have hd : definition.declaration = decl := by rw [← hdef]
  have hleft : left l m2 definition (m2.scopes.closeFunction kind.hasReceiver
    l.scopes.frame) = m4 := by
    rw [← hm4, ← hdef]
    rfl
  have houter : Yields l m4 ms fun G _ =>
      (Translate.opening G m2.current l.scopes kind params start ∧ B rest G m2.current) ∧
        G.unit.body? decl = some definition.body ∧
          ∀ {key index}, G.bindings.get? key = some ⟨l.scopes.nextFrame, .boxed index⟩ →
            m2.bindings.get? key = some ⟨l.scopes.nextFrame, .boxed index⟩ := by
    subst hleft
    refine ⟨he.left_tidy ht hin hext hd, he.left_grows ht hin hext hd, ?_, fun sites => ?_⟩
    · exact hin.store.trans (congrArg (Store.mentionAll · ms) he.store)
    · obtain ⟨sites', hs, hp⟩ := hin.holds sites
      refine ⟨sites', he.store ▸ hs, fun hbelow => ⟨hp (he.below_inner ht hin hbelow), ?_, ?_⟩⟩
      · exact hbelow.bodies (he.left_body ht hin hd)
      · intro key index hkey
        refine hbelow.closed hkey ht.frame_lt ?_
        show _ < (m2.scopes.closeFunction kind.hasReceiver l.scopes.frame).nextFrame
        rw [Scopes.closeFunction_nextFrame, ← he.frame hin]
        exact hin.tidy.frame_lt
  have hm₄sc : m4.scopes = m2.scopes.closeFunction kind.hasReceiver l.scopes.frame := by
    rw [← hleft]
    rfl
  have hups := he.upvalues_declared hin hext
  obtain ⟨_, _, _, _, hstk⟩ := hext.openFunction_stack
  have hclo := closureOf_evaluates houter.tidy
    (by simpa only [hm₄sc, Scopes.Opens, hstk] using hups) hco
  rw [show m4.scopes.frame = l.scopes.frame by rw [hm₄sc]; rfl] at hclo
  refine ⟨(houter.seq hclo.toYields).mono ?_, hclo.scopes.trans hm₄sc, ?_⟩
  · rintro G F ⟨⟨⟨hsta, hr⟩, hfun, hboxed⟩, proto, cells, symbol, rfl, hproto, hn, hcells⟩
    refine ⟨m2.current, start, rest, hsta, hr, ?_, ?_, hups, ?_⟩
    · refine ⟨decl, proto, cells, symbol, rfl, ?_, hproto, hn, hcells⟩
      rw [CodeUnit.function?, hfun, ← hdef]
    · exact hin.grows.current.kind.trans he.kind
    · intro key index hkey
      rw [Translate.boxes_append, List.mem_append]
      refine .inl ?_
      rcases hin.boxed (he.push_frame ▸ hboxed hkey) with hold | hnew
      · rw [show m.bindings = _ from he.bindings, he.push_frame] at hold
        exact absurd (ht.bindings_lt hold) (Nat.lt_irrefl _)
      · exact hnew
  · intro k i hk
    rw [hclo.bindings, ← hleft] at hk
    exact .inl (he.older hin hk ht.frame_lt)

theorem expr?_yields {initial : Option Expr} (h : expr? initial l = .ok code l') :
    Evaluates l l' (mentionsOfInitial initial)
      fun G F => Translate.expr? G F l.scopes initial code := by
  cases initial with
  | none =>
    obtain ⟨rfl, rfl⟩ := h
    exact (Evaluates.refl ht).mono fun _ => rfl
  | some e => exact expr_yields e ht h

theorem defineGlobal_yields (h : defineGlobal name value l = .ok instr l') :
    Evaluates l l' [.global name] fun G _ => Translate.DefinesGlobal G name value instr := by
  simp only [defineGlobal, bind_eq_ok, pure_eq_ok] at h
  obtain ⟨slot, m, hs, _, m', hu, rfl, rfl⟩ := h
  exact ((globalSlot_yields ht hs).quiet (use_quiet hu)).mono fun hp => ⟨slot, hp, rfl⟩

theorem declareVariable_executes (h : declareVariable name value l = .ok instr l') :
    Executes l l' (l.scopes.declare name) [instr] (mentionsOfName l.scopes.atTop name)
      fun G F => Translate.DeclaresVariable G F l.scopes name value instr := by
  simp only [declareVariable, bind_eq_ok, get_eq_ok] at h
  obtain ⟨_, _, ⟨rfl, rfl⟩, h⟩ := h
  cases htop : l.scopes.atTop with
  | true =>
    simp only [htop, if_true] at h
    rw [Scopes.declare_of_nil name (l.scopes.atTop_iff.mp htop)]
    refine ((defineGlobal_yields ht h).executes [instr]).mono fun hp => ?_
    rwa [Translate.DeclaresVariable, if_pos htop]
  | false =>
    simp only [htop, Bool.false_eq_true, if_false] at h
    simpa [Translate.DeclaresVariable, htop, mentionsOfName] using declareLocal_executes ht htop h

theorem newVariable_spare (h : newVariable l = .ok index l') : index = l.current.locals ∧
      Evaluates l l' [] fun G F => Translate.Spare G F l.scopes.frame index := by
  obtain ⟨hidx, hsc, hbind, _, hk, hy⟩ := newVariable_yields ht h
  refine ⟨hidx, ?_, hsc, hbind⟩
  refine { hy with holds := fun sites => ?_ }
  obtain ⟨sites', hs, hp⟩ := hy.holds sites
  refine ⟨sites', hs, fun hb => ⟨(hp hb).1, (hp hb).2, fun hF => ?_⟩⟩
  have := ht.result (hk.symm.trans (hb.current.kind.symm.trans hF))
  rw [hidx]
  exact Nat.ne_of_gt this

theorem declareClass_executes {code : List Instr}
    (h : declareClass l.scopes.atTop name l = .ok code l') :
    Executes l l' (l.scopes.declare name) code []
      fun G F => Translate.declaresClass G F l.scopes code := by
  unfold declareClass at h
  cases htop : l.scopes.atTop with
  | true =>
    simp only [htop, if_true, pure_eq_ok] at h
    obtain ⟨rfl, rfl⟩ := h
    rw [Scopes.declare_of_nil name (l.scopes.atTop_iff.mp htop)]
    refine ((Evaluates.refl ht).executes []).mono fun _ => ?_
    rw [Translate.declaresClass, if_pos htop]
  | false =>
    simp only [htop, Bool.false_eq_true, if_false, bind_eq_ok, pure_eq_ok] at h
    obtain ⟨instr, m, hd, rfl, rfl⟩ := h
    refine (declareLocal_executes ht htop hd).mono fun hp => ?_
    rw [Translate.declaresClass, if_neg (by simp [htop])]
    exact ⟨instr, hp, rfl⟩

theorem nameClass_evaluates (hsc : l.scopes = a.declare name)
    (h : nameClass a.atTop a.nextKey name value l = .ok instr l') :
    Evaluates l l' (mentionsOfName a.atTop name)
      fun G F => Translate.namesClass G F a name value instr := by
  unfold nameClass at h
  cases htop : a.atTop with
  | true =>
    simp only [htop, if_true] at h
    refine (defineGlobal_yields ht h).mono fun hp => ?_
    rwa [Translate.namesClass, if_pos htop]
  | false =>
    simp only [htop, Bool.false_eq_true, if_false, bind_eq_ok, pure_eq_ok] at h
    obtain ⟨c, m, hc, rfl, rfl⟩ := h
    have ho : l.scopes.Opens a.nextKey := by
      rw [hsc]
      exact a.declared_next name htop
    refine (assignKey_yields ht ho hc).mono fun hp => ?_
    rw [Translate.namesClass, if_neg (by simp [htop])]
    rw [hsc, Scopes.declare_frame] at hp
    exact ⟨c, hp, rfl⟩

theorem classMade_evaluates {symbol : Symbol} {named : Instr}
    (hsc : l.scopes = a.declare name) (hn : onStore (·.intern name) l = .ok symbol m)
    (hu : use .newClass m = .ok u m1) (hv : newVariable m1 = .ok v m2)
    (hc : nameClass a.atTop a.nextKey name (.readVariable v) m2 = .ok named l') :
    l.current.locals ≤ v ∧ Evaluates l l' ([.name name] ++ mentionsOfName a.atTop name) fun G F =>
      Translate.Named G name symbol ∧ Translate.Spare G F a.frame v ∧
        Translate.namesClass G F a name (.readVariable v) named := by
  have hname := (name_yields ht hn).quiet (use_quiet hu)
  obtain ⟨hidx, hs⟩ := newVariable_spare hname.tidy hv
  have hb := hname.seq hs
  have hnamed := nameClass_evaluates hb.tidy (hb.scopes.trans hsc) hc
  refine ⟨hidx ▸ hname.grows.current.locals, ?_⟩
  rw [hname.scopes, hsc, Scopes.declare_frame] at hb
  exact (hb.seq hnamed).mono fun hp => ⟨hp.1.1, hp.1.2, hp.2⟩

theorem classStart_executes (h : classStart name none l = .ok (start, superVariable, v) l') :
    Executes l l' (l.scopes.declare name) start ([.name name] ++ mentionsOfName l.scopes.atTop name)
      fun G F => ∃ declared symbol named, Translate.declaresClass G F l.scopes declared ∧
        Translate.Named G name symbol ∧ Translate.Spare G F l.scopes.frame v ∧
          Translate.namesClass G F l.scopes name (.readVariable v) named ∧
            start = declared ++ [.evaluate (.assignVariable v (.newClass symbol none)), named] := by
  simp only [classStart, superclassVariable, bind_eq_ok, get_eq_ok, pure_eq_ok, Prod.mk.injEq] at h
  obtain ⟨_, _, ⟨rfl, rfl⟩, declared, m, hd, _, _, ⟨rfl, rfl⟩, symbol, m1, hn, _, m2,
    hu, v', m3, hv,
    named, m4, hc, ⟨rfl, rfl, rfl⟩, rfl⟩ := h
  have hdecl := declareClass_executes ht hd
  obtain ⟨_, hm⟩ := classMade_evaluates hdecl.tidy hdecl.scopes_eq hn hu hv hc
  have hall := hdecl.seq (hm.executes
    [.evaluate (.assignVariable v' (.newClass symbol none)), named])
  rw [List.nil_append, hdecl.scopes_eq] at hall
  rw [List.append_nil]
  exact hall.mono fun hp => ⟨declared, symbol, named, hp.1, hp.2.1, hp.2.2.1, hp.2.2.2, rfl⟩

theorem classStart_super_executes {sup : Expr}
    (h : classStart name (some (expr sup)) l = .ok (start, superVariable, v) l') :
    Executes l l' (l.scopes.declare name) start
      (sup.mentions ++ [.name name] ++ mentionsOfName l.scopes.atTop name)
      fun G F => ∃ declared c u symbol named, Translate.declaresClass G F l.scopes declared ∧
        Translate.expr G F (l.scopes.declare name) sup c ∧
          Translate.Spare G F l.scopes.frame u ∧ Translate.Named G name symbol ∧
            Translate.Spare G F l.scopes.frame v ∧ u ≠ v ∧
              Translate.namesClass G F l.scopes name (.readVariable v) named ∧
                superVariable = some u ∧
                  start = declared ++ [.evaluate (.assignVariable u c),
                    .evaluate (.assignVariable v (.newClass symbol (some u))), named] := by
  simp only [classStart, superclassVariable, bind_eq_ok, get_eq_ok, pure_eq_ok, Prod.mk.injEq] at h
  obtain ⟨_, _, ⟨rfl, rfl⟩, declared, m, hd, _, _, ⟨c, n, he, u, n', hu', rfl, rfl⟩,
    symbol, m1, hn, _,
    m2, hu, v', m3, hv, named, m4, hc, ⟨rfl, rfl, rfl⟩, rfl⟩ := h
  have hdecl := declareClass_executes ht hd
  have hs := expr_yields sup hdecl.tidy he
  obtain ⟨hidx, hspare⟩ := newVariable_spare hs.tidy hu'
  have hfst := hs.seq hspare
  obtain ⟨hle, hm⟩ := classMade_evaluates hfst.tidy (hfst.scopes.trans hdecl.scopes_eq) hn hu hv hc
  have hlt : u < n'.current.locals := by
    rw [newVariable, modifyGet_eq_ok, Prod.mk.injEq] at hu'
    rw [← hu'.2, hidx]
    exact Nat.lt_succ_self _
  have hall := hdecl.seq ((hfst.seq hm).executes
    [.evaluate (.assignVariable u c), .evaluate (.assignVariable v' (.newClass symbol (some u))),
      named])
  simp only [List.append_assoc, List.cons_append, List.nil_append, List.append_nil,
    hdecl.scopes_eq, hs.scopes, Scopes.declare_frame] at hall ⊢
  refine hall.mono fun hp => ?_
  exact ⟨declared, c, u, symbol, named, hp.1, hp.2.1.1, hp.2.1.2, hp.2.2.1, hp.2.2.2.1,
    Nat.ne_of_lt (Nat.lt_of_lt_of_le hlt hle), hp.2.2.2.2, rfl, rfl⟩

theorem addMethod_evaluates {method : Code} (h : addMethod v name method l = .ok instr l') :
    Evaluates l l' [.name name] fun G _ => ∃ symbol, Translate.Named G name symbol ∧
      instr = .addMethod v symbol method := by
  simp only [addMethod, bind_eq_ok, pure_eq_ok] at h
  obtain ⟨symbol, m, hn, _, m', hu, rfl, rfl⟩ := h
  exact ((name_yields ht hn).quiet (use_quiet hu)).mono fun hp => ⟨symbol, hp, rfl⟩

omit ht in
theorem Executes.opened {body : List Stmt} {rest : List Instr} {receiver : Bool}
    (h : Executes m1 m2 (walkAll body m1.scopes) rest (mentionsOfAll m1.scopes.atTop body)
      fun G F => Translate.stmts G F m1.scopes body rest)
    (hsc : m1.scopes = a.openFunction receiver params) :
    Executes m1 m2 (walkAll body (a.openFunction receiver params)) rest (mentionsOfAll false body)
      fun G F => Translate.stmts G F (a.openFunction receiver params) body rest := by
  rwa [hsc, a.openFunction_atTop] at h

theorem function_declared {name : Ident} {body : List Stmt}
    (hk : kind ≠ .script) (hb : ∀ {m m' : Lowering} {rest}, m.Tidy → stmts body m = .ok rest m' →
      Executes m m' (walkAll body m.scopes) rest (mentionsOfAll m.scopes.atTop body)
        fun G F => Translate.stmts G F m.scopes body rest)
    (h : function name params kind (stmts body) l = .ok code l') :
    Executes l l' ((FunctionDecl.mk name params body).walk kind.hasReceiver l.scopes) []
      (FunctionDecl.mk name params body).mentions
        fun G F => Translate.closure G F l.scopes kind (.mk name params body) code := by
  have hext := walkAll_extends body (l.scopes.openFunction kind.hasReceiver params)
  exact function_executes ht hk hext (fun hm hsc hr => (hb hm hr).opened hsc) h

end

mutual

theorem stmt_yields : ∀ (s : Stmt) {l l' : Lowering} {code : List Instr}, l.Tidy →
    stmt s l = .ok code l' → Executes l l' (s.walk l.scopes) code (s.mentions l.scopes.atTop)
      fun G F => Translate.stmt G F l.scopes s code
  | .expression e, l, _, _, ht, h => by
    simp only [stmt, expression, bind_eq_ok, get_eq_ok, pure_eq_ok] at h
    obtain ⟨c, m, he, instr, _, ⟨_, _, ⟨rfl, rfl⟩, rfl, rfl⟩, rfl, rfl⟩ := h
    have hexpr := expr_yields e ht he
    refine Evaluates.executes ⟨{ hexpr.toYields with holds := fun sites => ?_ }, hexpr.scopes,
      hexpr.bindings⟩ _
    obtain ⟨sites', hs, hp⟩ := hexpr.holds sites
    refine ⟨sites', hs, fun hb => ⟨c, hp hb, ?_⟩⟩
    rw [hb.current.kind, hexpr.scopes]
  | .print e, _, _, _, ht, h => by
    simp only [stmt, bind_eq_ok, pure_eq_ok] at h
    obtain ⟨c, m, he, _, _, hu, rfl, rfl⟩ := h
    exact (((expr_yields e ht he).quiet (use_quiet hu)).mono fun hp => ⟨c, hp, rfl⟩).executes _
  | .declare name initial, _, _, _, ht, h => by
    simp only [stmt, bind_eq_ok, pure_eq_ok] at h
    obtain ⟨c, m, he, instr, m', hd, rfl, rfl⟩ := h
    have hinit := expr?_yields ht he
    have hdecl := declareVariable_executes hinit.tidy hd
    rw [hinit.scopes] at hdecl
    exact ((hinit.executes []).seq hdecl).mono fun hp => ⟨c, instr, hp.1, hp.2, rfl⟩
  | .block body, l, _, _, ht, h => by
    simp only [stmt, bind_eq_ok, onScopes_eq_ok, pure_eq_ok] at h
    obtain ⟨_, _, rfl, code, m, hb, _, _, rfl, rfl, rfl⟩ := h
    have hbody := stmts_yields body (push_executes ht).tidy hb
    exact hbody.block ht (walkAll_extends body l.scopes.push)
  | .branch cond yes none, _, _, _, ht, h => by
    simp only [stmt, bind_eq_ok, pure_eq_ok] at h
    obtain ⟨c, m, hc, y, m', hy, rfl, rfl⟩ := h
    have hcond := expr_yields cond ht hc
    have hyes := stmt_yields yes hcond.tidy hy
    rw [hcond.scopes] at hyes
    refine (((hcond.executes []).seq hyes).within fun i hi => ?_).mono
      fun hp => ⟨c, y, hp.1, hp.2, rfl⟩
    simpa [Translate.boxes, Translate.boxesOf] using hi
  | .branch cond yes (some no), _, _, _, ht, h => by
    simp only [stmt, bind_eq_ok, pure_eq_ok] at h
    obtain ⟨c, m, hc, y, m1, hy, n, m2, hn, rfl, rfl⟩ := h
    have hcond := expr_yields cond ht hc
    have hyes := stmt_yields yes hcond.tidy hy
    rw [hcond.scopes] at hyes
    have hno := stmt_yields no hyes.tidy hn
    rw [hyes.scopes_eq, (yes.walk_extends _).atTop] at hno
    refine ((((hcond.executes []).seq hyes).seq hno).within ?_).mono
      fun hp => ⟨c, y, n, hp.1.1, hp.1.2, hp.2, rfl⟩
    intro i hi
    simpa [Translate.boxes, Translate.boxesOf, Translate.boxes_append] using hi
  | .loop cond body, _, _, _, ht, h => by
    simp only [stmt, bind_eq_ok, pure_eq_ok] at h
    obtain ⟨c, m, hc, b, m', hb, rfl, rfl⟩ := h
    have hcond := expr_yields cond ht hc
    have hbody := stmt_yields body hcond.tidy hb
    rw [hcond.scopes] at hbody
    refine (((hcond.executes []).seq hbody).within fun i hi => ?_).mono
      fun hp => ⟨c, b, hp.1, hp.2, rfl⟩
    simpa [Translate.boxes, Translate.boxesOf] using hi
  | .function (.mk name params body), l, _, _, ht, h => by
    simp only [stmt, bind_eq_ok, get_eq_ok] at h
    obtain ⟨_, _, ⟨rfl, rfl⟩, h⟩ := h
    cases htop : l.scopes.atTop with
    | true =>
      simp only [htop, if_true, bind_eq_ok, pure_eq_ok] at h
      obtain ⟨c, m, hf, instr, m', hd, rfl, rfl⟩ := h
      have hclo := function_declared ht (by decide) (stmts_yields body) hf
      have hdef := (defineGlobal_yields hclo.tidy hd).executes [instr]
      have hall := hclo.seq hdef
      rw [hclo.scopes_eq] at hall
      have hsc : l.scopes.declare name.name = l.scopes :=
        Scopes.declare_of_nil _ (l.scopes.atTop_iff.mp htop)
      simp only [Stmt.walk, FunctionDecl.name, hsc]
      refine hall.mono fun hp => ?_
      simp only [Translate.stmt, htop, if_true]
      exact ⟨c, instr, hp.1, hp.2, rfl⟩
    | false =>
      simp only [htop, Bool.false_eq_true, if_false, bind_eq_ok, get_eq_ok, pure_eq_ok] at h
      obtain ⟨_, _, ⟨rfl, rfl⟩, instr, m, hd, c, m1, hf, c', m2, ha, rfl, rfl⟩ := h
      have hdecl := declareLocal_executes ht htop hd
      have hclo := function_declared hdecl.tidy (by decide) (stmts_yields body) hf
      rw [hdecl.scopes_eq] at hclo
      have ho : m1.scopes.Opens l.scopes.nextKey := by
        rw [hclo.scopes_eq]
        exact (FunctionDecl.walk_extends _ _ _).mem (l.scopes.declared_next name.name htop)
      have hassi := assignKey_yields hclo.tidy ho ha
      have hfr : m1.scopes.frame = l.scopes.frame := by
        rw [hclo.scopes_eq, (FunctionDecl.walk_extends _ _ _).frame, Scopes.declare_frame]
      rw [hfr] at hassi
      have hall := (hdecl.seq hclo).seq (hassi.executes [.evaluate c'])
      rw [hclo.scopes_eq] at hall
      have hms : ([] ++ (FunctionDecl.mk name params body).mentions) ++ [] =
          (Stmt.function (.mk name params body)).mentions false := by
        simp [Stmt.mentions, mentionsOfName]
      refine hall.mono fun hp => ?_
      simp only [Translate.stmt, htop, Bool.false_eq_true, if_false]
      exact ⟨instr, c, c', hp.1.1, hp.1.2, hp.2, rfl⟩
  | .leave none, _, _, _, ht, h => by
    obtain ⟨_, _, ⟨rfl, rfl⟩, rfl, rfl⟩ := h
    refine Evaluates.executes ⟨.of_below ht (.refl _) rfl fun hb => ?_, rfl, rfl⟩ _
    rw [Translate.stmt, hb.current.kind]
  | .leave (some e), _, _, _, ht, h => by
    simp only [stmt, bind_eq_ok, pure_eq_ok] at h
    obtain ⟨c, m, he, rfl, rfl⟩ := h
    exact ((expr_yields e ht he).mono fun hp => ⟨c, hp, rfl⟩).executes _
  | .classDecl name none ms, l, _, _, ht, h => by
    simp only [stmt, bind_eq_ok, pure_eq_ok] at h
    obtain ⟨⟨start, u, v⟩, m, hs, rest, m', hms, rfl, rfl⟩ := h
    have hsta := classStart_executes ht hs
    have hm := methods_yields ms v hsta.tidy hms
    rw [hsta.scopes_eq] at hm
    refine (hsta.seq hm).mono fun hp => ?_
    obtain ⟨⟨declared, symbol, named, hdecl, hname, hspare, hnamed, rfl⟩, hr⟩ := hp
    exact ⟨declared, symbol, v, named, rest, hdecl, hname, hspare, hnamed, hr, by simp⟩
  | .classDecl name (some sup) ms, l, _, _, ht, h => by
    simp only [stmt, superScope, bind_eq_ok, onScopes_eq_ok, pure_eq_ok] at h
    obtain ⟨⟨start, u, v⟩, m, hs, opened, m1, ⟨_, _, rfl, hd⟩, rest, m2, hms, _, _,
      rfl, rfl, rfl⟩ := h
    have hsta := classStart_super_executes ht hs
    have hdecl := declareLocal_executes (push_executes hsta.tidy).tidy rfl hd
    have hm := methods_yields ms v hdecl.tidy hms
    rw [hdecl.scopes_eq] at hm
    have hext := (Scopes.Extends.declare m.scopes.push "super").trans (walkMethods_extends ms _)
    have hblock := (hdecl.seq hm).block hsta.tidy hext
    rw [hsta.scopes_eq] at hblock
    refine (hsta.seq hblock).mono fun hp => ?_
    obtain ⟨⟨declared, c, w, symbol, named, hdec, he, hu, hn, hv, hne, hnamed, rfl, rfl⟩, hopened,
      hr⟩ := hp
    exact ⟨declared, c, w, symbol, v, named, opened, rest, hdec, he, hu, hn, hv, hne, hnamed,
      hopened, hr, by simp⟩

theorem stmts_yields : ∀ (body : List Stmt) {l l' : Lowering} {code : List Instr}, l.Tidy →
    stmts body l = .ok code l' →
      Executes l l' (walkAll body l.scopes) code (mentionsOfAll l.scopes.atTop body)
        fun G F => Translate.stmts G F l.scopes body code
  | [], _, _, _, ht, h => by
    obtain ⟨rfl, rfl⟩ := h
    exact ((Evaluates.refl ht).mono fun _ => rfl).executes []
  | s :: rest, _, _, _, ht, h => by
    simp only [stmts, bind_eq_ok, pure_eq_ok] at h
    obtain ⟨first, m, hf, next, m', hn, rfl, rfl⟩ := h
    have hfst := stmt_yields s ht hf
    have hr := stmts_yields rest hfst.tidy hn
    rw [hfst.scopes_eq, (s.walk_extends _).atTop] at hr
    exact (hfst.seq hr).mono fun hp => ⟨first, next, hp.1, hp.2, rfl⟩

theorem methods_yields : ∀ (ms : List FunctionDecl) (v : Nat) {l l' : Lowering}
    {code : List Instr}, l.Tidy → methods v ms l = .ok code l' →
      Executes l l' (walkMethods ms l.scopes) code (mentionsOfMethods ms)
        fun G F => Translate.methods G F v l.scopes ms code
  | [], _, _, _, _, ht, h => by
    obtain ⟨rfl, rfl⟩ := h
    exact ((Evaluates.refl ht).mono fun _ => rfl).executes []
  | .mk name params body :: rest, v, _, _, _, ht, h => by
    simp only [methods, bind_eq_ok, pure_eq_ok] at h
    obtain ⟨c, m, hf, instr, m1, ha, code, m2, hr, rfl, rfl⟩ := h
    have hclo := function_declared ht (FunctionKind.ofMethod_ne_script _) (stmts_yields body) hf
    have hadd := addMethod_evaluates hclo.tidy ha
    have hfst := hclo.seq (hadd.executes [instr])
    have hrest := methods_yields rest v hfst.tidy hr
    rw [hfst.scopes_eq, hclo.scopes_eq, FunctionKind.hasReceiver_ofMethod] at hrest
    refine (hfst.seq hrest).mono fun hp => ?_
    obtain ⟨⟨hc, symbol, hn, rfl⟩, hcode⟩ := hp
    exact ⟨c, symbol, code, hc, hn, hcode, rfl⟩

end

theorem script_start {name : String} {s : Store} {captured : List Key} {d result : Nat}
    (hd : declare ⟨name, .exported, .words 0⟩
      { store := s, unit := { name := name }, captured := captured } = .ok d m)
    (hu : use .stackOverflow m = .ok u m1) (hv : newVariable m1 = .ok result m2) :
    d = 0 ∧ result = resultVariable ∧ m2.Tidy ∧ m2.store = s ∧ m2.scopes = {} ∧ m2.bindings = [] ∧
      m2.unit.definitions = #[] ∧ 0 < m2.unit.declarations.size ∧ m2.current.kind = .script ∧
        m2.current.upvalues = [] ∧ m2.current.locals = 1 := by
  obtain ⟨rfl, hq, hs, _⟩ := declare_quiet hd
  have hq' := hq.trans (use_quiet hu)
  obtain ⟨rfl, rfl⟩ := hv
  have hsc : m1.scopes = {} := hq'.scopes
  have hb : m1.bindings = [] := hq'.bindings
  have hdefs : m1.unit.definitions = #[] := hq'.definitions
  have hups : m1.current.upvalues = [] := hq'.upvalues
  have hloc : m1.current.locals = 0 := hq'.locals
  have hpos : 0 < m1.unit.declarations.size :=
    Nat.lt_of_lt_of_le (hs ▸ Nat.succ_pos _) (use_quiet hu).declarations
  refine ⟨rfl, hloc, ?_, hq'.store, hsc, hb, hdefs, hpos, hq'.kind, hups, by simp [hloc]⟩
  constructor <;> simp [hsc, hb, hdefs, hups, Table.get?]

end Lower

theorem Store.compile_yields {s s' : Store} {name : String} {program : Program} {unit : CodeUnit}
    (h : s.compile name program = (.ok unit, s')) :
    s' = s.mentionAll program.mentions ∧ ∀ sites : Nat → Symbol, ∃ G F code,
      (∀ k < s.sites.size, G.site k = sites k) ∧ G.store = s' ∧ G.unit = unit ∧
        Translate.Script G F program code := by
  unfold Store.compile at h
  cases hcap : Capture.captures program with
  | error e => simp [hcap] at h
  | ok captured =>
    simp only [hcap] at h
    split at h <;> cases h
    next l hs =>
      simp only [Lower.script, Lower.bind_eq_ok, Lower.get_eq_ok, Lower.pure_eq_ok] at hs
      obtain ⟨d, m, hd, _, m1, hu, result, m2, hv, code, l', hb, _, _, ⟨rfl, rfl⟩, hunit, rfl⟩ := hs
      obtain ⟨rfl, rfl, ht, hst, hsc, hbind, hdefs, hpos, hkind, hups, hloc⟩ :=
        Lower.script_start hd hu hv
      have hall := Lower.stmts_yields program ht hb
      rw [hsc] at hall
      refine ⟨hall.store.trans (by rw [hst]; rfl), fun older => ?_⟩
      obtain ⟨sites, hsites, hp⟩ := hall.holds older
      let G : Final := { store := l'.store, unit := unit, bindings := l'.bindings, site := sites }
      have hn : l'.unit.body? 0 = none := by
        rw [hall.grows.bodies hpos]
        simp [CodeUnit.body?, hdefs]
      have hbelow : l'.Below sites G l'.current := by
        refine { store := .refl _, bindings := id, own := .inl, closed := fun h _ _ => h,
                 bodies := ?_, current := .refl _, sites := fun _ => rfl }
        intro d b hd
        show unit.body? d = some b
        rw [← hunit, Lower.body?_define, hd, Option.some_or]
      refine ⟨G, l'.current, code, fun k hk => hsites k (by rw [hst]; exact hk), rfl, rfl, ?_⟩
      refine { kind := hall.grows.current.kind.trans hkind, upvalues := ?_, statements := hp hbelow,
               function := ?_, result := ?_, unbound := ?_, boxed := ?_,
               injective := hall.tidy.injective }
      · refine List.eq_nil_iff_forall_not_mem.mpr fun k hk => ?_
        obtain ⟨scope, hs, _⟩ := hall.tidy.upvalues k hk
        have hempty := (walkAll_extends program {}).stack
        rw [hall.scopes_eq] at hs
        rcases hempty with ⟨_, hempty⟩ | ⟨_, _, _, hne, _⟩
        · rw [hempty] at hs
          cases hs
        · cases hne
      · show CodeUnit.function? unit 0 = _
        rw [CodeUnit.function?, ← hunit, Lower.body?_define, hn]
        rfl
      · exact Nat.lt_of_lt_of_le (by rw [hloc]; exact Nat.one_pos) hall.grows.current.locals
      · intro key storage hk
        rcases hall.grows.own (by rw [hsc]; exact hk) with hk | hk
        · simp [hbind, Table.get?] at hk
        · rw [hloc] at hk
          exact Nat.ne_of_gt hk
      · intro key index hk
        rcases hall.boxed (by rw [hsc]; exact hk) with hk | hk
        · simp [hbind, Table.get?] at hk
        · exact hk

end ScriptMachine
