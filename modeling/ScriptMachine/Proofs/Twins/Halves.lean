/-
ScriptMachine.Proofs.Twins.Halves — a program lowered in two halves, and as a
whole.
-/
import ScriptMachine.Proofs.Lowers.Acceptance
import ScriptMachine.Proofs.Twins.Machines
import ScriptMachine.Proofs.Twins.Programs
import ScriptMachine.Proofs.Twins.Walks

namespace ScriptMachine

theorem mentionsOfAll_append (atTop : Bool) (body rest : List Stmt) :
    mentionsOfAll atTop (body ++ rest) = mentionsOfAll atTop body ++ mentionsOfAll atTop rest := by
  induction body with
  | nil => rfl
  | cons s body ih =>
    show s.mentions atTop ++ mentionsOfAll atTop (body ++ rest) = _
    rw [ih, ← List.append_assoc]
    rfl

theorem wellScopedAll_append {program rest : List Stmt} (h : wellScopedAll [] (program ++ rest)) :
    wellScopedAll [] program ∧ wellScopedAll [] rest := by
  induction program with
  | nil => exact ⟨trivial, h⟩
  | cons s program ih =>
    obtain ⟨hs, hr⟩ := h
    exact ⟨⟨hs, (ih hr).1⟩, (ih hr).2⟩

theorem Store.interned_of_hasRoom {s : Store} {ms : List Mention} (h : s.HasRoom ms) {text : String}
    (ht : text ∈ textsOf ms) : (s.mentionAll ms).heap.interned.get? text ≠ none := by
  induction ms generalizing s with
  | nil => cases ht
  | cons m ms ih =>
    obtain ⟨hcan, hr⟩ := h
    cases hm : m.text? with
    | none =>
      rw [textsOf, List.filterMap_cons_none hm] at ht
      exact ih hr ht
    | some other =>
      rw [textsOf, List.filterMap_cons_some hm] at ht
      rcases List.mem_cons.mp ht with rfl | ht
      · obtain rfl : m = .text text := by cases m <;> simp_all [Mention.text?]
        obtain ⟨w, hw⟩ := hcan
        obtain ⟨i, hi, _⟩ := Lower.interned_of_internText hw
        have hl := ((s.mention (.text text)).prepares_mentionAll ms).later.interned hi
        show ((s.mention (.text text)).mentionAll ms).heap.interned.get? text ≠ none
        rw [hl]
        rintro ⟨⟩
      · exact ih hr ht

namespace Lower

theorem stmts_append (program rest : List Stmt) :
    stmts (program ++ rest) = do
      let body ← stmts program
      let more ← stmts rest
      return body ++ more := by
  induction program with
  | nil => simp [stmts]
  | cons s program ih =>
    simp only [List.cons_append, stmts, ih, bind_assoc, pure_bind, List.append_assoc]

structure Halfway (program rest : Program) (s : Store) (m n : Lowering) (body more : List Instr) :
    Prop where
  start : ∃ l all, l.Fresh s all ∧ Capture.captures (program ++ rest) = .ok all ∧
    stmts program l = .ok body m
  second : stmts rest m = .ok more n
  wellScoped : Program.WellScoped (program ++ rest)
  room : s.HasRoom (Program.mentions (program ++ rest))

end Lower

theorem Store.compile_halfway {s t : Store} {name : String} {program rest : Program}
    {unit : CodeUnit} (h : s.compile name (program ++ rest) = (.ok unit, t)) :
    ∃ m n body more, Lower.Halfway program rest s m n body more ∧
      unit = Lower.scriptUnit n (body ++ more) ∧ t = n.store := by
  cases hcap : Capture.captures (program ++ rest) with
  | error e =>
    rw [compile_eq, hcap] at h
    cases h
  | ok all =>
    obtain ⟨hw, hr⟩ := (compile_isOk_iff (Capture.captures_ok hcap).1 s name).mp
      ⟨unit, congrArg Prod.fst h⟩
    rw [Program.texts, ← s.hasRoom_iff] at hr
    obtain ⟨l, hl, heq⟩ := s.compile_fresh name hcap
    rw [heq] at h
    cases hall : Lower.stmts (program ++ rest) l with
    | error e n =>
      rw [hall] at h
      cases h
    | ok code n =>
      rw [hall] at h
      cases h
      simp only [Lower.stmts_append, Lower.bind_eq_ok, Lower.pure_eq_ok] at hall
      obtain ⟨body, m, hfst, more, _, hsnd, rfl, rfl⟩ := hall
      exact ⟨m, _, body, more, ⟨⟨l, all, hl, hcap, hfst⟩, hsnd, hw, hr⟩, rfl, rfl⟩

def Lower.scriptEnd : List Instr := [.leave (.readVariable 0)]

def View.moved (places total : Nat) : View where
  place i := if i = 0 then 0 else i + places
  least := 1
  total := total
  bound := total + places
  place_lt {i} hi := by split <;> omega
  injective {i j} _ _ := by split <;> split <;> omega

namespace Scene

def before (P : Pair) (u u' : CodeUnit) (locals locals' : Nat) (more : List Instr) : Scene where
  pair := P
  unit := u
  unit' := u'
  view := .whole locals
  total' := locals'
  leaves := false
  script := true
  rest := Lower.scriptEnd
  rest' := more ++ Lower.scriptEnd

def after (P : Pair) (u u' : CodeUnit) (places locals : Nat) : Scene where
  pair := P
  unit := u
  unit' := u'
  view := .moved places locals
  total' := locals + places
  rest := Lower.scriptEnd
  rest' := Lower.scriptEnd

end Scene

namespace Lower.Halfway

variable {program rest : Program} {s : Store} {m n : Lowering} {body more : List Instr}
  (h : Halfway program rest s m n body more)

include h

theorem middle :
    m.Tidy ∧ m.scopes = walkAll program {} ∧ m.current.kind = .script ∧ 0 < m.current.locals ∧
      m.store = s.mentionAll (Program.mentions program) := by
  obtain ⟨l, all, hl, _, hfst⟩ := h.start
  have hex := stmts_yields program hl.tidy hfst
  have hk : m.current.kind = .script := hex.grows.current.kind.trans hl.kind
  refine ⟨hex.tidy, ?_, hk, hex.tidy.result hk, ?_⟩
  · rw [hex.scopes_eq, hl.scopes]
  · rw [hex.store, hl.store, hl.scopes]
    rfl

theorem grows : m.Grows n :=
  (stmts_yields rest h.middle.1 h.second).grows

theorem function? :
    (scriptUnit n (body ++ more)).function? 0 = some
      (scriptOf n.current.locals (body ++ more)) := by
  obtain ⟨l, all, hl, _, hfst⟩ := h.start
  exact function?_scriptUnit hl ((stmts_yields program hl.tidy hfst).grows.trans h.grows) _

theorem first {K : Kin} (hs : K.Stores s s) (hstays : staysAll program = true) (name : String) :
    ∃ k code, s.compile name program = (.ok (scriptUnit k code), k.store) ∧
      (scriptUnit k code).function? 0 = some (scriptOf k.current.locals code) ∧
      k.current.locals = m.current.locals ∧ (∃ K' : Kin, K'.Stores k.store n.store) ∧
      ∀ more', (Scene.before ⟨k.store, n.store⟩ (scriptUnit k code) (scriptUnit n (body ++ more))
        k.current.locals n.current.locals more').InstrLists false code body := by
  obtain ⟨l', all, hl', hcap, hfst⟩ := h.start
  obtain ⟨own, _, hown, _, hc, _⟩ := Capture.captures_append hcap
  obtain ⟨l, hl, heq⟩ := s.compile_fresh name hown
  let T := K.tandem (walkAll program {}).nextKey
  have hT : T.Level := ⟨rfl, rfl, rfl⟩
  have htwins : T.Twins l l' := hT.twins hl hl' ⟨K, .refl K, hs⟩ hc
  have hm := Tandem.stmts_meets program false ⟨htwins, hl.scopes⟩ (Nat.le_refl _) fun _ => hstays
  rw [Tandem.Steps, hfst] at hm
  generalize hr : stmts program l = r at hm
  cases hm with
  | first hf => exact hf.elim
  | @ok code k _ _ ht =>
    rw [hr] at heq
    obtain ⟨K1, _, hs1⟩ := ht.twins.store
    have hloc : m.current.locals = k.current.locals := by
      rw [ht.twins.locals]
      exact congrArg (_ + ·) (ite_self 0)
    refine ⟨k, code, heq, function?_scriptUnit hl ht.grows code, hloc.symm, ?_, fun more' => ?_⟩
    · have hmen := (stmts_yields rest h.middle.1 h.second).store
      obtain ⟨K2, _, hs2⟩ := hs1.second_takesAll (mentionsOfAll m.scopes.atTop rest)
      rw [← hmen] at hs2
      exact ⟨K2, hs2⟩
    · refine ht.ends ?_
      refine ⟨.refl _, h.grows.store.later, body?_scriptUnit code, fun hb => ?_, fun {i} _ => ?_,
        Nat.zero_le _, Nat.le_refl _⟩
      · exact body?_scriptUnit _ (h.grows.body h.middle.1 hb)
      · show i = T.placeOf k.scopes.frame i
        exact (ite_self i).symm

theorem twins {t : Store} {own : List Key} {l : Lowering}
    (hl : l.Fresh t own) (hown : Capture.captures rest = .ok own) :
    (Tandem.behind program rest (m.current.locals - 1)).Twins l m := by
  obtain ⟨ht, hsc, hkind, hpos, _⟩ := h.middle
  obtain ⟨htop, _⟩ := walkAll_top program
  obtain ⟨l', all, hl', hcap, hfst⟩ := h.start
  obtain ⟨_, own', _, hown', _, hc⟩ := Capture.captures_append hcap
  obtain rfl : own = own' := Except.ok.inj (hown.symm.trans hown')
  have hg := (stmts_yields program hl'.tidy hfst).grows
  constructor
  · exact hl.tidy
  · exact ht
  · trivial
  · rw [hl.scopes, hsc, Tandem.scopesOf_behind]
  · intro k
    rw [hl.bindings]
    show m.bindings.get? (k + (walkAll program {}).nextKey) = none
    cases hb : m.bindings.get? (k + (walkAll program {}).nextKey) with
    | none => rfl
    | some b =>
      have hlt := ht.keys hb
      rw [hsc] at hlt
      exact absurd hlt (Nat.not_lt.mpr (Nat.le_add_left _ k))
  · intro k _
    rw [hl.captured, hg.captured, hl'.captured]
    exact hc k
  · exact hkind.trans hl.kind.symm
  · exact fun _ => hl.kind
  · rw [hl.upvalues]
    refine List.eq_nil_iff_forall_not_mem.mpr fun k hk => ?_
    obtain ⟨scope, hmem, _⟩ := ht.upvalues k hk
    rw [hsc, htop] at hmem
    cases hmem
  · rw [hl.scopes, hl.locals]
    show m.current.locals = 1 + (m.current.locals - 1)
    omega
  · intro k storage hb
    rw [hl.bindings] at hb
    cases hb

theorem interned {text : String}
    (ht : text ∈ textsOf (Program.mentions rest)) : n.store.heap.interned.get? text ≠ none := by
  obtain ⟨htidy, hsc, _, _, hst⟩ := h.middle
  have hr := h.room
  unfold Program.mentions at hr ht
  rw [mentionsOfAll_append, s.hasRoom_append] at hr
  have hint := Store.interned_of_hasRoom hr.2 ht
  have hat : m.scopes.atTop = true := by
    rw [hsc, Scopes.atTop_iff]
    exact (walkAll_top program).1
  rw [(stmts_yields rest htidy h.second).store, hst, hat]
  exact hint

theorem other {K : Kin} {t r : Store} (hs : K.Stores t r) (hr : n.store.Later r) (name : String) :
    ∃ k code, t.compile name rest = (.ok (scriptUnit k code), k.store) ∧
      (scriptUnit k code).function? 0 = some (scriptOf k.current.locals code) ∧
      n.current.locals = k.current.locals + (m.current.locals - 1) ∧ 0 < k.current.locals ∧
      (∃ K' : Kin, K.Moves K' ∧ K'.Stores k.store r) ∧
      (Scene.after ⟨k.store, r⟩ (scriptUnit k code) (scriptUnit n (body ++ more))
        (m.current.locals - 1) k.current.locals).InstrLists true code more := by
  obtain ⟨l', all, _, hcap, _⟩ := h.start
  obtain ⟨_, own, _, hown, _⟩ := Capture.captures_append hcap
  obtain ⟨hroom, K', hmoves, hs'⟩ := hs.first_takesAll (Program.mentions rest) fun text htext => by
    obtain ⟨i, hi⟩ := Option.ne_none_iff_exists'.mp (h.interned htext)
    rw [hr.interned hi]
    rintro ⟨⟩
  obtain ⟨unit, hu⟩ := (Store.compile_isOk_iff (Capture.captures_ok hown).1 t name).mpr
    ⟨(wellScopedAll_append h.wellScoped).2, (t.hasRoom_iff _).mp hroom⟩
  obtain ⟨l, hl, heq⟩ := t.compile_fresh name hown
  cases hc : stmts rest l with
  | error e k =>
    rw [heq, hc] at hu
    cases hu
  | ok code k =>
    rw [hc] at heq
    have hex := stmts_yields rest hl.tidy hc
    have hm := Tandem.stmts_meets rest true ⟨h.twins hl hown, hl.scopes⟩
      (Nat.le_refl _) (by rintro ⟨⟩)
    rw [Tandem.Steps, hc, h.second] at hm
    cases hm with
    | ok ht =>
      have hfr : k.scopes.frame = 0 := by rw [hex.grows.frame, hl.scopes]
      have hk := hex.grows.current.kind.trans hl.kind
      have hloc : n.current.locals = k.current.locals + (m.current.locals - 1) := by
        rw [ht.twins.locals, if_pos hfr]
        rfl
      refine ⟨k, code, heq, function?_scriptUnit hl hex.grows code, hloc,
        hex.tidy.result hk, ⟨K', hmoves, ?_⟩, ?_⟩
      · have hst : k.store = t.mentionAll (Program.mentions rest) := by
          rw [hex.store, hl.store, hl.scopes]
          rfl
        rw [hst]
        exact hs'
      · refine ht.ends ?_
        refine ⟨.refl _, hr, body?_scriptUnit code, body?_scriptUnit _, fun {i} _ => ?_, ?_,
          Nat.le_refl _⟩
        · show (if i = 0 then 0 else i + (m.current.locals - 1)) = Tandem.placeOf _ k.scopes.frame i
          rw [hfr]
          by_cases hi : i = 0
          · simp [Tandem.placeOf, hi]
          · simp [Tandem.placeOf, hi, Tandem.behind]
        · rw [hfr]
          exact Nat.le_refl 1

end Lower.Halfway

end ScriptMachine
