/-
ScriptMachine.Proofs.Twins.Walks — a program walked again, from a point where
more declarations and functions were met before it.
-/
import ScriptMachine.Proofs.Twins.Trees

namespace ScriptMachine

variable {use : Use} {bound : Key} {target : Resolution} {sc : Scopes}

theorem Scopes.openFunction_frame_lt (a : Scopes) (isMethod : Bool) (params : List String) :
    (a.openFunction isMethod params).frame < (a.openFunction isMethod params).nextFrame := by
  rw [openFunction_frame]
  refine Nat.le_trans ?_ (Extends.declareAll params _).nextFrame
  cases isMethod with
  | false => exact Nat.le_refl _
  | true => exact Nat.le_of_eq (declare_nextFrame a.enter.push "this").symm

theorem Scopes.Extends.frame_lt {a b : Scopes} (h : a.Extends b) (ha : a.frame < a.nextFrame) :
    b.frame < b.nextFrame :=
  h.frame ▸ Nat.lt_of_lt_of_le ha h.nextFrame

namespace Tandem

variable {T : Tandem}

theorem declareAll_scopesOf (names : List String) (sc : Scopes) :
    names.foldl .declare (T.scopesOf sc) = T.scopesOf (names.foldl .declare sc) := by
  induction names generalizing sc with
  | nil => rfl
  | cons name names ih => rw [List.foldl_cons, List.foldl_cons, scopesOf_declare, ih]

theorem openFunction_scopesOf (h : sc.frame < sc.nextFrame) (isMethod : Bool)
    (params : List String) :
    (T.scopesOf sc).openFunction isMethod params = T.scopesOf
      (sc.openFunction isMethod params) := by
  unfold Scopes.openFunction
  rw [scopesOf_enter h]
  cases isMethod with
  | false =>
    simp only [Bool.false_eq_true, if_false]
    rw [scopesOf_push, declareAll_scopesOf]
  | true =>
    simp only [if_true]
    rw [scopesOf_push, scopesOf_declare, scopesOf_push, declareAll_scopesOf]

mutual

theorem walk_scopesOf : ∀ (s : Stmt) {sc : Scopes}, sc.frame < sc.nextFrame →
    s.walk (T.scopesOf sc) = T.scopesOf (s.walk sc)
  | .expression _, _, _ | .print _, _, _ | .leave _, _, _ => rfl
  | .declare name _, sc, _ => scopesOf_declare sc name
  | .block body, sc, h => by
    show (walkAll body (T.scopesOf sc).push).pop = T.scopesOf (walkAll body sc.push).pop
    rw [scopesOf_push, walkAll_scopesOf body (by exact h), scopesOf_pop]
  | .branch _ yes none, _, h => walk_scopesOf yes h
  | .branch _ yes (some no), sc, h => by
    show no.walk (yes.walk (T.scopesOf sc)) = T.scopesOf (no.walk (yes.walk sc))
    rw [walk_scopesOf yes h, walk_scopesOf no ((yes.walk_extends sc).frame_lt h)]
  | .loop _ body, _, h => walk_scopesOf body h
  | .function (.mk name params body), sc, h => by
    rw [Stmt.walk, Stmt.walk, scopesOf_declare]
    exact functionWalk_scopesOf (.mk name params body) false
      ((Scopes.Extends.declare sc name.name).frame_lt h)
  | .classDecl name none ms, sc, h => by
    rw [Stmt.walk, Stmt.walk, scopesOf_declare]
    exact walkMethods_scopesOf ms ((Scopes.Extends.declare sc name).frame_lt h)
  | .classDecl name (some _) ms, sc, h => by
    have hext := Scopes.Extends.declare (sc.declare name).push "super"
    have hlt : (sc.declare name).push.frame < (sc.declare name).push.nextFrame :=
      (Scopes.Extends.declare sc name).frame_lt h
    rw [Stmt.walk, Stmt.walk, scopesOf_declare, scopesOf_push, scopesOf_declare,
      walkMethods_scopesOf ms (hext.frame_lt hlt), scopesOf_pop]

theorem walkAll_scopesOf : ∀ (body : List Stmt) {sc : Scopes}, sc.frame < sc.nextFrame →
    walkAll body (T.scopesOf sc) = T.scopesOf (walkAll body sc)
  | [], _, _ => rfl
  | s :: rest, sc, h => by
    rw [walkAll, walkAll, walk_scopesOf s h, walkAll_scopesOf rest ((s.walk_extends sc).frame_lt h)]

theorem functionWalk_scopesOf : ∀ (decl : FunctionDecl) (isMethod : Bool) {sc : Scopes},
    sc.frame < sc.nextFrame →
      decl.walk isMethod (T.scopesOf sc) = T.scopesOf (decl.walk isMethod sc)
  | .mk name params body, isMethod, sc, h => by
    rw [FunctionDecl.walk, FunctionDecl.walk, openFunction_scopesOf h,
      walkAll_scopesOf body (sc.openFunction_frame_lt isMethod params)]
    exact scopesOf_closeFunction _ isMethod sc.frame

theorem walkMethods_scopesOf : ∀ (ms : List FunctionDecl) {sc : Scopes}, sc.frame < sc.nextFrame →
    walkMethods ms (T.scopesOf sc) = T.scopesOf (walkMethods ms sc)
  | [], _, _ => rfl
  | m :: rest, sc, h => by
    rw [walkMethods, walkMethods, functionWalk_scopesOf m true h,
      walkMethods_scopesOf rest ((m.walk_extends true sc).frame_lt h)]

end

def useOf (T : Tandem) (use : Use) : Use := ⟨T.scopesOf use.scopes, use.name, use.depth⟩

theorem superUses_scopesOf (target : Resolution) (sc : Scopes) :
    target.superUses (T.scopesOf sc) = (target.superUses sc).map T.useOf := by
  cases target with
  | global => rfl
  | scope depth => by_cases h : depth = 0 <;> simp [Resolution.superUses, useOf, h]

theorem uses_scopesOf (target : Resolution) (name : String) (sc : Scopes) :
    target.uses (T.scopesOf sc) name = (target.uses sc name).map T.useOf := by
  cases target <;> rfl

mutual

theorem exprUses_scopesOf : ∀ (e : Expr) (sc : Scopes),
    e.uses (T.scopesOf sc) = (e.uses sc).map T.useOf
  | .literal _, _ => rfl
  | .group inner, sc => exprUses_scopesOf inner sc
  | .unary _ operand, sc => exprUses_scopesOf operand sc
  | .binary _ left right, sc | .logical _ left right, sc => by
    simp [Expr.uses, exprUses_scopesOf left sc, exprUses_scopesOf right sc]
  | .read name target, sc => uses_scopesOf target name.name sc
  | .assign name target value, sc => by
    simp [Expr.uses, exprUses_scopesOf value sc, uses_scopesOf]
  | .call callee arguments _, sc => by
    simp [Expr.uses, exprUses_scopesOf callee sc, argumentUses_scopesOf arguments sc]
  | .get object _, sc => exprUses_scopesOf object sc
  | .set object _ value, sc => by
    simp [Expr.uses, exprUses_scopesOf object sc, exprUses_scopesOf value sc]
  | .self _ target, sc => uses_scopesOf target "this" sc
  | .super _ _ target, sc => superUses_scopesOf target sc

theorem argumentUses_scopesOf : ∀ (es : List Expr) (sc : Scopes),
    usesOfArguments (T.scopesOf sc) es = (usesOfArguments sc es).map T.useOf
  | [], _ => rfl
  | e :: rest, sc => by
    simp [usesOfArguments, exprUses_scopesOf e sc, argumentUses_scopesOf rest sc]

end

theorem initialUses_scopesOf (initial : Option Expr) (sc : Scopes) :
    usesOfInitial (T.scopesOf sc) initial = (usesOfInitial sc initial).map T.useOf := by
  cases initial with
  | none => rfl
  | some e => exact exprUses_scopesOf e sc

mutual

theorem stmtUses_scopesOf : ∀ (s : Stmt) {sc : Scopes}, sc.frame < sc.nextFrame →
    s.uses (T.scopesOf sc) = (s.uses sc).map T.useOf
  | .expression e, sc, _ | .print e, sc, _ => exprUses_scopesOf e sc
  | .declare _ initial, sc, _ | .leave initial, sc, _ => initialUses_scopesOf initial sc
  | .block body, sc, h => by
    show usesOfAll (T.scopesOf sc).push body = (usesOfAll sc.push body).map T.useOf
    rw [scopesOf_push]
    exact usesOfAll_scopesOf body (by exact h)
  | .branch cond yes none, sc, h => by
    simp [Stmt.uses, exprUses_scopesOf cond sc, stmtUses_scopesOf yes h]
  | .branch cond yes (some no), sc, h => by
    simp [Stmt.uses, exprUses_scopesOf cond sc, stmtUses_scopesOf yes h, walk_scopesOf yes h,
      stmtUses_scopesOf no ((yes.walk_extends sc).frame_lt h)]
  | .loop cond body, sc, h => by
    simp [Stmt.uses, exprUses_scopesOf cond sc, stmtUses_scopesOf body h]
  | .function (.mk name params body), sc, h => by
    rw [Stmt.uses, Stmt.uses, scopesOf_declare]
    exact functionUses_scopesOf (.mk name params body) false
      ((Scopes.Extends.declare sc name.name).frame_lt h)
  | .classDecl name none ms, sc, h => by
    rw [Stmt.uses, Stmt.uses, scopesOf_declare]
    exact methodUses_scopesOf ms ((Scopes.Extends.declare sc name).frame_lt h)
  | .classDecl name (some superclass) ms, sc, h => by
    have hext := Scopes.Extends.declare (sc.declare name).push "super"
    have hlt : (sc.declare name).push.frame < (sc.declare name).push.nextFrame :=
      (Scopes.Extends.declare sc name).frame_lt h
    rw [Stmt.uses, Stmt.uses, scopesOf_declare, exprUses_scopesOf, scopesOf_push, scopesOf_declare,
      methodUses_scopesOf ms (hext.frame_lt hlt), List.map_append]

theorem usesOfAll_scopesOf : ∀ (body : List Stmt) {sc : Scopes}, sc.frame < sc.nextFrame →
    usesOfAll (T.scopesOf sc) body = (usesOfAll sc body).map T.useOf
  | [], _, _ => rfl
  | s :: rest, sc, h => by
    rw [usesOfAll, usesOfAll, stmtUses_scopesOf s h, walk_scopesOf s h,
      usesOfAll_scopesOf rest ((s.walk_extends sc).frame_lt h), List.map_append]

theorem functionUses_scopesOf : ∀ (decl : FunctionDecl) (isMethod : Bool) {sc : Scopes},
    sc.frame < sc.nextFrame →
      decl.uses isMethod (T.scopesOf sc) = (decl.uses isMethod sc).map T.useOf
  | .mk name params body, isMethod, sc, h => by
    rw [FunctionDecl.uses, FunctionDecl.uses, openFunction_scopesOf h]
    exact usesOfAll_scopesOf body (sc.openFunction_frame_lt isMethod params)

theorem methodUses_scopesOf : ∀ (ms : List FunctionDecl) {sc : Scopes}, sc.frame < sc.nextFrame →
    usesOfMethods (T.scopesOf sc) ms = (usesOfMethods sc ms).map T.useOf
  | [], _, _ => rfl
  | m :: rest, sc, h => by
    rw [usesOfMethods, usesOfMethods, functionUses_scopesOf m true h,
      functionWalk_scopesOf m true h,
      methodUses_scopesOf rest ((m.walk_extends true sc).frame_lt h), List.map_append]

end

theorem captures_useOf (use : Use) (key : Key) :
    (T.useOf use).Captures key ↔ ∃ k, use.Captures k ∧ key = k + T.keys := by
  unfold Use.Captures Use.LeadsTo useOf
  rw [resolve_scopesOf]
  constructor
  · rintro ⟨frame, hne, hr⟩
    cases hres : use.scopes.resolve use.name use.depth with
    | error e =>
      rw [hres] at hr
      cases hr
    | ok found =>
      rw [hres] at hr
      cases found with
      | none => cases hr
      | some d =>
        cases hr
        exact ⟨d.key, ⟨d.frame, fun heq => hne (congrArg T.frameOf heq), rfl⟩, rfl⟩
  · rintro ⟨k, ⟨frame, hne, hr⟩, rfl⟩
    refine ⟨T.frameOf frame, fun heq => hne (frameOf_inj.mp heq), ?_⟩
    rw [hr]
    rfl

end Tandem

def Scopes.Numbered (sc : Scopes) : Prop :=
  ∀ scope ∈ sc.stack, ∀ entry ∈ scope.entries, entry.2 < sc.nextKey

namespace Scopes.Numbered

variable {sc : Scopes} (h : sc.Numbered)

include h

theorem push : sc.push.Numbered := by
  intro scope hs entry he
  rcases List.mem_cons.mp hs with rfl | hs
  · cases he
  · exact h scope hs entry he

theorem pop : sc.pop.Numbered :=
  fun scope hs => h scope (List.mem_of_mem_tail hs)

theorem declare (name : String) : (sc.declare name).Numbered := by
  cases hstk : sc.stack with
  | nil =>
    rw [Scopes.declare_of_nil name hstk]
    exact h
  | cons top rest =>
    have hold : ∀ scope ∈ sc.stack, ∀ entry ∈ scope.entries, entry.2 < sc.nextKey + 1 :=
      fun scope hs entry he => Nat.lt_succ_of_lt (h scope hs entry he)
    rw [Scopes.declare_of_cons name hstk]
    intro scope hs entry he
    rw [hstk] at hold
    rcases List.mem_cons.mp hs with rfl | hs
    · rcases List.mem_cons.mp he with rfl | he
      · exact Nat.lt_succ_self _
      · exact hold top List.mem_cons_self entry he
    · exact hold scope (List.mem_cons_of_mem _ hs) entry he

theorem declareAll (names : List String) : (names.foldl Scopes.declare sc).Numbered := by
  induction names generalizing sc with
  | nil => exact h
  | cons name names ih => exact ih (h.declare name)

theorem openFunction (isMethod : Bool) (params : List String) :
    (sc.openFunction isMethod params).Numbered := by
  have he : sc.enter.Numbered := h
  cases isMethod with
  | false => exact he.push.declareAll params
  | true => exact (he.push.declare "this").push.declareAll params

theorem closeFunction (isMethod : Bool) (frame : Nat) :
    (sc.closeFunction isMethod frame).Numbered := by
  cases isMethod with
  | false => exact h.pop
  | true => exact h.pop.pop

end Scopes.Numbered

structure Use.Met (bound : Key) (use : Use) : Prop where
  numbered : use.scopes.Numbered
  bound : use.scopes.nextKey ≤ bound

theorem Use.Met.mono {bound' : Key} (h : use.Met bound) (hle : bound ≤ bound') : use.Met bound' :=
  ⟨h.numbered, Nat.le_trans h.bound hle⟩

theorem Use.Met.captures_lt {key : Key} (h : use.Met bound) (hc : use.Captures key) :
    key < bound := by
  obtain ⟨frame, _, hr⟩ := hc
  unfold Use.LeadsTo Scopes.resolve at hr
  split at hr
  · cases hr
  · simp only [Except.ok.injEq, Option.bind_eq_bind, Option.bind_eq_some_iff, pure,
      Option.some.injEq] at hr
    obtain ⟨scope, hs, k, hk, heq⟩ := hr
    cases heq
    obtain ⟨before, after, hent, _⟩ := List.lookup_eq_some_iff.mp hk
    have hmem : (use.name, key) ∈ scope.entries := by simp [hent]
    exact Nat.lt_of_lt_of_le (h.numbered scope (List.mem_of_getElem? hs) _ hmem) h.bound

theorem Resolution.uses_scopes {name : String} (h : use ∈ target.uses sc name) :
    use.scopes = sc := by
  cases target with
  | global => cases h
  | scope depth =>
    obtain rfl := List.mem_singleton.mp h
    rfl

theorem Resolution.superUses_scopes (h : use ∈ target.superUses sc) : use.scopes = sc := by
  cases target with
  | global => cases h
  | scope depth =>
    rcases List.mem_cons.mp h with rfl | h
    · rfl
    · split at h
      · cases h
      · obtain rfl := List.mem_singleton.mp h
        rfl

mutual

theorem Expr.uses_scopes : ∀ (e : Expr) {sc : Scopes} {use : Use}, use ∈ e.uses sc → use.scopes = sc
  | .literal _, _, _, h => absurd h List.not_mem_nil
  | .group inner, _, _, h => inner.uses_scopes h
  | .unary _ operand, _, _, h => operand.uses_scopes h
  | .binary _ left right, _, _, h | .logical _ left right, _, _, h =>
    (List.mem_append.mp h).elim left.uses_scopes right.uses_scopes
  | .read _ _, _, _, h => Resolution.uses_scopes h
  | .assign _ _ value, _, _, h =>
    (List.mem_append.mp h).elim value.uses_scopes Resolution.uses_scopes
  | .call callee arguments _, _, _, h =>
    (List.mem_append.mp h).elim callee.uses_scopes (usesOfArguments_scopes arguments)
  | .get object _, _, _, h => object.uses_scopes h
  | .set object _ value, _, _, h =>
    (List.mem_append.mp h).elim object.uses_scopes value.uses_scopes
  | .self _ _, _, _, h => Resolution.uses_scopes h
  | .super _ _ _, _, _, h => Resolution.superUses_scopes h

theorem usesOfArguments_scopes : ∀ (es : List Expr) {sc : Scopes} {use : Use},
    use ∈ usesOfArguments sc es → use.scopes = sc
  | [], _, _, h => absurd h List.not_mem_nil
  | e :: rest, _, _, h => (List.mem_append.mp h).elim e.uses_scopes (usesOfArguments_scopes rest)

end

structure Scopes.Meets (sc : Scopes) (uses : List Use) : Prop where
  numbered : sc.Numbered
  uses : ∀ use ∈ uses, use.Met sc.nextKey

namespace Scopes.Meets

variable {a b : Scopes} {uses more : List Use}

theorem append (h : a.Meets uses) (h' : b.Meets more) (hle : a.nextKey ≤ b.nextKey) :
    b.Meets (uses ++ more) where
  numbered := h'.numbered
  uses use hu := (List.mem_append.mp hu).elim (fun hu => (h.uses use hu).mono hle) (h'.uses use)

theorem later (h : a.Meets uses) (hb : b.Numbered) (hle : a.nextKey ≤ b.nextKey) : b.Meets uses :=
  ⟨hb, fun use hu => (h.uses use hu).mono hle⟩

theorem of_scopes (h : a.Numbered) (huses : ∀ {use}, use ∈ uses → use.scopes = a) :
    a.Meets uses := by
  refine ⟨h, fun use hu => ?_⟩
  obtain rfl := huses hu
  exact ⟨h, Nat.le_refl _⟩

theorem expr (h : a.Numbered) (e : Expr) : a.Meets (e.uses a) := .of_scopes h e.uses_scopes

theorem initial (h : a.Numbered) (initial : Option Expr) : a.Meets (usesOfInitial a initial) := by
  cases initial with
  | none => exact ⟨h, nofun⟩
  | some e => exact .expr h e

end Scopes.Meets

mutual

theorem Stmt.meets : ∀ (s : Stmt) {sc : Scopes}, sc.Numbered → (s.walk sc).Meets (s.uses sc)
  | .expression e, _, h | .print e, _, h => .expr h e
  | .leave value, _, h => .initial h value
  | .declare name value, sc, h =>
    (Scopes.Meets.initial h value).later (h.declare name) (sc.nextKey_le_declare name)
  | .block body, _, h =>
    have hb := meetsAll body h.push
    hb.later hb.numbered.pop (Nat.le_refl _)
  | .branch cond yes none, sc, h =>
    (Scopes.Meets.expr h cond).append (yes.meets h) (yes.walk_extends sc).nextKey
  | .branch cond yes (some no), sc, h =>
    have hyes := (Scopes.Meets.expr h cond).append (yes.meets h) (yes.walk_extends sc).nextKey
    hyes.append (no.meets hyes.numbered) (no.walk_extends (yes.walk sc)).nextKey
  | .loop cond body, sc, h =>
    (Scopes.Meets.expr h cond).append (body.meets h) (body.walk_extends sc).nextKey
  | .function decl, _, h => decl.meets false (h.declare decl.name.name)
  | .classDecl name none ms, _, h => meetsMethods ms (h.declare name)
  | .classDecl name (some superclass) ms, sc, h => by
    have hn := h.declare name
    have hms := meetsMethods ms (hn.push.declare "super")
    have hle : (sc.declare name).nextKey ≤
        (walkMethods ms ((sc.declare name).push.declare "super")).nextKey :=
      Nat.le_trans (Scopes.nextKey_le_declare (sc.declare name).push "super")
        (walkMethods_extends ms _).nextKey
    have hall := (Scopes.Meets.expr hn superclass).append hms hle
    exact hall.later hall.numbered.pop (Nat.le_refl _)

theorem meetsAll : ∀ (body : List Stmt) {sc : Scopes}, sc.Numbered →
    (walkAll body sc).Meets (usesOfAll sc body)
  | [], _, h => ⟨h, nofun⟩
  | s :: rest, sc, h =>
    have hs := s.meets h
    hs.append (meetsAll rest hs.numbered) (walkAll_extends rest (s.walk sc)).nextKey

theorem FunctionDecl.meets (isMethod : Bool) : ∀ (decl : FunctionDecl) {sc : Scopes}, sc.Numbered →
    (decl.walk isMethod sc).Meets (decl.uses isMethod sc)
  | .mk name params body, sc, h => by
    have hb := meetsAll body (h.openFunction isMethod params)
    exact hb.later (hb.numbered.closeFunction isMethod sc.frame)
      (Nat.le_of_eq (Scopes.closeFunction_nextKey _ isMethod sc.frame).symm)

theorem meetsMethods : ∀ (ms : List FunctionDecl) {sc : Scopes}, sc.Numbered →
    (walkMethods ms sc).Meets (usesOfMethods sc ms)
  | [], _, h => ⟨h, nofun⟩
  | m :: rest, sc, h =>
    have hm := m.meets true h
    hm.append (meetsMethods rest hm.numbered) (walkMethods_extends rest (m.walk true sc)).nextKey

end

/-! ## §4 Captures -/

theorem usesOfAll_append (body rest : List Stmt) (sc : Scopes) :
    usesOfAll sc (body ++ rest) = usesOfAll sc body ++ usesOfAll (walkAll body sc) rest := by
  induction body generalizing sc with
  | nil => rfl
  | cons s body ih =>
    show s.uses sc ++ usesOfAll (s.walk sc) (body ++ rest) = _
    rw [ih, ← List.append_assoc]
    rfl

theorem walkAll_top (program : Program) :
    (walkAll program {}).stack = [] ∧ (walkAll program {}).frame = 0 := by
  have hext := walkAll_extends program {}
  refine ⟨?_, hext.frame⟩
  rcases hext.stack with ⟨_, hstk⟩ | ⟨_, _, _, hne, _⟩
  · exact hstk
  · cases hne

def Tandem.behind (before program : Program) (places : Nat) : Tandem where
  keys := (walkAll before {}).nextKey
  frames := (walkAll before {}).nextFrame - 1
  places := places
  bound := (walkAll program {}).nextKey
  stores _ _ := True
  tight := True
  tight' := True
  mention _ _ := trivial
  text {s s'} text _ := by
    cases h : (s.internText text).1 with
    | error e => exact .inr (.inl ⟨trivial, e, rfl⟩)
    | ok w =>
      cases h' : (s'.internText text).1 with
      | error e => exact .inr (.inr ⟨trivial, e, rfl⟩)
      | ok w' => exact .inl ⟨trivial, .inl ⟨w, w', rfl, rfl⟩⟩

theorem Tandem.scopesOf_behind (before program : Program) (places : Nat) :
    (Tandem.behind before program places).scopesOf {} = walkAll before {} := by
  obtain ⟨hstk, hfr⟩ := walkAll_top before
  have hn : 1 ≤ (walkAll before {}).nextFrame := (walkAll_extends before {}).nextFrame
  generalize hsc : walkAll before {} = sc at hstk hfr hn
  obtain ⟨stack, frame, nextFrame, nextKey⟩ := sc
  subst hstk hfr
  have hkey : 0 + (walkAll before {}).nextKey = nextKey := by rw [hsc, Nat.zero_add]
  have hcnt : 1 + ((walkAll before {}).nextFrame - 1) = nextFrame := by
    rw [hsc]
    exact Nat.add_sub_cancel' hn
  show Scopes.mk [] 0 (1 + ((walkAll before {}).nextFrame - 1))
    (0 + (walkAll before {}).nextKey) = _
  rw [hkey, hcnt]

namespace Capture

variable {program : Program}

theorem captures_of_countable (h : ∀ use ∈ program.uses, use.Countable) :
    ∃ captured, captures program = .ok captured := by
  cases hc : captures program with
  | ok captured => exact ⟨captured, rfl⟩
  | error e =>
    obtain ⟨_, use, hu, hne⟩ := captures_error hc
    exact absurd (h use hu) hne

theorem captures_append {rest : Program} {all : List Key}
    (h : captures (program ++ rest) = .ok all) :
    ∃ first second, captures program = .ok first ∧ captures rest = .ok second ∧
      (∀ k < (walkAll program {}).nextKey, all.contains k = first.contains k) ∧
      ∀ k, all.contains (k + (walkAll program {}).nextKey) = second.contains k := by
  obtain ⟨hcnt, hall⟩ := captures_ok h
  let T := Tandem.behind program rest 0
  have huses : Program.uses (program ++ rest) =
      Program.uses program ++ (Program.uses rest).map T.useOf := by
    unfold Program.uses
    rw [usesOfAll_append, ← Tandem.scopesOf_behind program rest 0,
      Tandem.usesOfAll_scopesOf rest Nat.one_pos]
  rw [huses] at hcnt hall
  obtain ⟨first, hfst⟩ := captures_of_countable fun use hu =>
    hcnt use (List.mem_append_left _ hu)
  obtain ⟨second, hsnd⟩ := captures_of_countable fun use (hu : use ∈ Program.uses rest) =>
    hcnt (T.useOf use) (List.mem_append_right _ (List.mem_map_of_mem hu))
  have hmet : ∀ use ∈ Program.uses program, use.Met T.keys := by
    have hn : Scopes.Numbered {} := nofun
    exact (meetsAll program hn).uses
  refine ⟨first, second, hfst, hsnd, fun k hk => ?_, fun k => ?_⟩
  · rw [Bool.eq_iff_iff, List.contains_iff_mem, List.contains_iff_mem, hall, (captures_ok hfst).2]
    constructor
    · rintro ⟨use, hu, hcap⟩
      rcases List.mem_append.mp hu with hu | hu
      · exact ⟨use, hu, hcap⟩
      · obtain ⟨use, _, rfl⟩ := List.mem_map.mp hu
        obtain ⟨k', _, rfl⟩ := (Tandem.captures_useOf use k).mp hcap
        exact absurd hk (Nat.not_lt.mpr (Nat.le_add_left _ k'))
    · rintro ⟨use, hu, hcap⟩
      exact ⟨use, List.mem_append_left _ hu, hcap⟩
  · show all.contains (k + T.keys) = second.contains k
    rw [Bool.eq_iff_iff, List.contains_iff_mem, List.contains_iff_mem, hall, (captures_ok hsnd).2]
    constructor
    · rintro ⟨use, hu, hcap⟩
      rcases List.mem_append.mp hu with hu | hu
      · exact absurd ((hmet use hu).captures_lt hcap) (Nat.not_lt.mpr (Nat.le_add_left _ k))
      · obtain ⟨use, hmem, rfl⟩ := List.mem_map.mp hu
        obtain ⟨k', hcap, heq⟩ := (Tandem.captures_useOf use _).mp hcap
        exact ⟨use, hmem, Nat.add_right_cancel heq ▸ hcap⟩
    · rintro ⟨use, hu, hcap⟩
      exact ⟨T.useOf use, List.mem_append_right _ (List.mem_map_of_mem hu),
        (Tandem.captures_useOf use _).mpr ⟨k, hcap, rfl⟩⟩

end Capture

end ScriptMachine
