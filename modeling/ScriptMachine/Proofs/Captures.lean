/-
ScriptMachine.Proofs.Captures — what the capture analysis finds.
-/
import ScriptMachine.Proofs.Scoping

namespace ScriptMachine

namespace Use

variable {use : Use}

def note (caps : List Key) (use : Use) : Except CompileError (List Key) := do
  match ← use.scopes.resolve use.name use.depth with
  | some d => return if d.frame = use.scopes.frame then caps else d.key :: caps
  | none => return caps

theorem note_of_not_countable (h : ¬use.Countable) (caps : List Key) :
    use.note caps = .error .depthOverflow := by
  have hd : use.depth.toNat + 1 = 0x10000000000000000 := by
    exact not_not.mp h
  unfold note Scopes.resolve
  rw [if_pos hd]
  rfl

theorem resolve_of_countable (h : use.Countable) :
    ∃ found, use.scopes.resolve use.name use.depth = .ok found := by
  unfold Scopes.resolve
  rw [if_neg h]
  exact ⟨_, rfl⟩

theorem note_of_countable (h : use.Countable) (caps : List Key) : ∃ keys, use.note caps = .ok keys ∧
      ∀ key, key ∈ keys ↔ key ∈ caps ∨ use.Captures key := by
  obtain ⟨found, hf⟩ := use.resolve_of_countable h
  unfold note Captures LeadsTo
  rw [hf]
  cases found with
  | none => exact ⟨caps, rfl, by simp⟩
  | some d =>
    obtain ⟨frame, k⟩ := d
    refine ⟨_, rfl, fun key => ?_⟩
    by_cases hfr : frame = use.scopes.frame
    · rw [if_pos hfr]
      constructor
      · exact .inl
      · rintro (hk | ⟨other, hne, heq⟩)
        · exact hk
        · obtain ⟨rfl, _⟩ : frame = other ∧ k = key := by simpa using heq
          exact absurd hfr hne
    · rw [if_neg hfr, List.mem_cons]
      constructor
      · rintro (rfl | hk)
        · exact .inr ⟨frame, hfr, rfl⟩
        · exact .inl hk
      · rintro (hk | ⟨other, _, heq⟩)
        · exact .inr hk
        · obtain ⟨_, rfl⟩ : frame = other ∧ k = key := by simpa using heq
          exact .inl rfl

end Use

def noteAll (caps : List Key) (uses : List Use) : Except CompileError (List Key) :=
  uses.foldlM Use.note caps

theorem noteAll_append (caps : List Key) (uses more : List Use) :
    noteAll caps (uses ++ more) = (noteAll caps uses >>= (noteAll · more)) :=
  List.foldlM_append

theorem noteAll_cases (caps : List Key) (uses : List Use) :
    (noteAll caps uses = .error .depthOverflow ∧ ∃ use ∈ uses, ¬use.Countable) ∨
      ∃ keys, noteAll caps uses = .ok keys ∧ (∀ use ∈ uses, use.Countable) ∧
        ∀ key, key ∈ keys ↔ key ∈ caps ∨ ∃ use ∈ uses, use.Captures key := by
  induction uses generalizing caps with
  | nil => exact .inr ⟨caps, rfl, nofun, by simp⟩
  | cons use uses ih =>
    by_cases hc : use.Countable
    · obtain ⟨keys, hn, hk⟩ := use.note_of_countable hc caps
      have hstep : noteAll caps (use :: uses) = noteAll keys uses := by
        rw [noteAll, List.foldlM_cons, hn]
        rfl
      rw [hstep]
      rcases ih keys with ⟨herr, u, hu, hne⟩ | ⟨keys', hok, hall, hmem⟩
      · exact .inl ⟨herr, u, List.mem_cons_of_mem _ hu, hne⟩
      · refine .inr ⟨keys', hok, List.forall_mem_cons.mpr ⟨hc, hall⟩, fun key => ?_⟩
        rw [hmem, hk]
        simp [List.mem_cons, or_assoc]
    · refine .inl ⟨?_, use, List.mem_cons_self, hc⟩
      rw [noteAll, List.foldlM_cons, use.note_of_not_countable hc]
      rfl

namespace Capture

variable {walk : Walk} {uses : List Use} {sc : Scopes} {program : Program}

def Walk.noting (walk : Walk) (uses : List Use) (sc : Scopes) : Except CompileError Walk :=
  (noteAll walk.captured uses).map (⟨sc, ·⟩)

theorem Walk.noting_nil (walk : Walk) : walk.noting [] walk.scopes = .ok walk := rfl

theorem Walk.noting_bind {more : List Use} {sc' : Scopes} {f : Walk → Except CompileError Walk}
    (h : ∀ caps, f ⟨sc, caps⟩ = Walk.noting ⟨sc, caps⟩ more sc') :
    (walk.noting uses sc >>= f) = walk.noting (uses ++ more) sc' := by
  unfold Walk.noting at h ⊢
  rw [noteAll_append]
  cases noteAll walk.captured uses with
  | error e => rfl
  | ok caps => exact h caps

theorem Walk.noting_onScopes (f : Scopes → Scopes) :
    (do return (← walk.noting uses sc).onScopes f : Except CompileError Walk) =
      walk.noting uses (f sc) := by
  unfold Walk.noting
  cases noteAll walk.captured uses <;> rfl

theorem Walk.reference_eq (walk : Walk) (name : String) (target : Resolution) :
    walk.reference name target = walk.noting (target.uses walk.scopes name) walk.scopes := by
  cases target with
  | global => rfl
  | scope depth =>
    have hone : noteAll walk.captured (Resolution.uses walk.scopes name (.scope depth)) =
        Use.note walk.captured ⟨walk.scopes, name, depth⟩ := by
      rw [noteAll, Resolution.uses, List.foldlM_cons]
      cases Use.note walk.captured ⟨walk.scopes, name, depth⟩ <;> rfl
    rw [Walk.noting, hone, Walk.reference, Use.note]
    cases walk.scopes.resolve name depth with
    | error e => rfl
    | ok found =>
      cases found with
      | none => rfl
      | some d =>
        simp only [bind, Except.bind, pure, Except.pure, Except.map]
        split <;> rfl

theorem Walk.superReference_eq (walk : Walk) (target : Resolution) :
    walk.superReference target = walk.noting (target.superUses walk.scopes) walk.scopes := by
  cases target with
  | global => rfl
  | scope depth =>
    rw [superReference, reference_eq]
    have hs : Resolution.superUses walk.scopes (.scope depth) =
        Resolution.uses walk.scopes "super" (.scope depth) ++
          if depth = 0 then [] else [⟨walk.scopes, "this", depth - 1⟩] := rfl
    rw [hs]
    refine noting_bind fun caps => ?_
    by_cases hd : depth = 0
    · simp only [hd, if_true]
      rfl
    · simp only [hd, if_false]
      exact reference_eq _ _ _

mutual

theorem expr_eq : ∀ (e : Expr) (walk : Walk),
    expr walk e = walk.noting (e.uses walk.scopes) walk.scopes
  | .literal _, walk => walk.noting_nil.symm
  | .group inner, walk => expr_eq inner walk
  | .unary _ operand, walk => expr_eq operand walk
  | .binary _ left right, walk | .logical _ left right, walk => by
    rw [expr, expr_eq left]
    exact Walk.noting_bind fun caps => expr_eq right ⟨walk.scopes, caps⟩
  | .read name target, walk => walk.reference_eq name.name target
  | .assign name target value, walk => by
    rw [expr, expr_eq value]
    exact Walk.noting_bind fun _ => Walk.reference_eq _ _ _
  | .call callee arguments _, walk => by
    rw [expr, expr_eq callee]
    exact Walk.noting_bind fun caps => exprs_eq arguments ⟨walk.scopes, caps⟩
  | .get object _, walk => expr_eq object walk
  | .set object _ value, walk => by
    rw [expr, expr_eq object]
    exact Walk.noting_bind fun caps => expr_eq value ⟨walk.scopes, caps⟩
  | .self _ target, walk => walk.reference_eq "this" target
  | .super _ _ target, walk => walk.superReference_eq target

theorem exprs_eq : ∀ (es : List Expr) (walk : Walk),
    exprs walk es = walk.noting (usesOfArguments walk.scopes es) walk.scopes
  | [], walk => walk.noting_nil.symm
  | e :: rest, walk => by
    rw [exprs, expr_eq e]
    exact Walk.noting_bind fun caps => exprs_eq rest ⟨walk.scopes, caps⟩

end

theorem expr?_eq (e : Option Expr) (walk : Walk) :
    expr? walk e = walk.noting (usesOfInitial walk.scopes e) walk.scopes := by
  cases e with
  | none => exact walk.noting_nil.symm
  | some e => exact expr_eq e walk

mutual

theorem stmt_eq : ∀ (s : Stmt) (walk : Walk),
    stmt walk s = walk.noting (s.uses walk.scopes) (s.walk walk.scopes)
  | .expression e, walk => expr_eq e walk
  | .print e, walk => expr_eq e walk
  | .declare name initial, walk => by
    rw [stmt, expr?_eq]
    exact Walk.noting_onScopes _
  | .block body, walk => by
    rw [stmt, stmts_eq]
    exact Walk.noting_onScopes _
  | .branch condition yes none, walk => by
    rw [stmt, expr_eq]
    exact Walk.noting_bind fun caps => stmt_eq yes ⟨walk.scopes, caps⟩
  | .branch condition yes (some no), walk => by
    rw [stmt, expr_eq, Stmt.uses, List.append_assoc]
    refine Walk.noting_bind fun caps => ?_
    rw [stmt_eq yes]
    exact Walk.noting_bind fun caps => stmt_eq no ⟨yes.walk walk.scopes, caps⟩
  | .loop condition body, walk => by
    rw [stmt, expr_eq]
    exact Walk.noting_bind fun caps => stmt_eq body ⟨walk.scopes, caps⟩
  | .function decl, walk => function_eq false decl _
  | .leave value, walk => expr?_eq value walk
  | .classDecl name none ms, walk => methods_eq ms _
  | .classDecl name (some superclass) ms, walk => by
    rw [stmt, expr_eq]
    refine Walk.noting_bind fun caps => ?_
    rw [methods_eq]
    exact Walk.noting_onScopes _

theorem stmts_eq : ∀ (body : List Stmt) (walk : Walk),
    stmts walk body = walk.noting (usesOfAll walk.scopes body) (walkAll body walk.scopes)
  | [], walk => walk.noting_nil.symm
  | s :: rest, walk => by
    rw [stmts, stmt_eq s]
    exact Walk.noting_bind fun caps => stmts_eq rest ⟨s.walk walk.scopes, caps⟩

theorem function_eq (isMethod : Bool) : ∀ (decl : FunctionDecl) (walk : Walk),
    function walk isMethod decl =
      walk.noting (decl.uses isMethod walk.scopes) (decl.walk isMethod walk.scopes)
  | .mk _ params body, walk => by
    rw [function, stmts_eq]
    exact Walk.noting_onScopes _

theorem methods_eq : ∀ (ms : List FunctionDecl) (walk : Walk),
    methods walk ms = walk.noting (usesOfMethods walk.scopes ms) (walkMethods ms walk.scopes)
  | [], walk => walk.noting_nil.symm
  | m :: rest, walk => by
    rw [methods, function_eq true m]
    exact Walk.noting_bind fun caps => methods_eq rest ⟨m.walk true walk.scopes, caps⟩

end

theorem captures_eq (program : Program) : captures program = noteAll [] program.uses := by
  rw [captures, stmts_eq, Walk.noting]
  show _ = noteAll [] (usesOfAll {} program)
  cases noteAll [] (usesOfAll {} program) <;> rfl

theorem captures_error {e : CompileError} (h : captures program = .error e) :
    e = .depthOverflow ∧ ∃ use ∈ program.uses, ¬use.Countable := by
  rw [captures_eq] at h
  rcases noteAll_cases [] program.uses with ⟨herr, hex⟩ | ⟨keys, hok, _⟩
  · rw [herr] at h
    exact ⟨(Except.error.inj h).symm, hex⟩
  · rw [hok] at h
    cases h

theorem captures_ok {caps : List Key} (h : captures program = .ok caps) :
    (∀ use ∈ program.uses, use.Countable) ∧
      ∀ key, key ∈ caps ↔ ∃ use ∈ program.uses, use.Captures key := by
  rw [captures_eq] at h
  rcases noteAll_cases [] program.uses with ⟨herr, _⟩ | ⟨keys, hok, hall, hmem⟩
  · rw [herr] at h
    cases h
  · rw [hok] at h
    cases h
    exact ⟨hall, fun key => by simpa using hmem key⟩

end Capture

end ScriptMachine
