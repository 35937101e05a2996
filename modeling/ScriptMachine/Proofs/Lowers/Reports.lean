/-
ScriptMachine.Proofs.Lowers.Reports — which error a program is rejected with.
-/
import ScriptMachine.Proofs.Lowers.Acceptance

namespace ScriptMachine

/-- What can stop a computation on machine words. -/
inductive Crash where
  | overflow
  | outOfRange
deriving DecidableEq

namespace Scopes

/-- How a declaration is found in machine words. Scopes stand in an array,
outermost first, and a level is taken off its length. -/
def fetch (sc : Scopes) (name : String) (depth : UInt64) : Except Crash (Option Declared) :=
  let levels := depth.toNat + 1
  if levels = 0x10000000000000000 then .error .overflow
  else if sc.stack.length < levels then .ok none
  else match sc.stack.reverse[sc.stack.length - levels]? with
    | none => .error .outOfRange
    | some scope => .ok ((scope.entries.lookup name).map (⟨scope.frame, ·⟩))

theorem fetch_eq (sc : Scopes) (name : String) (depth : UInt64) :
    sc.fetch name depth = (sc.resolve name depth).mapError fun _ => .overflow := by
  unfold fetch resolve
  dsimp only
  split
  · rfl
  · split
    · next hlt =>
      have hn : sc.stack[depth.toNat]? = none := List.getElem?_eq_none (by omega)
      simp [hn, Except.mapError]
    · next hle =>
      have hidx : sc.stack.length - 1 - (sc.stack.length - (depth.toNat + 1)) =
          depth.toNat := by omega
      rw [List.getElem?_reverse (by omega), hidx, List.getElem?_eq_getElem (by omega)]
      cases hkey : (sc.stack[depth.toNat]).entries.lookup name <;> simp [hkey, Except.mapError]

theorem fetch_overflow_iff (sc : Scopes) (name : String) (depth : UInt64) :
    sc.fetch name depth = .error .overflow ↔ depth.toNat = 0xFFFFFFFFFFFFFFFF := by
  rw [fetch_eq]
  unfold resolve
  split
  · next hmax => simp [Except.mapError, Nat.succ.inj hmax]
  · next hlt => simpa [Except.mapError] using fun heq => hlt (congrArg (· + 1) heq)

theorem holds_of_length_le {sc : Scopes} {name : String} {depth : UInt64}
    (h : sc.stack.length ≤ depth.toNat) : sc.nest.holds name depth = false := by
  have hn : sc.nest[depth.toNat]? = none := List.getElem?_eq_none (by simpa [nest] using h)
  simp [Nest.holds, hn]

end Scopes

namespace Store

theorem compile_of_uncountable (s : Store) (name : String) {program : Program}
    (h : ∃ use ∈ program.uses, ¬use.Countable) :
    s.compile name program = (.error .depthOverflow, s) := by
  rw [compile_eq]
  cases hcap : Capture.captures program with
  | error e =>
    obtain ⟨rfl, _⟩ := Capture.captures_error hcap
    rfl
  | ok captured =>
    obtain ⟨use, hu, hne⟩ := h
    exact absurd ((Capture.captures_ok hcap).1 use hu) hne

theorem compile_error {s : Store} {name : String} {program : Program}
    (hcnt : ∀ use ∈ program.uses, use.Countable) {e : CompileError}
    (h : (s.compile name program).1 = .error e) :
    (unmet? program.duties).map Duty.error = some e ∨
      (∃ full, e = .heap full) ∧ ¬s.heap.HasRoomFor program.texts := by
  rw [Program.texts, ← s.hasRoom_iff]
  rw [compile_eq] at h
  cases hcap : Capture.captures program with
  | error _ =>
    obtain ⟨_, use, hu, hne⟩ := Capture.captures_error hcap
    exact absurd (hcnt use hu) hne
  | ok captured =>
    rw [hcap] at h
    dsimp only at h
    have hd := Lower.scriptAfter_decides s name (Capture.captures_covers hcap)
    cases ha : Lower.scriptAfter program 0 (s.scriptStart name captured) with
    | ok unit l =>
      rw [ha] at h
      cases h
    | error _ l =>
      rw [ha] at h
      cases h
      exact (hd.rejected ha).2

/-- **Malformed levels are reported, all but the largest word.** No level makes
a scope be looked for out of range, and only the largest word overflows. A
program that has it anywhere comes to no report, and the store stays as it was.
Any other program is accepted, or rejected for its first duty that is not met
or for want of room. A duty that is not met has its program rejected, and a
reference that leads further out than scopes are open is such a duty. -/
theorem malformed_levels_reported (s : Store) (name : String) (program : Program) :
    (∀ (sc : Scopes) (wanted : String) (depth : UInt64),
      sc.fetch wanted depth ≠ .error .outOfRange ∧
        (sc.fetch wanted depth = .error .overflow ↔ depth.toNat = 0xFFFFFFFFFFFFFFFF)) ∧
    ((∃ use ∈ program.uses, use.depth.toNat = 0xFFFFFFFFFFFFFFFF) →
      s.compile name program = (.error .depthOverflow, s)) ∧
    ((∀ use ∈ program.uses, use.depth.toNat ≠ 0xFFFFFFFFFFFFFFFF) →
      (∀ e, (s.compile name program).1 = .error e →
        (unmet? program.duties).map Duty.error = some e ∨
          (∃ full, e = .heap full) ∧ ¬s.heap.HasRoomFor program.texts) ∧
      ∀ d ∈ program.duties,
        (∀ use, d.use? = some use → use.scopes.stack.length ≤ use.depth.toNat → d.met = false) ∧
        (d.met = false → ∃ first e, unmet? program.duties = some first ∧
          (s.compile name program).1 = .error e ∧
            (s.heap.HasRoomFor program.texts → e = first.error))) := by
  refine ⟨fun sc wanted depth => ⟨?_, sc.fetch_overflow_iff _ _⟩,
    fun ⟨use, hu, hmax⟩ => ?_, fun hdep => ?_⟩
  · rw [sc.fetch_eq]
    cases sc.resolve wanted depth <;> simp [Except.mapError]
  · exact s.compile_of_uncountable name ⟨use, hu, fun hc => hc (congrArg (· + 1) hmax)⟩
  · have hcnt : ∀ use ∈ program.uses, use.Countable :=
      fun use hu hmax => hdep use hu (Nat.succ.inj hmax)
    refine ⟨fun e he => compile_error hcnt he, fun d hd =>
      ⟨fun use huse hfar => ?_, fun hmet => ?_⟩⟩
    · cases d with
      | reach | receiver =>
        cases huse
        exact Scopes.holds_of_length_le hfar
      | check => cases huse
    have hnot : ¬Met program.duties := fun hall => by simp [hall d hd] at hmet
    obtain ⟨first, hfst⟩ := Option.ne_none_iff_exists'.mp (mt unmet?_eq_none.mp hnot)
    refine ⟨first, ?_⟩
    cases hc : (s.compile name program).1 with
    | ok unit =>
      have hok := (compile_isOk_iff hcnt s name).mp ⟨unit, hc⟩
      exact absurd (Program.met_duties.mpr hok.1) hnot
    | error e =>
      refine ⟨e, hfst, rfl, fun hr => ?_⟩
      rcases compile_error hcnt hc with hunmet | ⟨_, hf⟩
      · simpa [hfst] using hunmet.symm
      · exact absurd hr hf

def astray (depth : UInt64) : Program :=
  [ .block [.expression (.read ⟨"x", 1⟩ (.scope depth))],
    .print (.self ⟨"this", 2⟩ (.scope depth)) ]

theorem malformed_levels_reported_astray :
    let s : Store := { heap := .empty, maxDepth := 8 }
    (s.compile "main" (astray 1)).1 = .error (.unresolvedLocal "x" 1 1) ∧
      (s.compile "main" (astray 0xFFFFFFFFFFFFFFFE)).1 =
        .error (.unresolvedLocal "x" 0xFFFFFFFFFFFFFFFE 1) := by
  intro s
  have hrep : ∀ depth : UInt64, 1 ≤ depth.toNat → depth.toNat ≠ 0xFFFFFFFFFFFFFFFF →
      (s.compile "main" (astray depth)).1 = .error (.unresolvedLocal "x" depth 1) := by
    intro depth hfar hmax
    obtain ⟨_, _, ho⟩ := malformed_levels_reported s "main" (astray depth)
    have huses : ∀ use ∈ (astray depth).uses, use.depth = depth := by
      simp [astray, Program.uses, usesOfAll, Stmt.uses, Expr.uses, Resolution.uses]
    have hdut : (astray depth).duties =
        [.reach ⟨Scopes.push {}, "x", depth⟩ 1,
          .receiver
            ⟨(Stmt.block [.expression (.read ⟨"x", 1⟩ (.scope depth))]).walk {}, "this", depth⟩
            ⟨"this", 2⟩] := rfl
    obtain ⟨_, hall⟩ := ho fun use hu => by rwa [huses use hu]
    obtain ⟨hr, hrepo⟩ := hall (.reach ⟨Scopes.push {}, "x", depth⟩ 1) (by simp [hdut])
    have hmet := hr _ rfl hfar
    obtain ⟨first, e, hfst, he, hroom⟩ := hrepo hmet
    rw [hdut, unmet?, List.find?_cons_of_pos (by simp [hmet])] at hfst
    cases hfst
    rw [he, hroom (Heap.hasRoomFor_nil _)]
    rfl
  exact ⟨hrep _ (by decide) (by decide), hrep _ (by decide) (by decide)⟩

theorem largest_level_not_reported :
    (Store.compile { heap := .empty, maxDepth := 8 } "main" (astray 0xFFFFFFFFFFFFFFFF)).1 =
      .error .depthOverflow := rfl

end Store

end ScriptMachine
