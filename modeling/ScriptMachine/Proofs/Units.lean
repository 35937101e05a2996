/-
ScriptMachine.Proofs.Units — what the check of a unit finds out.
-/
import ScriptMachine.Unit.Check
import Mathlib.Data.List.Nodup

namespace ScriptMachine.CodeUnit

theorem checkNames_eq_ok_iff (seen : List String) (ds : List Declaration) :
    checkNames seen ds = .ok () ↔
      (∀ d ∈ ds, d.name ≠ "" ∧ d.name ∉ seen) ∧ (ds.map (·.name)).Nodup := by
  induction ds generalizing seen with
  | nil => simp [checkNames]
  | cons d ds ih =>
    rw [checkNames]
    by_cases hempty : d.name = ""
    · simp [hempty]
    by_cases hs : d.name ∈ seen
    · simp [hempty, hs]
    rw [if_neg hempty, if_neg hs, ih, List.forall_mem_cons, List.map_cons, List.nodup_cons]
    simp only [List.mem_cons, not_or, List.mem_map, not_exists, not_and]
    constructor
    · rintro ⟨hall, hn⟩
      exact ⟨⟨⟨hempty, hs⟩, fun e he => ⟨(hall e he).1, (hall e he).2.2⟩⟩,
        fun e he => (hall e he).2.1, hn⟩
    · rintro ⟨⟨_, hall⟩, hne, hn⟩
      exact ⟨fun e he => ⟨(hall e he).1, hne e he, (hall e he).2⟩, hn⟩

/-- A definition is one that a function declared as `d` may have. -/
structure Suits (unit : CodeUnit) (accepts : Verifier) (d : Declaration) (f : Definition) :
    Prop where
  provided : d.linkage ≠ .imported
  signature : f.signature = d.signature
  references : ∀ r ∈ f.references, unit.declares r = true
  accepted : accepts f = true

theorem checkBody_eq_ok_iff (unit : CodeUnit) (accepts : Verifier) {d : Declaration}
    {f : Definition}
    (h : d.linkage ≠ .imported) : unit.checkBody accepts d f = .ok () ↔ unit.Suits accepts d f := by
  have hiff : unit.checkBody accepts d f = .ok () ↔ f.signature = d.signature ∧
      (∀ r ∈ f.references, unit.declares r = true) ∧
        accepts f = true := by
    rw [checkBody]
    by_cases hsgn : f.signature = d.signature
    · rw [if_neg (not_not.mpr hsgn)]
      cases hf : f.references.find? (!unit.declares ·) with
      | some r =>
        have hmem := List.mem_of_find?_eq_some hf
        have hbad := List.find?_some hf
        simp only [reduceCtorEq, false_iff, not_and]
        intro _ hall
        simp [hall r hmem] at hbad
      | none =>
        have hall : ∀ r ∈ f.references, unit.declares r = true := by
          simpa using hf
        cases accepts f with
        | true => simpa [hsgn] using hall
        | false => simp
    · simp [hsgn]
  rw [hiff]
  exact ⟨fun ⟨hp, hr, hv⟩ => ⟨h, hp, hr, hv⟩, fun hs => ⟨hs.signature, hs.references, hs.accepted⟩⟩

example : (checkBody { name := "unit" } (fun _ => true)
    ⟨"f", .exported, { params := [{ type := .float 64 }], returns := [.word] }⟩
    ⟨0, .words 1, [], .parameter 0⟩) = .error (.otherSignature "f") := by
  decide

theorem checkDefinitions_eq_ok_iff (unit : CodeUnit) (accepts : Verifier) (seen : List Nat)
    (fs : List Definition) : unit.checkDefinitions accepts seen fs = .ok () ↔
      (∀ f ∈ fs, f.declaration ∉ seen ∧
        ∃ d, unit.declarations[f.declaration]? = some d ∧ unit.Suits accepts d f) ∧
      (fs.map (·.declaration)).Nodup := by
  induction fs generalizing seen with
  | nil => simp [checkDefinitions]
  | cons f fs ih =>
    rw [checkDefinitions]
    cases hd : unit.declarations[f.declaration]? with
    | none => simp [hd]
    | some d =>
      dsimp only
      by_cases himp : d.linkage = .imported
      · rw [if_pos himp]
        simp only [reduceCtorEq, false_iff, not_and]
        intro hall
        obtain ⟨_, d', hd', hs⟩ := hall f List.mem_cons_self
        rw [hd] at hd'
        cases hd'
        exact absurd himp hs.provided
      by_cases hseen : f.declaration ∈ seen
      · rw [if_neg himp, if_pos hseen]
        simp [hseen]
      rw [if_neg himp, if_neg hseen]
      have hstep : (do
          unit.checkBody accepts d f
          unit.checkDefinitions accepts (f.declaration :: seen) fs) = .ok () ↔
          unit.checkBody accepts d f = .ok () ∧
            unit.checkDefinitions accepts (f.declaration :: seen) fs = .ok () := by
        cases unit.checkBody accepts d f <;> simp [bind, Except.bind]
      rw [hstep, checkBody_eq_ok_iff unit accepts himp, ih, List.forall_mem_cons, List.map_cons,
        List.nodup_cons]
      simp only [List.mem_cons, not_or, List.mem_map, not_exists, not_and]
      constructor
      · rintro ⟨hs, hall, hn⟩
        exact ⟨⟨⟨hseen, d, hd, hs⟩, fun g hg => ⟨(hall g hg).1.2, (hall g hg).2⟩⟩,
          fun g hg => (hall g hg).1.1, hn⟩
      · rintro ⟨⟨⟨_, d', hd', hs⟩, hall⟩, hne, hn⟩
        rw [hd] at hd'
        cases hd'
        exact ⟨hs, fun g hg => ⟨⟨hne g hg, (hall g hg).1⟩, (hall g hg).2⟩, hn⟩

/-- The tables of a unit fit together. -/
structure WellFormed (unit : CodeUnit) (accepts : Verifier) : Prop where
  named : ∀ d ∈ unit.declarations.toList, d.name ≠ ""
  distinct : (unit.declarations.toList.map (·.name)).Nodup
  suited : ∀ f ∈ unit.definitions.toList,
    ∃ d, unit.declarations[f.declaration]? = some d ∧ unit.Suits accepts d f
  once : (unit.definitions.toList.map (·.declaration)).Nodup
  complete : ∀ {i : Nat} {d : Declaration}, unit.declarations[i]? = some d →
    d.linkage ≠ .imported → i ∈ unit.definitions.toList.map (·.declaration)

theorem WellFormed.of_count {unit : CodeUnit} {accepts : Verifier}
    (named : ∀ d ∈ unit.declarations.toList, d.name ≠ "")
    (distinct : (unit.declarations.toList.map (·.name)).Nodup)
    (suited : ∀ f ∈ unit.definitions.toList,
      ∃ d, unit.declarations[f.declaration]? = some d ∧ unit.Suits accepts d f)
    (defined : ∀ {i : Nat} {d : Declaration}, unit.declarations[i]? = some d →
      d.linkage ≠ .imported → (unit.definitions.toList.map (·.declaration)).count i = 1) :
    unit.WellFormed accepts where
  named := named
  distinct := distinct
  suited := suited
  once := by
    rw [List.nodup_iff_count_le_one]
    intro i
    by_cases hi : i ∈ unit.definitions.toList.map (·.declaration)
    · obtain ⟨f, hf, rfl⟩ := List.mem_map.mp hi
      obtain ⟨d, hd, hs⟩ := suited f hf
      exact Nat.le_of_eq (defined hd hs.provided)
    · rw [List.count_eq_zero.mpr hi]
      exact Nat.zero_le _
  complete hd hl := List.count_pos_iff.mp (by rw [defined hd hl]; exact Nat.one_pos)

theorem lacksBody_eq_false_iff (unit : CodeUnit) (d : Declaration) (i : Nat) :
    unit.lacksBody d i = false ↔
      (d.linkage ≠ .imported → i ∈ unit.definitions.toList.map (·.declaration)) := by
  unfold lacksBody
  by_cases himp : d.linkage = .imported
  · simp [himp]
  · simp only [himp, ne_eq, not_false_eq_true, decide_true, Bool.true_and, Bool.not_eq_false',
      Array.any_eq_true', decide_eq_true_eq, forall_const, List.mem_map, Array.mem_toList_iff]

theorem checkWith_eq_ok_iff (unit : CodeUnit) (accepts : Verifier) :
    unit.checkWith accepts = .ok () ↔ unit.WellFormed accepts := by
  have hs : unit.checkWith accepts = .ok () ↔ checkNames [] unit.declarations.toList = .ok () ∧
      unit.checkDefinitions accepts [] unit.definitions.toList = .ok () ∧
        unit.declarations.toList.zipIdx.find? (fun p => unit.lacksBody p.1 p.2) = none := by
    unfold checkWith
    cases checkNames [] unit.declarations.toList <;>
      cases unit.checkDefinitions accepts [] unit.definitions.toList <;>
      cases unit.declarations.toList.zipIdx.find? (fun p => unit.lacksBody p.1 p.2) <;>
      simp [bind, Except.bind]
  have hcom : unit.declarations.toList.zipIdx.find? (fun p => unit.lacksBody p.1 p.2) = none ↔
      ∀ {i : Nat} {d : Declaration}, unit.declarations[i]? = some d → d.linkage ≠ .imported →
        i ∈ unit.definitions.toList.map (·.declaration) := by
    simp only [List.find?_eq_none, Bool.not_eq_true, lacksBody_eq_false_iff]
    constructor
    · intro hall i d hd
      exact hall (d, i) (List.mem_zipIdx_iff_getElem?.mpr (by rwa [Array.getElem?_toList]))
    · rintro hall ⟨d, i⟩ hmem
      refine hall ?_
      rw [← Array.getElem?_toList]
      exact List.mem_zipIdx_iff_getElem?.mp hmem
  rw [hs, checkNames_eq_ok_iff, checkDefinitions_eq_ok_iff, hcom]
  constructor
  · rintro ⟨⟨hn, hdist⟩, ⟨hsui, ho⟩, hcom⟩
    exact ⟨fun d hd => (hn d hd).1, hdist, fun f hf => (hsui f hf).2, ho, hcom⟩
  · intro h
    exact ⟨⟨fun d hd => ⟨h.named d hd, List.not_mem_nil⟩, h.distinct⟩,
      ⟨fun f hf => ⟨List.not_mem_nil, h.suited f hf⟩, h.once⟩, h.complete⟩

end ScriptMachine.CodeUnit
