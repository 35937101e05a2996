/-
ScriptMachine.Proofs.Engines.Acceptance — which units an engine accepts.
-/
import ScriptMachine.Engine.Basic
import ScriptMachine.Proofs.Units

namespace ScriptMachine

theorem Table.get?_foldl_insert {κ ν : Type} [DecidableEq κ] (entries : List (κ × ν))
    (t : Table κ ν) (key : κ) :
    let after := entries.foldl (fun t entry => t.insert entry.1 entry.2) t
    (key ∉ entries.map (·.1) ∧ after.get? key = t.get? key) ∨
      ∃ value, (key, value) ∈ entries ∧ after.get? key = some value := by
  induction entries generalizing t with
  | nil => exact .inl ⟨List.not_mem_nil, rfl⟩
  | cons entry rest ih =>
    obtain ⟨k, v⟩ := entry
    simp only [List.foldl_cons, List.map_cons, List.mem_cons]
    rcases ih (t.insert k v) with ⟨hmem, hget⟩ | ⟨value, hmem, hget⟩
    · by_cases hk : key = k
      · subst hk
        exact .inr ⟨v, .inl rfl, by rw [hget, Table.get?_insert, if_pos rfl]⟩
      · refine .inl ⟨not_or.mpr ⟨hk, hmem⟩, ?_⟩
        rw [hget, Table.get?_insert, if_neg (Ne.symm hk)]
    · exact .inr ⟨value, .inr hmem, hget⟩

theorem CodeUnit.WellFormed.nodup_exports {unit : CodeUnit} {accepts : Verifier}
    (h : unit.WellFormed accepts) : unit.exports.Nodup :=
  h.distinct.sublist (List.filter_sublist.map _)

namespace Engine

variable {engine engine' : Engine} {unit : CodeUnit} {job : Job} {accepts : Verifier}

theorem get?_reserve (engine : Engine) (unit : CodeUnit) (name : String) :
    (engine.reserve unit).symbols.get? name =
      if name ∈ unit.exports then some (.pending engine.units.size)
      else engine.symbols.get? name := by
  have hs : (engine.reserve unit).symbols =
      (unit.exports.map fun name => (name, Export.pending engine.units.size)).foldl
        (fun t entry => t.insert entry.1 entry.2) engine.symbols := by
    rw [List.foldl_map]
    rfl
  rw [hs]
  rcases Table.get?_foldl_insert (unit.exports.map fun name =>
    (name, Export.pending engine.units.size)) engine.symbols name with ⟨hnot, heq⟩ | ⟨v, hv, heq⟩
  · rw [heq, if_neg (by simpa using hnot)]
  · obtain ⟨_, hmem, hp⟩ := List.mem_map.mp hv
    cases hp
    rw [heq, if_pos hmem]

theorem find?_exports_eq_none :
    (unit.exports.find? fun name => (engine.symbols.get? name).isSome) = none ↔
      ∀ name ∈ unit.exports, engine.symbols.get? name = none := by
  simp

theorem registerWith_eq_ok_iff :
    engine.registerWith accepts unit = .ok (job, engine') ↔
      (unit.WellFormed accepts ∧ ∀ name ∈ unit.exports, engine.symbols.get? name = none) ∧
        job = ⟨engine.units.size, unit⟩ ∧ engine' = engine.reserve unit := by
  rw [← CodeUnit.checkWith_eq_ok_iff, ← find?_exports_eq_none, registerWith]
  cases unit.checkWith accepts with
  | error reason => simp
  | ok =>
    cases unit.exports.find? fun name => (engine.symbols.get? name).isSome with
    | some name => simp
    | none => simp [eq_comm]

theorem registerWith_error {e : EngineError} (h : engine.registerWith accepts unit = .error e) :
    (∃ reason, e = .malformed unit.name reason ∧ ¬unit.WellFormed accepts) ∨
      ∃ name ∈ unit.exports, e = .duplicate name ∧ unit.WellFormed accepts ∧
        engine.symbols.get? name ≠ none := by
  simp only [← CodeUnit.checkWith_eq_ok_iff]
  unfold registerWith at h
  split at h
  · next reason hc =>
    cases h
    exact .inl ⟨reason, rfl, by simp [hc]⟩
  · next hc =>
    split at h
    · next name hf =>
      cases h
      have hs := List.find?_some hf
      exact .inr ⟨name, List.mem_of_find?_eq_some hf, rfl, hc, Option.isSome_iff_ne_none.mp hs⟩
    · cases h

theorem register_ok (h : engine.register unit = .ok (job, engine')) :
    unit.exports.Nodup ∧ (∀ name ∈ unit.exports, engine.symbols.get? name = none) ∧
      job = ⟨engine.units.size, unit⟩ ∧ engine' = engine.reserve unit := by
  obtain ⟨⟨hu, hf⟩, hjob, heng⟩ := registerWith_eq_ok_iff.mp h
  exact ⟨hu.nodup_exports, hf, hjob, heng⟩

theorem add_eq_ok {n : Nat} (h : engine.add unit = (.ok n, engine')) :
    engine.register unit = .ok (⟨engine.units.size, unit⟩, engine.reserve unit) ∧
      n = engine.units.size ∧
      engine' = ((engine.reserve unit).enqueue ⟨engine.units.size, unit⟩).drain := by
  simp only [add, submit] at h
  cases hreg : engine.registerWith (.ofFlag engine.settings.verify) unit with
  | error e =>
    rw [hreg] at h
    cases h
  | ok registered =>
    obtain ⟨job, engine1⟩ := registered
    obtain ⟨_, rfl, rfl⟩ := registerWith_eq_ok_iff.mp hreg
    rw [hreg] at h
    cases h
    exact ⟨hreg, rfl, rfl⟩

/-- An engine may accept a unit. -/
structure Accepts (engine : Engine) (accepts : Verifier) (unit : CodeUnit) : Prop where
  named : ∀ d ∈ unit.declarations.toList, d.name ≠ ""
  distinct : (unit.declarations.toList.map (·.name)).Nodup
  suited : ∀ f ∈ unit.definitions.toList, ∃ d, unit.declarations[f.declaration]? = some d ∧
    d.linkage ≠ .imported ∧ f.signature = d.signature ∧
      (∀ r ∈ f.references, r.space = 0 ∧ r.index < unit.declarations.size) ∧
        accepts f = true
  defined : ∀ {i : Nat} {d : Declaration}, unit.declarations[i]? = some d →
    d.linkage ≠ .imported → (unit.definitions.toList.map (·.declaration)).count i = 1
  fresh : ∀ d ∈ unit.declarations.toList, d.linkage = .exported →
    engine.symbols.get? d.name = none

theorem accepts_iff :
    engine.Accepts accepts unit ↔
      unit.WellFormed accepts ∧ ∀ name ∈ unit.exports, engine.symbols.get? name = none := by
  have hfresh : (∀ name ∈ unit.exports, engine.symbols.get? name = none) ↔
      ∀ d ∈ unit.declarations.toList, d.linkage = .exported →
        engine.symbols.get? d.name = none := by
    simp only [CodeUnit.exports, List.mem_map, List.mem_filter, decide_eq_true_eq]
    constructor
    · exact fun h d hd hl => h _ ⟨d, ⟨hd, hl⟩, rfl⟩
    · rintro h _ ⟨d, ⟨hd, hl⟩, rfl⟩
      exact h d hd hl
  have hdecl : ∀ r, unit.declares r = true ↔ r.space = 0 ∧ r.index < unit.declarations.size := by
    simp [CodeUnit.declares]
  rw [hfresh]
  constructor
  · intro h
    refine ⟨.of_count h.named h.distinct (fun f hf => ?_) h.defined, h.fresh⟩
    obtain ⟨d, hd, hl, hp, hr, ha⟩ := h.suited f hf
    exact ⟨d, hd, hl, hp, fun r hmem => (hdecl r).mpr (hr r hmem), ha⟩
  · rintro ⟨hu, hfree⟩
    refine ⟨hu.named, hu.distinct, fun f hf => ?_, fun hd hl => ?_, hfree⟩
    · obtain ⟨d, hd, hs⟩ := hu.suited f hf
      exact ⟨d, hd, hs.provided, hs.signature, fun r hmem =>
        (hdecl r).mp (hs.references r hmem),
        hs.accepted⟩
    · exact List.count_eq_one_of_mem hu.once (hu.complete hd hl)

/-- **A unit is accepted if and only if its tables fit together and its exports
are free.** If it is refused, the engine stays as it is. If it is accepted, its
number is the number of units before it, its exports are pending on it, it is
counted and waits in the queue, and nothing else has changed. -/
theorem submit_accepts_exactly (engine : Engine) (accepts : Verifier) (unit : CodeUnit) :
    ((∃ id, (engine.submit accepts unit).1 = .ok id) ↔ engine.Accepts accepts unit) ∧
    (∀ e, (engine.submit accepts unit).1 = .error e → (engine.submit accepts unit).2 = engine ∧
      ((∃ reason, e = .malformed unit.name reason ∧ ¬unit.WellFormed accepts) ∨
        ∃ name ∈ unit.exports, e = .duplicate name ∧ unit.WellFormed accepts ∧
          engine.symbols.get? name ≠ none)) ∧
    ∀ id, (engine.submit accepts unit).1 = .ok id → id = engine.units.size ∧
      (∀ name, (engine.submit accepts unit).2.symbols.get? name =
        if name ∈ unit.exports then some (.pending id) else engine.symbols.get? name) ∧
      (engine.submit accepts unit).2 = { engine with
        symbols := (engine.submit accepts unit).2.symbols
        units := engine.units.push { name := unit.name, status := .queued }
        stats := { engine.stats with submitted := engine.stats.submitted + 1 }
        queue := engine.queue ++ [⟨id, unit⟩] } := by
  rw [accepts_iff]
  cases hreg : engine.registerWith accepts unit with
  | ok registered =>
    obtain ⟨job, engine'⟩ := registered
    obtain ⟨hok, rfl, rfl⟩ := registerWith_eq_ok_iff.mp hreg
    simp only [submit, hreg]
    refine ⟨iff_of_true ⟨_, rfl⟩ hok, by rintro _ ⟨⟩, fun id hid => ?_⟩
    cases hid
    exact ⟨rfl, engine.get?_reserve unit, rfl⟩
  | error e =>
    have hnot : ¬(unit.WellFormed accepts ∧ ∀ name ∈ unit.exports,
      engine.symbols.get? name = none) :=
      fun hok => by
        rw [registerWith_eq_ok_iff.mpr ⟨hok, rfl, rfl⟩] at hreg
        cases hreg
    simp only [submit, hreg]
    refine ⟨iff_of_false (by rintro ⟨_, ⟨⟩⟩) hnot, fun e' he => ?_, by rintro _ ⟨⟩⟩
    cases he
    exact ⟨trivial, registerWith_error hreg⟩

def printer : CodeUnit where
  name := "printer"
  declarations := #[⟨"main", .exported, .words 0⟩, ⟨"elx_print", .imported, .words 1⟩]
  definitions := #[⟨0, .words 0, [.own 1], .call (.own 1) [.nil]⟩]

theorem submit_accepts_printer_once :
    (submit {} (.ofFlag true) printer).1 = .ok 0 ∧
      (submit {} (.ofFlag true) printer).2.symbols.get? "main" = some (.pending 0) ∧
      (submit (submit {} (.ofFlag true) printer).2 (.ofFlag true) printer).1 =
        .error (.duplicate "main") ∧
      (submit (submit {} (.ofFlag true) printer).2 (.ofFlag true) printer).2 =
        (submit {} (.ofFlag true) printer).2 := by
  have hfst : (submit {} (.ofFlag true) printer).1 = .ok 0 := by decide +kernel
  have hsnd : (submit (submit {} (.ofFlag true) printer).2 (.ofFlag true) printer).1 =
      .error (.duplicate "main") := by decide +kernel
  refine ⟨hfst, ?_, hsnd, ((submit_accepts_exactly _ _ _).2.1 _ hsnd).1⟩
  rw [((submit_accepts_exactly _ _ _).2.2 0 hfst).2.1]
  exact if_pos (by decide)

end Engine

end ScriptMachine
