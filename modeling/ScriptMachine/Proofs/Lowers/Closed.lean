/-
ScriptMachine.Proofs.Lowers.Closed — the units programs are lowered to are
closed.
-/
import ScriptMachine.Engine.Basic
import ScriptMachine.Proofs.Lowers.Tables
import ScriptMachine.Proofs.Scoping
import ScriptMachine.Proofs.Units

namespace ScriptMachine

theorem Service.symbol_ne_empty (service : Service) : service.symbol ≠ "" := by
  cases service <;> decide

theorem Routines.get?_symbol (service : Service) :
    Routines.standard.get? service.symbol = some (.service service) := by
  cases service <;> rfl

/-- A unit that exports `name`, holds one function for each of `fns`, and
provides everything else it needs by imports. -/
structure CodeUnit.Closed (unit : CodeUnit) (name : String) (fns : List (String × Nat)) : Prop where
  first : unit.declarations[0]? = some ⟨name, .exported, .words 0⟩
  exported : ∀ {i : Nat} {d : Declaration}, unit.declarations[i]? = some d →
    d.linkage = .exported → i = 0
  internal : unit.declarations.toList.filter (·.linkage = .internal) = declarationsOf name 0 fns
  distinct : ∀ {i j : Nat} {d e : Declaration}, unit.declarations[i]? = some d →
    d.linkage = .internal → unit.declarations[j]? = some e → d.name = e.name → i = j
  imported : ∀ {i : Nat} {d : Declaration}, unit.declarations[i]? = some d →
    d.linkage = .imported → ∃ service : Service,
      d = ⟨service.symbol, .imported, .words service.arity⟩ ∧
        Routines.standard.get? d.name = some (.service service)
  importedOnce : ∀ {i j : Nat} {d e : Declaration}, unit.declarations[i]? = some d →
    d.linkage = .imported → unit.declarations[j]? = some e → e.linkage = .imported →
      d.name = e.name → i = j
  defined : ∀ {i : Nat} {d : Declaration}, unit.declarations[i]? = some d →
    (unit.definitions.toList.map (·.declaration)).count i =
      if d.linkage = .imported then 0 else 1
  suited : ∀ f ∈ unit.definitions.toList, ∃ d, unit.declarations[f.declaration]? = some d ∧
    f.signature = d.signature ∧ f.RefersBelow unit.declarations.size

namespace CodeUnit.Closed

variable {unit : CodeUnit} {name : String} {fns : List (String × Nat)} {d : Declaration}
  (h : unit.Closed name fns)

include h

theorem provided {f : Definition} (hf : f ∈ unit.definitions.toList)
    (hd : unit.declarations[f.declaration]? = some d) : d.linkage ≠ .imported := by
  intro himp
  have hcnt := h.defined hd
  rw [if_pos himp, List.count_eq_zero] at hcnt
  exact hcnt (List.mem_map_of_mem hf)

theorem nodup_names (hn : ∀ service : Service, name ≠ service.symbol) :
    (unit.declarations.toList.map (·.name)).Nodup := by
  have hexp : ∀ {i : Nat} {d : Declaration}, unit.declarations[i]? = some d →
      d.linkage = .exported → i = 0 ∧ d.name = name := by
    intro i d hd hl
    obtain rfl := h.exported hd hl
    rw [h.first] at hd
    cases hd
    exact ⟨rfl, rfl⟩
  have hc : ∀ {i j : Nat} {d e : Declaration}, unit.declarations[i]? = some d →
      unit.declarations[j]? = some e → d.linkage = .exported → e.linkage = .imported →
        d.name ≠ e.name := by
    intro i j d e hd he hl himp heq
    obtain ⟨service, rfl, _⟩ := h.imported he himp
    exact hn service ((hexp hd hl).2.symm.trans heq)
  rw [List.nodup_iff_injective_getElem]
  rintro ⟨i, hi⟩ ⟨j, hj⟩ heq
  simp only [List.length_map, Array.length_toList] at hi hj
  simp only [List.getElem_map, Array.getElem_toList] at heq
  have hd : unit.declarations[i]? = some unit.declarations[i] := Array.getElem?_eq_getElem hi
  have he : unit.declarations[j]? = some unit.declarations[j] := Array.getElem?_eq_getElem hj
  refine Fin.ext (show i = j from ?_)
  cases hli : unit.declarations[i].linkage with
  | internal => exact h.distinct hd hli he heq
  | imported =>
    cases hlj : unit.declarations[j].linkage with
    | internal => exact (h.distinct he hlj hd heq.symm).symm
    | imported => exact h.importedOnce hd hli he hlj heq
    | exported => exact absurd heq.symm (hc he hd hlj hli)
  | exported =>
    cases hlj : unit.declarations[j].linkage with
    | internal => exact (h.distinct he hlj hd heq.symm).symm
    | imported => exact absurd heq (hc hd he hli hlj)
    | exported => exact (h.exported hd hli).trans (h.exported he hlj).symm

theorem mem_internal {i : Nat} (hd : unit.declarations[i]? = some d) (hl : d.linkage = .internal) :
    ∃ f k, d = ⟨functionSymbol name f k, .internal, d.signature⟩ := by
  have hmem : d ∈ unit.declarations.toList.filter (·.linkage = .internal) := by
    rw [List.mem_filter]
    exact ⟨Array.mem_toList_iff.mpr (Array.mem_of_getElem? hd), by simp [hl]⟩
  rw [h.internal, declarationsOf, List.mem_map] at hmem
  obtain ⟨⟨⟨f, count⟩, k⟩, _, rfl⟩ := hmem
  exact ⟨f, k, rfl⟩

theorem check_eq_ok (he : name ≠ "")
    (hn : ∀ service : Service, name ≠ service.symbol) (verify : Bool) :
    unit.check verify = .ok () := by
  refine (checkWith_eq_ok_iff _ _).mpr (.of_count ?_ (h.nodup_names hn) ?_ ?_)
  · intro d hd
    obtain ⟨i, hi⟩ := Array.getElem?_of_mem (Array.mem_toList_iff.mp hd)
    cases hl : d.linkage with
    | exported =>
      obtain rfl := h.exported hi hl
      rw [h.first] at hi
      cases hi
      exact he
    | imported =>
      obtain ⟨service, rfl, _⟩ := h.imported hi hl
      exact service.symbol_ne_empty
    | internal =>
      obtain ⟨f, k, heq⟩ := h.mem_internal hi hl
      rw [heq]
      intro hnil
      have hlist := congrArg String.toList hnil
      rw [toList_functionSymbol] at hlist
      simp at hlist
  · intro f hf
    obtain ⟨d, hd, hsgn, ⟨function, hb⟩, hrefs⟩ := h.suited f hf
    refine ⟨d, hd, h.provided hf hd, hsgn, ?_, ?_⟩
    · intro r hr
      simp [declares, hrefs r hr]
    · simp [Verifier.ofFlag, hb, Body.returns]
  · intro i d hd himp
    rw [h.defined hd, if_neg himp]

end CodeUnit.Closed

theorem declarationsOf_pairwise (unit : String) (first : Nat) (fns : List (String × Nat)) :
    (declarationsOf unit first fns).Pairwise (·.name ≠ ·.name) := by
  rw [declarationsOf, List.pairwise_map]
  have hlt : ((fns.zipIdx first).map Prod.snd).Pairwise (· < ·) := by
    rw [List.zipIdx_map_snd]
    exact List.pairwise_lt_range'
  refine (List.pairwise_map.mp hlt).imp fun {f g} hfg heq => ?_
  exact absurd (functionSymbol_inj heq) (Nat.ne_of_lt hfg)

theorem Lowering.Tables.closed {l : Lowering} {name : String} {fns : List (String × Nat)}
    {ds : List Declaration} (function : Function) (ht : l.Tables [0])
    (hds : l.unit.declarations.toList = ⟨name, .exported, .words 0⟩ :: ds)
    (hne : ∀ d ∈ ds, d.linkage ≠ .exported)
    (hint : ds.filter (·.linkage = .internal) = declarationsOf name 0 fns) :
    (l.unit.define ⟨0, .words 0, l.current.references.map .own, .lowered function⟩).Closed name
      fns := by
  have hfst : l.unit.declarations[0]? = some ⟨name, .exported, .words 0⟩ := by
    rw [← Array.getElem?_toList, hds]
    rfl
  have hexp : ∀ {i : Nat} {d : Declaration}, l.unit.declarations[i]? = some d →
      d.linkage = .exported → i = 0 := by
    intro i d hd hlink
    rw [← Array.getElem?_toList, hds] at hd
    cases i with
    | zero => rfl
    | succ i => exact absurd hlink (hne d (List.mem_of_getElem? hd))
  have hfil : l.unit.declarations.toList.filter (·.linkage = .internal) =
      declarationsOf name 0 fns := by
    rw [hds]
    exact hint
  have hp : ∀ {i j : Nat} {d e : Declaration}, l.unit.declarations[i]? = some d →
      l.unit.declarations[j]? = some e → d.linkage = .internal → e.linkage = .internal →
        i < j → d.name ≠ e.name := by
    have hall := declarationsOf_pairwise name 0 fns
    rw [← hfil, List.pairwise_filter, List.pairwise_iff_getElem] at hall
    intro i j d e hd he hlinkd hl hij
    obtain ⟨hi, rfl⟩ := Array.getElem?_eq_some_iff.mp hd
    obtain ⟨hj, rfl⟩ := Array.getElem?_eq_some_iff.mp he
    have h := hall i j hi hj hij
    simp only [Array.getElem_toList, decide_eq_true_eq] at h
    exact h hlinkd hl
  have hsym : ∀ {i : Nat} {d : Declaration}, l.unit.declarations[i]? = some d →
      d.linkage = .internal → ∃ f k, d.name = functionSymbol name f k := by
    intro i d hd hlink
    have hmem : d ∈ l.unit.declarations.toList.filter (·.linkage = .internal) := by
      rw [List.mem_filter]
      exact ⟨Array.mem_toList_iff.mpr (Array.mem_of_getElem? hd), by simp [hlink]⟩
    rw [hfil, declarationsOf, List.mem_map] at hmem
    obtain ⟨⟨⟨f, count⟩, k⟩, _, rfl⟩ := hmem
    exact ⟨f, k, rfl⟩
  refine ⟨hfst, hexp, hfil, ?_, ?_, ?_, ?_, ?_⟩
  · intro i j d e hd hlink he heq
    obtain ⟨f, k, hn⟩ := hsym hd hlink
    cases hl : e.linkage with
    | internal =>
      by_contra hij
      rcases Nat.lt_or_gt_of_ne hij with hij | hij
      · exact hp hd he hlink hl hij heq
      · exact hp he hd hl hlink hij heq.symm
    | imported =>
      obtain ⟨service, rfl, _⟩ := ht.imported he hl
      exact absurd (hn.symm.trans heq) (functionSymbol_ne_symbol _ _ _ _)
    | exported =>
      obtain rfl := hexp he hl
      obtain rfl := Option.some.inj (he.symm.trans hfst)
      exact absurd (hn.symm.trans heq) (functionSymbol_ne_unit _ _ _)
  · intro i d hd himp
    obtain ⟨service, rfl, _⟩ := ht.imported hd himp
    exact ⟨service, rfl, Routines.get?_symbol service⟩
  · intro i j d e hd himpd he himpe heq
    obtain ⟨service, rfl, hi⟩ := ht.imported hd himpd
    obtain ⟨service', rfl, hj⟩ := ht.imported he himpe
    obtain rfl := Service.symbol_inj heq
    exact Option.some.inj (hi.symm.trans hj)
  · intro i d hd
    have hd : l.unit.declarations[i]? = some d := hd
    show ((l.unit.definitions.push _).toList.map Definition.declaration).count i = _
    rw [Array.toList_push, List.map_append, List.count_append, ht.defined hd]
    by_cases hi : i = 0
    · subst hi
      obtain rfl := Option.some.inj (hd.symm.trans hfst)
      simp
    · simp [hi, Ne.symm hi]
  · intro f hf
    have hf : f ∈ (l.unit.definitions.push _).toList := hf
    rw [Array.toList_push, List.mem_append, List.mem_singleton] at hf
    rcases hf with hf | rfl
    · exact ht.suited f hf
    · exact ⟨_, hfst, rfl, ⟨_, rfl⟩, ht.own_references⟩

namespace Store

open Lower

theorem scriptStart_tables (s : Store) (name : String) (captured : List Key) :
    (s.scriptStart name captured).Tables [0] := by
  have hloo : ∀ {i : Nat} {d : Declaration},
      (s.scriptStart name captured).unit.declarations[i]? = some d →
        i = 0 ∧ d = ⟨name, .exported, .words 0⟩ := by
    intro i d hd
    obtain ⟨hi, heq⟩ := Array.getElem?_eq_some_iff.mp hd
    have hi : i < 1 := hi
    obtain rfl : i = 0 := by omega
    exact ⟨rfl, heq.symm⟩
  constructor
  · intro i d hd himp
    obtain ⟨_, rfl⟩ := hloo hd
    cases himp
  · nofun
  · intro i hi
    rw [List.mem_singleton.mp hi]
    exact Nat.one_pos
  · intro i d hd
    obtain ⟨rfl, rfl⟩ := hloo hd
    rfl
  · nofun
  · nofun

/-- **The unit of an accepted program is closed, and passes the check of the
engine** unless its name is empty or that of a routine. -/
theorem compile_closed {s s' : Store} {name : String} {program : Program} {unit : CodeUnit}
    (h : s.compile name program = (.ok unit, s')) :
    unit.Closed name program.functions ∧
      (name ≠ "" → (∀ service : Service, name ≠ service.symbol) →
        ∀ verify, unit.check verify = .ok ()) := by
  rw [compile_eq] at h
  split at h
  · cases h
  next captured _ =>
  split at h <;> cases h
  next l hs =>
  simp only [scriptAfter, bind_eq_ok, get_eq_ok, pure_eq_ok] at hs
  obtain ⟨_, m1, hu, _, m2, hv, body, m3, hb, _, _, ⟨rfl, rfl⟩, rfl, rfl⟩ := hs
  obtain ⟨ht1, hadd1⟩ := (use_builds _).keeps (s.scriptStart_tables name captured) hu
  obtain ⟨ht2, hadd2⟩ := logic_builds.newVariable.keeps ht1 hv
  obtain ⟨ht3, hadd3⟩ := (logic_builds.stmts program).keeps ht2 hb
  obtain ⟨ds, hds, hne, hint⟩ := ((hadd1.trans hadd2).trans hadd3).declarations
  have hclo := fun function => ht3.closed function hds hne hint
  exact ⟨hclo _, fun he hn verify => (hclo _).check_eq_ok he hn verify⟩

theorem compile_closed_tally : ∃ unit s',
    Store.compile { heap := .empty, maxDepth := 8 } "main" tally = (.ok unit, s') ∧
      unit.Closed "main" [("step", 1), ("get", 0)] ∧ unit.check true = .ok () := by
  have hok : (Store.compile { heap := .empty, maxDepth := 8 } "main" tally).1.toOption.isSome =
      true := by
    decide +kernel
  cases h : Store.compile { heap := .empty, maxDepth := 8 } "main" tally with
  | mk result s' =>
    rw [h] at hok
    cases result with
    | error e => cases hok
    | ok unit =>
      obtain ⟨hclo, hc⟩ := compile_closed h
      refine ⟨unit, s', rfl, hclo, hc (by decide) ?_ true⟩
      intro service
      cases service <;> decide

end Store

end ScriptMachine
