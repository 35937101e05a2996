/-
ScriptMachine.Proofs.Lowers.Tables — how the tables of a unit are filled.
-/
import ScriptMachine.Proofs.Lowers.Outcomes

namespace ScriptMachine

variable {i j : Nat}

/-- Every function and method of a program. -/
def Program.functions (program : Program) : List (String × Nat) := functionsOfAll program

def functionSymbol (unit name : String) (i : Nat) : String :=
  unit ++ "::" ++ name ++ "#" ++ toString i

/-- The declarations of functions, numbered from `first` on. Besides its
parameters a function takes its closure and its receiver. -/
def declarationsOf (unit : String) (first : Nat) (fns : List (String × Nat)) : List Declaration :=
  (fns.zipIdx first).map fun f => ⟨functionSymbol unit f.1.1 f.2, .internal, .words (f.1.2 + 2)⟩

theorem declarationsOf_append (unit : String) (first : Nat) (fns more : List (String × Nat)) :
    declarationsOf unit first (fns ++ more) =
      declarationsOf unit first fns ++ declarationsOf unit (first + fns.length) more := by
  simp [declarationsOf, List.zipIdx_append]

theorem eq_of_append_mark {a b x y : List Char} (hx : '#' ∉ x) (hy : '#' ∉ y)
    (h : a ++ '#' :: x = b ++ '#' :: y) : x = y := by
  have hrev := congrArg List.reverse h
  simp only [List.reverse_append, List.reverse_cons, List.append_assoc,
    List.singleton_append] at hrev
  have hne : ∀ {z : List Char}, '#' ∉ z → ∀ c ∈ z.reverse, (c != '#') = true := by
    intro z hz c hc
    simp only [bne_iff_ne, ne_eq]
    rintro rfl
    exact hz (List.mem_reverse.mp hc)
  have ht := congrArg (List.takeWhile (· != '#')) hrev
  rw [List.takeWhile_append_of_pos (hne hx), List.takeWhile_append_of_pos (hne hy)] at ht
  simpa using ht

theorem mark_not_mem_toString (i : Nat) : '#' ∉ (toString i).toList := by
  rw [Nat.toString_eq_ofList_toDigits, String.toList_ofList]
  intro hmem
  have := Nat.isDigit_of_mem_toDigits (by decide) (by decide) hmem
  simp [Char.isDigit] at this

theorem eq_of_toList_toString (h : (toString i).toList = (toString j).toList) : i = j := by
  rw [Nat.toString_eq_ofList_toDigits, Nat.toString_eq_ofList_toDigits, String.toList_ofList,
    String.toList_ofList] at h
  have hval := congrArg (Nat.ofDigitChars 10 · 0) h
  simpa only [Nat.ofDigitChars_ten_toDigits] using hval

theorem toList_functionSymbol (unit name : String) (i : Nat) :
    (functionSymbol unit name i).toList =
      (unit ++ "::" ++ name).toList ++ '#' :: (toString i).toList := by
  simp [functionSymbol]

theorem functionSymbol_inj {unit name name' : String}
    (h : functionSymbol unit name i = functionSymbol unit name' j) : i = j := by
  have hl := congrArg String.toList h
  rw [toList_functionSymbol, toList_functionSymbol] at hl
  have ht := eq_of_append_mark (mark_not_mem_toString i) (mark_not_mem_toString j) hl
  exact eq_of_toList_toString ht

theorem functionSymbol_ne_unit (unit name : String) (i : Nat) :
    functionSymbol unit name i ≠ unit := by
  intro h
  have hlen := congrArg String.length h
  have hm : "#".length = 1 := rfl
  simp only [functionSymbol, String.length_append] at hlen
  omega

theorem functionSymbol_ne_symbol (unit name : String) (i : Nat) (service : Service) :
    functionSymbol unit name i ≠ service.symbol := by
  intro h
  have hm : '#' ∈ (functionSymbol unit name i).toList := by
    rw [toList_functionSymbol]
    simp
  rw [h] at hm
  revert hm
  cases service <;> decide

theorem Service.symbol_inj {a b : Service} (h : a.symbol = b.symbol) : a = b := by
  revert h
  cases a <;> cases b <;> decide

def Service.declaration (service : Service) : Declaration :=
  ⟨service.symbol, .imported, .words service.arity⟩

/-- The body of a definition is lowered code that refers to the first `size`
declarations only. -/
def Definition.RefersBelow (f : Definition) (size : Nat) : Prop :=
  (∃ function, f.body = .lowered function) ∧ ∀ r ∈ f.references, r.space = 0 ∧ r.index < size

structure Lowering.Tables (l : Lowering) (pending : List Nat) : Prop where
  imported : ∀ {i : Nat} {d : Declaration}, l.unit.declarations[i]? = some d →
    d.linkage = .imported → ∃ service : Service,
      d = service.declaration ∧ l.imports.get? service = some i
  imports : ∀ {service : Service} {i : Nat}, l.imports.get? service = some i →
    l.unit.declarations[i]? = some service.declaration
  issued : ∀ i ∈ pending, i < l.unit.declarations.size
  defined : ∀ {i : Nat} {d : Declaration}, l.unit.declarations[i]? = some d →
    (l.unit.definitions.toList.map (·.declaration)).count i =
      if d.linkage = .imported ∨ i ∈ pending then 0 else 1
  suited : ∀ f ∈ l.unit.definitions.toList, ∃ d, l.unit.declarations[f.declaration]? = some d ∧
    f.signature = d.signature ∧ f.RefersBelow l.unit.declarations.size
  references : ∀ r ∈ l.current.references, r < l.unit.declarations.size

theorem Lowering.Tables.own_references {l : Lowering} {pending : List Nat} (h : l.Tables pending) :
    ∀ r ∈ l.current.references.map Reference.own,
      r.space = 0 ∧ r.index < l.unit.declarations.size := by
  intro r hr
  obtain ⟨i, hi, rfl⟩ := List.mem_map.mp hr
  exact ⟨rfl, h.references i hi⟩

structure Lowering.Adds (l l' : Lowering) (fns : List (String × Nat)) : Prop where
  name : l'.unit.name = l.unit.name
  functions : l'.functions = l.functions + fns.length
  declarations : ∃ ds : List Declaration,
    l'.unit.declarations.toList = l.unit.declarations.toList ++ ds ∧
      (∀ d ∈ ds, d.linkage ≠ .exported) ∧
        ds.filter (·.linkage = .internal) = declarationsOf l.unit.name l.functions fns

namespace Lowering.Adds

variable {l l' l'' : Lowering} {fns more : List (String × Nat)}

theorem of_eq (hu : l'.unit.name = l.unit.name)
    (hd : l'.unit.declarations = l.unit.declarations) (hf : l'.functions = l.functions) :
    l.Adds l' [] :=
  ⟨hu, hf, [], by rw [hd, List.append_nil], nofun, rfl⟩

theorem refl (l : Lowering) : l.Adds l [] := .of_eq rfl rfl rfl

theorem trans (h : l.Adds l' fns) (h' : l'.Adds l'' more) : l.Adds l'' (fns ++ more) := by
  obtain ⟨ds, hds, hne, hfil⟩ := h.declarations
  obtain ⟨ds', hds', hne', hfil'⟩ := h'.declarations
  refine ⟨h'.name.trans h.name, ?_, ds ++ ds', ?_, ?_, ?_⟩
  · rw [h'.functions, h.functions, List.length_append, Nat.add_assoc]
  · rw [hds', hds, List.append_assoc]
  · intro d hd
    rcases List.mem_append.mp hd with hd | hd
    · exact hne d hd
    · exact hne' d hd
  · rw [List.filter_append, hfil, hfil', declarationsOf_append, h.name, h.functions]

theorem size_le (h : l.Adds l' fns) : l.unit.declarations.size ≤ l'.unit.declarations.size := by
  obtain ⟨ds, hds, _⟩ := h.declarations
  have := congrArg List.length hds
  simp only [Array.length_toList, List.length_append] at this
  omega

theorem declared (h : l.Adds l' fns) {d : Declaration}
    (hd : l.unit.declarations[i]? = some d) : l'.unit.declarations[i]? = some d := by
  obtain ⟨ds, hds, _⟩ := h.declarations
  rw [← Array.getElem?_toList] at hd ⊢
  rw [hds, List.getElem?_append_left (List.getElem?_eq_some_iff.mp hd).1, hd]

end Lowering.Adds

namespace Lower

variable {α β : Type} {l l' m : Lowering} {pending : List Nat} {fns more : List (String × Nat)}
  {decl count : Nat} {keys : List Key}

structure Builds (x : Lower α) (fns : List (String × Nat)) : Prop where
  keeps : ∀ {l l' : Lowering} {pending : List Nat} {a : α}, l.Tables pending → x l = .ok a l' →
    l'.Tables pending ∧ l.Adds l' fns

theorem Builds.bind {x : Lower α} {f : α → Lower β} (hx : Builds x fns)
    (hf : ∀ a, Builds (f a) more) : Builds (x >>= f) (fns ++ more) where
  keeps ht h := by
    obtain ⟨a, m, ha, hb⟩ := bind_eq_ok.mp h
    obtain ⟨htm, hadd⟩ := hx.keeps ht ha
    obtain ⟨htl, hadd'⟩ := (hf a).keeps htm hb
    exact ⟨htl, hadd.trans hadd'⟩

theorem throw_builds (e : CompileError) : Builds (throw e : Lower α) fns :=
  ⟨fun _ h => absurd h throw_eq_ok⟩

theorem get_builds {f : Lowering → Lower β} (hf : ∀ l, Builds (f l) fns) :
    Builds (get >>= f) fns where
  keeps ht h := by
    obtain ⟨_, _, hget, h⟩ := bind_eq_ok.mp h
    obtain ⟨rfl, rfl⟩ := get_eq_ok.mp hget
    exact (hf _).keeps ht h

theorem modifyGet_builds {f : Lowering → α × Lowering} (hu : ∀ l, (f l).2.unit = l.unit)
    (himp : ∀ l, (f l).2.imports = l.imports) (hfns : ∀ l, (f l).2.functions = l.functions)
    (hr : ∀ l, (f l).2.current.references = l.current.references) :
    Builds (modifyGet f : Lower α) [] := by
  refine ⟨fun {l l' pending a} ht h => ?_⟩
  obtain rfl : (f l).2 = l' := congrArg Prod.snd (modifyGet_eq_ok.mp h)
  refine ⟨?_, .of_eq (by rw [hu]) (by rw [hu]) (hfns l)⟩
  constructor
  · rw [hu, himp]
    exact ht.imported
  · rw [hu, himp]
    exact ht.imports
  · rw [hu]
    exact ht.issued
  · rw [hu]
    exact ht.defined
  · rw [hu]
    exact ht.suited
  · rw [hu, hr]
    exact ht.references

theorem pure_builds (a : α) : Builds (pure a : Lower α) [] where
  keeps ht h := by
    obtain ⟨_, rfl⟩ := pure_eq_ok.mp h
    exact ⟨ht, .refl _⟩

theorem onStore_builds (f : Store → α × Store) : Builds (onStore f) [] :=
  modifyGet_builds (fun _ => rfl) (fun _ => rfl) (fun _ => rfl) fun _ => rfl

theorem refer_tables (ht : l.Tables pending) {u : Unit}
    (hd : decl < l.unit.declarations.size) (h : refer decl l = .ok u l') :
    l'.Tables pending ∧ l.Adds l' [] := by
  rw [refer, onCurrent, modify_eq_ok] at h
  subst h
  refine ⟨{ ht with references := ?_ }, .of_eq rfl rfl rfl⟩
  intro r hr
  split at hr
  · exact ht.references r hr
  · rcases List.mem_append.mp hr with hr | hr
    · exact ht.references r hr
    · exact List.mem_singleton.mp hr ▸ hd

theorem getElem?_push_eq_some_iff {γ : Type} {xs : Array γ} {x y : γ} :
    (xs.push x)[i]? = some y ↔ xs[i]? = some y ∨ (i = xs.size ∧ x = y) := by
  rw [Array.getElem?_push]
  by_cases h : i = xs.size
  · subst h
    simp
  · simp [h]

theorem Tables.lt (ht : l.Tables pending) {f : Definition} (hf : f ∈ l.unit.definitions.toList) :
    f.declaration < l.unit.declarations.size := by
  obtain ⟨d, hd, _⟩ := ht.suited f hf
  exact (Array.getElem?_eq_some_iff.mp hd).1

theorem Tables.count_size (ht : l.Tables pending) :
    (l.unit.definitions.toList.map (·.declaration)).count l.unit.declarations.size = 0 := by
  rw [List.count_eq_zero]
  intro hmem
  obtain ⟨f, hf, heq⟩ := List.mem_map.mp hmem
  exact absurd (Tables.lt ht hf) (by rw [heq]; exact Nat.lt_irrefl _)

theorem Tables.push (ht : l.Tables pending) (d : Declaration) {pending' : List Nat}
    (hp : ∀ i, i ∈ pending' → i ∈ pending ∨ i = l.unit.declarations.size)
    (hp' : ∀ i, i ∈ pending → i ∈ pending')
    (hd : d.linkage = .imported ∨ l.unit.declarations.size ∈ pending') :
    let unit := { l.unit with declarations := l.unit.declarations.push d }
    (∀ i ∈ pending', i < unit.declarations.size) ∧
    (∀ {i : Nat} {e : Declaration}, unit.declarations[i]? = some e →
      (unit.definitions.toList.map (·.declaration)).count i =
        if e.linkage = .imported ∨ i ∈ pending' then 0 else 1) ∧
    ∀ f ∈ unit.definitions.toList, ∃ e, unit.declarations[f.declaration]? = some e ∧
      f.signature = e.signature ∧ f.RefersBelow unit.declarations.size := by
  refine ⟨?_, ?_, ?_⟩
  · intro i hi
    rw [Array.size_push]
    rcases hp i hi with hi | rfl
    · exact Nat.lt_succ_of_lt (ht.issued i hi)
    · exact Nat.lt_succ_self _
  · intro i e he
    rcases getElem?_push_eq_some_iff.mp he with he | ⟨rfl, rfl⟩
    · have hlt := (Array.getElem?_eq_some_iff.mp he).1
      have hiff : i ∈ pending' ↔ i ∈ pending :=
        ⟨fun hi => (hp i hi).resolve_right (Nat.ne_of_lt hlt), hp' i⟩
      rw [ht.defined he]
      simp [hiff]
    · rw [Tables.count_size ht, if_pos hd]
  · intro f hf
    obtain ⟨e, he, hsgn, hb, hrefs⟩ := ht.suited f hf
    refine ⟨e, getElem?_push_eq_some_iff.mpr (.inl he), hsgn, hb, fun r hr => ?_⟩
    rw [Array.size_push]
    exact (hrefs r hr).imp_right Nat.lt_succ_of_lt

theorem use_builds (service : Service) : Builds (use service) [] := by
  refine ⟨fun {l l' pending a} ht h => ?_⟩
  simp only [use, bind_eq_ok, get_eq_ok] at h
  obtain ⟨_, _, ⟨rfl, rfl⟩, h⟩ := h
  cases hi : l.imports.get? service with
  | some decl =>
    simp only [hi] at h
    exact refer_tables ht (Array.getElem?_eq_some_iff.mp (ht.imports hi)).1 h
  | none =>
    simp only [hi, declare, bind_eq_ok, modifyGet_eq_ok, modify_eq_ok, CodeUnit.declare,
      Prod.mk.injEq] at h
    obtain ⟨_, _, ⟨rfl, rfl⟩, _, _, rfl, h⟩ := h
    obtain ⟨hp, hdef, hsui⟩ :=
      Tables.push ht service.declaration (fun i (hi : i ∈ pending) => .inl hi)
        (fun _ => id) (.inl rfl)
    have htab : Lowering.Tables
        { l with
          unit := { l.unit with declarations := l.unit.declarations.push service.declaration }
          imports := l.imports.insert service l.unit.declarations.size } pending := by
      refine ⟨?_, ?_, hp, hdef, hsui, ?_⟩
      · intro i d hd himp
        rcases getElem?_push_eq_some_iff.mp hd with hd | ⟨rfl, rfl⟩
        · obtain ⟨other, rfl, hother⟩ := ht.imported hd himp
          refine ⟨other, rfl, ?_⟩
          have hne : service ≠ other := by
            rintro rfl
            rw [hi] at hother
            cases hother
          rw [Table.get?_insert, if_neg hne, hother]
        · exact ⟨service, rfl, by rw [Table.get?_insert, if_pos rfl]⟩
      · intro other i ho
        rw [Table.get?_insert] at ho
        split at ho
        · next heq =>
          subst heq
          obtain rfl := Option.some.inj ho
          exact getElem?_push_eq_some_iff.mpr (.inr ⟨rfl, rfl⟩)
        · exact getElem?_push_eq_some_iff.mpr (.inl (ht.imports ho))
      · intro r hr
        rw [Array.size_push]
        exact Nat.lt_succ_of_lt (ht.references r hr)
    have hlt : l.unit.declarations.size < (l.unit.declarations.push service.declaration).size := by
      rw [Array.size_push]
      exact Nat.lt_succ_self _
    obtain ⟨htl, hadd⟩ := refer_tables htab hlt h
    have hfst : l.Adds
        { l with
          unit := { l.unit with declarations := l.unit.declarations.push service.declaration }
          imports := l.imports.insert service l.unit.declarations.size } [] := by
      refine ⟨rfl, rfl, [service.declaration], Array.toList_push, ?_, rfl⟩
      intro d hd
      rw [List.mem_singleton.mp hd]
      rintro ⟨⟩
    exact ⟨htl, hfst.trans hadd⟩

theorem steps_builds : Steps fun _ => Builds where
  done := pure_builds
  fails := throw_builds
  seq := Builds.bind
  look hf _ := get_builds hf
  change h := modifyGet_builds h.unit h.imports h.functions h.references
  uses := use_builds
  name _ := onStore_builds _
  slot _ := onStore_builds _
  prototype _ _ := onStore_builds _
  site _ := onStore_builds _
  text text := by
    refine (onStore_builds _).bind fun issued => ?_
    split
    · exact pure_builds _
    · exact throw_builds _

theorem enterFunction_tables (ht : l.Tables pending) {name : Ident} {kind : FunctionKind}
    (h : enterFunction name count kind l = .ok decl m) :
    decl ∉ pending ∧ m.Tables (decl :: pending) ∧ l.Adds m [(name.name, count)] ∧
      m.unit.declarations[decl]? =
        some ⟨functionSymbol l.unit.name name.name l.functions, .internal, .words (count + 2)⟩ := by
  simp only [enterFunction, declare, bind_eq_ok, get_eq_ok, modify_eq_ok,
    modifyGet_eq_ok, pure_eq_ok,
    CodeUnit.declare, Prod.mk.injEq] at h
  obtain ⟨_, _, ⟨rfl, rfl⟩, _, _, rfl, _, _, ⟨rfl, rfl⟩, _, _, hu, rfl, rfl⟩ := h
  generalize hd : (⟨l.unit.name ++ "::" ++ name.name ++ "#" ++ toString l.functions, .internal,
    .words (count + 2)⟩ : Declaration) = d at hu
  have hf : l.unit.declarations.size ∉ pending := fun hmem =>
    absurd (ht.issued _ hmem) (Nat.lt_irrefl _)
  obtain ⟨hiss, hdef, hsui⟩ := Tables.push ht d
    (fun i (hi : i ∈ l.unit.declarations.size :: pending) => (List.mem_cons.mp hi).symm)
    (fun _ => List.mem_cons_of_mem _) (.inr List.mem_cons_self)
  have htab : Lowering.Tables
      { l with
        functions := l.functions + 1
        scopes := l.scopes.enter
        current := { kind := kind }
        unit := { l.unit with declarations := l.unit.declarations.push d } }
      (l.unit.declarations.size :: pending) := by
    refine ⟨?_, ?_, hiss, hdef, hsui, by rintro _ ⟨⟩⟩
    · intro i e he himp
      rcases getElem?_push_eq_some_iff.mp he with he | ⟨_, rfl⟩
      · exact ht.imported he himp
      · rw [← hd] at himp
        cases himp
    · intro service i hi
      exact getElem?_push_eq_some_iff.mpr (.inl (ht.imports hi))
  have hfst : l.Adds
      { l with
        functions := l.functions + 1
        scopes := l.scopes.enter
        current := { kind := kind }
        unit := { l.unit with declarations := l.unit.declarations.push d } }
      [(name.name, count)] := by
    refine ⟨rfl, rfl, [d], Array.toList_push, ?_, ?_⟩
    · intro e he
      rw [List.mem_singleton.mp he, ← hd]
      rintro ⟨⟩
    · rw [← hd]
      rfl
  obtain ⟨htm, hadd⟩ := (use_builds .stackOverflow).keeps htab hu
  refine ⟨hf, htm, hfst.trans hadd, hadd.declared ?_⟩
  exact getElem?_push_eq_some_iff.mpr (.inr ⟨rfl, hd.symm⟩)

theorem leaveFunction_tables {d : Declaration} {body : List Instr} {outer : FunctionState}
    {frame : Nat} (ht : l.Tables (decl :: pending)) (hfresh : decl ∉ pending)
    (hd : l.unit.declarations[decl]? = some d) (hlin : d.linkage ≠ .imported)
    (hsgn : d.signature = .words (count + 2))
      (ho : ∀ r ∈ outer.references, r < l.unit.declarations.size)
    (h : leaveFunction decl count body outer frame l = .ok keys m) :
    m.Tables pending ∧ l.Adds m [] := by
  obtain ⟨_, _, ⟨rfl, rfl⟩, _, _, rfl, rfl, rfl⟩ := h
  refine ⟨⟨ht.imported, ht.imports, ?_, ?_, ?_, ho⟩, .of_eq rfl rfl rfl⟩
  · exact fun i hi => ht.issued i (List.mem_cons_of_mem _ hi)
  · intro i e he
    have he : l.unit.declarations[i]? = some e := he
    have hold := ht.defined he
    show ((l.unit.definitions.push _).toList.map Definition.declaration).count i = _
    rw [Array.toList_push, List.map_append, List.count_append, hold]
    by_cases hi : i = decl
    · subst hi
      obtain rfl : e = d := Option.some.inj (he.symm.trans hd)
      simp [hlin, hfresh]
    · simp [hi, Ne.symm hi]
  · intro f hf
    have hf : f ∈ (l.unit.definitions.push _).toList := hf
    rw [Array.toList_push, List.mem_append, List.mem_singleton] at hf
    rcases hf with hf | rfl
    · exact ht.suited f hf
    · exact ⟨d, hd, hsgn.symm, ⟨_, rfl⟩, ht.own_references⟩

theorem closureOf_tables {name : String} {code : Code} (ht : l.Tables pending)
    (hd : decl < l.unit.declarations.size)
    (h : closureOf name count decl keys l = .ok code m) :
    m.Tables pending ∧ l.Adds m [] := by
  obtain ⟨prototype, m1, hp, h⟩ := bind_eq_ok.mp h
  obtain ⟨_, m2, hr, h⟩ := bind_eq_ok.mp h
  obtain ⟨ht1, hadd1⟩ := (onStore_builds _).keeps ht hp
  obtain ⟨ht2, hadd2⟩ := refer_tables ht1 (Nat.lt_of_lt_of_le hd hadd1.size_le) hr
  have hrest : Builds (do
      let cells ← cellsOf keys
      use .makeClosure
      return Code.closure decl prototype cells) [] :=
    steps_builds.lead (steps_builds.cellsOf keys) fun _ => steps_builds.served _
  obtain ⟨ht3, hadd3⟩ := hrest.keeps ht2 h
  exact ⟨ht3, (hadd1.trans hadd2).trans hadd3⟩

theorem function_builds (name : Ident) (params : List String) (kind : FunctionKind)
    {body : Lower (List Instr)} (hbody : Builds body fns) :
    Builds (function name params kind body) ((name.name, params.length) :: fns) where
  keeps ht h := by
    simp only [function, bind_eq_ok, get_eq_ok] at h
    obtain ⟨_, m0, hc, _, _, ⟨rfl, rfl⟩, decl, m, hen, start, m1, ho, rest, m2, hb, _, m3,
      hcl, upvalues, m4, hl, hco⟩ := h
    obtain ⟨ht0, hadd0⟩ := (steps_builds.checkCount _ _).keeps ht hc
    obtain ⟨hf, htm, ha, hd⟩ := enterFunction_tables ht0 hen
    obtain ⟨ht1, hadd1⟩ := (steps_builds.openScopes kind params).keeps htm ho
    obtain ⟨ht2, hadd2⟩ := hbody.keeps ht1 hb
    obtain ⟨ht3, hadd3⟩ := (steps_builds.onScopes _).keeps ht2 hcl
    have hin := (hadd1.trans hadd2).trans hadd3
    have hout := ha.trans hin
    have hd3 := hin.declared hd
    obtain ⟨ht4, hadd4⟩ := leaveFunction_tables ht3 hf hd3 (by rintro ⟨⟩) rfl
      (fun r hr => Nat.lt_of_lt_of_le (ht0.references r hr) hout.size_le) hl
    have hlt := (Array.getElem?_eq_some_iff.mp (hadd4.declared hd3)).1
    obtain ⟨ht5, hadd5⟩ := closureOf_tables ht4 hlt hco
    refine ⟨ht5, ?_⟩
    have hall := ((hadd0.trans hout).trans hadd4).trans hadd5
    simpa using hall

theorem logic_builds : Logic fun _ => Builds where
  toSteps := steps_builds
  function name params kind _ _ hb := function_builds name params kind hb

end Lower

end ScriptMachine
