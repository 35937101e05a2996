/-
ScriptMachine.Proofs.Lowers.Acceptance — which programs are accepted.
-/
import ScriptMachine.Proofs.Lowers.Decisions

namespace ScriptMachine

namespace Lower

variable {l l' m : Lowering} {scs : Scopes} {caps : List Key} {params : List String}
  {kind : FunctionKind}

theorem defineGlobal_decides (ha : l.Agrees) (name : String) (value : Code) :
    Decides (defineGlobal name value) l [] [.global name] :=
  (globalSlot_decides ha name).follow fun _ ha => (use_decides ha _).lead fun _ hu => .done hu

theorem declareVariable_decides (hr : l.Ready scs caps) (name : String) (value : Code) :
    Decides (declareVariable name value) l [] (mentionsOfName scs.atTop name) := by
  refine .of_get ?_
  rw [hr.scopes_eq]
  cases scs.atTop with
  | true => exact defineGlobal_decides hr.agrees name value
  | false => exact declareLocal_decides hr.agrees name value

theorem parameters_decides (ha : l.Agrees) (index : Nat) (params : List String) :
    Decides (parameters index params) l [] [] := by
  induction params generalizing l index with
  | nil => exact .done ha
  | cons name params ih =>
    exact (declareLocal_decides ha _ _).lead fun _ ha => (ih ha _).lead fun _ ha => .done ha

theorem enterFunction_decides (ha : l.Agrees) (name : Ident) (count : Nat) (kind : FunctionKind) :
    Decides (enterFunction name count kind) l [] [] := by
  refine .of_get (Decides.lead (.of_ok rfl ⟨ha.boxed, nofun⟩ rfl) fun _ ha => ?_)
  exact Decides.lead (.of_ok rfl ⟨ha.boxed, ha.upvalues⟩ rfl) fun _ ha =>
    (use_decides ha _).lead fun _ hu => .done hu

theorem openScopes_decides (ha : l.Agrees) (kind : FunctionKind) (params : List String) :
    Decides (openScopes kind params) l [] [] := by
  have hrecv : Decides (receiverScope kind) l [] [] := by
    unfold receiverScope
    split
    · exact (onScopes_decides ha _).lead fun _ ha => (declareLocal_decides ha _ _).lead fun _ ha =>
        .done ha
    · exact .done ha
  exact hrecv.lead fun _ ha => (onScopes_decides ha _).lead fun _ ha =>
    (parameters_decides ha _ _).lead fun _ ha => .done ha

theorem leaveFunction_decides (ha : l.Agrees) (declaration count : Nat) (body : List Instr)
    {outer : FunctionState} (frame : Nat) (ho : ∀ key ∈ outer.upvalues, key ∈ l.captured) :
    Decides (leaveFunction declaration count body outer frame) l [] [] :=
  .of_ok rfl ⟨ha.boxed, ho⟩ rfl

theorem closureOf_decides (ht : l.Tidy) (ha : l.Agrees) (name : String) (count declaration : Nat)
    {keys : List Key}
    (ho : ∀ key ∈ keys, l.scopes.Opens key)
    (hcap : ∀ key ∈ keys, key ∈ l.captured) :
    Decides (closureOf name count declaration keys) l [] [.prototype name count] := by
  refine (onStore_decides ha rfl rfl : Decides _ _ _ [.prototype name count]).follow fun hp ha => ?_
  obtain ⟨_, rfl⟩ := onStore_eq_ok.mp hp
  refine (refer_decides ha _).lead fun hq ha => ?_
  have hq := refer_quiet hq
  refine Decides.lead (cellsOf_decides (hq.tidy { ht with }) ha ?_ ?_) fun _ ha =>
    (use_decides ha _).lead fun _ hu => .done hu
  · rw [hq.scopes]
    exact ho
  · rw [hq.captured]
    exact hcap

section

variable (hr : l.Ready scs caps)

include hr

variable {name : Ident}

theorem function_decides {body : Lower (List Instr)} {sc : Scopes}
    {ms : List Mention} {ds : List Duty} {B : List Instr → Final → FunctionState → Prop}
      (hk : kind ≠ .script)
    (hext : (scs.openFunction kind.hasReceiver params).Extends sc)
    (hyie : ∀ {m m' rest}, m.Tidy → m.scopes = scs.openFunction kind.hasReceiver params →
      body m = .ok rest m' → Executes m m' sc rest ms (B rest))
    (hbody : ∀ {m}, m.Ready (scs.openFunction kind.hasReceiver params) caps →
      Decides body m ds ms) :
    Decides (function name params kind body) l
      (.check (params.length ≤ maxArity) (.tooManyParameters name.line) :: ds)
      (ms ++ [.prototype name.name params.length]) := by
  obtain ⟨rfl, rfl⟩ := And.intro hr.scopes_eq hr.captured_eq
  have hcnt : ∀ key, CompileError.tooManyParameters name.line ≠ .captureMismatch key := nofun
  refine (checkCount_decides hr.agrees hcnt).seq fun hn _ => .of_get ?_
  obtain rfl := checkCount_inv hn
  refine (enterFunction_decides hr.agrees _ _ _).lead fun hen hae => ?_
  have he := enterFunction_entered hen
  refine (openScopes_decides hae _ _).lead fun ho hao => ?_
  have hopen := openScopes_executes he hr.tidy hk ho
  refine (hbody (hopen.ready he.captured hao)).adds fun hb hab => ?_
  have hin := hopen.seq (hyie hopen.tidy hopen.scopes_eq hb)
  have hcap := hin.grows.captured.trans he.captured
  refine (onScopes_decides hab _).lead fun hcl hac => ?_
  obtain rfl := onScopes_eq_ok.mp hcl
  refine (leaveFunction_decides hac _ _ _ _ ?_).lead fun hl hal => ?_
  · rw [hcap]
    exact hr.agrees.upvalues
  obtain ⟨_, _, ⟨rfl, rfl⟩, _, _, rfl, rfl, rfl⟩ := hl
  obtain rfl := hin.scopes_eq
  obtain ⟨_, _, _, _, hstk⟩ := hext.openFunction_stack
  refine closureOf_decides (he.left_tidy hr.tidy hin hext rfl) hal _ _ _ ?_ hab.upvalues
  have hups := he.upvalues_declared hin hext
  simp only [Scopes.Opens, ← hstk] at hups
  exact hups

variable {body : List Stmt}

theorem declared_decides (hk : kind ≠ .script)
    (hb : ∀ {m sc}, m.Ready sc caps → Covers caps (usesOfAll sc body) →
      Decides (stmts body) m (dutiesOfAll sc body) (mentionsOfAll sc.atTop body))
    (hc : Covers caps ((FunctionDecl.mk name params body).uses kind.hasReceiver scs)) :
    Decides (function name params kind (stmts body)) l
      ((FunctionDecl.mk name params body).duties kind.hasReceiver scs)
      (FunctionDecl.mk name params body).mentions := by
  have hext := walkAll_extends body (scs.openFunction kind.hasReceiver params)
  refine function_decides hr hk hext
    (fun hm hsc hrest => (stmts_yields body hm hrest).opened hsc) fun hm => ?_
  have := hb hm hc
  rwa [scs.openFunction_atTop] at this

theorem function_ready {code : Code} (hk : kind ≠ .script)
    (h : function name params kind (stmts body) l = .ok code m) (ha : m.Agrees) :
    m.Ready ((FunctionDecl.mk name params body).walk kind.hasReceiver scs) caps := by
  obtain rfl := hr.scopes_eq
  exact (function_declared hr.tidy hk (stmts_yields body) h).ready hr.captured_eq ha

theorem declareLocal_ready {name : String} {value : Code} {instr : Instr} (hne : scs.atTop = false)
    (h : declareLocal name value l = .ok instr m) (ha : m.Agrees) :
    m.Ready (scs.declare name) caps := by
  obtain rfl := hr.scopes_eq
  exact (declareLocal_executes hr.tidy hne h).ready hr.captured_eq ha

theorem push_ready : Lowering.Ready { l with scopes := l.scopes.push } scs.push caps :=
  ⟨(push_executes hr.tidy).tidy, ⟨hr.agrees.boxed, hr.agrees.upvalues⟩,
    congrArg Scopes.push hr.scopes_eq, hr.captured_eq⟩

end

theorem declareClass_decides (ha : l.Agrees) (atTop : Bool) (name : String) :
    Decides (declareClass atTop name) l [] [] := by
  unfold declareClass
  split
  · exact .done ha
  · exact (declareLocal_decides ha _ _).lead fun _ ha => .done ha

theorem superclass_ready {initial : Option Expr} {r : List Instr × Option Nat}
    (hr : l.Ready scs caps) (h : superclassVariable (initial.map expr) l = .ok r m)
    (ha : m.Agrees) : m.Ready scs caps ∧ l.Grows m := by
  cases initial with
  | none =>
    obtain ⟨_, rfl⟩ := pure_eq_ok.mp h
    exact ⟨hr, .refl l⟩
  | some e =>
    simp only [Option.map_some, superclassVariable, bind_eq_ok, pure_eq_ok] at h
    obtain ⟨c, n, he, v, n', hv, _, rfl⟩ := h
    have hy := expr_yields e hr.tidy he
    have hall := hy.seq (newVariable_spare hy.tidy hv).2
    exact ⟨hall.ready hr ha, hall.grows⟩

theorem nameClass_decides (ha : l.Agrees) {atTop : Bool} {key : Key} (name : String) (value : Code)
    (hown : atTop = false → Owns l key) :
    Decides (nameClass atTop key name value) l [] (mentionsOfName atTop name) := by
  cases atTop with
  | true => exact defineGlobal_decides ha name value
  | false => exact (assignKey_decides ha (hown rfl).finds _).lead fun _ ha => .done ha

theorem classStart_decides (hr : l.Ready scs caps) (name : String)
    {sup : Option Expr}
    (hc : Covers caps (usesOfInitial (scs.declare name) sup)) :
    Decides (classStart name (sup.map expr)) l (dutiesOfInitial (scs.declare name) sup)
      (mentionsOfInitial sup ++ [.name name] ++ mentionsOfName scs.atTop name) := by
  obtain rfl := hr.scopes_eq
  refine .of_get ((declareClass_decides hr.agrees _ name).lead fun hd had => ?_)
  have hdecl := declareClass_executes hr.tidy hd
  have hready := hdecl.ready hr.captured_eq had
  have hvar : ∀ {m : Lowering}, m.Ready (l.scopes.declare name) caps →
      Decides (superclassVariable (sup.map expr)) m
        (dutiesOfInitial (l.scopes.declare name) sup) (mentionsOfInitial sup) := by
    intro m hm
    cases sup with
    | none => exact .done hm.agrees
    | some e =>
      exact (expr_decides e hm hc).follow fun _ ha => (newVariable_decides ha).lead fun _ ha =>
        .done ha
  rw [List.append_assoc]
  refine (hvar hready).adds fun hs has => ?_
  obtain ⟨hready, hsuper⟩ := superclass_ready hready hs has
  refine (intern_decides has name).adds fun hn han => ?_
  have hname := name_yields hready.tidy hn
  refine (use_decides han _).lead fun hu hau => ?_
  have hused := hname.quiet (use_quiet hu)
  refine (newVariable_decides hau).lead fun hv hav => ?_
  have hspare := hused.seq (newVariable_spare hused.tidy hv).2
  refine (nameClass_decides hav name _ fun htop => ?_).follow fun _ ha => .done ha
  simp only [declareClass, htop, Bool.false_eq_true, if_false, bind_eq_ok, pure_eq_ok] at hd
  obtain ⟨_, _, hd, _, rfl⟩ := hd
  exact ((declareLocal_owns hd).grows hsuper).grows hspare.grows

theorem classStart_ready {name : String} (sup : Option Expr)
    {r : List Instr × Option Nat × Nat} (hr : l.Ready scs caps)
    (h : classStart name (sup.map expr) l = .ok r m) (ha : m.Agrees) :
    m.Ready (scs.declare name) caps := by
  obtain rfl := hr.scopes_eq
  cases sup with
  | none => exact (classStart_executes hr.tidy h).ready hr.captured_eq ha
  | some e => exact (classStart_super_executes hr.tidy h).ready hr.captured_eq ha

theorem superScope_decides (ha : l.Agrees) (superVariable : Nat) :
    Decides (superScope superVariable) l [] [] :=
  (onScopes_decides ha _).lead fun _ ha => declareLocal_decides ha _ _

theorem addMethod_decides (ha : l.Agrees) (v : Nat) (name : String) (method : Code) :
    Decides (addMethod v name method) l [] [.name name] :=
  (intern_decides ha name).follow fun _ ha => (use_decides ha _).lead fun _ hu => .done hu

theorem stmt_ready {s : Stmt} {code : List Instr} (hr : l.Ready scs caps)
    (h : stmt s l = .ok code m) (ha : m.Agrees) : m.Ready (s.walk scs) caps := by
  obtain rfl := hr.scopes_eq
  exact (stmt_yields s hr.tidy h).ready hr.captured_eq ha

mutual

theorem stmt_decides : ∀ (s : Stmt) {l : Lowering} {scs : Scopes}, l.Ready scs caps →
    Covers caps (s.uses scs) →
      Decides (stmt s) l (s.duties scs) (s.mentions scs.atTop)
  | .expression e, _, _, hr, hc => by
    exact (expr_decides e hr hc).follow fun _ ha =>
      Decides.lead (.of_get (.done ha)) fun _ ha => .done ha
  | .print e, _, _, hr, hc => by
    exact (expr_decides e hr hc).follow fun _ ha => (use_decides ha _).lead fun _ hu => .done hu
  | .declare name initial, _, _, hr, hc => by
    refine (expr?_decides initial hr hc).adds fun hx ha => ?_
    have hm := (expr?_yields hr.tidy hx).ready hr ha
    exact (declareVariable_decides hm name _).follow fun _ ha => .done ha
  | .block body, l, _, hr, hc => by
    refine (onScopes_decides hr.agrees _).lead fun hp _ => ?_
    obtain rfl := onScopes_eq_ok.mp hp
    exact (stmts_decides body (push_ready hr) hc).follow fun _ ha =>
      (onScopes_decides ha _).lead fun _ ha => .done ha
  | .branch cond yes none, _, _, hr, hc => by
    refine (expr_decides cond hr hc.left).seq fun hx ha => ?_
    have hm := (expr_yields cond hr.tidy hx).ready hr ha
    exact (stmt_decides yes hm hc.right).follow fun _ ha => .done ha
  | .branch cond yes (some no), _, scs, hr, hc => by
    rw [stmt, Stmt.mentions, List.append_assoc]
    refine (expr_decides cond hr hc.left.left).seq fun hx ha => ?_
    have hm := (expr_yields cond hr.tidy hx).ready hr ha
    refine (stmt_decides yes hm hc.left.right).seq fun hy ha => ?_
    have hno := stmt_decides no (stmt_ready hm hy ha) hc.right
    rw [(yes.walk_extends scs).atTop] at hno
    exact hno.follow fun _ ha => .done ha
  | .loop cond body, _, _, hr, hc => by
    refine (expr_decides cond hr hc.left).seq fun hx ha => ?_
    have hm := (expr_yields cond hr.tidy hx).ready hr ha
    exact (stmt_decides body hm hc.right).follow fun _ ha => .done ha
  | .function (.mk name params body), l, scs, hr, hc => by
    rw [stmt, Stmt.duties, FunctionDecl.name, Stmt.mentions, FunctionDecl.name]
    refine .of_get ?_
    rw [hr.scopes_eq]
    have hk : FunctionKind.function ≠ .script := by decide
    cases htop : scs.atTop with
    | true =>
      have hsc : scs.declare name.name = scs :=
        Scopes.declare_of_nil _ (scs.atTop_iff.mp htop)
      rw [Stmt.uses, FunctionDecl.name, hsc] at hc
      rw [hsc]
      exact (declared_decides hr hk (stmts_decides body) hc).adds fun _ ha =>
        (defineGlobal_decides ha _ _).follow fun _ ha => .done ha
    | false =>
      refine .of_get ((declareLocal_decides hr.agrees _ _).lead fun hd had => ?_)
      have hm := declareLocal_ready hr htop hd had
      rw [mentionsOfName, if_neg (by simp), List.append_nil]
      refine (declared_decides hm hk (stmts_decides body) hc).follow fun hf haf => ?_
      have hg := (function_declared hm.tidy (by decide) (stmts_yields body) hf).grows
      have hown := (declareLocal_owns hd).grows hg
      exact (assignKey_decides haf hown.finds _).lead fun _ ha => .done ha
  | .leave none, _, _, hr, _ => by
    exact .of_get (.done hr.agrees)
  | .leave (some e), _, _, hr, hc => by
    exact (expr_decides e hr hc).follow fun _ ha => .done ha
  | .classDecl name none ms, l, scs, hr, hc => by
    have hn : Covers caps (usesOfInitial (scs.declare name) none) := nofun
    refine Decides.after (classStart_decides hr name hn) fun {r _} hs has => ?_
    obtain ⟨start, _, v⟩ := r
    have hm := classStart_ready none hr hs has
    exact (methods_decides v ms hm hc).follow fun _ ha => .done ha
  | .classDecl name (some sup) ms, l, scs, hr, hc => by
    have hsome : Covers caps (usesOfInitial (scs.declare name) (some sup)) := hc.left
    refine Decides.seq (classStart_decides hr name hsome) fun {r _} hs has => ?_
    obtain ⟨start, u, v⟩ := r
    have hm := classStart_ready (some sup) hr hs has
    refine (superScope_decides has _).lead fun ho hao => ?_
    simp only [superScope, bind_eq_ok, onScopes_eq_ok] at ho
    obtain ⟨_, _, rfl, hd⟩ := ho
    have hin := declareLocal_ready (push_ready hm) rfl hd hao
    exact (methods_decides v ms hin hc.right).follow fun _ ha =>
      (onScopes_decides ha _).lead fun _ ha => .done ha

theorem stmts_decides : ∀ (body : List Stmt) {l : Lowering} {scs : Scopes},
    l.Ready scs caps → Covers caps (usesOfAll scs body) →
      Decides (stmts body) l (dutiesOfAll scs body) (mentionsOfAll scs.atTop body)
  | [], _, _, hr, _ => by
    exact .done hr.agrees
  | s :: rest, _, scs, hr, hc => by
    refine (stmt_decides s hr hc.left).seq fun hx ha => ?_
    have hrest := stmts_decides rest (stmt_ready hr hx ha) hc.right
    rw [(s.walk_extends scs).atTop] at hrest
    exact hrest.follow fun _ ha => .done ha

theorem methods_decides (v : Nat) : ∀ (ms : List FunctionDecl) {l : Lowering} {scs : Scopes},
    l.Ready scs caps → Covers caps (usesOfMethods scs ms) →
      Decides (methods v ms) l (dutiesOfMethods scs ms) (mentionsOfMethods ms)
  | [], _, _, hr, _ => by
    exact .done hr.agrees
  | .mk name params body :: rest, _, scs, hr, hc => by
    have hk := FunctionKind.ofMethod_ne_script name.name
    have hrecv := FunctionKind.hasReceiver_ofMethod name.name
    rw [methods, mentionsOfMethods, List.append_assoc]
    have hmth := declared_decides hr hk (stmts_decides body) (by rw [hrecv]; exact hc.left)
    rw [hrecv] at hmth
    refine hmth.seq fun hf haf => ?_
    have hm := function_ready hr hk hf haf
    rw [hrecv] at hm
    refine (addMethod_decides haf v name.name _).after fun had haa => ?_
    have hadd := (addMethod_evaluates hm.tidy had).ready hm haa
    exact (methods_decides v rest hadd hc.right).follow fun _ ha => .done ha

end

theorem declare_scriptStart (s : Store) (name : String) (caps : List Key) :
    declare ⟨name, .exported, .words 0⟩ 
      { store := s, unit := { name := name }, captured := caps } =
      .ok 0 (s.scriptStart name caps) := rfl

theorem scriptStart_ready {s : Store} {name : String} {m1 m2 : Lowering} {u : Unit} {result : Nat}
    (hu : use .stackOverflow (s.scriptStart name caps) = .ok u m1)
    (hv : newVariable m1 = .ok result m2) : m2.Ready {} caps ∧ m2.store = s := by
  obtain ⟨_, _, ht, hst, hsc, hb, _, _, _, hups, _⟩ :=
    script_start (declare_scriptStart s name caps) hu hv
  have hcap : m1.captured = caps := (use_quiet hu).captured
  obtain ⟨rfl, rfl⟩ := hv
  refine ⟨⟨ht, ⟨?_, ?_⟩, hsc, hcap⟩, hst⟩
  · intro key frame storage hk
    rw [hb] at hk
    cases hk
  · intro key hk
    rw [hups] at hk
    cases hk

theorem scriptAfter_decides (s : Store) (name : String) {program : Program}
    (hc : Covers caps program.uses) :
    Decides (scriptAfter program 0) (s.scriptStart name caps) program.duties program.mentions := by
  have hagr : (s.scriptStart name caps).Agrees := ⟨nofun, nofun⟩
  refine (use_decides hagr _).lead fun hu hau => ?_
  refine (newVariable_decides hau).lead fun hv hav => ?_
  obtain ⟨hready, _⟩ := scriptStart_ready hu hv
  exact (stmts_decides program hready hc).follow fun _ ha => .of_get (.done ha)

end Lower

theorem Capture.captures_covers {program : Program} {caps : List Key}
    (h : captures program = .ok caps) : Covers caps program.uses := by
  obtain ⟨hcnt, hmem⟩ := captures_ok h
  exact fun use hu => ⟨hcnt use hu, fun key hk => (hmem key).mpr ⟨use, hu, hk⟩⟩

namespace Store

theorem compile_isOk_iff {program : Program} (h : ∀ use ∈ program.uses, use.Countable) (s : Store)
    (name : String) : (∃ unit, (s.compile name program).1 = .ok unit) ↔
      program.WellScoped ∧ s.heap.HasRoomFor program.texts := by
  rw [Program.texts, ← s.hasRoom_iff, compile_eq]
  cases hcap : Capture.captures program with
  | error e =>
    obtain ⟨_, use, hu, hne⟩ := Capture.captures_error hcap
    exact absurd (h use hu) hne
  | ok caps =>
    have hd := Lower.scriptAfter_decides s name (Capture.captures_covers hcap)
    dsimp only
    cases ha : Lower.scriptAfter program 0 (s.scriptStart name caps) with
    | ok unit l =>
      obtain ⟨_, hmet, hroom, _⟩ := hd.accepted ha
      exact iff_of_true ⟨unit, rfl⟩ ⟨Program.met_duties.mp hmet, hroom⟩
    | error e l =>
      refine iff_of_false nofun fun ⟨hw, hroom⟩ => ?_
      rcases (hd.rejected ha).2 with hunmet | ⟨_, hnot⟩
      · rw [unmet?_eq_none.mpr (Program.met_duties.mpr hw)] at hunmet
        cases hunmet
      · exact hnot hroom

/-- Lowering mentions what a program mentions, in that order, up to where it is
rejected. -/
theorem compile_meets (s : Store) (name : String) (program : Program) :
    ∃ met, met <+: program.mentions ∧ (s.compile name program).2 = s.mentionAll met ∧
      ((∃ unit, (s.compile name program).1 = .ok unit) → met = program.mentions) := by
  rw [compile_eq]
  cases hcap : Capture.captures program with
  | error e => exact ⟨[], List.nil_prefix, rfl, nofun⟩
  | ok caps =>
    have hd := Lower.scriptAfter_decides s name (Capture.captures_covers hcap)
    dsimp only
    cases ha : Lower.scriptAfter program 0 (s.scriptStart name caps) with
    | ok unit l => exact ⟨_, List.prefix_rfl, (hd.accepted ha).2.2.2, fun _ => rfl⟩
    | error e l =>
      obtain ⟨met, hmet, hst⟩ := hd.stopped ha
      exact ⟨met, hmet, hst, nofun⟩

/-- **Lowering accepts exactly the well-scoped programs**, on every store whose
heap has room for their texts. Nothing else in the store makes a difference. -/
theorem accepts_exactly_wellScoped {program : Program}
    (hdep : ∀ use ∈ program.uses, use.depth.toNat < 0xFFFFFFFFFFFFFFFF) :
    (∀ (s : Store) (name : String), (∃ unit, (s.compile name program).1 = .ok unit) ↔
      program.WellScoped ∧ s.heap.HasRoomFor program.texts) ∧
    ∀ (s s' : Store) (name name' : String),
      s.heap.HasRoomFor program.texts → s'.heap.HasRoomFor program.texts →
        ((∃ unit, (s.compile name program).1 = .ok unit) ↔
          ∃ unit, (s'.compile name' program).1 = .ok unit) := by
  have hcnt : ∀ use ∈ program.uses, use.Countable := by
    intro use hu
    have := hdep use hu
    unfold Use.Countable
    omega
  refine ⟨fun s name => compile_isOk_iff hcnt s name, fun s s' name name' hroom hroom' => ?_⟩
  rw [compile_isOk_iff hcnt, compile_isOk_iff hcnt]
  exact and_congr_right' (iff_of_true hroom hroom')

def hasty : Program :=
  [.block [.print (.read ⟨"count", 1⟩ (.scope 0)), .declare "count" none]]

theorem accepts_exactly_wellScoped_tally :
    (∃ unit, (Store.compile { heap := .withLimit 2, maxDepth := 8 } "main" tally).1 = .ok unit) ∧
    (¬∃ unit, (Store.compile { heap := .withLimit 1, maxDepth := 8 } "main" tally).1 = .ok unit) ∧
    ¬∃ unit, (Store.compile { heap := .empty, maxDepth := 8 } "main" hasty).1 = .ok unit := by
  have hdep : ∀ use ∈ tally.uses, use.depth.toNat < 0xFFFFFFFFFFFFFFFF := by decide +kernel
  have hdep' : ∀ use ∈ hasty.uses, use.depth.toNat < 0xFFFFFFFFFFFFFFFF := by decide +kernel
  refine ⟨((accepts_exactly_wellScoped hdep).1 _ _).mpr ⟨?_, ?_⟩, ?_, ?_⟩
  · simp [Program.WellScoped, tally, wellScopedAll, Stmt.WellScoped, wellScopedInitial,
      Expr.WellScoped, Resolution.WellScoped, FunctionDecl.WellScoped, wellScopedMethods,
      wellScopedArguments, Nest.declare, Nest.Holds, Stmt.declares, FunctionDecl.name, maxArity]
  · decide +kernel
  · rw [(accepts_exactly_wellScoped hdep).1]
    exact fun h => absurd h.2 (by decide +kernel)
  · rw [(accepts_exactly_wellScoped hdep').1]
    rintro ⟨hsco, _⟩
    simp [Program.WellScoped, hasty, wellScopedAll, Stmt.WellScoped, Expr.WellScoped,
      Resolution.WellScoped, Nest.Holds] at hsco

end Store

end ScriptMachine
