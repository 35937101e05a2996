/-
ScriptMachine.Proofs.Sessions.Meaning — where locals are stored makes no
difference to a program.
-/
import ScriptMachine.Proofs.Lexical.Scripts
import ScriptMachine.Proofs.Lowers.Acceptance
import ScriptMachine.Proofs.Sessions.Twins

namespace ScriptMachine

open Lexical

/-! ## §1 Histories -/

/-- What can be seen of a run of the interpreter. -/
def Lexical.seen : EStateM.Result Exit State Word → Seen
  | .ok w σ | .error (.returned w) σ => ⟨.ok (σ.store.render w), σ.store.printed⟩
  | .error (.raised e) σ => ⟨.error (.runtime e), σ.store.printed⟩
  | .error .unfinished σ => ⟨.error .unfinished, σ.store.printed⟩

/-- The state of the interpreter after a request. -/
def Lexical.State.serve (σ : State) : Request → State
  | .mention m => { σ with store := σ.store.mention m }
  | .define name w => { σ with store := σ.store.defineGlobal name w }
  | .mute muted => { σ with store := { σ.store with muted := muted } }
  | .run now fuel program => left ((interpret now fuel program).run σ)

namespace Session

/-- A submission for which the heap is large enough. -/
structure Roomy (session : Session) (now : Word) (program : Program) : Prop where
  texts : session.store.heap.HasRoomFor program.texts
  objects : ∀ fuel e, (session.run now fuel program).1 ≠ .error (.runtime (.heap e))

/-- Requests that can be made of the interpreter as well. A word is defined on
both heaps, so it is no reference, and neither is what minus makes of it. -/
def Shares (session : Session) : Request → Prop
  | .mention m => session.store.CanMention m
  | .define _ w => w.isObject = false ∧
    (w.isPlain = true → Word.isObject ⟨Number.flipSign w.bits⟩ = false)
  | .mute _ => True
  | .run now fuel program => (∃ time, now = .ofNumber time) ∧ program.MeetsContract ∧
    session.Roomy now program ∧ (session.run now fuel program).1 ≠ .error .unfinished

/-- A session and a state of the interpreter that come about in the same way.
A program that is rejected leaves behind the numbers it was issued. -/
inductive Mirrors : Session → State → Prop
  | adopt {session : Session} : session.ReachableBy .issued →
      Mirrors session { store := session.store }
  | serve {session : Session} {σ : State} (request : Request) : Mirrors session σ →
      session.Shares request → Mirrors (session.serve request) (σ.serve request)
  | reject {session : Session} {σ : State} {time : UInt64} {fuel : Nat} {program : Program}
      {e : CompileError} {ms : List Mention} : Mirrors session σ →
      (session.run (.ofNumber time) fuel program).1 = .error (.compile e) →
      (session.run (.ofNumber time) fuel program).2.store = session.store.mentionAll ms →
      session.store.HasRoom ms →
        Mirrors (session.run (.ofNumber time) fuel program).2
          { σ with store := σ.store.mentionAll ms }

/-- However long the interpreter runs a program, the session shows the same
after as many steps or more; once the session is done, so is the interpreter,
with the same; and at no time has the session printed anything that the
interpreter does not print. -/
structure Agrees (session : Session) (σ : State) (now : Word) (program : Program) : Prop where
  follows : ∀ k, ∃ n, k ≤ n ∧
    seen (session.run now n program) = Lexical.seen ((interpret now k program).run σ)
  ends : ∀ n, (session.run now n program).1 ≠ .error .unfinished →
    seen (session.run now n program) = Lexical.seen ((interpret now n program).run σ)
  prints : ∀ n, ∃ more, (Lexical.seen ((interpret now n program).run σ)).printed =
    (seen (session.run now n program)).printed ++ more

variable {session : Session} {now : Word} {program : Program} {n : Nat}

theorem Roomy.of_ended (h : session.engine.queue = [])
    (ht : session.store.heap.HasRoomFor program.texts)
    (hne : (session.run now n program).1 ≠ .error .unfinished)
    (hh : ∀ e, (session.run now n program).1 ≠ .error (.runtime (.heap e))) :
    session.Roomy now program where
  texts := ht
  objects fuel e hf := by
    rcases Nat.le_total n fuel with hle | hle
    · exact hh e (run_of_ended h hle hne ▸ hf)
    · refine hh e ?_
      rw [run_of_ended h hle (by rw [hf]; nofun), hf]

theorem Roomy.of_succeeded (h : session.engine.queue = [])
    (ht : session.store.heap.HasRoomFor program.texts)
    (hok : (session.run now n program).1.toOption.isSome = true) : session.Roomy now program := by
  obtain ⟨w, hw⟩ := exists_ok hok
  exact .of_ended h ht (by rw [hw]; nofun) (by rw [hw]; nofun)

end Session

/-! ## §2 Adoption -/

/-- On a heap that looks the same as itself, objects stand for themselves. Of a
closure, the code has to be such that its constants do so too. -/
theorem Link.objects_self {K : Kin} {L : Link} (hobj : L.object = K.object) {o : Object}
    (h : K.view.Objects o o) (ht : o.Typed L.known) : L.view.Objects o o := by
  have hle : ∀ {i j}, K.object i j → L.object i j := fun hij => hobj ▸ hij
  cases o with
  | text t => exact .text t
  | closure c =>
    obtain ⟨unit, d, hent, htyped⟩ := ht
    cases h with
    | closure _ _ hc => exact .closure rfl rfl (.shared hent hent htyped (hc.2.mono hle))
  | cell w =>
    cases h with
    | cell hw => exact .cell (hw.mono hle)
  | ofClass c =>
    cases h with
    | ofClass _ hm =>
      refine .ofClass rfl (List.forall₂_same.mpr fun e he => ⟨rfl, ?_⟩)
      exact (List.forall₂_same.mp hm e he).2.mono hle
  | ofInstance i =>
    cases h with
    | ofInstance hc _ hs => exact .ofInstance (hc.mono hle) rfl (hs.mono hle)
  | bound b =>
    cases h with
    | bound hr hm => exact .bound (hr.mono hle) (hm.mono hle)
  | native n => exact .native rfl ht ht

namespace Lexical

variable {L : Link} {σ : State} {s : Store}

theorem Moment.Linked.congr (h : Moment.Linked ⟨L, σ, s⟩) (error : Option Failure)
    (pending : Bool) (sites : Array Site) :
    Moment.Linked ⟨L, σ, { s with error := error, pending := pending, sites := sites }⟩ := by
  have ha : Moment.Advances 0 ⟨L, σ, s⟩
      ⟨L, σ, { s with error := error, pending := pending, sites := sites }⟩ :=
    ⟨id, id, fun _ => id, Nat.le_refl _, .refl _, fun _ _ => rfl,
      .of_heap rfl (fun _ => rfl) rfl rfl id⟩
  exact h.advance ha { h.stores with } h.cells h.cell_unique h.cell_injective rfl rfl
    (Nat.le_refl _)

end Lexical

namespace Session

variable {session : Session}

/-- The store of a session is linked to itself. No variable is in a cell and no
function was made in an environment so far. -/
theorem ReachableBy.linked_self (h : session.ReachableBy .issued) :
    ∃ L : Link, Moment.Linked ⟨L, { store := session.store }, session.store⟩ := by
  obtain ⟨K, he, hs⟩ := h.likeItself
  have hsame : ∀ {w}, Vocabulary.issued.Has session.store.heap w → K.Same w w :=
    hs.heap.same_self he
  let L : Link := ⟨K.object, fun _ _ _ => False, fun _ _ => False⟩
  have hk : (Known.ofHeap .issued session.store.heap).Le L.known :=
    ⟨fun hw => hsame hw, fun _ => trivial⟩
  have hh : L.Heaps session.store.heap session.store.heap :=
    { objects := fun {i j} hij => by
        obtain ⟨o, o', hi, hj, ho⟩ := hs.heap.objects hij
        have hdia := (hs.heap.level he).2 i (Array.getElem?_eq_some_iff.mp hi).1
        obtain rfl := hs.heap.functional hij hdia
        cases hi.symm.trans hj
        exact ⟨o, o, hi, hi, Link.objects_self rfl ho ((h.sound.heap _ o hi).mono hk)⟩
      functional := hs.heap.functional
      injective := hs.heap.injective
      limit := rfl
      limit_le := hs.heap.limit_le
      within := hs.heap.within
      size_le := Nat.le_refl _
      interned := fun text => by
        cases ht : session.store.heap.interned.get? text with
        | none => exact .none
        | some i =>
          obtain ⟨j, hj, hij⟩ := hs.heap.known ht
          cases ht.symm.trans hj
          exact .some hij }
  have hgls : ∀ g ∈ session.store.globals.toList, L.Globals g g := by
    intro g hg
    obtain ⟨slot, hslot⟩ := List.mem_iff_getElem?.mp hg
    refine ⟨rfl, ?_⟩
    cases hv : g.value with
    | none => exact .none
    | some w =>
      have hval : session.store.slotValue? slot = some w := by
        rw [Store.slotValue?, ← Array.getElem?_toList, hslot]
        exact hv
      exact .some (hsame (h.sound.store.globals hval))
  have hsts : L.Stores session.store session.store :=
    { heap := hh
      names := rfl
      shapes := ⟨rfl, fun _ => ⟨rfl, List.forall₂_same.mpr fun _ _ => ⟨rfl, rfl⟩,
        List.forall₂_same.mpr fun _ _ => ⟨rfl, rfl⟩⟩⟩
      globals := List.forall₂_same.mpr hgls
      prototypes := rfl
      initializer := rfl
      depth := rfl
      maxDepth := rfl
      printed := rfl
      muted := rfl }
  exact ⟨L, hsts, False.elim, False.elim, False.elim, False.elim, Nat.zero_le _⟩

/-! ## §3 Runs -/

variable {after : Session} {σ : State} {time : UInt64} {program : Program} {m : Machine}

structure Paired (session : Session) (σ : State) : Prop where
  reachable : session.ReachableBy .issued
  linked : ∃ L : Link, Moment.Linked ⟨L, σ, session.store⟩

theorem Roomy.not_exhausts (hroom : session.Roomy (.ofNumber time) program)
    (h : session.ReachableBy .issued)
    (hl : session.launch (.ofNumber time) program = (.ok m, after)) :
    ¬Exhausts (host (.ofNumber time)) m := by
  rintro ⟨n, m', e, hr, he⟩
  have hsea : m.searchRun (host (.ofNumber time)) n = m' := hr.searchRun 0
  obtain ⟨fuel, hf⟩ := h.reports_full hl (hsea ▸ he)
  exact hroom.objects fuel e hf

theorem Paired.concludes (h : session.Paired σ) (hcon : program.MeetsContract)
    (ht : session.store.heap.HasRoomFor program.texts) (time : UInt64) (k : Nat) :
    ∃ m after, session.launch (.ofNumber time) program = (.ok m, after) ∧
      Concludes (host (.ofNumber time)) k m ((interpret (.ofNumber time) k program).run σ) := by
  obtain ⟨L, hlink⟩ := h.linked
  obtain ⟨unit, hu⟩ := (Store.compile_isOk_iff hcon.countable session.store
    session.unitName).mpr ⟨hcon.wellScoped, ht⟩
  obtain ⟨m, hm⟩ := h.reachable.launches (.ofNumber time) hu
  have hl : session.launch (.ofNumber time) program =
      (.ok m, (session.launch (.ofNumber time) program).2) := by rw [← hm]
  obtain ⟨_, f, hc, hf, hsta⟩ := launch_ok h.reachable.sound.queue hl
  obtain ⟨hst, hyie⟩ := Store.compile_yields hc
  obtain ⟨G, F, code, _, hG, rfl, hscr⟩ := hyie fun _ => 0
  obtain rfl : f = ⟨F.locals, Translate.scriptBody code⟩ :=
    Option.some.inj (hf.symm.trans hscr.function)
  obtain ⟨L', hlink'⟩ := hlink.mentionAll program.mentions
    ((session.store.hasRoom_iff program.mentions).mpr ht)
  let p : Moment := ⟨L', { σ with store := σ.store.mentionAll program.mentions },
    session.store.mentionAll program.mentions⟩
  have hp : p.Linked := hlink'
  have hq := (session.store.prepares_mentionAll program.mentions).quiescent h.reachable.quiescent
  have hcalm : p.Calm := ⟨hq.calm, hq.error⟩
  have hfits : G.store.Later p.store := by
    rw [hG, hst]
    exact .refl _
  have hnow : (host (.ofNumber time)).now.Atomic := .canonical (.of_number time)
  have hrun : (interpret (.ofNumber time) k program).run σ = (atDepth (returning id
      (execAll k (invoke (.ofNumber time) k) .nil none program .nil))).run p.state :=
    run_bind_of_ok (run_onStore_ok _ rfl)
  refine ⟨m, _, hl, ?_⟩
  rw [hsta, hrun, hst]
  exact script_concludes (p := p) hnow hp hcalm hscr hfits hcon.wellPlaced

theorem ReachableBy.returned {n : Nat} {m' : Machine} {w : Word} {p : Moment}
    (h : session.ReachableBy .issued)
    (hl : session.launch (.ofNumber time) program = (.ok m, after))
    (hr : Reaches (host (.ofNumber time)) n m m') (hc : m'.control = .stopped (.returned w))
    (hst : p.store = m'.store) (hlink : p.Linked) (k : Nat) :
    let ended := session.run (.ofNumber time) (n + k + 1) program
    ended.1 = (match p.store.error with | some e => .error (.runtime e) | none => .ok w) ∧
      Moment.Linked ⟨p.link, p.state, ended.2.store⟩ := by
  obtain ⟨L, σ, s⟩ := p
  dsimp only at hst
  subst hst
  have hsea : m.searchRun (host (.ofNumber time)) (n + k) = m' := by
    rw [hr.searchRun]
    cases k with
    | zero => rfl
    | succ k => simp [Machine.searchRun, Machine.stop?, hc]
  obtain ⟨sites, _, heq⟩ := h.searchRun_alike hl (n + k)
  rw [hsea] at heq
  rw [run_launched h.sound.queue hl]
  generalize m.run (host (.ofNumber time)) (n + k) = real at heq
  subst heq
  have hs : real.stop? = some (.returned w) := by
    unfold Machine.stop?
    rw [show real.control = .stopped (.returned w) from hc]
  rw [hs]
  refine ⟨?_, ?_⟩
  · exact conclude_answer _ w
  · rw [conclude_returned_store]
    exact hlink.congr none false real.store.sites

theorem Paired.run (h : session.Paired σ) (hcont : program.MeetsContract)
    (hroom : session.Roomy (.ofNumber time) program) (k : Nat) :
    let r := (interpret (.ofNumber time) k program).run σ
    ∃ n, k ≤ n ∧ seen (session.run (.ofNumber time) n program) = Lexical.seen r ∧
      ((session.run (.ofNumber time) n program).1 ≠ .error .unfinished →
        (session.run (.ofNumber time) n program).2.Paired (left r)) := by
  intro r
  obtain ⟨m, after, hl, hcon⟩ := h.concludes hcont hroom.texts time k
  change Concludes (host (.ofNumber time)) k m r at hcon
  clear_value r
  cases hcon with
  | exhausted he => exact absurd he (hroom.not_exhausts h.reachable hl)
  | @ok n m' p w w' hr hc hst hlink hcalm hs =>
    obtain ⟨hans, ha⟩ := h.reachable.returned hl hr hc hst hlink k
    have hsts : p.link.Stores p.state.store _ := ha.stores
    rw [hcalm.2] at hans
    refine ⟨n + k + 1, by omega, ?_, fun hne => ⟨h.reachable.run time _ program hne, _, ha⟩⟩
    rw [seen, hans, Lexical.seen, ← hsts.views.render hs, ← hsts.printed]
    rfl
  | @raised n m' p e w hr hc hst hlink he =>
    obtain ⟨hans, ha⟩ := h.reachable.returned hl hr hc hst hlink k
    have hsts : p.link.Stores p.state.store _ := ha.stores
    rw [he] at hans
    refine ⟨n + k + 1, by omega, ?_, fun hne => ⟨h.reachable.run time _ program hne, _, ha⟩⟩
    rw [seen, hans, Lexical.seen, ← hsts.printed]
    rfl
  | @unfinished n m' σ' hle hr hstop hprt =>
    obtain ⟨sites, _, heq⟩ := h.reachable.searchRun_alike hl n
    have hsea : m.searchRun (host (.ofNumber time)) n = m' := hr.searchRun 0
    rw [hsea] at heq
    subst heq
    have hrun : session.run (.ofNumber time) (n + 1) program =
        (.error .unfinished, { after with store := (m.run (host (.ofNumber time)) n).store }) := by
      rw [run_launched h.reachable.sound.queue hl]
      rw [show (m.run (host (.ofNumber time)) n).stop? = none from hstop]
      rfl
    refine ⟨n + 1, by omega, ?_, fun hne => absurd (by rw [hrun]) hne⟩
    rw [hrun, Lexical.seen, ← hprt]
    rfl

theorem Paired.serve (h : session.Paired σ) {request : Request} (hsha : session.Shares request) :
    (session.serve request).Paired (σ.serve request) := by
  obtain ⟨L, hl⟩ := h.linked
  cases request with
  | mention m =>
    exact ⟨h.reachable.serve (.mention m) trivial, hl.mentionAll [m] ⟨hsha, trivial⟩⟩
  | define name w =>
    obtain ⟨hobj, hopp⟩ := hsha
    have hsame : L.Same w w :=
      .other hobj fun hp hb => absurd hb (by rw [hopp hp]; decide)
    obtain ⟨hm, hs⟩ := hl.stores.define name hsame
    have hiss : Vocabulary.issued.Has session.store.heap w :=
      ⟨.of_eq_false hobj, fun hp => .of_eq_false (hopp hp)⟩
    exact ⟨h.reachable.serve (.define name w) hiss, L, hl.moved hm hs⟩
  | mute muted =>
    exact ⟨h.reachable.serve (.mute muted) trivial, L, hl.moved
      (.of_heap_eq rfl rfl (.of_heap rfl (fun _ => rfl) rfl rfl id))
      { hl.stores with muted := rfl }⟩
  | run now fuel program =>
    obtain ⟨⟨time, rfl⟩, hcon, hr, hne⟩ := hsha
    obtain ⟨n, hle, _, hpai⟩ := h.run hcon hr fuel
    have hsame := run_of_ended h.reachable.sound.queue hle hne
    rw [hsame] at hpai
    exact hpai hne

/-! ## §4 Main -/

theorem Mirrors.paired (h : session.Mirrors σ) : session.Paired σ := by
  induction h with
  | adopt hr => exact ⟨hr, hr.linked_self⟩
  | serve request _ hsha ih => exact ih.serve hsha
  | @reject before σ time fuel program e ms _ hans hst hroom ih =>
    obtain ⟨L, hl⟩ := ih.linked
    refine ⟨ih.reachable.run time fuel program (by rw [hans]; nofun), ?_⟩
    rw [hst]
    exact hl.mentionAll ms hroom

theorem Paired.agrees (h : session.Paired σ) (hcon : program.MeetsContract)
    (hr : session.Roomy (.ofNumber time) program) :
    session.Agrees σ (.ofNumber time) program := by
  have hque := h.reachable.sound.queue
  have hs : ∀ k, ∃ n, k ≤ n ∧ seen (session.run (.ofNumber time) n program) =
      Lexical.seen ((interpret (.ofNumber time) k program).run σ) := by
    intro k
    obtain ⟨n, hle, hn, _⟩ := h.run hcon hr k
    exact ⟨n, hle, hn⟩
  refine ⟨hs, fun n hne => ?_, fun n => ?_⟩
  · obtain ⟨k, hle, hk⟩ := hs n
    rw [← hk]
    exact congrArg seen (run_of_ended hque hle hne).symm
  · obtain ⟨k, hle, hk⟩ := hs n
    rw [← hk]
    exact run_continues hque hle

def nearby (name : String) (depth : UInt64) : Expr := .read ⟨name, 1⟩ (.scope depth)

def keeping : Program :=
  [ .function (.mk ⟨"make", 1⟩ []
      [ .declare "held" none,
        .function (.mk ⟨"keep", 1⟩ ["to"]
          [ .declare "old" (some (nearby "held" 1)),
            .expression (.assign ⟨"held", 1⟩ (.scope 1) (nearby "to" 0)),
            .leave (some (nearby "old" 0)) ]),
        .leave (some (nearby "keep" 0)) ]),
    .declare "keep" (some (.call (.read ⟨"make", 1⟩ .global) [] 1)),
    .expression (.call (.read ⟨"keep", 1⟩ .global) [.literal (.bool true)] 1) ]

def swaps : Program :=
  let swap (name : String) (value : Literal) :=
    Stmt.print (.call (nearby name 0) [.literal value] 1)
  [.block
    [.declare "more" (some (.literal (.bool true))),
     .declare "again" (some (.literal (.bool true))),
     .declare "first" none,
     .declare "second" none,
     .loop (nearby "more" 0) (.block
      [.declare "cell" (some (nearby "more" 1)),
       .function (.mk ⟨"outer", 1⟩ []
        [.function (.mk ⟨"swap", 1⟩ ["to"]
          [.declare "old" (some (nearby "cell" 2)),
           .expression (.assign ⟨"cell", 1⟩ (.scope 2) (nearby "to" 0)),
           .leave (some (nearby "old" 0))]),
         .leave (some (nearby "swap" 0))]),
       .expression (.assign ⟨"first", 1⟩ (.scope 1) (nearby "second" 1)),
       .expression (.assign ⟨"second", 1⟩ (.scope 1) (.call (nearby "outer" 0) [] 1)),
       .expression (.assign ⟨"more", 1⟩ (.scope 1) (nearby "again" 1)),
       .expression (.assign ⟨"again", 1⟩ (.scope 1) (.literal (.bool false)))]),
     swap "first" (.bool false),
     swap "first" .nil,
     swap "second" .nil,
     .print (.call (.read ⟨"keep", 1⟩ .global) [nearby "first" 0] 1),
     .print (.call (.call (.read ⟨"keep", 1⟩ .global) [.literal .nil] 1) [.literal .nil] 1),
     .classDecl "Base" none
      [.mk ⟨"me", 1⟩ [] [.leave (some (.self ⟨"this", 1⟩ (.scope 1)))]],
     .classDecl "Leaf" (some (nearby "Base" 0))
      [.mk ⟨"me", 1⟩ [] [.leave (some (.call (.super ⟨"super", 1⟩ "me" (.scope 2)) [] 1))]],
     .print (.call (.get (.call (nearby "Leaf" 0) [] 1) "me") [] 1)]]

theorem meetsContract_keeping : keeping.MeetsContract where
  wellScoped := by
    simp [Program.WellScoped, keeping, nearby, wellScopedAll, Stmt.WellScoped, wellScopedInitial,
      Expr.WellScoped, Resolution.WellScoped, FunctionDecl.WellScoped, wellScopedArguments,
      Nest.declare, Nest.Holds, Stmt.declares, FunctionDecl.name, maxArity]
  wellPlaced := by
    simp [keeping, wellPlacedAll, Stmt.WellPlaced, declaredBy, Stmt.declares,
      FunctionDecl.WellPlaced, FunctionDecl.name]
  countable := by decide +kernel

theorem meetsContract_swaps : swaps.MeetsContract where
  wellScoped := by
    simp [Program.WellScoped, swaps, nearby, wellScopedAll, Stmt.WellScoped, wellScopedInitial,
      Expr.WellScoped, Resolution.WellScoped, FunctionDecl.WellScoped, wellScopedMethods,
      wellScopedArguments, Nest.declare, Nest.Holds, Stmt.declares, FunctionDecl.name, maxArity]
  wellPlaced := by
    simp [swaps, wellPlacedAll, Stmt.WellPlaced, declaredBy, Stmt.declares,
      FunctionDecl.WellPlaced, FunctionDecl.name, wellPlacedMethods]
  countable := by decide +kernel

def kept : Session := ((created {} 32).run (.ofNumber 0) 100 keeping).2

theorem reachable_created : (created {} 32).ReachableBy .issued :=
  .create (create_created (by decide +kernel))

theorem reachable_kept : kept.ReachableBy .issued :=
  reachable_created.run 0 100 keeping (ended_iff.mp (by decide +kernel))

theorem mirrors_kept : kept.Mirrors
    (State.serve { store := (created {} 32).store } (.run (.ofNumber 0) 100 keeping)) := by
  have hok : ((created {} 32).run (.ofNumber 0) 100 keeping).1.toOption.isSome = true := by
    decide +kernel
  refine (Mirrors.adopt reachable_created).serve (.run (.ofNumber 0) 100 keeping)
    ⟨⟨0, rfl⟩, meetsContract_keeping, ?_, ended_iff.mp (by decide +kernel)⟩
  exact .of_succeeded reachable_created.sound.queue (by decide +kernel) hok

def peeking (negated : Bool) : Program :=
  [.block
    [.declare "x" (some (.literal (.number 0x3FF0000000000000))),
     .function (.mk ⟨"f", 1⟩ [] [.leave (some (nearby "x" 1))]),
     looking negated]]

theorem meetsContract_peeking (negated : Bool) : (peeking negated).MeetsContract where
  wellScoped := by
    cases negated <;>
      simp [Program.WellScoped, peeking, looking, nearby, wellScopedAll, Stmt.WellScoped,
        wellScopedInitial,
        Expr.WellScoped, Resolution.WellScoped, FunctionDecl.WellScoped, Nest.declare, Nest.Holds,
        Stmt.declares, FunctionDecl.name, maxArity]
  wellPlaced := by
    simp [peeking, looking, wellPlacedAll, Stmt.WellPlaced, declaredBy, Stmt.declares,
      FunctionDecl.WellPlaced, FunctionDecl.name]
  countable := by cases negated <;> decide +kernel

/-- The session prints one text and the interpreter another. -/
structure Exposes (session : Session) (program : Program) (printed lexical : String) : Prop where
  reachable : session.Reachable
  contract : program.MeetsContract
  room : session.Roomy (.ofNumber 0) program
  succeeds : (session.run (.ofNumber 0) 100 program).1.toOption.isSome = true
  session_printed : (session.run (.ofNumber 0) 100 program).2.store.printed = printed
  lexical_printed : (Lexical.seen
    ((interpret (.ofNumber 0) 100 program).run { store := session.store })).printed = lexical

end Session

end ScriptMachine
