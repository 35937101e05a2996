/-
ScriptMachine.Proofs.Lexical.Contract — what a resolver promises of a program.
-/
import Mathlib.Data.List.Nodup
import ScriptMachine.Proofs.Scoping

namespace ScriptMachine

/-! ## §1 Rules -/

variable {sc : Scopes} {body : List Stmt}

def declaredBy (body : List Stmt) : List String := body.flatMap Stmt.declares

mutual

def Stmt.WellPlaced : Stmt → Prop
  | .block body => (declaredBy body).Nodup ∧ wellPlacedAll body
  | .branch _ yes none => yes.declares = [] ∧ yes.WellPlaced
  | .branch _ yes (some no) =>
    yes.declares = [] ∧ no.declares = [] ∧ yes.WellPlaced ∧ no.WellPlaced
  | .loop _ body => body.declares = [] ∧ body.WellPlaced
  | .function decl => decl.WellPlaced
  | .classDecl _ _ methods => wellPlacedMethods methods
  | _ => True

/-- Every statement is well placed. -/
def wellPlacedAll : List Stmt → Prop
  | [] => True
  | s :: rest => s.WellPlaced ∧ wellPlacedAll rest

def FunctionDecl.WellPlaced : FunctionDecl → Prop
  | .mk _ params body => (params ++ declaredBy body).Nodup ∧ wellPlacedAll body

def wellPlacedMethods : List FunctionDecl → Prop
  | [] => True
  | m :: rest => m.WellPlaced ∧ wellPlacedMethods rest

end

/-- A program as a resolver hands it on. Levels are counted in words, of which
the largest one is not a level. -/
structure Program.MeetsContract (program : Program) : Prop where
  wellScoped : program.WellScoped
  wellPlaced : wellPlacedAll program
  countable : ∀ use ∈ program.uses, use.Countable

/-! ## §2 Scopes -/

namespace Scopes

def Distinct (sc : Scopes) : Prop := ∀ names ∈ sc.nest, names.Nodup

structure Regular (sc : Scopes) : Prop where
  keys_lt : ∀ {scope name key}, scope ∈ sc.stack → (name, key) ∈ scope.entries → key < sc.nextKey
  keys : ∀ {d d' : Nat} {scope scope' name name' key}, sc.stack[d]? = some scope →
    sc.stack[d']? = some scope' → (name, key) ∈ scope.entries →
      (name', key) ∈ scope'.entries → d = d' ∧ name = name'
  names : sc.Distinct
  frames_lt : ∀ {scope}, scope ∈ sc.stack → scope.frame < sc.nextFrame
  frame_lt : sc.frame < sc.nextFrame

def TopOwn (sc : Scopes) : Prop :=
  ∀ {scope rest}, sc.stack = scope :: rest → scope.frame = sc.frame

theorem Distinct.of_extends {a b : Scopes} (h : b.Distinct) (he : a.Extends b) : a.Distinct := by
  intro names hmem
  unfold Distinct nest at h
  rcases he.stack with ⟨ha, _⟩ | ⟨scope, rest, more, ha, hb⟩
  · simp [nest, ha] at hmem
  · rw [hb] at h
    rw [nest, ha] at hmem
    rcases List.mem_cons.mp hmem with rfl | hmem
    · have hall := h _ List.mem_cons_self
      dsimp only at hall ⊢
      rw [List.map_append] at hall
      exact (List.nodup_append.mp hall).2.1
    · exact h _ (List.mem_cons_of_mem _ hmem)

variable {sc : Scopes}

namespace Regular

theorem start : Regular {} where
  keys_lt h := absurd h List.not_mem_nil
  keys h := by simp at h
  names := nofun
  frames_lt h := absurd h List.not_mem_nil
  frame_lt := Nat.one_pos

theorem later (h : sc.Regular) {sc' : Scopes} (hs : sc'.stack = sc.stack)
    (hf : sc'.frame = sc.frame) (hn : sc.nextFrame ≤ sc'.nextFrame)
    (hk : sc.nextKey ≤ sc'.nextKey) : sc'.Regular where
  keys_lt hm he := Nat.lt_of_lt_of_le (h.keys_lt (hs ▸ hm) he) hk
  keys hd hd' := by
    rw [hs] at hd hd'
    exact h.keys hd hd'
  names := by
    unfold Distinct
    rw [nest_of_stack hs]
    exact h.names
  frames_lt hm := Nat.lt_of_lt_of_le (h.frames_lt (hs ▸ hm)) hn
  frame_lt := by
    rw [hf]
    exact Nat.lt_of_lt_of_le h.frame_lt hn

theorem push (h : sc.Regular) : sc.push.Regular where
  keys_lt hm he := by
    rcases List.mem_cons.mp hm with rfl | hm
    · cases he
    · exact h.keys_lt hm he
  keys {d d'} _ _ _ _ _ hd hd' he he' := by
    cases d with
    | zero =>
      cases hd
      cases he
    | succ d =>
      cases d' with
      | zero =>
        cases hd'
        cases he'
      | succ d' =>
        obtain ⟨rfl, hn⟩ := h.keys hd hd' he he'
        exact ⟨rfl, hn⟩
  names names hm := by
    rcases List.mem_cons.mp hm with rfl | hm
    · exact List.nodup_nil
    · exact h.names names hm
  frames_lt hm := by
    rcases List.mem_cons.mp hm with rfl | hm
    · exact h.frame_lt
    · exact h.frames_lt hm
  frame_lt := h.frame_lt

theorem enter (h : sc.Regular) : sc.enter.Regular where
  keys_lt := h.keys_lt
  keys := h.keys
  names := h.names
  frames_lt hm := Nat.lt_succ_of_lt (h.frames_lt hm)
  frame_lt := Nat.lt_succ_self _

theorem declare (h : sc.Regular) (name : String) (hd : (sc.declare name).Distinct) :
    (sc.declare name).Regular := by
  cases hs : sc.stack with
  | nil =>
    rw [declare_of_nil name hs]
    exact h
  | cons scope rest =>
    have hent : ∀ {d scope' n k}, (sc.declare name).stack[d]? = some scope' →
        (n, k) ∈ scope'.entries → (d = 0 ∧ n = name ∧ k = sc.nextKey) ∨
          ∃ old, sc.stack[d]? = some old ∧ (n, k) ∈ old.entries := by
      intro d scope' n k hd he
      rw [declare_of_cons name hs] at hd
      rw [hs]
      cases d with
      | zero =>
        cases hd
        rcases List.mem_cons.mp he with heq | he
        · cases heq
          exact .inl ⟨rfl, rfl, rfl⟩
        · exact .inr ⟨scope, rfl, he⟩
      | succ d => exact .inr ⟨scope', hd, he⟩
    have hold : ∀ {d : Nat} {old n k}, sc.stack[d]? = some old → (n, k) ∈ old.entries →
        k < sc.nextKey := fun hd he => h.keys_lt (List.mem_of_getElem? hd) he
    refine
      { keys_lt := ?_, keys := ?_, names := hd, frames_lt := ?_, frame_lt := ?_ }
    · intro scope' n k hm he
      obtain ⟨d, hd⟩ := List.mem_iff_getElem?.mp hm
      rw [show (sc.declare name).nextKey = sc.nextKey + 1 by rw [declare_of_cons name hs]]
      rcases hent hd he with ⟨_, _, rfl⟩ | ⟨old, hd, he⟩
      · exact Nat.lt_succ_self _
      · exact Nat.lt_succ_of_lt (hold hd he)
    · intro d d' _ _ n n' k hd hd' he he'
      rcases hent hd he with ⟨rfl, rfl, rfl⟩ | ⟨old, hd, he⟩
      · rcases hent hd' he' with ⟨rfl, rfl, _⟩ | ⟨old', hd', he'⟩
        · exact ⟨rfl, rfl⟩
        · exact absurd (hold hd' he') (Nat.lt_irrefl _)
      · rcases hent hd' he' with ⟨_, _, rfl⟩ | ⟨old', hd', he'⟩
        · exact absurd (hold hd he) (Nat.lt_irrefl _)
        · exact h.keys hd hd' he he'
    · intro scope' hm
      rw [declare_nextFrame]
      rw [declare_of_cons name hs] at hm
      rcases List.mem_cons.mp hm with rfl | hm
      · have hmem : scope ∈ sc.stack := by
          rw [hs]
          exact List.mem_cons_self
        exact (h.frames_lt hmem :)
      · exact h.frames_lt (by rw [hs]; exact List.mem_cons_of_mem _ hm)
    · rw [declare_frame, declare_nextFrame]
      exact h.frame_lt

end Regular

theorem Distinct.push_declare (h : sc.Distinct) (name : String) :
    (sc.push.declare name).Distinct := by
  intro names hmem
  rcases List.mem_cons.mp hmem with rfl | hmem
  · exact List.nodup_singleton name
  · exact h names hmem

end Scopes

theorem Stmt.stack_walk {s : Stmt} (h : s.declares = []) (sc : Scopes) :
    (s.walk sc).stack = sc.stack := by
  have hn := s.nest_walk sc
  rw [h, Nest.declare_nil] at hn
  rcases (s.walk_extends sc).stack with ⟨ha, hb⟩ | ⟨scope, rest, more, ha, hb⟩
  · rw [ha, hb]
  · rw [Scopes.nest, Scopes.nest, ha, hb] at hn
    have hnames : (more ++ scope.entries).map (·.1) = scope.entries.map (·.1) :=
      (List.cons.inj hn).1
    have hm : more = [] := by
      rw [List.map_append] at hnames
      exact List.map_eq_nil_iff.mp (List.append_left_eq_self.mp hnames)
    rw [ha, hb, hm]
    rfl

theorem nest_walkAll (body : List Stmt) (sc : Scopes) :
    (walkAll body sc).nest = sc.nest.declare (body.map Stmt.declares).reverse.flatten := by
  induction body generalizing sc with
  | nil =>
    exact (Nest.declare_nil _).symm
  | cons s rest ih =>
    rw [walkAll, ih, s.nest_walk, Nest.declare_declare]
    simp

theorem declaredBy_perm (body : List Stmt) :
    (declaredBy body).Perm (body.map Stmt.declares).reverse.flatten := by
  exact (List.reverse_perm _).symm.flatten

theorem Scopes.distinct_top (program : Program) : (walkAll program {}).Distinct := by
  rcases (walkAll_extends program {}).stack with ⟨_, hstk⟩ | ⟨_, _, _, hne, _⟩
  · intro names hmem
    rw [nest, hstk] at hmem
    cases hmem
  · cases hne

theorem Scopes.Distinct.block (h : sc.Distinct) (hb : (declaredBy body).Nodup) :
    (walkAll body sc.push).Distinct := by
  intro names hmem
  rw [nest_walkAll, nest_push, Nest.declare, List.append_nil] at hmem
  rcases List.mem_cons.mp hmem with rfl | hmem
  · exact (declaredBy_perm body).nodup_iff.mp hb
  · exact h names hmem

theorem Scopes.Distinct.function (h : sc.Distinct) {params : List String}
    (hb : (params ++ declaredBy body).Nodup) (isMethod : Bool) :
    (walkAll body (sc.openFunction isMethod params)).Distinct := by
  intro names hmem
  rw [nest_walkAll, nest_openFunction, Nest.declare] at hmem
  rcases List.mem_cons.mp hmem with rfl | hmem
  · refine (List.Perm.nodup_iff ?_).mp hb
    exact List.perm_append_comm.trans ((declaredBy_perm body).append (List.reverse_perm _).symm)
  · cases isMethod with
    | false => exact h names hmem
    | true =>
      rcases List.mem_cons.mp hmem with rfl | hmem
      · exact List.nodup_singleton _
      · exact h names hmem

end ScriptMachine
