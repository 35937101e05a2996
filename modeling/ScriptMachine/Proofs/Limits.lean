/-
ScriptMachine.Proofs.Limits — what does not depend on how large the heap and
the depth of calls may become.
-/
import ScriptMachine.Proofs.Lowers.Outcomes

namespace ScriptMachine

variable {s s' : Store}

def Store.withLimits (s : Store) (limit depth : Nat) : Store :=
  { s with heap := { s.heap with limit := limit }, maxDepth := depth }

/-- The second store is the first with limits that are no smaller. -/
def Store.Roomier (s s' : Store) : Prop :=
  ∃ limit depth, s.heap.limit ≤ limit ∧ s.maxDepth ≤ depth ∧ s' = s.withLimits limit depth

theorem Fits.roomier {α : Type} {Full : Store → α × Store → Prop} {routine : Store → α × Store}
    (h : Fits Full routine) (hs : s.Roomier s') :
    ((routine s).1 = (routine s').1 ∧ (routine s).2.Roomier (routine s').2) ∨
      Full s (routine s) := by
  obtain ⟨limit, depth, hl, hd, rfl⟩ := hs
  have hb := h s ⟨s.sites, limit, depth⟩ hl
  obtain ⟨hlim, hdepth⟩ := h.limits s
  rw [show s.withLimits limit depth = s.refit ⟨s.sites, limit, depth⟩ from rfl]
  generalize routine (s.refit _) = r' at hb ⊢
  generalize routine s = r at hb hlim hdepth ⊢
  cases hb with
  | @same a t tell _ ht =>
    refine .inl ⟨rfl, limit, depth, hlim ▸ hl, hdepth ▸ hd, ?_⟩
    show t.refit ⟨tell s.sites, limit, depth⟩ = _
    rw [← ht]
    rfl
  | full _ hf => exact .inr hf

theorem issues_roomier : Issues Store.Roomier True where
  text h text := ((Fits.internText text).roomier h).imp_right fun hf => ⟨trivial, hf⟩
  name h name := ((Fits.intern name).roomier h).resolve_right id
  slot h name := ((Fits.globalSlot name).roomier h).resolve_right id
  prototype h name arity := ((Fits.addPrototype name arity).roomier h).resolve_right id
  site h kind := by
    obtain ⟨limit, depth, hl, hd, rfl⟩ := h
    exact ⟨rfl, limit, depth, hl, hd, rfl⟩

theorem Store.compile_roomier (h : s.Roomier s') (name : String) (program : Program) :
    ((s.compile name program).1 = (s'.compile name program).1 ∧
      (s.compile name program).2.Roomier (s'.compile name program).2) ∨
    ∃ e, (s.compile name program).1 = .error (.heap e) :=
  (compile_uniform issues_roomier h name program).imp_right And.right

end ScriptMachine
