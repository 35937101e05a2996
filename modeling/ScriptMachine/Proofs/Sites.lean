/-
ScriptMachine.Proofs.Sites — what does not depend on what sites remember.
-/
import ScriptMachine.Service.Basic

namespace ScriptMachine

def SameKinds (sites sites' : Array Site) : Prop :=
  sites.map (·.kind) = sites'.map (·.kind)

namespace SameKinds

variable {sites sites' sites'' : Array Site}

theorem trans (h : SameKinds sites sites') (h' : SameKinds sites' sites'') :
    SameKinds sites sites'' :=
  Eq.trans h h'

theorem size_eq (h : SameKinds sites sites') : sites.size = sites'.size := by
  have := congrArg Array.size h
  rwa [Array.size_map, Array.size_map] at this

theorem push (h : SameKinds sites sites') (site : Site) :
    SameKinds (sites.push site) (sites'.push site) := by
  unfold SameKinds
  rw [Array.map_push, Array.map_push, h]

theorem modify (sites : Array Site) (index : Nat) {f : Site → Site}
    (hf : ∀ site, (f site).kind = site.kind) : SameKinds (sites.modify index f) sites := by
  refine Array.ext_getElem? fun i => ?_
  simp only [Array.getElem?_map, Array.getElem?_modify]
  split
  · cases sites[i]? with
    | none => rfl
    | some site => exact congrArg some (hf site)
  · rfl

end SameKinds

theorem Site.refresh_kind (site : Site) (shape : ShapeId) (slot : Nat) :
    (site.refresh shape slot).kind = site.kind := by
  unfold refresh
  split <;> rfl

/-- The kinds of accesses the sites are for. -/
def Store.kinds (s : Store) : Array SiteKind := s.sites.map (·.kind)

theorem Store.kinds_eq_some {s : Store} {site : Nat} {kind : SiteKind} :
    s.kinds[site]? = some kind ↔ ∃ entry, s.sites[site]? = some entry ∧ entry.kind = kind := by
  rw [kinds, Array.getElem?_map, Option.map_eq_some_iff]

def Store.withSites (s : Store) (sites : Array Site) : Store := { s with sites := sites }

def Store.Alike (s s' : Store) : Prop :=
  ∃ sites : Array Site, SameKinds sites s'.sites ∧ s = s'.withSites sites

namespace Store.Alike

variable {s s' : Store}

theorem refl (s : Store) : s.Alike s := ⟨s.sites, rfl, rfl⟩

theorem modifySite_left (h : s.Alike s') (site : Nat) {f : Site → Site}
    (hf : ∀ site, (f site).kind = site.kind) : (s.modifySite site f).Alike s' := by
  obtain ⟨sites, hk, rfl⟩ := h
  exact ⟨sites.modify site f, (SameKinds.modify sites site hf).trans hk, rfl⟩

theorem modifySite (h : s.Alike s') (site : Nat) {f g : Site → Site}
    (hf : ∀ site, (f site).kind = site.kind) (hg : ∀ site, (g site).kind = site.kind) :
    (s.modifySite site f).Alike (s'.modifySite site g) := by
  have h' : s.Alike (s'.modifySite site g) := by
    obtain ⟨sites, hk, rfl⟩ := h
    exact ⟨sites, hk.trans (SameKinds.modify s'.sites site hg).symm, rfl⟩
  exact h'.modifySite_left site hf

end Store.Alike

def Serve.Agree (r r' : Word × Store) : Prop := r.1 = r'.1 ∧ r.2.Alike r'.2

end ScriptMachine
