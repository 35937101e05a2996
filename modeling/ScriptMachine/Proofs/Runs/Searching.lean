/-
ScriptMachine.Proofs.Runs.Searching — running code without its property caches.
-/
import ScriptMachine.Proofs.Caching
import ScriptMachine.Proofs.Runs.Companions

namespace ScriptMachine

/-! ## §1 Searching -/

def Site.forget (site : Site) : Site := { site with cached := none }

def Machine.withSites (m : Machine) (sites : Array Site) : Machine :=
  { m with store := m.store.withSites sites }

def Machine.forget (m : Machine) : Machine := m.withSites (m.store.sites.map Site.forget)

def Machine.searchStep (host : Host) (m : Machine) : Machine := m.forget.step host

/-- At most `fuel` steps of a run in which every guard fails. -/
def Machine.searchRun (host : Host) : Nat → Machine → Machine
  | 0, m => m
  | fuel + 1, m => if m.stop?.isSome then m else searchRun host fuel (m.searchStep host)

def Blank (sites : Array Site) : Prop :=
  ∀ {i : Nat} {x : Site}, sites[i]? = some x → x.cached = none

theorem blank_forget (sites : Array Site) : Blank (sites.map Site.forget) := by
  intro i x hx
  rw [Array.getElem?_map] at hx
  obtain ⟨y, _, rfl⟩ := Option.map_eq_some_iff.mp hx
  rfl

theorem sameKinds_forget (sites : Array Site) : SameKinds (sites.map Site.forget) sites := by
  unfold SameKinds
  rw [Array.map_map]
  rfl

theorem Store.cached?_of_blank {s : Store} (h : Blank s.sites) (object : Word) (site : Nat) :
    s.cached? object site = none := by
  cases hc : s.cached? object site with
  | none => rfl
  | some hit =>
    obtain ⟨_, _, entry, hs, hcch⟩ := Store.cached?_eq_some hc
    rw [h hs] at hcch
    cases hcch

def Machine.Alike (m m' : Machine) : Prop :=
  ∃ sites : Array Site, SameKinds sites m'.store.sites ∧ m = m'.withSites sites

namespace Machine.Alike

variable {m m' m'' : Machine}

theorem refl (m : Machine) : m.Alike m := ⟨m.store.sites, rfl, rfl⟩

theorem trans (h : m.Alike m') (h' : m'.Alike m'') : m.Alike m'' := by
  obtain ⟨sites, hk, rfl⟩ := h
  obtain ⟨sites', hk', rfl⟩ := h'
  exact ⟨sites, hk.trans hk', rfl⟩

theorem forget (h : m.Alike m') : m.forget.Alike m' := by
  obtain ⟨sites, hk, rfl⟩ := h
  exact ⟨sites.map Site.forget, (sameKinds_forget sites).trans hk, rfl⟩

theorem stop?_eq (h : m.Alike m') : m.stop? = m'.stop? := by
  obtain ⟨sites, _, rfl⟩ := h
  rfl

end Machine.Alike

/-! ## §2 Steps -/

theorem Store.companions_alike : Companions (fun s s' => s'.Alike s) fun _ _ => False where
  pending := by
    rintro _ _ ⟨_, _, rfl⟩
    rfl
  closureCell := by
    rintro _ _ ⟨_, _, rfl⟩
    rfl
  serves hs _ _ hr := .inl ((hr.alike hs).imp_left Eq.symm)
  enters := by
    rintro s _ ⟨sites, hk, rfl⟩
    refine .inl ⟨.rfl, ?_⟩
    unfold entered
    rw [show (s.withSites sites).depth = s.depth from rfl,
      show (s.withSites sites).maxDepth = s.maxDepth from rfl]
    split <;> exact ⟨sites, hk, rfl⟩
  leaves := by
    rintro _ _ ⟨sites, hk, rfl⟩
    exact ⟨sites, hk, rfl⟩
  since _ _ hend := hend
  shows _ hend := hend

namespace Machine

variable {m m' : Machine} {host : Host} {s : Store}

theorem Alike.beside (h : m'.Alike m) : Beside (fun s s' => s'.Alike s) m m' := by
  obtain ⟨sites, hk, rfl⟩ := h
  exact ⟨_, ⟨sites, hk, rfl⟩, rfl⟩

theorem Parts.alike (h : Parts (fun s s' => s'.Alike s) (fun _ _ => False) s m m') :
    m'.Alike m := by
  obtain ⟨_, ⟨sites, hk, rfl⟩, rfl⟩ := h.resolve_right id
  exact ⟨sites, hk, rfl⟩

theorem cellWord_withSites (m : Machine) (sites : Array Site) :
    (m.withSites sites).cellWord host = m.cellWord host := by
  funext cell
  cases cell with
  | own index => rfl
  | captured index =>
    show ((m.withSites sites).serve host _).1 = (m.serve host _).1
    unfold serve
    split <;> rfl

end Machine

/-! ## §3 Accesses -/

namespace Machine

variable {names : Nat → Symbol} {kinds : Array SiteKind} {host : Host} {m m' : Machine}
  {object : Word} [host.Attached]

theorem checked_alike_give {routine : Store → Word × Store} {r : Word × Store}
    (hr : Serve.Agree (routine m.store) r) (hc : r.2.pending = false) :
    (m.checked host routine).Alike ({ m with store := r.2 }.give r.1) := by
  obtain ⟨hw, sites, hk, hs⟩ := hr
  unfold Machine.checked Machine.giveUnlessPending
  rw [serve_attached]
  dsimp only
  rw [hs, show (r.2.withSites sites).pending = false from hc, hw]
  exact ⟨sites, hk, rfl⟩

theorem getProperty_alike (h : m.store.Remembers names kinds) (hcalm : m.store.pending = false)
    (hobj : object.Issued m.store.heap) (site : Nat) :
    (m.checked host (Serve.getProperty object (names site) site)).Alike
      (m.getProperty host object (names site) site) := by
  unfold Machine.getProperty
  cases hc : m.store.cached? object site with
  | none => exact .refl _
  | some hit =>
    exact checked_alike_give (Serve.agree_getCached h hobj hc) hcalm

theorem setProperty_alike (h : m.store.Remembers names kinds) (hcalm : m.store.pending = false)
    (hobj : object.Issued m.store.heap) (site : Nat)
    (w : Word) : (m.checked host (Serve.setProperty object (names site) w site)).Alike
      (m.setProperty host object (names site) w site) := by
  unfold Machine.setProperty
  cases hc : m.store.cached? object site with
  | none => exact .refl _
  | some hit =>
    exact checked_alike_give (Serve.agree_setCached h hobj hc w) hcalm

/-! ## §4 Runs -/

structure Issued (m : Machine) : Prop where
  given : ∀ {w}, m.control = .give w → w.Issued m.store.heap
  waiting : ∀ {task}, task ∈ m.stack → ∀ {w}, w ∈ task.words → w.Issued m.store.heap

theorem access_alike {T : Scheme}
    (h : m.Active (.ofSites names kinds) (Discipline.caching names kinds) T) (hm : m'.Alike m)
    (hb : Blank m'.store.sites) {w : Word} {task : Pending} (htask : task.isAccess = true)
    {mode next : Mode} (ht : task.Awaits (Discipline.caching names kinds) m.store.heap T mode next)
    (hw : mode ≠ .done → w.Issued m.store.heap)
    (hwai : ∀ {v}, v ∈ task.words → v.Issued m.store.heap) :
    (m'.receive host w task).Alike (m.receive host w task) := by
  have hs : ∀ {site kind name}, T.site site kind name → names site = name := by
    obtain ⟨_, _, _, _, _, hT⟩ := h.frame.function
    rw [hT]
    exact And.right
  cases ht with
  | @getProperty name site hn =>
    obtain rfl := hs hn
    refine Alike.trans ?_ (getProperty_alike h.store h.calm (hw (by decide)) site)
    show (m'.getProperty host w (names site) site).Alike _
    unfold Machine.getProperty
    rw [Store.cached?_of_blank hb]
    exact (hm.beside.checked Store.companions_alike (.getProperty _ _ _)).alike
  | @setProperty object name site _ hn =>
    obtain rfl := hs hn
    refine Alike.trans ?_ (setProperty_alike h.store h.calm
      (hwai List.mem_cons_self) site w)
    show (m'.setProperty host object (names site) w site).Alike _
    unfold Machine.setProperty
    rw [Store.cached?_of_blank hb]
    exact (hm.beside.checked Store.companions_alike (.setProperty _ _ _ _)).alike
  | _ => cases htask

theorem searchStep_alike
    (h : m.Typed (.ofSites names kinds) (Discipline.caching names kinds)) (hiss : m.Issued)
    (hm : m'.Alike m) : (m'.searchStep host).Alike (m.step host) := by
  have hblank : Blank m'.forget.store.sites := blank_forget _
  have hfor := hm.forget
  obtain ⟨T, hb, hp⟩ := h
  unfold Proceeds Awaits at hp
  refine (hfor.beside.step Store.companions_alike
    fun {w task stack} hs hc htask => ?_).alike
  -- what is received was issued, unless a statement was completed
  have hrec : m.store.pending = false ∧ ∃ mode next,
      task.Awaits (Discipline.caching names kinds) m.store.heap T mode next ∧
        (mode ≠ .done → w.Issued m.store.heap) := by
    rcases hc with hc | ⟨hc, _⟩ <;> rw [hc] at hp <;> dsimp only at hp <;> rw [hs] at hp
    · obtain ⟨hcalm, mode, _, _, next, ht, _⟩ := hp
      exact ⟨hcalm, mode, next, ht, fun _ => hiss.given hc⟩
    · obtain ⟨hcalm, _, next, ht, _⟩ := hp
      exact ⟨hcalm, .done, next, ht, fun h => absurd rfl h⟩
  obtain ⟨hcalm, mode, next, ht, hw⟩ := hrec
  obtain ⟨sites, hk, hsame⟩ := hfor
  rw [hsame] at hblank ⊢
  exact .inl (access_alike (m := { m with stack := stack })
    ⟨hb.congr rfl rfl rfl, hcalm⟩ ⟨sites, hk, rfl⟩ hblank htask ht hw
    (hiss.waiting (hs ▸ List.mem_cons_self))).beside

theorem searchRun_alike (fuel : Nat)
    (h : m.Typed (.ofSites names kinds) (Discipline.caching names kinds))
    (hiss : ∀ n < fuel, (m.run host n).Issued) (hm : m'.Alike m) :
    (m'.searchRun host fuel).Alike (m.run host fuel) := by
  induction fuel generalizing m m' with
  | zero => exact hm
  | succ fuel ih =>
    unfold searchRun run
    rw [hm.stop?_eq]
    cases hs : m.stop?.isSome with
    | true => exact hm
    | false =>
      have hrun : ∀ n, m.run host (n + 1) = (m.step host).run host n := by
        intro n
        rw [run, hs]
        rfl
      refine ih (h.step (Discipline.caching_lawful host)) (fun n hn => ?_)
        (searchStep_alike h (hiss 0 (Nat.succ_pos fuel)) hm)
      rw [← hrun]
      exact hiss (n + 1) (Nat.succ_lt_succ hn)

end Machine

end ScriptMachine
