/-
ScriptMachine.Proofs.Sessions.Accounts — what sites count.
-/
import Mathlib.Algebra.Ring.Nat
import ScriptMachine.Proofs.Sessions.Caches

namespace ScriptMachine

/-! ## §1 Accounts -/

/-- An act and the store it is done to. -/
abbrev Deed := Store × Act

/-- What the site remembers. -/
def Store.remembered (s : Store) (site : Nat) : Option (ShapeId × Nat) :=
    s.sites[site]?.bind (·.cached)

namespace Deed

def at? (site : Nat) (d : Deed) : Bool := d.2.access?.any (·.1 == site)

def overlooked : Deed → Bool
  | (s, .setProperty object _ _ site) =>
    (s.cached? object site).isNone && (s.heap.instance? object).isNone
  | _ => false

/-- An access that the site counts. -/
def counted (site : Nat) (d : Deed) : Bool := d.at? site && !d.overlooked

/-- Whether the site remembers something else afterwards. -/
def changes (site : Nat) (d : Deed) : Bool :=
  (d.2.apply d.1).remembered site != d.1.remembered site

end Deed

/-- The counters of a site are those of its accesses in the log. -/
structure Site.Accounts (log : List Deed) (site : Nat) (e : Site) : Prop where
  accesses : e.hits + e.misses = log.countP (·.counted site)
  updates : e.updates = log.countP (·.changes site)
  blank : e.cached = none ↔ e.updates = 0

structure Site.Notes (d : Deed) (site : Nat) (e e' : Site) : Prop where
  kind : e'.kind = e.kind
  accesses : e'.hits + e'.misses =
    e.hits + e.misses + if d.counted site then 1 else 0
  updates : e'.updates = e.updates + if e'.cached = e.cached then 0 else 1
  kept : e.cached.isSome → e'.cached.isSome

namespace Site.Notes

variable {d : Deed} {site : Nat} {e : Site}

theorem same (h : d.counted site = false) : e.Notes d site e where
  kind := rfl
  accesses := by simp [h]
  updates := by simp
  kept := id

theorem hit (h : d.counted site = true) : e.Notes d site e.hit where
  kind := rfl
  accesses := by simp [Site.hit, h]; omega
  updates := by simp [Site.hit]
  kept := id

theorem miss (h : d.counted site = true) : e.Notes d site e.miss where
  kind := rfl
  accesses := by simp [Site.miss, h]; omega
  updates := by simp [Site.miss]
  kept := id

theorem refresh (h : d.counted site = true) (shape : ShapeId) (slot : Nat) :
    e.Notes d site (e.miss.refresh shape slot) := by
  unfold Site.refresh
  split
  · exact miss h
  · next hne =>
    have hne : some (shape, slot) ≠ e.cached := Ne.symm hne
    exact
      { kind := rfl
        accesses := (miss h : e.Notes d site e.miss).accesses
        updates := by simp [Site.miss, hne]
        kept := fun _ => rfl }

theorem accounts {e' : Site} (h : e.Notes d site e') {log : List Deed} (ha : e.Accounts log site)
    (hcha : d.changes site = (e'.cached != e.cached)) : e'.Accounts (log ++ [d]) site := by
  obtain ⟨hcnt, hupd, hb⟩ := ha
  refine ⟨?_, ?_, ?_⟩
  · rw [h.accesses, List.countP_append, ← hcnt]
    cases hd : d.counted site <;> simp [hd]
  · rw [h.updates, List.countP_append, ← hupd]
    by_cases heq : e'.cached = e.cached <;> simp [hcha]
  · rw [h.updates]
    by_cases heq : e'.cached = e.cached
    · simpa [heq] using hb
    · have hk := h.kept
      cases he' : e'.cached with
      | some _ => simp [he' ▸ heq]
      | none =>
        rw [he'] at heq hk
        cases he : e.cached with
        | none => exact absurd he.symm heq
        | some _ => simp [he] at hk

end Site.Notes

theorem Store.sites_refresh (s : Store) (site : Nat) (shape : ShapeId) (slot : Nat) :
    ((s.modifySite site .miss).modifySite site (·.refresh shape slot)).sites =
      s.sites.modify site (·.miss.refresh shape slot) := by
  refine Array.ext_getElem? fun i => ?_
  simp only [Store.modifySite, Array.getElem?_modify]
  split
  · rw [Option.map_map]
    rfl
  · rfl

namespace Deed

variable {s : Store} {a : Act} {site : Nat} {kind : SiteKind} {e : Site}

theorem counts (ha : a.access? = some (site, kind)) (hd : counted site (s, a) = true) :
    ∃ f : Site → Site, (a.apply s).sites = s.sites.modify site f ∧
      ∀ e : Site, e.Notes (s, a) site (f e) := by
  cases a with
  | getProperty object name site' =>
    cases ha
    simp only [Act.apply]
    split
    · exact ⟨_, rfl, fun _ => .hit hd⟩
    · rcases s.getProperty_cases object name site with ⟨_, shape, slot, _, heq⟩ | hm
      · refine ⟨_, ?_, fun _ => .refresh hd shape slot⟩
        rw [Serve.getProperty, heq]
        exact s.sites_refresh site shape slot
      · exact ⟨_, (Store.SameTables.makes hm).2, fun _ => .miss hd⟩
  | setProperty object name w site' =>
    cases ha
    simp only [Act.apply]
    split
    · exact ⟨_, rfl, fun _ => .hit hd⟩
    · next hcch =>
      simp only [Serve.setProperty, Store.setProperty]
      cases hi : s.heap.instance? object with
      | none => simp [counted, overlooked, hcch, hi] at hd
      | some found =>
        dsimp only [Serve.report]
        split
        · exact ⟨_, Store.sites_refresh _ site _ _, fun _ => .refresh hd _ _⟩
        · exact ⟨_, rfl, fun _ => .miss hd⟩
  | _ => cases ha

theorem sites_of_overlooked (h : overlooked (s, a) = true) : (a.apply s).sites = s.sites := by
  cases a with
  | setProperty object name w site =>
    simp only [overlooked, Bool.and_eq_true, Option.isNone_iff_eq_none] at h
    simp only [Act.apply, h.1, Serve.setProperty, Store.setProperty, h.2]
    rfl
  | _ => cases h

theorem notes (he : s.sites[site]? = some e) (a : Act) :
    ∃ e', (a.apply s).sites[site]? = some e' ∧ e.Notes (s, a) site e' := by
  cases ha : a.access? with
  | none =>
    rw [(Act.tables_apply s a).2 ha]
    exact ⟨e, he, .same (by simp [counted, at?, ha])⟩
  | some access =>
    cases ho : overlooked (s, a) with
    | true =>
      rw [sites_of_overlooked ho]
      exact ⟨e, he, .same (by simp [counted, ho])⟩
    | false =>
      obtain ⟨f, hs, hf⟩ := counts (s := s) ha (by simp [counted, at?, ha, ho])
      rw [hs, Array.getElem?_modify, he]
      split
      · next heq => exact ⟨_, rfl, heq ▸ hf e⟩
      · next hne => exact ⟨e, rfl, .same (by simp [counted, at?, ha, hne])⟩

end Deed

/-! ## §2 Stores -/

structure Store.Accounts (log : List Deed) (s : Store) : Prop where
  sites : ∀ {site : Nat} {e : Site}, s.sites[site]? = some e → e.Accounts log site
  kinds : ∀ {d : Deed} {site kind}, d ∈ log → d.2.access? = some (site, kind) →
    s.kinds[site]? = some kind
  older : ∀ {d : Deed}, d ∈ log → d.1.sites.size ≤ s.sites.size

namespace Store.Accounts

variable {log : List Deed} {s t : Store} (h : s.Accounts log)

include h

theorem congr (hs : t.sites = s.sites) : t.Accounts log := by
  obtain ⟨h1, h2, h3⟩ := h
  unfold Store.kinds at h2
  rw [← hs] at h1 h2 h3
  exact ⟨h1, h2, h3⟩

theorem blank {site : Nat} (hn : s.sites[site]? = none) (kind : SiteKind) :
    Site.Accounts log site { kind := kind } := by
  refine ⟨(List.countP_eq_zero.mpr fun d hd hcou => ?_).symm,
    (List.countP_eq_zero.mpr fun d hd hcha => ?_).symm, by simp⟩
  · cases ha : d.2.access? with
    | none => simp [Deed.counted, Deed.at?, ha] at hcou
    | some access =>
      obtain ⟨k, kind⟩ := access
      obtain ⟨e, he, _⟩ := kinds_eq_some.mp (h.kinds hd ha)
      obtain rfl : k = site := by simp_all [Deed.counted, Deed.at?]
      cases hn.symm.trans he
  · have hs : (d.2.apply d.1).sites.size = d.1.sites.size := (d.2.evolves d.1).sites
    have hle := Nat.le_trans (h.older hd) (Array.getElem?_eq_none_iff.mp hn)
    simp [Deed.changes, Store.remembered, Array.getElem?_eq_none hle,
      Array.getElem?_eq_none (hs ▸ hle)] at hcha

theorem prepare (hp : s.Prepares t) : t.Accounts log where
  sites := by
    intro site e he
    cases hs : s.sites[site]? with
    | some e' =>
      cases (hp.sites hs).symm.trans he
      exact h.sites hs
    | none =>
      rcases hp.sites_new he with hold | ⟨kind, rfl⟩
      · cases hs.symm.trans hold
      · exact h.blank hs kind
  kinds hd hsite := by
    obtain ⟨e, he, hk⟩ := kinds_eq_some.mp (h.kinds hd hsite)
    exact kinds_eq_some.mpr ⟨e, hp.sites he, hk⟩
  older hd := Nat.le_trans (h.older hd) hp.sites_size_le

theorem act (a : Act) (hknown : ∀ {site : Nat} {kind}, a.access? = some (site, kind) →
    s.kinds[site]? = some kind) : (a.apply s).Accounts (log ++ [(s, a)]) := by
  have hs : (a.apply s).sites.size = s.sites.size := (a.evolves s).sites
  have hkinds {site : Nat} {kind} (hk : s.kinds[site]? = some kind) :
    (a.apply s).kinds[site]? = some kind := by
    obtain ⟨e, he, hkind⟩ := kinds_eq_some.mp hk
    obtain ⟨e', he', hn⟩ := Deed.notes he a
    exact kinds_eq_some.mpr ⟨e', he', hn.kind.trans hkind⟩
  refine ⟨fun {site e'} he' => ?_, fun {d site kind} hd hsite => ?_, fun {d} hd => ?_⟩
  · have hlt : site < s.sites.size := hs ▸ (Array.getElem?_eq_some_iff.mp he').1
    have he := Array.getElem?_eq_getElem hlt
    obtain ⟨e'', he'', hn⟩ := Deed.notes he a
    cases he'.symm.trans he''
    refine hn.accounts (h.sites he) ?_
    simp [Deed.changes, remembered, he, he']
  · rcases List.mem_append.mp hd with hd | hd
    · exact hkinds (h.kinds hd hsite)
    · cases List.mem_singleton.mp hd
      exact hkinds (hknown hsite)
  · rw [hs]
    rcases List.mem_append.mp hd with hd | hd
    · exact h.older hd
    · cases List.mem_singleton.mp hd
      exact Nat.le_refl _

end Store.Accounts

/-! ## §3 Runs -/

namespace Machine

variable {names : Nat → Symbol} {kinds : Array SiteKind} {host : Host} {m : Machine}

def deeds (host : Host) : Nat → Machine → List Deed
  | 0, _ => []
  | fuel + 1, m =>
    if m.stop?.isSome then [] else (m.store, m.act host) :: deeds host fuel (m.step host)

theorem receiveAct_access {w : Word} {task : Pending} {site : Nat} {kind : SiteKind}
    (h : (m.receiveAct host w task).access? = some (site, kind)) :
    (∃ name, task = .getProperty name site ∧ kind = .get) ∨
      ∃ object name, task = .setProperty object name site ∧ kind = .set := by
  cases task with
  | getProperty =>
    cases h
    exact .inl ⟨_, rfl, rfl⟩
  | setProperty =>
    cases h
    exact .inr ⟨_, _, rfl, rfl⟩
  | callee rest => cases rest <;> cases h
  | argument _ _ rest => cases rest <;> cases h
  | negate | rightOperand =>
    simp only [receiveAct] at h
    repeat' split at h
    all_goals cases h
  | _ => cases h

theorem Typed.act_access (h : m.Typed (.ofSites names kinds) (Discipline.caching names kinds))
    {site : Nat} {kind : SiteKind} (ha : (m.act host).access? = some (site, kind)) :
    kinds[site]? = some kind := by
  obtain ⟨T, hb, hp⟩ := h
  have hsite : ∀ {site kind name}, T.site site kind name → kinds[site]? = some kind := by
    obtain ⟨_, _, _, _, _, hT⟩ := hb.frame.function
    rw [hT]
    exact And.left
  have hrec {w task mode next}
      (ht : Pending.Awaits (Discipline.caching names kinds) m.store.heap T mode task next)
      (ha : (m.receiveAct host w task).access? = some (site, kind)) : kinds[site]? = some kind := by
    rcases receiveAct_access ha with ⟨_, rfl, rfl⟩ | ⟨_, _, rfl, rfl⟩
    · cases ht with
      | getProperty hn => exact hsite hn
    · cases ht with
      | setProperty _ hn => exact hsite hn
  unfold act at ha
  unfold Proceeds Awaits at hp
  split at ha
  · cases ha
  · unfold evalAct at ha
    split at ha <;> cases ha
  · next hc hs =>
    rw [hc] at hp
    rw [hs] at hp
    obtain ⟨_, _, _, ht, _⟩ := hp
    exact hrec ht ha
  · next hc hs =>
    rw [hc] at hp
    rw [hs] at hp
    obtain ⟨_, _, _, _, _, ht, _⟩ := hp
    exact hrec ht ha
  · cases ha

theorem run_accounts [host.Attached] {log : List Deed} (fuel : Nat)
    (h : m.Typed (.ofSites names kinds) (Discipline.caching names kinds))
    (hk : m.store.kinds = kinds) (ha : m.store.Accounts log) :
    (m.run host fuel).store.Accounts (log ++ m.deeds host fuel) := by
  induction fuel generalizing m log with
  | zero => simpa [deeds, run] using ha
  | succ fuel ih =>
    unfold run deeds
    split
    · simpa using ha
    · have hact := ha.act (m.act host) fun hs => hk ▸ h.act_access hs
      rw [← step_store] at hact
      have hn := h.step (Discipline.caching_lawful host)
      have hk : (m.step host).store.kinds = kinds := by
        obtain ⟨_, hb, _⟩ := hn
        exact hb.store.kinds
      rw [← List.singleton_append, ← List.append_assoc]
      exact ih hn hk hact

end Machine

/-! ## §4 Sessions -/

namespace Session

variable {names : Nat → Symbol} {session : Session} {log : List Deed}

def deedsOf (session : Session) (now : Word) (fuel : Nat) (program : Program) : List Deed :=
  match session.launch now program with
  | (.ok m, _) => m.deeds (host now) (fuel - 1)
  | (.error _, _) => []

/-- What is done for requests served in turn. -/
def deeds (session : Session) : List Request → List Deed
  | [] => []
  | .mention m :: rest => deeds { session with store := session.store.mention m } rest
  | .define name w :: rest => deeds { session with store := session.store.defineGlobal name w } rest
  | .mute muted :: rest => deeds { session with store := { session.store with muted := muted } }
      rest
  | .run now fuel program :: rest =>
    session.deedsOf now fuel program ++
      if ended (session.run now fuel program).1 then deeds
        (session.run now fuel program).2 rest else []

theorem Tracks.run_accounts (h : session.Tracks names)
    (ha : session.store.Accounts log) (now : Word)
    (fuel : Nat) (program : Program) :
    (session.run now fuel program).2.store.Accounts (log ++ session.deedsOf now fuel program) := by
  have hp := session.store.compile_prepares session.unitName program
  rw [← launch_store session now program] at hp
  obtain ⟨names', _, ht⟩ := h.launch now program
  unfold deedsOf
  rcases run_cases h.queue now fuel program with ⟨heq, hf⟩ | ⟨m, after, _, _, hl, heq⟩
  · rw [heq]
    split
    · next hl =>
      cases hf (by rw [hl]; rfl)
      simpa [Machine.deeds] using ha.prepare hp
    · simpa using ha.prepare hp
  · rw [hl] at hp ht
    rw [heq, hl]
    obtain ⟨unit, f, _, _, rfl⟩ := launch_ok h.queue hl
    have hs : (Machine.start (host now) after.store unit f).store.sites = after.store.sites := by
      unfold Machine.start
      rw [Machine.enter_store, Store.entered]
      split <;> rfl
    exact (Machine.run_accounts (fuel - 1) (ht rfl) (by rw [Store.kinds, hs]; rfl)
      ((ha.prepare hp).congr hs)).congr rfl

theorem Tracks.replay_accounts (h : session.Tracks names) (ha : session.store.Accounts log)
    (requests : List Request) :
    (session.replay Session.run requests).2.store.Accounts (log ++ session.deeds requests) := by
  induction requests generalizing session names log with
  | nil => simpa [replay, deeds] using ha
  | cons request rest ih =>
    cases request with
    | mention m => exact ih (h.mention m) (ha.prepare (session.store.prepares_mention m))
    | define name w =>
      exact ih (h.define name w) ((ha.prepare (session.store.prepares_globalSlot name)).congr rfl)
    | mute muted => exact ih (h.mute muted) (ha.congr rfl)
    | run now fuel program =>
      have hrun := h.run_accounts ha now fuel program
      unfold replay deeds
      dsimp only
      split
      · next hend =>
        obtain ⟨names', htra⟩ := h.run now fuel program (ended_iff.mp hend)
        rw [← List.append_assoc]
        exact ih htra hrun
      · simpa using hrun

end Session

/-! ## §5 Main -/

/-- The counters of all sites together, by kind. -/
def CacheStats.total (sites : List Site) : CacheStats :=
  let sum (kind : SiteKind) (counter : Site → Nat) :=
    ((sites.filter (·.kind = kind)).map counter).sum
  { sites := sites.length
    getHits := sum .get (·.hits)
    getMisses := sum .get (·.misses)
    setHits := sum .set (·.hits)
    setMisses := sum .set (·.misses)
    updates := (sites.map (·.updates)).sum }

theorem Store.cacheStats_eq (s : Store) : s.cacheStats = .total s.sites.toList := by
  rw [cacheStats, ← Array.foldl_toList]
  induction s.sites.toList using List.reverseRecOn with
  | nil => rfl
  | append_singleton sites e ih =>
    rw [List.foldl_append, ih]
    cases hk : e.kind <;> simp [CacheStats.add, CacheStats.total, hk]

theorem Store.Accounts.reads {log : List Deed} {s : Store} (h : s.Accounts log)
    {site : Nat} {e : Site}
    (he : s.sites[site]? = some e) (hk : e.kind = .get) :
    log.countP (·.counted site) = log.countP (·.at? site) := by
  refine List.countP_congr fun d hd => ?_
  obtain ⟨t, a⟩ := d
  cases a with
  | setProperty object name w k =>
    have hne : k ≠ site := by
      rintro rfl
      obtain ⟨e', he', hset⟩ := kinds_eq_some.mp (h.kinds hd rfl)
      cases he.symm.trans he'
      cases hk.symm.trans hset
    simp [Deed.counted, Deed.at?, Act.access?, hne]
  | _ => simp [Deed.counted, Deed.overlooked]

/-- **Sites keep account of all accesses but the writes to what is no instance.**
What a site remembers is replaced at times, which is counted, and never
forgotten. -/
theorem Session.sites_account {settings : SessionSettings} {limit : Nat} {session : Session}
    (h : Session.create settings (.withLimit limit) = .ok session) (requests : List Request) :
    let after := (session.replay Session.run requests).2.store
    let log := session.deeds requests
    (∀ {site e}, after.sites[site]? = some e → e.Accounts log site ∧
      (e.kind = .get → e.hits + e.misses = log.countP (·.at? site))) ∧
    (∀ {d site kind}, d ∈ log → d.2.access? = some (site, kind) → after.kinds[site]? = some kind) ∧
    (∀ {d site}, d ∈ log → (d.1.remembered site).isSome →
      ((d.2.apply d.1).remembered site).isSome) ∧
    after.cacheStats = .total after.sites.toList := by
  intro after log
  have ha : after.Accounts ([] ++ log) := by
    refine (Tracks.create h).replay_accounts ⟨fun he => ?_, ?_, ?_⟩ requests
    · obtain ⟨store, hst, rfl⟩ := Session.create_eq_ok h
      rw [(Store.create_blank hst).2] at he
      cases he
    · simp
    · simp
  refine ⟨fun {site e} he => ⟨ha.sites he, fun hk => ?_⟩, ha.kinds, fun {d site} _ hd => ?_,
    after.cacheStats_eq⟩
  · exact (ha.sites he).accesses.trans (ha.reads he hk)
  · obtain ⟨e, he, hcch⟩ := Option.bind_eq_some_iff.mp (Option.eq_some_of_isSome hd)
    obtain ⟨e', he', hn⟩ := Deed.notes he d.2
    simpa [Store.remembered, he'] using hn.kept (hcch ▸ rfl)

def Session.settingOnNumber : Program :=
  [.expression (.set (.literal (.number 0)) "x" (.literal .nil))]

theorem Session.sites_account_layouts :
    let requests := [.run (.ofNumber 0) 300 layouts]
    let after := (small.replay Session.run requests).2.store
    let log := small.deeds requests
    ∃ e, after.sites[3]? = some e ∧ e.hits = 1 ∧ e.misses = 3 ∧ e.Accounts log 3 ∧
      log.countP (·.at? 3) = 4 ∧ after.cacheStats.getHits = 1 ∧
        after.cacheStats = .total after.sites.toList := by
  obtain ⟨he, hh⟩ : (
      let after := (small.replay Session.run [.run (.ofNumber 0) 300 layouts]).2.store
      after.sites[3]? =
        some { kind := .get, cached := some (1, 0), hits := 1, misses := 3, updates := 3 } ∧
      after.cacheStats.getHits = 1) := by
    decide +kernel
  obtain ⟨hacc, _, _, hs⟩ :=
    Session.sites_account create_small [.run (.ofNumber 0) 300 layouts]
  obtain ⟨hsite, hcnt⟩ := hacc he
  exact ⟨_, he, rfl, rfl, hsite, (hcnt rfl).symm, hh, hs⟩

theorem Session.write_to_number_not_counted :
    let requests := [.run (.ofNumber 0) 30 settingOnNumber]
    (small.deeds requests).countP (·.at? 0) = 1 ∧
      (small.replay Session.run requests).2.store.sites[0]? = some { kind := .set } := by
  decide +kernel

end ScriptMachine
