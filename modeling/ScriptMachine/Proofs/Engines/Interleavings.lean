/-
ScriptMachine.Proofs.Engines.Interleavings — the table of names is safe
whatever order clients and workers act in.
-/
import ScriptMachine.Proofs.Engines.Acceptance

namespace ScriptMachine

/-! ## §1 Workshops -/

/-- An engine with the clients and workers around it. -/
structure Workshop where
  engine : Engine
  accepted : List CodeUnit := []
  handed : List Job := []
  taken : List Job := []
  asleep : List String := []
  calling : Nat := 0

/-- One step of a client or a worker. -/
inductive Event where
  | submit (unit : CodeUnit)
  | enqueue (id : Nat)
  | take
  | publish (id : Nat)
  | fail (id : Nat) (reason : Refusal)
  | call
  | lookup (name : String)

/-- Whether an event settles a unit. -/
def Event.settles (id : Nat) : Event → Bool
  | .publish id' => id' = id
  | .fail id' _ => id' = id
  | _ => false

namespace Workshop

def pick? (id : Nat) : List Job → Option (Job × List Job)
  | [] => none
  | job :: jobs =>
    if job.id = id then some (job, jobs)
    else (pick? id jobs).map fun (found, others) => (found, job :: others)

def step? (w : Workshop) : Event → Option Workshop
  | .submit unit =>
    match w.engine.register unit with
    | .error _ => some w
    | .ok (job, engine) =>
      some { w with engine := engine, accepted := w.accepted ++ [unit], handed := job :: w.handed }
  | .enqueue id => do
    let (job, handed) ← pick? id w.handed
    return { w with engine := w.engine.enqueue job, handed := handed }
  | .take => do
    let (job, engine) ← w.engine.take
    return { w with engine := engine, taken := job :: w.taken }
  | .publish id => do
    let (job, taken) ← pick? id w.taken
    return { w with engine := w.engine.publish job, taken := taken, calling := w.calling + 1 }
  | .fail id reason => do
    let (job, taken) ← pick? id w.taken
    return { w with engine := w.engine.fail job reason, taken := taken, calling := w.calling + 1 }
  | .call => if w.calling = 0 then none else some { w with asleep := [], calling := w.calling - 1 }
  | .lookup name =>
    match w.engine.lookup name with
    | some _ => some w
    | none => some { w with asleep := name :: w.asleep }

/-- What events do, one after the other. -/
def run? (w : Workshop) : List Event → Option Workshop
  | [] => some w
  | event :: events => (w.step? event).bind (·.run? events)

/-- A workshop before anything happened. -/
def start (settings : EngineSettings) (routines : Routines) : Workshop :=
  { engine := { settings := settings, routines := routines } }

/-- The jobs that are not settled: with a client, on the queue or with a
worker. -/
def jobs (w : Workshop) : List Job := w.handed ++ (w.engine.queue ++ w.taken)

/-- What the engine keeps of units that were accepted, and the jobs that are not settled. -/
structure Board where
  engine : Engine
  accepted : List CodeUnit
  jobs : List Job

def board (w : Workshop) : Board := ⟨{ w.engine with queue := [] }, w.accepted, w.jobs⟩

/-- How far an accepted unit has come. -/
def Board.status? (b : Board) (id : Nat) : Option UnitStatus := b.engine.units[id]?.map (·.status)

/-- An accepted unit exports a name. -/
def Board.Owns (b : Board) (id : Nat) (name : String) : Prop :=
  ∃ unit, b.accepted[id]? = some unit ∧ name ∈ unit.exports

def status? (w : Workshop) : Nat → Option UnitStatus := w.board.status?

def Owns (w : Workshop) : Nat → String → Prop := w.board.Owns

theorem run?_add (engine : Engine) (hque : engine.queue = []) {unit : CodeUnit} {id : Nat}
    {engine' : Engine} (h : engine.add unit = (.ok id, engine')) :
    ∃ settling : Event, settling.settles id ∧
      run? { engine := engine } [.submit unit, .enqueue id, .take, settling, .call] =
        some { engine := engine', accepted := [unit] } := by
  obtain ⟨hreg, rfl, rfl⟩ := Engine.add_eq_ok h
  have hque1 : (engine.reserve unit).queue = [] := hque
  generalize engine.reserve unit = engine1 at hreg hque1 ⊢
  obtain ⟨settings, routines, symbols, units, stats, queue⟩ := engine1
  cases hque1
  cases hp : Engine.prepare routines unit with
  | ok =>
    refine ⟨.publish engine.units.size, by simp [Event.settles], ?_⟩
    simp [run?, step?, hreg, pick?, Engine.enqueue, Engine.take, Engine.drain, Engine.settle, hp]
  | error reason =>
    refine ⟨.fail engine.units.size reason, by simp [Event.settles], ?_⟩
    simp [run?, step?, hreg, pick?, Engine.enqueue, Engine.take, Engine.drain, Engine.settle, hp]

end Workshop

/-! ## §2 Exports -/

namespace Engine

variable {job : Job} {name : String}

theorem map_fst_entries (unit : CodeUnit) : (entries unit).map (·.1) = unit.exports := by
  have hfst : ∀ (ds : List Declaration) (n : Nat),
      ((ds.zipIdx n).filter (·.1.linkage = .exported)).map (fun p => p.1.name) =
        (ds.filter (·.linkage = .exported)).map (·.name) := by
    intro ds
    induction ds with
    | nil => intro n; rfl
    | cons d ds ih =>
      intro n
      by_cases hd : d.linkage = .exported <;> simp [hd, ih]
  rw [entries, CodeUnit.exports, List.map_map]
  exact hfst _ 0

theorem get?_publish (engine : Engine) (job : Job) (name : String) :
    (name ∉ job.unit.exports ∧
      (engine.publish job).symbols.get? name = engine.symbols.get? name) ∨
    ∃ entry, (name, entry) ∈ entries job.unit ∧
      (engine.publish job).symbols.get? name = some (.ready entry) := by
  have hs : (engine.publish job).symbols =
      ((entries job.unit).map fun e => (e.1, Export.ready e.2)).foldl
        (fun t entry => t.insert entry.1 entry.2) engine.symbols := by
    rw [List.foldl_map]
    rfl
  rw [hs, ← map_fst_entries]
  rcases Table.get?_foldl_insert ((entries job.unit).map fun e => (e.1, Export.ready e.2))
    engine.symbols name with ⟨hnot, heq⟩ | ⟨value, hval, heq⟩
  · exact .inl ⟨by simpa using hnot, heq⟩
  · obtain ⟨⟨_, entry⟩, hent, hp⟩ := List.mem_map.mp hval
    cases hp
    exact .inr ⟨entry, hent, heq⟩

def settled (engine : Engine) (job : Job) : UnitStatus → Engine
  | .queued => engine
  | .ready => engine.publish job
  | .failed reason => engine.fail job reason

end Engine

/-! ## §3 Boards -/

namespace Workshop

namespace Board

def accept (b : Board) (unit : CodeUnit) : Board :=
  ⟨b.engine.reserve unit, b.accepted ++ [unit], ⟨b.engine.units.size, unit⟩ :: b.jobs⟩

def settle (b : Board) (job : Job) (status : UnitStatus) (jobs : List Job) : Board :=
  ⟨b.engine.settled job status, b.accepted, jobs⟩

inductive Change (b : Board) : Event → Board → Prop
  | quiet {event : Event} {jobs : List Job} : (∀ id, event.settles id = false) →
      jobs.Perm b.jobs → Change b event { b with jobs := jobs }
  | accept {unit : CodeUnit} : unit.exports.Nodup →
      (∀ name ∈ unit.exports, b.engine.symbols.get? name = none) →
        Change b (.submit unit) (b.accept unit)
  | settle {event : Event} (job : Job) (status : UnitStatus) {jobs : List Job} :
      (∀ id, event.settles id = decide (job.id = id)) → status ≠ .queued →
        (status = .ready → event = .publish job.id) → b.jobs.Perm (job :: jobs) →
          Change b event (b.settle job status jobs)

end Board

variable {w w' : Workshop} {event : Event} {events : List Event} {id id' : Nat}
  {unit : CodeUnit} {name : String} {status : UnitStatus}

theorem pick?_eq_some {jobs others : List Job} {job : Job}
    (h : pick? id jobs = some (job, others)) : job.id = id ∧ jobs.Perm (job :: others) := by
  induction jobs generalizing others with
  | nil => cases h
  | cons first rest ih =>
    rw [pick?] at h
    split at h
    · next hid =>
      cases h
      exact ⟨hid, .refl _⟩
    · obtain ⟨⟨found, left⟩, hf, heq⟩ := Option.map_eq_some_iff.mp h
      cases heq
      obtain ⟨hid, hp⟩ := ih hf
      exact ⟨hid, (hp.cons first).trans (.swap job first left)⟩

theorem jobs_perm {job : Job} {taken : List Job} (h : w.taken.Perm (job :: taken)) :
    w.jobs.Perm (job :: (w.handed ++ (w.engine.queue ++ taken))) := by
  rw [jobs, ← List.append_assoc, ← List.append_assoc]
  exact (h.append_left _).trans List.perm_middle

theorem change_of_step? (h : w.step? event = some w') : w.board.Change event w'.board := by
  cases event with
  | submit unit =>
    simp only [step?] at h
    split at h
    · cases h
      exact .quiet (fun _ => rfl) (.refl _)
    · next job engine hreg =>
      cases h
      obtain ⟨hn, hf, rfl, rfl⟩ := Engine.register_ok hreg
      exact .accept hn hf
  | enqueue id =>
    obtain ⟨⟨job, handed⟩, hp, heq⟩ := Option.bind_eq_some_iff.mp h
    cases heq
    obtain ⟨_, hperm⟩ := pick?_eq_some hp
    refine .quiet (fun _ => rfl) ?_
    have hm : (handed ++ (w.engine.queue ++ [job] ++ w.taken)).Perm
        (job :: handed ++ (w.engine.queue ++ w.taken)) := by
      rw [List.append_assoc]
      refine (List.Perm.append_left _ List.perm_middle).trans ?_
      exact List.perm_middle
    exact hm.trans (hperm.symm.append_right _)
  | take =>
    obtain ⟨⟨job, engine⟩, ht, heq⟩ := Option.bind_eq_some_iff.mp h
    cases heq
    unfold Engine.take at ht
    split at ht
    · cases ht
    · next first rest hque =>
      cases ht
      refine .quiet (fun _ => rfl) ?_
      show List.Perm _ (w.handed ++ (w.engine.queue ++ w.taken))
      rw [hque]
      exact List.perm_middle.append_left _
  | publish id =>
    obtain ⟨⟨job, taken⟩, hp, heq⟩ := Option.bind_eq_some_iff.mp h
    cases heq
    obtain ⟨rfl, hperm⟩ := pick?_eq_some hp
    exact .settle job .ready (fun _ => rfl) nofun (fun _ => rfl) (jobs_perm hperm)
  | fail id reason =>
    obtain ⟨⟨job, taken⟩, hp, heq⟩ := Option.bind_eq_some_iff.mp h
    cases heq
    obtain ⟨rfl, hperm⟩ := pick?_eq_some hp
    exact .settle job (.failed reason) (fun _ => rfl) nofun nofun (jobs_perm hperm)
  | call =>
    simp only [step?] at h
    split at h <;> cases h
    exact .quiet (fun _ => rfl) (.refl _)
  | lookup name =>
    simp only [step?] at h
    split at h <;> cases h <;> exact .quiet (fun _ => rfl) (.refl _)

/-! ## §4 Invariant -/

namespace Board

def Says (b : Board) (name : String) : Option Export → Prop
  | none => ∀ id, ¬b.Owns id name
  | some (.pending id) => b.Owns id name ∧ b.status? id ≠ some .ready
  | some (.ready entry) => ∃ id unit, b.accepted[id]? = some unit ∧
      (name, entry) ∈ Engine.entries unit ∧ b.status? id = some .ready

structure Sound (b : Board) : Prop where
  size : b.engine.units.size = b.accepted.length
  named : ∀ {id : Nat} {unit : CodeUnit}, b.accepted[id]? = some unit →
    ∃ status, b.engine.units[id]? = some ⟨unit.name, status⟩
  distinct : ∀ {id : Nat} {unit : CodeUnit}, b.accepted[id]? = some unit → unit.exports.Nodup
  once : (b.jobs.map (·.id)).Nodup
  job : ∀ job ∈ b.jobs, b.accepted[job.id]? = some job.unit
  queued : ∀ id, b.status? id = some .queued ↔ id ∈ b.jobs.map (·.id)
  exclusive : ∀ {id id' name}, b.Owns id name → b.Owns id' name → id = id'
  table : ∀ name, b.Says name (b.engine.symbols.get? name)
  counted : b.engine.stats.submitted =
    b.engine.stats.materialized + b.engine.stats.failed + b.jobs.length

variable {b b' : Board} {job : Job} {jobs : List Job}

theorem mem_exports {entry : EntryPoint} (h : (name, entry) ∈ Engine.entries unit) :
    name ∈ unit.exports := by
  rw [← Engine.map_fst_entries]
  exact List.mem_map_of_mem h

theorem Says.mono {e : Option Export} (h : b.Says name e)
    (howns : ∀ {id}, b'.Owns id name → b.Owns id name)
    (hk : ∀ {id unit}, b.accepted[id]? = some unit → name ∈ unit.exports →
      b'.accepted[id]? = some unit ∧
        (b'.status? id = some .ready ↔ b.status? id = some .ready)) : b'.Says name e := by
  match e, h with
  | none, h => exact fun id ho => h id (howns ho)
  | some (.pending id), ⟨⟨unit, hu, hn⟩, hne⟩ =>
    obtain ⟨hu', hstt⟩ := hk hu hn
    exact ⟨⟨unit, hu', hn⟩, mt hstt.mp hne⟩
  | some (.ready entry), ⟨id, unit, hu, hent, hr⟩ =>
    obtain ⟨hu', hstt⟩ := hk hu (mem_exports hent)
    exact ⟨id, unit, hu', hent, hstt.mpr hr⟩

theorem accepted_accept (b : Board) (unit : CodeUnit) (id : Nat) :
    (b.accept unit).accepted[id]? =
      if id = b.accepted.length then some unit else b.accepted[id]? := by
  simp only [accept, List.getElem?_append, List.getElem?_singleton]
  grind

theorem status?_accept (b : Board) (unit : CodeUnit) (id : Nat) :
    (b.accept unit).status? id =
      if id = b.engine.units.size then some .queued else b.status? id := by
  simp only [status?, accept, Engine.reserve, Array.getElem?_push]
  split <;> rfl

theorem units_settle (hne : status ≠ .queued) : (b.settle job status jobs).engine.units =
    b.engine.units.modify job.id fun u => { u with status := status } := by
  cases status with
  | queued => exact absurd rfl hne
  | ready => rfl
  | failed reason => rfl

theorem status?_settle (hne : status ≠ .queued) (id : Nat) :
    (b.settle job status jobs).status? id =
      if job.id = id then (b.status? id).map fun _ => status else b.status? id := by
  rw [status?, units_settle hne, Array.getElem?_modify]
  split
  · rw [status?, Option.map_map, Option.map_map]
    rfl
  · rfl

theorem status_lt (h : b.status? id = some status) : id < b.engine.units.size := by
  obtain ⟨record, hrec, _⟩ := Option.map_eq_some_iff.mp h
  exact (Array.getElem?_eq_some_iff.mp hrec).1

namespace Sound

theorem accept (h : b.Sound) (hd : unit.exports.Nodup)
    (hf : ∀ name ∈ unit.exports, b.engine.symbols.get? name = none) :
    (b.accept unit).Sound := by
  have hget := b.engine.get?_reserve unit
  have hold : ∀ {id : Nat} {other : CodeUnit}, b.accepted[id]? = some other →
      id ≠ b.accepted.length := fun hid => Nat.ne_of_lt (List.getElem?_eq_some_iff.mp hid).1
  -- a name that is owned already is in use, so it is none of the new ones
  have hu : ∀ {id name}, b.Owns id name → name ∉ unit.exports := by
    intro id name ho hmem
    have hs := h.table name
    rw [hf name hmem] at hs
    exact hs id ho
  have howns : ∀ {id name}, (b.accept unit).Owns id name ↔
      b.Owns id name ∨ (id = b.accepted.length ∧ name ∈ unit.exports) := by
    intro id name
    simp only [Owns, accepted_accept]
    grind
  constructor
  · simp [Board.accept, Engine.reserve, h.size]
  · intro id other hid
    rw [accepted_accept] at hid
    simp only [Board.accept, Engine.reserve, Array.getElem?_push, h.size]
    split at hid
    · next heq =>
      cases hid
      exact ⟨.queued, if_pos heq⟩
    · next hne =>
      obtain ⟨status, hstt⟩ := h.named hid
      exact ⟨status, (if_neg hne).trans hstt⟩
  · intro id other hid
    rw [accepted_accept] at hid
    split at hid
    · cases hid
      exact hd
    · exact h.distinct hid
  · refine List.nodup_cons.mpr ⟨fun hmem => ?_, h.once⟩
    exact Nat.lt_irrefl _ (status_lt ((h.queued _).mpr hmem))
  · intro job hmem
    rw [accepted_accept]
    rcases List.mem_cons.mp hmem with rfl | hmem
    · exact if_pos h.size
    · rw [if_neg (hold (h.job job hmem))]
      exact h.job job hmem
  · intro id
    rw [status?_accept]
    split
    · next heq => simp [Board.accept, heq]
    · next hne => simp [Board.accept, hne, h.queued]
  · intro id id' name ho ho'
    rcases howns.mp ho with ho | ⟨rfl, hn⟩ <;> rcases howns.mp ho' with ho' | ⟨rfl, hn'⟩
    · exact h.exclusive ho ho'
    · exact absurd hn' (hu ho)
    · exact absurd hn (hu ho')
    · rfl
  · intro name
    rw [show (b.accept unit).engine.symbols.get? name = _ from hget name]
    split
    · next hn =>
      refine ⟨howns.mpr (.inr ⟨h.size, hn⟩), ?_⟩
      rw [status?_accept, if_pos rfl]
      rintro ⟨⟩
    · next hn =>
      refine (h.table name).mono (fun ho => ?_) fun {id other} hid _ => ?_
      · exact (howns.mp ho).resolve_right fun hnew => hn hnew.2
      · rw [accepted_accept, if_neg (hold hid), status?_accept, h.size, if_neg (hold hid)]
        exact ⟨hid, .rfl⟩
  · have hcou := h.counted
    simp only [Board.accept, Engine.reserve, List.length_cons]
    omega

theorem settle (h : b.Sound) (hne : status ≠ .queued) (hj : b.jobs.Perm (job :: jobs)) :
    (b.settle job status jobs).Sound := by
  have hmem : job ∈ b.jobs := hj.mem_iff.mpr List.mem_cons_self
  have hu := h.job job hmem
  have honce : (job.id :: jobs.map (·.id)).Nodup := (hj.map _).nodup_iff.mp h.once
  have hwas : b.status? job.id = some .queued := (h.queued job.id).mpr (List.mem_map_of_mem hmem)
  have hstt : ∀ id, (b.settle job status jobs).status? id = _ := status?_settle hne
  constructor
  · rw [units_settle hne, Array.size_modify]
    exact h.size
  · intro id unit hid
    obtain ⟨old, hold⟩ := h.named hid
    rw [units_settle hne, Array.getElem?_modify, hold]
    split <;> exact ⟨_, rfl⟩
  · exact h.distinct
  · exact (List.nodup_cons.mp honce).2
  · exact fun other hother => h.job other (hj.mem_iff.mpr (List.mem_cons_of_mem _ hother))
  · intro id
    rw [hstt]
    split
    · next heq =>
      rw [← heq, hwas]
      exact iff_of_false (fun h => hne (Option.some.inj h)) (List.nodup_cons.mp honce).1
    · next hid =>
      rw [h.queued, (hj.map (·.id)).mem_iff, List.map_cons, List.mem_cons,
        or_iff_right (Ne.symm hid)]
      rfl
  · exact h.exclusive
  · intro name
    have hk (ha : status = .ready → name ∉ job.unit.exports) :
        (b.settle job status jobs).Says name (b.engine.symbols.get? name) := by
      refine (h.table name).mono (fun ho => ho) fun {id unit} hid hn => ⟨hid, ?_⟩
      rw [hstt]
      split
      · next heq =>
        subst heq
        cases hu.symm.trans hid
        rw [hwas]
        exact iff_of_false (fun hr => ha (Option.some.inj hr) hn) nofun
      · exact .rfl
    cases status with
    | queued => exact absurd rfl hne
    | failed reason => exact hk nofun
    | ready =>
      show Says _ name ((b.engine.publish job).symbols.get? name)
      rcases b.engine.get?_publish job name with ⟨hnot, heq⟩ | ⟨entry, hent, heq⟩ <;> rw [heq]
      · exact hk fun _ => hnot
      · refine ⟨job.id, job.unit, hu, hent, ?_⟩
        rw [hstt, if_pos rfl, hwas]
        rfl
  · have hcou := h.counted
    rw [hj.length_eq, List.length_cons] at hcou
    cases status with
    | queued => exact absurd rfl hne
    | ready | failed =>
      simp only [Board.settle, Engine.settled, Engine.publish, Engine.fail]
      omega

theorem change (h : b.Sound) (hc : b.Change event b') : b'.Sound := by
  cases hc with
  | quiet _ hp =>
    exact
      { h with
        once := (hp.map _).nodup_iff.mpr h.once
        job := fun job hmem => h.job job (hp.mem_iff.mp hmem)
        queued := fun id => (h.queued id).trans (hp.map _).mem_iff.symm
        counted := by rw [hp.length_eq]; exact h.counted }
  | accept hd hf => exact h.accept hd hf
  | settle _ _ _ hne _ hp => exact h.settle hne hp

/-! ## §5 Settling -/

theorem says_of_owns (h : b.Sound) (hu : b.accepted[id]? = some unit) (hn : name ∈ unit.exports) :
    (b.status? id ≠ some .ready ∧ b.engine.symbols.get? name = some (.pending id)) ∨
      (b.status? id = some .ready ∧ ∃ entry, (name, entry) ∈ Engine.entries unit ∧
        b.engine.symbols.get? name = some (.ready entry)) := by
  have hs : ∀ {id'}, b.Owns id' name → id' = id := fun ho => h.exclusive ho ⟨unit, hu, hn⟩
  match b.engine.symbols.get? name, h.table name with
  | none, hsaid => exact absurd ⟨unit, hu, hn⟩ (hsaid id)
  | some (.pending id'), ⟨ho, hne⟩ =>
    obtain rfl := hs ho
    exact .inl ⟨hne, rfl⟩
  | some (.ready entry), ⟨id', unit', hu', hent, hr⟩ =>
    obtain rfl := hs ⟨unit', hu', mem_exports hent⟩
    cases hu.symm.trans hu'
    exact .inr ⟨hr, entry, hent, rfl⟩

theorem mem_entries_iff (h : b.Sound) (hu : b.accepted[id]? = some unit) {entry : EntryPoint}
    (hent : (name, entry) ∈ Engine.entries unit) (other : EntryPoint) :
    (name, other) ∈ Engine.entries unit ↔ other = entry := by
  have hn : ((Engine.entries unit).map (·.1)).Nodup := by
    rw [Engine.map_fst_entries]
    exact h.distinct hu
  refine ⟨fun ho => ?_, fun heq => heq ▸ hent⟩
  exact congrArg Prod.snd (List.inj_on_of_nodup_map hn ho hent rfl)

theorem lookup_failed (h : b.Sound) (hu : b.accepted[id]? = some unit)
    (hn : name ∈ unit.exports) {reason : Refusal}
    (hfai : b.status? id = some (.failed reason)) :
    b.engine.lookup name = some (.error (.failed unit.name reason)) := by
  obtain ⟨status, hrec⟩ := h.named hu
  rcases h.says_of_owns hu hn with ⟨_, hget⟩ | ⟨hr, _⟩
  · rw [status?, hrec] at hfai
    cases hfai
    simp [Engine.lookup, hget, hrec]
  · cases hfai.symm.trans hr

theorem lookup_eq_none_iff (h : b.Sound) :
    b.engine.lookup name = none ↔ ∃ id, b.Owns id name ∧ b.status? id = some .queued := by
  constructor
  · intro hn
    have hs := h.table name
    cases hget : b.engine.symbols.get? name with
    | none => simp [Engine.lookup, hget] at hn
    | some e =>
      rw [hget] at hs
      cases e with
      | ready entry => simp [Engine.lookup, hget] at hn
      | pending id =>
        obtain ⟨⟨unit, hu, hname⟩, hne⟩ := hs
        obtain ⟨status, hrec⟩ := h.named hu
        have hstt : b.status? id = some status := by rw [status?, hrec]; rfl
        cases status with
        | queued => exact ⟨id, ⟨unit, hu, hname⟩, hstt⟩
        | ready => exact absurd hstt hne
        | failed reason => simp [Engine.lookup, hget, hrec] at hn
  · rintro ⟨id, ⟨unit, hu, hname⟩, hque⟩
    obtain ⟨status, hrec⟩ := h.named hu
    rcases h.says_of_owns hu hname with ⟨_, hget⟩ | ⟨hr, _⟩
    · rw [status?, hrec] at hque
      cases hque
      simp [Engine.lookup, hget, hrec]
    · cases hque.symm.trans hr

end Sound

namespace Change

theorem keeps_accepted (hc : b.Change event b') (hu : b.accepted[id]? = some unit) :
    b'.accepted[id]? = some unit := by
  cases hc with
  | quiet | settle => exact hu
  | accept =>
    have hlt := (List.getElem?_eq_some_iff.mp hu).1
    rw [accepted_accept, if_neg (Nat.ne_of_lt hlt), hu]

theorem keeps_status (hc : b.Change event b') (hstt : b.status? id = some status)
    (hset : event.settles id = false) : b'.status? id = some status := by
  cases hc with
  | quiet => exact hstt
  | accept => rw [status?_accept, if_neg (Nat.ne_of_lt (status_lt hstt)), hstt]
  | settle job _ he hne =>
    rw [he, decide_eq_false_iff_not] at hset
    rw [status?_settle hne, if_neg hset, hstt]

theorem settles (hc : b.Change event b') (h : b.Sound) (hset : event.settles id = true) :
    b.status? id = some .queued ∧ ∃ status ≠ .queued, b'.status? id = some status := by
  cases hc with
  | quiet silent => simp [silent] at hset
  | accept => cases hset
  | settle job status he hne _ hp =>
    obtain rfl : job.id = id := by simpa [he] using hset
    have hque := (h.queued job.id).mpr (List.mem_map_of_mem (hp.mem_iff.mpr List.mem_cons_self))
    refine ⟨hque, status, hne, ?_⟩
    rw [status?_settle hne, if_pos rfl, hque]
    rfl

theorem publish_of_ready (hc : b.Change event b') (hr : b'.status? id = some .ready) :
    b.status? id = some .ready ∨ event = .publish id := by
  cases hc with
  | quiet => exact .inl hr
  | accept =>
    rw [status?_accept] at hr
    split at hr
    · cases hr
    · exact .inl hr
  | settle job status he hne hpub =>
    rw [status?_settle hne] at hr
    split at hr
    · next heq =>
      obtain ⟨_, _, rfl⟩ := Option.map_eq_some_iff.mp hr
      exact .inr (heq ▸ hpub rfl)
    · exact .inl hr

end Change

end Board

theorem sound_start (settings : EngineSettings) (routines : Routines) :
    (start settings routines).board.Sound where
  size := rfl
  named h := by simp [board, start] at h
  distinct h := by simp [board, start] at h
  once := List.nodup_nil
  job _ h := absurd h List.not_mem_nil
  queued id := by simp [Board.status?, board, start, jobs]
  exclusive h := by simp [Board.Owns, board, start] at h
  table name id h := by simp [Board.Owns, board, start] at h
  counted := rfl

theorem run?_cons (h : w.run? (event :: events) = some w') :
    ∃ next, w.step? event = some next ∧ w.board.Change event next.board ∧
      next.run? events = some w' := by
  obtain ⟨next, hstep, hr⟩ := Option.bind_eq_some_iff.mp h
  exact ⟨next, hstep, change_of_step? hstep, hr⟩

section

variable (h : w.board.Sound) (hrun : w.run? events = some w')

include h hrun

theorem run?_sound : w'.board.Sound := by
  induction events generalizing w with
  | nil =>
    cases hrun
    exact h
  | cons event events ih =>
    obtain ⟨next, _, hc, hr⟩ := run?_cons hrun
    exact ih (h.change hc) hr

theorem run?_settled (hu : w.accepted[id]? = some unit) (hstt : w.status? id = some status)
    (hne : status ≠ .queued) : w'.accepted[id]? = some unit ∧ w'.status? id = some status ∧
      events.countP (·.settles id) = 0 := by
  induction events generalizing w with
  | nil =>
    cases hrun
    exact ⟨hu, hstt, rfl⟩
  | cons event events ih =>
    obtain ⟨next, _, hc, hr⟩ := run?_cons hrun
    have hsil : event.settles id = false := by
      by_contra hs
      have hque := (hc.settles h (Bool.not_eq_false _ ▸ hs)).1
      exact hne (Option.some.inj (hstt.symm.trans hque))
    obtain ⟨hu', hstt', hcnt⟩ :=
      ih (h.change hc) hr (hc.keeps_accepted hu) (hc.keeps_status hstt hsil)
    exact ⟨hu', hstt', by simp [hsil, hcnt]⟩

theorem countP_settles_le_one (id : Nat) : events.countP (·.settles id) ≤ 1 := by
  induction events generalizing w with
  | nil => exact Nat.zero_le _
  | cons event events ih =>
    obtain ⟨next, _, hc, hr⟩ := run?_cons hrun
    cases hs : event.settles id with
    | false => simpa [hs] using ih (h.change hc) hr
    | true =>
      -- from here on the unit is settled, and nothing settles it again
      obtain ⟨hque, status, hne, hstt⟩ := hc.settles h hs
      have hlt : id < w.accepted.length := h.size ▸ Board.status_lt hque
      have hu := hc.keeps_accepted (List.getElem?_eq_getElem hlt)
      have hn := (run?_settled (h.change hc) hr hu hstt hne).2.2
      simp [hs, hn]

omit h

theorem publish_mem_of_ready (hr : w'.status? id = some .ready) :
    w.status? id = some .ready ∨ .publish id ∈ events := by
  induction events generalizing w with
  | nil =>
    cases hrun
    exact .inl hr
  | cons event events ih =>
    obtain ⟨next, _, hc, hrest⟩ := run?_cons hrun
    rcases ih hrest with hn | hmem
    · rcases hc.publish_of_ready hn with hbef | rfl
      · exact .inl hbef
      · exact .inr List.mem_cons_self
    · exact .inr (List.mem_cons_of_mem _ hmem)

end

def Attended (w : Workshop) : Prop :=
  ∀ name ∈ w.asleep, w.engine.lookup name = none ∨ 0 < w.calling

theorem Attended.step? (ha : w.Attended) (h : w.board.Sound) (hstep : w.step? event = some w') :
    w'.Attended := by
  have hc := change_of_step? hstep
  -- a name that has no answer has none after a step that settles nothing
  have hs : (∀ id, event.settles id = false) → ∀ {name}, w.engine.lookup name = none →
      w'.engine.lookup name = none := by
    intro hsil name hn
    obtain ⟨id, ⟨unit, hu, hname⟩, hque⟩ := h.lookup_eq_none_iff.mp hn
    exact (h.change hc).lookup_eq_none_iff.mpr
      ⟨id, ⟨unit, hc.keeps_accepted hu, hname⟩, hc.keeps_status hque (hsil id)⟩
  cases event with
  | submit unit =>
    intro name hmem
    have hasl : w'.asleep = w.asleep ∧ w'.calling = w.calling := by
      simp only [Workshop.step?] at hstep
      split at hstep <;> cases hstep <;> exact ⟨rfl, rfl⟩
    rw [hasl.1] at hmem
    rw [hasl.2]
    exact (ha name hmem).imp_left (hs fun _ => rfl)
  | enqueue id =>
    obtain ⟨_, _, heq⟩ := Option.bind_eq_some_iff.mp hstep
    cases heq
    exact ha
  | take =>
    obtain ⟨⟨_, engine⟩, _, heq⟩ := Option.bind_eq_some_iff.mp hstep
    cases heq
    exact fun name hmem => (ha name hmem).imp_left (hs fun _ => rfl)
  | publish id | fail id reason =>
    obtain ⟨_, _, heq⟩ := Option.bind_eq_some_iff.mp hstep
    cases heq
    exact fun _ _ => .inr (Nat.succ_pos _)
  | call =>
    simp only [Workshop.step?] at hstep
    split at hstep <;> cases hstep
    exact fun _ hmem => absurd hmem List.not_mem_nil
  | lookup asked =>
    simp only [Workshop.step?] at hstep
    split at hstep
    · cases hstep
      exact ha
    · next hn =>
      cases hstep
      intro name hmem
      rcases List.mem_cons.mp hmem with rfl | hmem
      · exact .inl hn
      · exact ha name hmem

theorem Attended.run? (ha : w.Attended) (h : w.board.Sound) (hrun : w.run? events = some w') :
    w'.Attended := by
  induction events generalizing w with
  | nil =>
    cases hrun
    exact ha
  | cons event events ih =>
    obtain ⟨next, hstep, hc, hr⟩ := run?_cons hrun
    exact ih (ha.step? h hstep) (h.change hc) hr

/-! ## §6 Main -/

/-- What holds after some events, and after whatever comes next. -/
structure Safe (w : Workshop) (events : List Event) : Prop where
  registered : ∀ name, (w.engine.symbols.get? name).isSome ↔ ∃ id, w.Owns id name
  exclusive : ∀ {name id id'}, w.Owns id name → w.Owns id' name → id = id'
  pending : ∀ {name owner}, w.engine.symbols.get? name = some (.pending owner) →
    w.Owns owner name ∧ w.status? owner ≠ some .ready
  ready : ∀ {name entry}, w.engine.symbols.get? name = some (.ready entry) →
    (∃ id unit, w.accepted[id]? = some unit ∧ name ∈ unit.exports ∧ .publish id ∈ events ∧
      ∀ other, (name, other) ∈ Engine.entries unit ↔ other = entry) ∧
    ∀ {later w'}, w.run? later = some w' →
      w'.engine.symbols.get? name = some (.ready entry)
  failed : ∀ {id unit name reason}, w.accepted[id]? = some unit → name ∈ unit.exports →
    w.status? id = some (.failed reason) → ∀ {later w'}, w.run? later = some w' →
      w'.engine.lookup name = some (.error (.failed unit.name reason))
  waits : ∀ {name}, w.engine.lookup name = none ↔
    ∃ id, w.Owns id name ∧ w.status? id = some .queued
  attended : ∀ name ∈ w.asleep, w.engine.lookup name = none ∨ 0 < w.calling
  once : ∀ id, events.countP (·.settles id) ≤ 1
  counted : w.engine.stats.submitted =
    w.engine.stats.materialized + w.engine.stats.failed + w.jobs.length

/-- **The table of names is safe under any interleaving.** -/
theorem symbolTable_safe (settings : EngineSettings) (routines : Routines) {events : List Event}
    (h : (start settings routines).run? events = some w) : w.Safe events := by
  have hsta := sound_start settings routines
  have hs := run?_sound hsta h
  constructor
  · intro name
    constructor
    · intro hsome
      match w.engine.symbols.get? name, hs.table name, hsome with
      | some (.pending id), ⟨ho, _⟩, _ => exact ⟨id, ho⟩
      | some (.ready _), ⟨id, unit, hu, hent, _⟩, _ =>
        exact ⟨id, unit, hu, Board.mem_exports hent⟩
    · rintro ⟨id, unit, hu, hn⟩
      rcases hs.says_of_owns hu hn with ⟨_, hget⟩ | ⟨_, entry, _, hget⟩ <;>
        exact Option.isSome_iff_exists.mpr ⟨_, hget⟩
  · exact hs.exclusive
  · intro name owner hget
    have hsaid := hs.table name
    rwa [show w.board.engine.symbols.get? name = _ from hget] at hsaid
  · intro name entry hget
    have hsaid := hs.table name
    rw [show w.board.engine.symbols.get? name = _ from hget] at hsaid
    obtain ⟨id, unit, hu, hent, hr⟩ := hsaid
    have hn := Board.mem_exports hent
    have hone := hs.mem_entries_iff hu hent
    refine ⟨⟨id, unit, hu, hn, ?_, hone⟩, fun {later w'} hl => ?_⟩
    · exact (publish_mem_of_ready h hr).resolve_left
        (by simp [status?, Board.status?, board, start])
    · obtain ⟨hu', hstt', _⟩ := run?_settled hs hl hu hr nofun
      have hs' := run?_sound hs hl
      rcases hs'.says_of_owns hu' hn with ⟨hne, _⟩ | ⟨_, entry', hent', hget'⟩
      · exact absurd hstt' hne
      · rwa [(hone entry').mp hent'] at hget'
  · intro id unit name reason hu hn hstt later w' hl
    obtain ⟨hu', hstt', _⟩ := run?_settled hs hl hu hstt nofun
    exact (run?_sound hs hl).lookup_failed hu' hn hstt'
  · exact hs.lookup_eq_none_iff
  · exact Attended.run? (fun _ hmem => absurd hmem List.not_mem_nil) hsta h
  · exact countP_settles_le_one hsta h
  · exact hs.counted

def single (name : String) (imports : List String) : CodeUnit :=
  { name := name
    declarations := (⟨name, .exported, .words 0⟩ :: imports.map (⟨·, .imported, .words 0⟩)).toArray
    definitions := #[⟨0, .words 0, [], .constant .nil⟩] }

def crossed : List Event :=
  [.submit (single "first" []), .lookup "first", .submit (single "second" ["nowhere"]),
   .enqueue 1, .submit (single "first" []), .enqueue 0, .take, .take,
   .fail 1 (.noRoutine "nowhere"), .lookup "second", .publish 0, .lookup "first", .call]

theorem symbolTable_safe_crossed :
    (∃ w, (start {} .standard).run? crossed.dropLast = some w ∧ w.Safe crossed.dropLast ∧
      w.asleep = ["first"] ∧ w.calling = 2 ∧ w.status? 0 = some .ready) ∧
    ∃ w, (start {} .standard).run? crossed = some w ∧ w.Safe crossed ∧ w.asleep = [] ∧
      w.engine.stats = ⟨2, 1, 1, 1⟩ ∧ w.jobs.length = 0 ∧
        w.status? 1 = some (.failed (.noRoutine "nowhere")) := by
  have hbef : ((start {} .standard).run? crossed.dropLast).map
      (fun w => (w.asleep, w.calling, w.status? 0)) = some (["first"], 2, some .ready) := by
    decide +kernel
  have ha : ((start {} .standard).run? crossed).map
      (fun w => (w.asleep, w.engine.stats, w.jobs.length, w.status? 1)) =
        some ([], ⟨2, 1, 1, 1⟩, 0, some (.failed (.noRoutine "nowhere"))) := by
    decide +kernel
  obtain ⟨w, hrun, heq⟩ := Option.map_eq_some_iff.mp hbef
  obtain ⟨w', hrun', heq'⟩ := Option.map_eq_some_iff.mp ha
  simp only [Prod.mk.injEq] at heq heq'
  exact ⟨⟨w, hrun, symbolTable_safe {} .standard hrun, heq⟩,
    w', hrun', symbolTable_safe {} .standard hrun', heq'⟩

end Workshop

end ScriptMachine
