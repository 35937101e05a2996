/-
ScriptMachine.Proofs.Memories.Handles — what a host can rely on about its
handles.
-/
import Mathlib.Algebra.Ring.Nat
import Mathlib.Data.List.Induction
import ScriptMachine.Proofs.Memories.Steps

namespace ScriptMachine.Memory

variable {l : Ledger}

/-- A request, and what came of it. -/
abbrev Event := Request × Reply

/-- Serves requests in turn: what came of each, and the memory in the end. -/
def run (m : Memory) : List Request → List Event × Memory
  | [] => ([], m)
  | r :: rest =>
    let (events, last) := (m.serve r).2.run rest
    ((r, (m.serve r).1) :: events, last)

theorem run_concat (m : Memory) (requests : List Request) (r : Request) :
    m.run (requests ++ [r]) =
      ((m.run requests).1 ++ [(r, ((m.run requests).2.serve r).1)],
        ((m.run requests).2.serve r).2) := by
  induction requests generalizing m with
  | nil => rfl
  | cons first rest ih => simp [List.cons_append, run, ih]

/-- The handles issued, in order. -/
def issued (events : List Event) : List Handle := events.filterMap fun e => e.2.issued?

/-- The handles issued for texts to intern, each with its text. -/
def interned (events : List Event) : List (String × Handle) :=
  events.filterMap fun e => e.1.text?.bind fun text => e.2.issued?.map (text, ·)

/-- The handles issued for objects to store. -/
def allocated (events : List Event) : List Handle :=
  events.filterMap fun e => if e.1.text? = none then e.2.issued? else none

variable {m : Memory} {events : List Event} {r : Request} {reply : Reply} {h : Handle}
    {text : String}

theorem issued_concat (events : List Event) (e : Event) :
    issued (events ++ [e]) = issued events ++ e.2.issued?.toList := by
  simp only [issued, List.filterMap_append, List.filterMap_cons, List.filterMap_nil]
  cases e.2.issued? <;> rfl

theorem interned_concat (events : List Event) (e : Event) :
    interned (events ++ [e]) = interned events ++
      (e.1.text?.bind fun text => e.2.issued?.map (text, ·)).toList := by
  simp only [interned, List.filterMap_append, List.filterMap_cons, List.filterMap_nil]
  cases e.1.text?.bind fun text => e.2.issued?.map (text, ·) <;> rfl

theorem allocated_concat (events : List Event) (e : Event) :
    allocated (events ++ [e]) = allocated events ++
      (if e.1.text? = none then e.2.issued? else none).toList := by
  simp only [allocated, List.filterMap_append, List.filterMap_cons, List.filterMap_nil]
  cases if e.1.text? = none then e.2.issued? else none <;> rfl

theorem interned_internText (events : List Event) (text : String) (hd : Handle) :
    interned (events ++ [(.internText text, .handle hd)]) = interned events ++ [(text, hd)] := by
  simp [interned_concat, Request.text?, Reply.issued?]

theorem allocated_internText (events : List Event) (text : String) (reply : Reply) :
    allocated (events ++ [(.internText text, reply)]) = allocated events := by
  simp [allocated_concat, Request.text?]

theorem mem_issued_of_allocated (hh : h ∈ allocated events) : h ∈ issued events := by
  obtain ⟨e, he, hiss⟩ := List.mem_filterMap.mp hh
  refine List.mem_filterMap.mpr ⟨e, he, ?_⟩
  split at hiss
  · exact hiss
  · cases hiss

structure Ledger where
  known : Word → Option Object := fun _ => none
  shapes : Shapes := {}

def Ledger.enter (l : Ledger) (w : Word) (o : Object) : Ledger :=
  { l with known := fun v => if v = w then some o else l.known v }

def Ledger.record (l : Ledger) (e : Event) : Ledger :=
  match e.1.object?, e.2.issued? with
  | some o, some h => l.enter h.word o
  | some _, none => l
  | none, _ =>
    match e.1.change? l.known l.shapes with
    | some (w, o, shapes) => { l.enter w o with shapes := shapes }
    | none => l

/-- What can be told after a history. -/
def ledger (events : List Event) : Ledger := events.foldl Ledger.record {}

theorem ledger_concat (events : List Event) (e : Event) :
    ledger (events ++ [e]) = (ledger events).record e := by
  simp [ledger]

structure Ledger.Matches (l : Ledger) (m : Memory) : Prop where
  known : l.known = m.heap.deref?
  shapes : l.shapes = m.shapes

theorem Ledger.Matches.push (h : l.Matches m) (ha : m.heap.Aligned)
    (hlt : m.heap.size < m.heap.limit) (o : Object) :
    (l.enter (Handle.ofIndex m.heap.size).word o).Matches { m with heap := m.heap.push o } where
  known := by
    funext w
    rw [Handle.word_ofIndex (ha.size_lt hlt), Heap.deref?_push (ha.size_lt hlt), ← h.known]
    rfl
  shapes := h.shapes

theorem Ledger.Matches.step {m' : Memory} (h : l.Matches m) (ha : m.heap.Aligned)
    (hs : m.Step r reply m') : (l.record (r, reply)).Matches m' := by
  unfold record
  cases hs with
  | stored hr ht hlt hreply =>
    simp only [hr, hreply]
    exact h.push ha hlt _
  | @interned text hnew hlt =>
    have hp := h.push ha hlt (.text text)
    exact ⟨hp.known, hp.shapes⟩
  | @known text index hidx =>
    have hobj := ha.texts hidx
    have hbound := ha.index_lt (ha.text_lt hidx)
    refine ⟨?_, h.shapes⟩
    funext w
    show (if w = (Handle.ofIndex index).word then some (.text text) else l.known w) = _
    rw [Handle.word_ofIndex hbound, h.known]
    split
    · next hw => rw [hw, Heap.deref?_ofIndex _ hbound, hobj]
    · rfl
  | refused hr hf =>
    simp only [hr, Reply.issued?]
    exact h
  | changed hr ho hb hreply =>
    simp only [object?_of_change? hr, h.known, h.shapes, hr]
    refine ⟨?_, rfl⟩
    funext v
    rw [Heap.deref?_put ho, ← h.known]
    rfl
  | missing hr hcha =>
    simp only [hr, h.known, h.shapes, hcha]
    exact h

structure Accounts (events : List Event) (m : Memory) : Prop where
  aligned : m.heap.Aligned
  order : (issued events).eraseDups = (List.range m.heap.size).map Handle.ofIndex
  interned_iff : ∀ {text h}, (text, h) ∈ interned events ↔
    ∃ i, m.heap.interned.get? text = some i ∧ Handle.ofIndex i = h
  allocated_nodup : (allocated events).Nodup
  apart : ∀ {text i}, m.heap.interned.get? text = some i → Handle.ofIndex i ∉ allocated events
  ledger : (ledger events).Matches m

namespace Accounts

variable {m' : Memory}

theorem start (limit : Nat) : Accounts [] (withLimit limit) where
  aligned := .withLimit limit
  order := rfl
  interned_iff := by simp [interned, withLimit, Heap.withLimit, Table.get?]
  allocated_nodup := List.nodup_nil
  apart := nofun
  ledger := by
    refine ⟨?_, rfl⟩
    funext w
    cases hw : (withLimit limit).heap.deref? w with
    | none => rfl
    | some o =>
      obtain ⟨i, _, _, ho⟩ := Heap.deref?_eq_some.mp hw
      cases ho

theorem mem_issued (h : Accounts events m) {hd : Handle} :
    hd ∈ issued events ↔ ∃ i < m.heap.size, Handle.ofIndex i = hd := by
  rw [← List.mem_eraseDups, h.order]
  simp

theorem next_not_mem (h : Accounts events m) (hlt : m.heap.size < m.heap.limit) :
    Handle.ofIndex m.heap.size ∉ issued events := by
  rw [h.mem_issued]
  rintro ⟨i, hi, heq⟩
  have hs := h.aligned.size_lt hlt
  rw [Handle.ofIndex_inj (Nat.lt_trans hi hs) hs] at heq
  omega

theorem silent (h : Accounts events m) (ha : m'.heap.Aligned) (hr : reply.issued? = none)
    (hs : m'.heap.size = m.heap.size) (hint : m'.heap.interned = m.heap.interned)
    (hl : ((Memory.ledger events).record (r, reply)).Matches m') :
    Accounts (events ++ [(r, reply)]) m' := by
  have hiss : issued (events ++ [(r, reply)]) = issued events := by
    simp [issued_concat, hr]
  have ht : interned (events ++ [(r, reply)]) = interned events := by
    simp [interned_concat, hr]
  have halc : allocated (events ++ [(r, reply)]) = allocated events := by
    simp [allocated_concat, hr]
  refine ⟨ha, ?_, ?_, ?_, ?_, ?_⟩
  · rw [hiss, hs, h.order]
  · rw [ht, hint]
    exact h.interned_iff
  · rw [halc]
    exact h.allocated_nodup
  · rw [halc, hint]
    exact h.apart
  · rw [ledger_concat]
    exact hl

theorem order_next (h : Accounts events m) (hlt : m.heap.size < m.heap.limit)
    (hr : reply.issued? = some (.ofIndex m.heap.size)) (hs : m'.heap.size = m.heap.size + 1) :
    (issued (events ++ [(r, reply)])).eraseDups =
      (List.range m'.heap.size).map Handle.ofIndex := by
  rw [issued_concat, hr, Option.toList_some, eraseDups_concat_of_not_mem (h.next_not_mem hlt),
    h.order, hs, List.range_succ, List.map_append]
  rfl

theorem stored (h : Accounts events m) {o : Object} (ht : r.text? = none)
    (hlt : m.heap.size < m.heap.limit) (hr : reply.issued? = some (.ofIndex m.heap.size))
    (hl : ((Memory.ledger events).record (r, reply)).Matches { m with heap := m.heap.push o }) :
    Accounts (events ++ [(r, reply)]) { m with heap := m.heap.push o } := by
  have hnew := h.next_not_mem hlt
  have htexts : interned (events ++ [(r, reply)]) = interned events := by
    simp [interned_concat, ht]
  have halc : allocated (events ++ [(r, reply)]) =
      allocated events ++ [Handle.ofIndex m.heap.size] := by
    simp [allocated_concat, ht, hr]
  refine ⟨h.aligned.push hlt o, h.order_next hlt hr (Heap.size_push _ _), ?interned, ?nodup,
    fun {text i} hi => ?apart, ?ledger⟩
  case interned =>
    rw [htexts]
    exact h.interned_iff
  case nodup =>
    rw [halc, List.nodup_append]
    refine ⟨h.allocated_nodup, List.pairwise_singleton _ _, fun hd hmem last hlast heq => ?_⟩
    rw [List.mem_singleton] at hlast
    exact hnew (hlast ▸ heq ▸ mem_issued_of_allocated hmem)
  case apart =>
    have hidx := h.aligned.text_lt hi
    rw [halc, List.mem_append, List.mem_singleton]
    rintro (hmem | heq)
    · exact h.apart hi hmem
    · exact hnew (heq ▸ h.mem_issued.mpr ⟨i, hidx, rfl⟩)
  case ledger =>
    rw [ledger_concat]
    exact hl

theorem interned (h : Accounts events m) (hnew : m.heap.interned.get? text = none)
    (hlt : m.heap.size < m.heap.limit) (hm : m'.heap = { m.heap.push (.text text) with
      interned := m.heap.interned.insert text m.heap.size }) (hl : ((Memory.ledger events).record
      (.internText text, .handle (.ofIndex m.heap.size))).Matches m') :
    Accounts (events ++ [(.internText text, .handle (.ofIndex m.heap.size))]) m' := by
  have halc := allocated_internText events text (.handle (.ofIndex m.heap.size))
  have hget : ∀ other, m'.heap.interned.get? other =
      if text = other then some m.heap.size else m.heap.interned.get? other := by
    intro other
    rw [hm]
    exact Table.get?_insert _ _ _ _
  refine ⟨hm ▸ h.aligned.intern hlt text, h.order_next hlt rfl (hm ▸ Heap.size_push _ _),
    fun {other hd} => ?interned, halc ▸ h.allocated_nodup, fun {other i} hi =>
      ?apart, ?ledger⟩
  case interned =>
    rw [interned_internText, hget, List.mem_append, h.interned_iff,
      List.mem_singleton, Prod.mk.injEq]
    by_cases heq : text = other
    · subst heq
      simp [hnew, eq_comm]
    · simp [heq, Ne.symm heq]
  case apart =>
    rw [hget] at hi
    rw [halc]
    split at hi
    · cases hi
      exact fun hmem => h.next_not_mem hlt (mem_issued_of_allocated hmem)
    · exact h.apart hi
  case ledger =>
    rw [ledger_concat]
    exact hl

theorem known (h : Accounts events m) {index : Nat} (hidx : m.heap.interned.get? text = some index)
    (hl : ((Memory.ledger events).record (.internText text, .handle (.ofIndex index))).Matches m) :
    Accounts (events ++ [(.internText text, .handle (.ofIndex index))]) m := by
  have hlt := h.aligned.text_lt hidx
  have halc := allocated_internText events text (.handle (.ofIndex index))
  refine ⟨h.aligned, ?order, fun {other hd} => ?interned, halc ▸ h.allocated_nodup,
    halc ▸ h.apart, ?ledger⟩
  case order =>
    rw [issued_concat]
    exact (eraseDups_concat_of_mem (h.mem_issued.mpr ⟨index, hlt, rfl⟩)).trans h.order
  case interned =>
    rw [interned_internText, List.mem_append, List.mem_singleton, Prod.mk.injEq,
      or_iff_left_of_imp]
    · exact h.interned_iff
    · rintro ⟨rfl, rfl⟩
      exact h.interned_iff.mpr ⟨index, hidx, rfl⟩
  case ledger =>
    rw [ledger_concat]
    exact hl

theorem step (h : Accounts events m) (hs : m.Step r reply m') :
    Accounts (events ++ [(r, reply)]) m' := by
  have hl := h.ledger.step h.aligned hs
  cases hs with
  | stored hr ht hlt hreply => exact h.stored ht hlt hreply hl
  | interned hnew hlt => exact h.interned hnew hlt rfl hl
  | known hidx => exact h.known hidx hl
  | refused hr hf => exact h.silent h.aligned rfl rfl rfl hl
  | changed hr ho hb hreply =>
    exact h.silent (h.aligned.put ho hb) hreply.issued?_eq_none (Array.size_setIfInBounds ..) rfl hl
  | missing hr hcha => exact h.silent h.aligned rfl rfl rfl hl

theorem run (limit : Nat) (requests : List Request) :
    Accounts ((withLimit limit).run requests).1 ((withLimit limit).run requests).2 := by
  induction requests using List.reverseRecOn with
  | nil => exact .start limit
  | append_singleton requests r ih =>
    rw [run_concat]
    exact ih.step (serve_step ih.aligned.limit_le r)

end Accounts

theorem limit_run (limit : Nat) (requests : List Request) :
    ((withLimit limit).run requests).2.heap.limit = min limit (2 ^ 32 - 1) := by
  induction requests using List.reverseRecOn with
  | nil => rfl
  | append_singleton requests r ih =>
    rw [run_concat]
    exact (serve_step (Accounts.run limit requests).aligned.limit_le r).limit_eq.trans ih

namespace Accounts

variable {hd : Handle}

theorem parts (h : Accounts events m) {i : Nat} (hi : (issued events).eraseDups[i]? = some hd) :
    hd.index = i ∧ hd.generation = 0 ∧ hd.raw.toNat < 2 ^ 48 := by
  rw [h.order, List.getElem?_map, Option.map_eq_some_iff] at hi
  obtain ⟨j, hj, rfl⟩ := hi
  obtain ⟨hlt, hget⟩ := List.getElem?_eq_some_iff.mp hj
  rw [List.length_range] at hlt
  rw [List.getElem_range] at hget
  subst hget
  have hb := h.aligned.index_lt hlt
  rw [Handle.index, Handle.generation, Handle.toNat_raw_ofIndex hb]
  omega

theorem deref?_isSome (h : Accounts events m) (w : Word) :
    (m.heap.deref? w).isSome ↔ ∃ hd ∈ issued events, Word.ofHandle? hd = .ok w := by
  rw [Option.isSome_iff_exists]
  constructor
  · rintro ⟨o, ho⟩
    obtain ⟨i, hi, rfl, hobj⟩ := Heap.deref?_eq_some.mp ho
    have hlt : i < m.heap.size := (Array.getElem?_eq_some_iff.mp hobj).1
    exact ⟨.ofIndex i, h.mem_issued.mpr ⟨i, hlt, rfl⟩, Handle.ofHandle?_ofIndex hi⟩
  · rintro ⟨hd, hmem, hw⟩
    obtain ⟨i, hlt, rfl⟩ := h.mem_issued.mp hmem
    have hi := h.aligned.index_lt hlt
    rw [Handle.ofHandle?_ofIndex hi, Except.ok.injEq] at hw
    rw [← hw, Heap.deref?_ofIndex _ hi]
    exact ⟨_, Array.getElem?_eq_getElem hlt⟩

theorem text_kept (h : Accounts events m) (hmem : (text, hd) ∈ Memory.interned events) :
    m.heap.get? hd = some (.text text) ∧ m.serve (.internText text) = (.handle hd, m) := by
  obtain ⟨i, hi, rfl⟩ := h.interned_iff.mp hmem
  refine ⟨?_, ?_⟩
  · rw [Heap.get?_ofIndex _ (h.aligned.index_lt (h.aligned.text_lt hi)), h.aligned.texts hi]
  · simp only [serve, Heap.issueText_of_some hi]
    rfl

theorem text_eq_iff (h : Accounts events m) {text1 text2 : String} {h1 h2 : Handle}
    (hmem1 : (text1, h1) ∈ Memory.interned events)
    (hmem2 : (text2, h2) ∈ Memory.interned events) : text1 = text2 ↔ h1 = h2 := by
  constructor
  · rintro rfl
    obtain ⟨i, hi, rfl⟩ := h.interned_iff.mp hmem1
    obtain ⟨j, hj, rfl⟩ := h.interned_iff.mp hmem2
    rw [Option.some.inj (hi.symm.trans hj)]
  · rintro rfl
    have ht1 := (h.text_kept hmem1).1
    have ht2 := (h.text_kept hmem2).1
    rw [ht1] at ht2
    simpa using ht2

theorem getElem?_instances (h : Accounts events m) (i p : Nat) :
    m.heap.instances[i]? = some (some p) ↔
      p = i ∧ ∃ inst, m.heap.objects[i]? = some (.ofInstance inst) := by
  rw [h.aligned.instances, Array.getElem?_mapIdx]
  cases m.heap.objects[i]? with
  | none => simp
  | some o => cases o <;> simp [Object.instance?, eq_comm]

end Accounts

/-- What a host can rely on, given what it asked of a memory for at most `limit` objects and
what it was told. -/
structure Lawful (limit : Nat) (events : List Event) (m : Memory) : Prop where
  handles : (issued events).eraseDups.length = m.heap.size
  order : ∀ (i : Nat) (h : Handle), (issued events).eraseDups[i]? = some h →
    h.index = i ∧ h.generation = 0 ∧ h.raw.toNat < 2 ^ 48
  refers : ∀ w, (m.heap.deref? w).isSome ↔ ∃ h ∈ issued events, Word.ofHandle? h = .ok w
  holds : ∀ w, m.heap.deref? w = (ledger events).known w
  text : ∀ text h, (text, h) ∈ interned events →
    m.heap.get? h = some (.text text) ∧ m.serve (.internText text) = (.handle h, m)
  texts : ∀ text1 h1 text2 h2, (text1, h1) ∈ interned events → (text2, h2) ∈ interned events →
    (text1 = text2 ↔ h1 = h2)
  allocated : (allocated events).Nodup ∧ ∀ h ∈ allocated events, ∀ text, (text, h) ∉ interned events
  size_le : m.heap.size ≤ min limit (2 ^ 32 - 1)
  room : ∀ r o, r.object? = some o → m.heap.size < min limit (2 ^ 32 - 1) →
    ∃ h, (m.serve r).1.issued? = some h
  refused : ∀ r e, (m.serve r).1 = .refused e →
    m.heap.size = min limit (2 ^ 32 - 1) ∧ e = .exhausted m.heap.size ∧ (m.serve r).2 = m
  instances_size : m.heap.instances.size = m.heap.size
  instances : ∀ i p : Nat, m.heap.instances[i]? = some (some p) ↔
    p = i ∧ ∃ inst, m.heap.objects[i]? = some (.ofInstance inst)

/-- **Handles and texts, whatever is done to a memory.** -/
theorem handles_lawful (limit : Nat) (requests : List Request) :
    Lawful limit ((withLimit limit).run requests).1 ((withLimit limit).run requests).2 := by
  have hlim := limit_run limit requests
  have h := Accounts.run limit requests
  generalize (withLimit limit).run requests = history at hlim h
  have hstep := serve_step h.aligned.limit_le
  refine {
    handles := by rw [h.order, List.length_map, List.length_range]
    order := fun _ _ => h.parts
    refers := h.deref?_isSome
    holds := fun w => by rw [h.ledger.known]
    text := fun _ _ => h.text_kept
    texts := fun _ _ _ _ => h.text_eq_iff
    allocated := ⟨h.allocated_nodup, fun hd hmem text ht => ?_⟩
    size_le := hlim ▸ h.aligned.size_le
    room := fun r o hr hroom => (hstep r).exists_issued hr (hlim ▸ hroom)
    refused := fun r e he => ?_
    instances_size := by rw [h.aligned.instances, Array.size_mapIdx]; rfl
    instances := h.getElem?_instances }
  · obtain ⟨i, hi, rfl⟩ := h.interned_iff.mp ht
    exact h.apart hi hmem
  · obtain ⟨hf, hcnt, hs⟩ := (he ▸ hstep r).of_refused
    exact ⟨Nat.le_antisymm (hlim ▸ h.aligned.size_le) (hlim ▸ hf), hcnt, hs⟩

end ScriptMachine.Memory
