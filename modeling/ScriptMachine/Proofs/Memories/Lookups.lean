/-
ScriptMachine.Proofs.Memories.Lookups — which handles address an object.
-/
import Mathlib.Algebra.Ring.Nat
import ScriptMachine.Proofs.Memories.Steps

namespace ScriptMachine

/-! ## Handles -/

namespace Handle

variable {g h : Handle} {i : Nat}

/-- The handle without the bits above its generation. -/
def core (h : Handle) : Handle := ⟨h.raw &&& Word.payloadMask⟩

theorem core_eq_core : g.core = h.core ↔ g.generation = h.generation ∧ g.index = h.index := by
  rw [core, mk_eq_iff, toNat_and_payloadMask, core, toNat_and_payloadMask, generation, generation,
    index, index]
  omega

theorem core_eq_ofIndex (hi : i < 0x100000000) :
    h.core = ofIndex i ↔ h.generation = 0 ∧ h.index = i := by
  rw [core, mk_eq_iff, toNat_and_payloadMask, toNat_raw_ofIndex hi, generation, index]
  omega

theorem core_of_lt (hf : h.raw.toNat < 2 ^ 48) : h.core = h := by
  rw [core, mk_eq_iff, toNat_and_payloadMask]
  exact Nat.mod_eq_of_lt hf

end Handle

/-! ## Lookups -/

namespace Heap

variable {heap : Heap} {h : Handle}

theorem isSome_get? : (heap.get? h).isSome ↔ h.generation = 0 ∧ h.index < heap.size := by
  unfold get?
  split
  · next hgen => simp [hgen, size]
  · next hgen => simp [hgen]

theorem isSome_edit? : (heap.edit? h).isSome ↔ (heap.get? h).isSome := by
  rw [edit?, Option.isSome_map]

theorem get?_congr {g : Handle} (heq : g.core = h.core) : heap.get? g = heap.get? h := by
  obtain ⟨hgen, hidx⟩ := Handle.core_eq_core.mp heq
  rw [get?, get?, hgen, hidx]

/-- What is put in the place of an object is found by the handles that address
it. -/
theorem get?_put {o o' : Object} {put : Object → Heap} (h' : heap.edit? h = some (o, put))
    (g : Handle) : (put o').get? g = if g.core = h.core then some o' else heap.get? g := by
  obtain ⟨hgen, hlt⟩ := isSome_get?.mp (isSome_edit?.mp (Option.isSome_of_eq_some h'))
  obtain ⟨_, _, hput⟩ := Option.map_eq_some_iff.mp h'
  cases hput
  by_cases hc : g.core = h.core
  · obtain ⟨hg, hidx⟩ := Handle.core_eq_core.mp hc
    rw [if_pos hc, get?, if_pos (hg.trans hgen), hidx]
    exact Array.getElem?_setIfInBounds_self_of_lt hlt
  · rw [if_neg hc, get?, get?]
    split
    · next hg =>
      have hne : h.index ≠ g.index := fun heq =>
        hc (Handle.core_eq_core.mpr ⟨hg.trans hgen.symm, heq.symm⟩)
      exact Array.getElem?_setIfInBounds_ne hne
    · rfl

end Heap

/-! ## Uses -/

namespace Memory

/-- What a host does with a memory. -/
inductive Use where
  | ask (r : Request)
  | overwrite (h : Handle) (object : Object)

/-- Uses a memory once, for which a handle may be issued. -/
def use (m : Memory) : Use → Option Handle × Memory
  | .ask r => ((m.serve r).1.issued?, (m.serve r).2)
  | .overwrite h object =>
    match m.heap.edit? h with
    | some (_, put) => (none, { m with heap := put object })
    | none => (none, m)

/-- The handles issued in the course of some uses. -/
def useAll (m : Memory) : List Use → List Handle × Memory
  | [] => ([], m)
  | u :: rest =>
    let (handles, last) := (m.use u).2.useAll rest
    ((m.use u).1.toList ++ handles, last)

structure Issues (handles : List Handle) (heap : Heap) : Prop where
  size_le : heap.size ≤ heap.limit
  limit_le : heap.limit ≤ Heap.maxLimit
  texts : ∀ {text i}, heap.interned.get? text = some i → i < heap.size
  mem_iff : ∀ {h}, h ∈ handles ↔ ∃ i < heap.size, Handle.ofIndex i = h

namespace Issues

variable {handles : List Handle} {heap heap' : Heap} {m m' : Memory}

theorem start (limit : Nat) : Issues [] (withLimit limit).heap where
  size_le := Nat.zero_le _
  limit_le := Nat.min_le_right _ _
  texts := nofun
  mem_iff := ⟨nofun, fun ⟨_, hi, _⟩ => absurd hi (Nat.not_lt_zero _)⟩

variable (h : Issues handles heap)

include h

theorem index_lt {i : Nat} (hi : i < heap.size) : i < 0x100000000 :=
  Nat.lt_of_lt_of_le hi (Nat.le_trans h.size_le (Nat.le_succ_of_le h.limit_le))

theorem append_none : Issues (handles ++ (none : Option Handle).toList) heap := by
  rwa [Option.toList_none, List.append_nil]

theorem put (i : Nat) (o : Object) : Issues handles (heap.put i o) := by
  have hs : (heap.put i o).size = heap.size := Array.size_setIfInBounds
  exact ⟨hs ▸ h.size_le, h.limit_le, hs ▸ h.texts, hs ▸ h.mem_iff⟩

theorem next (hlt : heap.size < heap.limit) (hs : heap'.size = heap.size + 1)
    (hlim : heap'.limit = heap.limit)
    (ht : ∀ {text i}, heap'.interned.get? text = some i → i ≤ heap.size) :
    Issues (handles ++ [.ofIndex heap.size]) heap' where
  size_le := by omega
  limit_le := hlim ▸ h.limit_le
  texts hi := hs ▸ Nat.lt_succ_of_le (ht hi)
  mem_iff {hd} := by
    rw [List.mem_append, List.mem_singleton, h.mem_iff, hs]
    constructor
    · rintro (⟨i, hi, rfl⟩ | rfl)
      · exact ⟨i, Nat.lt_succ_of_lt hi, rfl⟩
      · exact ⟨heap.size, Nat.lt_succ_self _, rfl⟩
    · rintro ⟨i, hi, rfl⟩
      rcases Nat.lt_succ_iff_lt_or_eq.mp hi with hlt | rfl
      · exact .inl ⟨i, hlt, rfl⟩
      · exact .inr rfl

omit h in
theorem step {r : Request} {reply : Reply} (h : Issues handles m.heap) (hs : m.Step r reply m') :
    Issues (handles ++ reply.issued?.toList) m'.heap := by
  cases hs with
  | stored hr ht hlt hreply =>
    rw [hreply]
    exact h.next hlt (Heap.size_push _ _) rfl fun hi => Nat.le_of_lt (h.texts hi)
  | interned hnew hlt =>
    refine h.next hlt (Heap.size_push _ _) rfl fun {text i} hi => ?_
    rw [Table.get?_insert] at hi
    split at hi
    · exact Nat.le_of_eq (Option.some.inj hi).symm
    · exact Nat.le_of_lt (h.texts hi)
  | known hidx =>
    refine ⟨h.size_le, h.limit_le, h.texts, fun {hd} => ?_⟩
    rw [← h.mem_iff, List.mem_append, or_iff_left_of_imp]
    intro hmem
    exact h.mem_iff.mpr ⟨_, h.texts hidx, (List.mem_singleton.mp hmem).symm⟩
  | refused | missing => exact h.append_none
  | changed _ _ _ hreply =>
    rw [hreply.issued?_eq_none]
    exact (h.put _ _).append_none

omit h in
theorem use (h : Issues handles m.heap) (u : Use) :
    Issues (handles ++ (m.use u).1.toList) (m.use u).2.heap := by
  cases u with
  | ask r => exact h.step (serve_step h.limit_le r)
  | overwrite hd o =>
    simp only [Memory.use, Heap.edit?]
    cases m.heap.get? hd with
    | none => exact h.append_none
    | some => exact (h.put _ _).append_none

omit h in
theorem useAll (h : Issues handles m.heap) (uses : List Use) :
    Issues (handles ++ (m.useAll uses).1) (m.useAll uses).2.heap := by
  induction uses generalizing m handles with
  | nil => exact h.append_none
  | cons u rest ih =>
    have hr := ih (h.use u)
    rwa [List.append_assoc] at hr

theorem isSome_get? (hd : Handle) : (heap.get? hd).isSome ↔ hd.core ∈ handles := by
  rw [Heap.isSome_get?, h.mem_iff]
  constructor
  · rintro ⟨hgen, hlt⟩
    exact ⟨_, hlt, ((Handle.core_eq_ofIndex (h.index_lt hlt)).mpr ⟨hgen, rfl⟩).symm⟩
  · rintro ⟨i, hi, heq⟩
    obtain ⟨hgen, hidx⟩ := (Handle.core_eq_ofIndex (h.index_lt hi)).mp heq.symm
    exact ⟨hgen, hidx.symm ▸ hi⟩

end Issues

/-- Which handles address an object, and which of them the same. -/
structure Addresses (handles : List Handle) (heap : Heap) : Prop where
  get : ∀ h, (heap.get? h).isSome ↔ h.core ∈ handles
  edit : ∀ h, (heap.edit? h).isSome ↔ h.core ∈ handles
  fits : ∀ h : Handle, h.raw.toNat < 2 ^ 48 → ((heap.get? h).isSome ↔ h ∈ handles)
  same : ∀ g h : Handle, g.core = h.core → heap.get? g = heap.get? h
  shared : ∀ h o put, heap.edit? h = some (o, put) → ∀ o' g,
    (put o').get? g = if g.core = h.core then some o' else heap.get? g

/-- **A lookup reads the lower 48 bits of a handle.** Whatever a host does with a
memory, a handle addresses an object if and only if its lower 48 bits are those
of a handle that was issued, and two handles address the same object if and only
if they agree in these bits. -/
theorem lookups_read_lower_bits (limit : Nat) (uses : List Use) :
    Addresses ((withLimit limit).useAll uses).1 ((withLimit limit).useAll uses).2.heap := by
  have h := (Issues.start limit).useAll uses
  rw [List.nil_append] at h
  refine ⟨h.isSome_get?, fun hd => ?_, fun hd hf => ?_, fun _ _ => Heap.get?_congr,
    fun _ _ _ he _ => Heap.get?_put he⟩
  · rw [Heap.isSome_edit?, h.isSome_get?]
  · rw [h.isSome_get?, Handle.core_of_lt hf]

theorem foreign_handle_addresses_object :
    let (handles, m) := (withLimit 4).useAll [.ask (.allocate (.cell .nil))]
    let foreign : Handle := ⟨0x0001000000000000⟩
    handles = [⟨0⟩] ∧ foreign ∉ handles ∧ m.heap.get? foreign = some (.cell .nil) ∧
      (m.use (.overwrite foreign (.cell .zero))).2.heap.get? ⟨0⟩ = some (.cell .zero) := by
  refine ⟨rfl, by decide, rfl, rfl⟩

end Memory

end ScriptMachine
