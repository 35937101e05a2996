/-
ScriptMachine.Proofs.Memories.Steps — all that one request to a memory can do.
-/
import ScriptMachine.Heap.Memory
import ScriptMachine.Proofs.Encoding
import ScriptMachine.Proofs.Evolution

namespace ScriptMachine

namespace Handle

variable {i j : Nat}

theorem toNat_raw_ofIndex (hi : i < 0x100000000) : (ofIndex i).raw.toNat = i := by
  rw [ofIndex, toNat_ofParts, UInt32.toNat_ofNat']
  simp only [UInt16.reduceToNat]
  omega

theorem ofIndex_eq (hi : i < 0x100000000) : ofIndex i = ⟨UInt64.ofNat i⟩ := by
  rw [eq_comm, mk_eq_iff, toNat_raw_ofIndex hi, UInt64.toNat_ofNat']
  omega

theorem ofIndex_inj (hi : i < 0x100000000) (hj : j < 0x100000000) :
    ofIndex i = ofIndex j ↔ i = j := by
  refine ⟨fun heq => ?_, fun heq => heq ▸ rfl⟩
  rw [← toNat_raw_ofIndex hi, heq, toNat_raw_ofIndex hj]

theorem ofHandle?_ofIndex (hi : i < 0x100000000) :
    Word.ofHandle? (ofIndex i) = .ok (.ofIndex i) := by
  rw [Word.ofHandle?_eq_ok_iff, toNat_raw_ofIndex hi, Word.toNat_ofIndex hi]
  omega

def word (h : Handle) : Word := ⟨Word.objectMark ||| (h.raw &&& Word.payloadMask)⟩

theorem toNat_and_payloadMask (h : Handle) :
    (h.raw &&& Word.payloadMask).toNat = h.raw.toNat % 0x1000000000000 :=
  Word.toNat_payload ⟨h.raw⟩

theorem ofHandle?_masked (h : Handle) :
    Word.ofHandle? ⟨h.raw &&& Word.payloadMask⟩ = .ok h.word := by
  refine Word.ofHandle?_of_lt ?_
  rw [toNat_and_payloadMask]
  exact Nat.mod_lt _ (by decide)

theorem word_eq {h : Handle} {w : Word} (hw : Word.ofHandle? h = .ok w) : h.word = w := by
  have hm : Handle.mk (h.raw &&& Word.payloadMask) = h := by
    rw [mk_eq_iff, toNat_and_payloadMask]
    exact Nat.mod_eq_of_lt (Word.ofHandle?_eq_ok_iff.mp hw).1
  have hword := h.ofHandle?_masked
  rw [hm, hw] at hword
  exact (Except.ok.inj hword).symm

theorem objectIndex_word (h : Handle) : h.word.objectIndex = h.index := by
  have hw : h.word.bits.toNat = _ := (Word.ofHandle?_eq_ok_iff.mp h.ofHandle?_masked).2
  rw [Word.objectIndex, hw, toNat_and_payloadMask, index]
  omega

theorem word_ofIndex (hi : i < 0x100000000) : (ofIndex i).word = .ofIndex i :=
  word_eq (ofHandle?_ofIndex hi)

end Handle

namespace Heap

variable {heap : Heap} {w : Word} {o : Object}

theorem deref?_word (heap : Heap) (h : Handle) : heap.deref? h.word = heap.get? h := by
  have hidx : (Handle.mk (h.raw &&& Word.payloadMask)).index = h.index := by
    rw [Handle.index, h.toNat_and_payloadMask, Handle.index]
    omega
  have hgen : (Handle.mk (h.raw &&& Word.payloadMask)).generation = h.generation := by
    rw [Handle.generation, h.toNat_and_payloadMask, Handle.generation]
    omega
  rw [deref?, Word.ofHandle?_eq_ok_iff_toHandle?.mp h.ofHandle?_masked]
  show heap.get? _ = _
  rw [get?, get?, hidx, hgen]

theorem get?_ofIndex (heap : Heap) {i : Nat} (hi : i < 0x100000000) :
    heap.get? (.ofIndex i) = heap.objects[i]? := by
  rw [Handle.ofIndex_eq hi, heap.get?_ofNat hi]

theorem deref?_push (hlt : heap.size < 0x100000000) (o : Object) (w : Word) :
    (heap.push o).deref? w = if w = .ofIndex heap.size then some o else heap.deref? w := by
  split
  · next hw =>
    rw [hw, deref?_ofIndex _ hlt]
    exact Array.getElem?_push_size
  · next hw =>
    ext x
    rw [deref?_eq_some, deref?_eq_some]
    refine exists_congr fun i => and_congr_right fun _ => and_congr_right fun hi => ?_
    have hne : i ≠ heap.objects.size := fun heq => hw (hi.trans (congrArg Word.ofIndex heq))
    rw [objects_push, Array.getElem?_push, if_neg hne]

theorem deref?_put (ho : heap.deref? w = some o) (o' : Object) (v : Word) :
    (heap.put w.objectIndex o').deref? v = if v = w then some o' else heap.deref? v := by
  obtain ⟨i, hi, rfl, hobj⟩ := deref?_eq_some.mp ho
  have hlt : i < heap.objects.size := (Array.getElem?_eq_some_iff.mp hobj).1
  rw [Word.objectIndex_ofIndex hi]
  split
  · next hv =>
    rw [hv, deref?_ofIndex _ hi, put, Array.getElem?_setIfInBounds_self_of_lt hlt]
  · next hv =>
    ext x
    rw [deref?_eq_some, deref?_eq_some]
    refine exists_congr fun j => and_congr_right fun _ => and_congr_right fun hj => ?_
    have hne : i ≠ j := fun heq => hv (hj.trans (congrArg Word.ofIndex heq.symm))
    rw [put, Array.getElem?_setIfInBounds_ne hne]

end Heap

theorem Object.Becomes.instance?_map {o o' : Object} {α : Type} (h : o.Becomes o') (a : α) :
    (o.instance?.map fun _ => a) = o'.instance?.map fun _ => a := by
  cases h <;> rfl

structure Heap.Aligned (heap : Heap) : Prop where
  size_le : heap.size ≤ heap.limit
  limit_le : heap.limit ≤ Heap.maxLimit
  texts : ∀ {text i}, heap.interned.get? text = some i → heap.objects[i]? = some (.text text)
  instances : heap.instances = heap.objects.mapIdx fun i o => o.instance?.map fun _ => i

namespace Heap.Aligned

variable {heap : Heap} {i : Nat}

theorem withLimit (limit : Nat) : (Heap.withLimit limit).Aligned where
  size_le := Nat.zero_le _
  limit_le := Nat.min_le_right _ _
  texts := nofun
  instances := rfl

variable (h : heap.Aligned)

include h

theorem size_lt (hlt : heap.size < heap.limit) : heap.size < 0x100000000 :=
  Nat.lt_of_lt_of_le hlt (Nat.le_succ_of_le h.limit_le)

theorem index_lt (hi : i < heap.size) : i < 0x100000000 :=
  Nat.lt_of_lt_of_le hi (Nat.le_trans h.size_le (Nat.le_succ_of_le h.limit_le))

theorem text_lt {text : String} (hi : heap.interned.get? text = some i) : i < heap.size :=
  (Array.getElem?_eq_some_iff.mp (h.texts hi)).1

theorem push (hlt : heap.size < heap.limit) (o : Object) : (heap.push o).Aligned where
  size_le := by
    rw [size_push]
    exact hlt
  limit_le := h.limit_le
  texts hi := getElem?_push_of_some (h.texts hi)
  instances := by
    rw [objects_push, Array.mapIdx_push, ← h.instances]
    rfl

theorem intern (hlt : heap.size < heap.limit) (text : String) :
    Heap.Aligned { heap.push (.text text) with
      interned := heap.interned.insert text heap.size } where
  __ := h.push hlt (.text text)
  texts hi := by
    rw [Table.get?_insert] at hi
    split at hi
    · next heq =>
      cases heq
      cases hi
      exact Array.getElem?_push_size
    · exact (h.push hlt (.text text)).texts hi

theorem put {w : Word} {o o' : Object} (ho : heap.deref? w = some o)
    (hb : o.Becomes o') : (heap.put w.objectIndex o').Aligned := by
  obtain ⟨index, hidx, rfl, hobj⟩ := Heap.deref?_eq_some.mp ho
  rw [Word.objectIndex_ofIndex hidx]
  have he := Heap.evolves_put hobj hb fun _ => True
  refine ⟨he.size_le h.size_le, h.limit_le, fun hi => ?texts, ?instances⟩
  case texts =>
    obtain ⟨o1, ho1, hb1⟩ := he.objects (h.texts hi)
    rw [ho1, hb1.text_eq]
  case instances =>
    show heap.instances = _
    rw [h.instances]
    refine Array.ext_getElem? fun i => ?_
    rw [Array.getElem?_mapIdx, Array.getElem?_mapIdx, Heap.put, Array.getElem?_setIfInBounds]
    split
    · next heq =>
      subst heq
      rw [if_pos (Array.getElem?_eq_some_iff.mp hobj).1, hobj]
      exact congrArg some (hb.instance?_map index)
    · rfl

end Heap.Aligned

namespace Heap

variable {heap : Heap} {text : String}

theorem issue_of_lt (hlt : heap.size < heap.limit) (o : Object) :
    heap.issue o = (.ok (.ofIndex heap.size), heap.push o) := by
  rw [issue, allocate, if_pos hlt]

theorem issue_of_ge (hf : heap.limit ≤ heap.size) (o : Object) :
    heap.issue o = (.error (.exhausted heap.size), heap) := by
  rw [issue, allocate, if_neg (Nat.not_lt.mpr hf)]

theorem issueWord_of_lt (hlt : heap.size < heap.limit) (hlim : heap.limit ≤ maxLimit)
    (o : Object) : heap.issueWord o = (.ok (.ofIndex heap.size), heap.push o) := by
  have hs : heap.size < 0x100000000 := Nat.lt_of_lt_of_le hlt (Nat.le_succ_of_le hlim)
  simp [issueWord, issue_of_lt hlt, Handle.ofHandle?_ofIndex hs]

theorem issueWord_of_ge (hf : heap.limit ≤ heap.size) (o : Object) :
    heap.issueWord o = (.error (.exhausted heap.size), heap) := by
  simp [issueWord, issue_of_ge hf]

theorem issueText_of_some {index : Nat} (hidx : heap.interned.get? text = some index) :
    heap.issueText text = (.ok (.ofIndex index), heap) := by
  simp [issueText, internText, hidx]

theorem issueText_of_lt (hnew : heap.interned.get? text = none) (hlt : heap.size < heap.limit) :
    heap.issueText text = (.ok (.ofIndex heap.size),
      { heap.push (.text text) with interned := heap.interned.insert text heap.size }) := by
  simp only [issueText, internText, hnew, allocate, if_pos hlt]
  rfl

theorem issueText_of_ge (hnew : heap.interned.get? text = none) (hf : heap.limit ≤ heap.size) :
    heap.issueText text = (.error (.exhausted heap.size), heap) := by
  simp only [issueText, internText, hnew, allocate, if_neg (Nat.not_lt.mpr hf)]
  rfl

end Heap

namespace Memory

/-- The object that a request asks to have stored. -/
def Request.object? : Request → Option Object
  | .allocate object | .allocateWord object => some object
  | .internText text => some (.text text)
  | .setCell .. | .addMethod .. | .setField .. => none

def Request.text? : Request → Option String
  | .internText text => some text
  | _ => none

def Request.change? (known : Word → Option Object) (shapes : Shapes) :
    Request → Option (Word × Object × Shapes)
  | .setCell cell value =>
    match known cell with
    | some (.cell _) => some (cell, .cell value, shapes)
    | _ => none
  | .addMethod h name method =>
    match known h.word with
    | some (.ofClass c) => some (h.word, .ofClass (c.addMethod name method), shapes)
    | _ => none
  | .setField object field value =>
    match known object with
    | some (.ofInstance i) =>
      let (_, i, shapes) := i.setField shapes field value
      some (object, .ofInstance i, shapes)
    | _ => none
  | .allocate _ | .allocateWord _ | .internText _ => none

theorem object?_of_change? {r : Request} {known : Word → Option Object} {shapes : Shapes}
    {c : Word × Object × Shapes} (hr : r.change? known shapes = some c) : r.object? = none := by
  cases r with
  | setCell | addMethod | setField => rfl
  | allocate | allocateWord | internText => cases hr

/-- The handle that a reply issues, by itself or in a word. -/
def Reply.issued? : Reply → Option Handle
  | .handle h => some h
  | .word w => w.toHandle?.toOption
  | _ => none

def Reply.Changed : Reply → Prop
  | .written | .added _ | .stored .. => True
  | _ => False

theorem Reply.Changed.issued?_eq_none {reply : Reply} (h : reply.Changed) :
    reply.issued? = none := by
  cases reply with
  | written | added | stored => rfl
  | handle | word | refused | missing => cases h

inductive Step (m : Memory) : Request → Reply → Memory → Prop
  | stored {r : Request} {reply : Reply} {o : Object} (hr : r.object? = some o)
      (htext : r.text? = none) (hlt : m.heap.size < m.heap.limit)
      (hreply : reply.issued? = some (.ofIndex m.heap.size)) :
      Step m r reply { m with heap := m.heap.push o }
  | interned {text : String} (hnew : m.heap.interned.get? text = none)
      (hlt : m.heap.size < m.heap.limit) :
      Step m (.internText text) (.handle (.ofIndex m.heap.size))
        { m with
          heap := { m.heap.push (.text text) with
            interned := m.heap.interned.insert text m.heap.size } }
  | known {text : String} {index : Nat} (hindex : m.heap.interned.get? text = some index) :
      Step m (.internText text) (.handle (.ofIndex index)) m
  | refused {r : Request} {o : Object} (hr : r.object? = some o)
      (hfull : m.heap.limit ≤ m.heap.size) :
      Step m r (.refused (.exhausted m.heap.size)) m
  | changed {r : Request} {reply : Reply} {w : Word} {o o' : Object} {shapes : Shapes}
      (hr : r.change? m.heap.deref? m.shapes = some (w, o', shapes))
      (ho : m.heap.deref? w = some o) (hb : o.Becomes o') (hreply : reply.Changed) :
      Step m r reply ⟨m.heap.put w.objectIndex o', shapes⟩
  | missing {r : Request} (hr : r.object? = none)
      (hchange : r.change? m.heap.deref? m.shapes = none) :
      Step m r .missing m

variable {m : Memory}

namespace Step

variable {m' : Memory} {r : Request} {reply : Reply}

theorem limit_eq (hs : m.Step r reply m') : m'.heap.limit = m.heap.limit := by
  cases hs <;> rfl

theorem exists_issued (hs : m.Step r reply m') {o : Object} (hr : r.object? = some o)
    (hroom : m.heap.size < m.heap.limit) : ∃ h, reply.issued? = some h := by
  cases hs with
  | stored _ _ _ hreply => exact ⟨_, hreply⟩
  | interned | known => exact ⟨_, rfl⟩
  | refused _ hf => exact absurd hroom (Nat.not_lt.mpr hf)
  | changed hcha => cases hr.symm.trans (object?_of_change? hcha)
  | missing hn => cases hr.symm.trans hn

theorem of_refused {e : HeapError} (hs : m.Step r (.refused e) m') :
    m.heap.limit ≤ m.heap.size ∧ e = .exhausted m.heap.size ∧ m' = m := by
  cases hs with
  | stored _ _ _ hr => cases hr
  | refused _ hf => exact ⟨hf, rfl, rfl⟩
  | changed _ _ _ hr => cases hr

end Step

theorem step_setCell (m : Memory) (cell value : Word) :
    m.Step (.setCell cell value) (m.setCell cell value).1 (m.setCell cell value).2 := by
  unfold setCell Heap.setCell
  cases ho : m.heap.deref? cell with
  | none => exact .missing rfl (by simp [Request.change?, ho])
  | some o =>
    cases o with
    | cell v => exact .changed (by simp [Request.change?, ho]) ho (.cell v value) trivial
    | text | closure | ofClass | ofInstance | bound | native =>
      exact .missing rfl (by simp [Request.change?, ho])

theorem step_addMethod (m : Memory) (h : Handle) (name : Symbol) (method : Word) :
    m.Step (.addMethod h name method) (m.addMethod h name method).1
      (m.addMethod h name method).2 := by
  unfold addMethod Heap.edit?
  rw [← m.heap.deref?_word, ← h.objectIndex_word]
  cases ho : m.heap.deref? h.word with
  | none => exact .missing rfl (by simp [Request.change?, ho])
  | some o =>
    cases o with
    | ofClass c => exact .changed (by simp [Request.change?, ho]) ho (.ofClass rfl) trivial
    | text | closure | cell | ofInstance | bound | native =>
      exact .missing rfl (by simp [Request.change?, ho])

theorem step_setField (m : Memory) (object : Word) (field : Symbol) (value : Word) :
    m.Step (.setField object field value) (m.setField object field value).1
      (m.setField object field value).2 := by
  unfold setField Heap.instance?
  cases ho : m.heap.deref? object with
  | none => exact .missing rfl (by simp [Request.change?, ho])
  | some o =>
    cases o with
    | ofInstance i =>
      exact .changed (by simp [Request.change?, ho]) ho
        (.ofInstance (i.setField_classHandle m.shapes field value)) trivial
    | text | closure | cell | ofClass | bound | native =>
      exact .missing rfl (by simp [Request.change?, ho])

theorem serve_step (hlim : m.heap.limit ≤ Heap.maxLimit) (r : Request) :
    m.Step r (m.serve r).1 (m.serve r).2 := by
  cases r with
  | allocate o =>
    simp only [serve]
    rcases Nat.lt_or_ge m.heap.size m.heap.limit with hlt | hf
    · rw [Heap.issue_of_lt hlt]
      exact .stored rfl rfl hlt rfl
    · rw [Heap.issue_of_ge hf]
      exact .refused rfl hf
  | allocateWord o =>
    simp only [serve]
    rcases Nat.lt_or_ge m.heap.size m.heap.limit with hlt | hf
    · have hs : m.heap.size < 0x100000000 :=
        Nat.lt_of_lt_of_le hlt (Nat.le_succ_of_le hlim)
      rw [Heap.issueWord_of_lt hlt hlim]
      refine .stored rfl rfl hlt ?_
      rw [Handle.ofIndex_eq hs]
      exact congrArg Except.toOption (Word.toHandle?_ofIndex hs)
    · rw [Heap.issueWord_of_ge hf]
      exact .refused rfl hf
  | internText text =>
    simp only [serve]
    cases hidx : m.heap.interned.get? text with
    | some index =>
      rw [Heap.issueText_of_some hidx]
      exact .known hidx
    | none =>
      rcases Nat.lt_or_ge m.heap.size m.heap.limit with hlt | hf
      · rw [Heap.issueText_of_lt hidx hlt]
        exact .interned hidx hlt
      · rw [Heap.issueText_of_ge hidx hf]
        exact .refused rfl hf
  | setCell cell value => exact m.step_setCell cell value
  | addMethod h name method => exact m.step_addMethod h name method
  | setField object field value => exact m.step_setField object field value

end Memory

end ScriptMachine
