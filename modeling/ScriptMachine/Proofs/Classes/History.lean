/-
ScriptMachine.Proofs.Classes.History — what class statements did, and what classes
answer to.
-/
import ScriptMachine.Proofs.Classes.Making
import ScriptMachine.Proofs.Runs.Writes

namespace ScriptMachine

/-! ## §1 Tables -/

variable {s : Store}

/-- The class at an index. -/
def Heap.classAt? (heap : Heap) (index : Nat) : Option Class :=
  match heap.objects[index]? with
  | some (.ofClass c) => some c
  | _ => none

namespace Heap

variable {heap heap' : Heap} {index : Nat} {c : Class}

theorem classAt?_eq_some :
    heap.classAt? index = some c ↔ heap.objects[index]? = some (.ofClass c) := by
  unfold classAt?
  split
  · next c' h => rw [h]; simp
  · next h =>
    simp only [reduceCtorEq, false_iff]
    exact h c

theorem classAt?_congr (h : heap'.objects[index]? = heap.objects[index]?) :
    heap'.classAt? index = heap.classAt? index := by
  unfold classAt?
  rw [h]

theorem classAt?_of_deref? {w : Word} (h : heap.deref? w = some (.ofClass c)) :
    heap.classAt? w.objectIndex = some c :=
  classAt?_eq_some.mpr (Heap.getElem?_objectIndex h)

theorem classAt?_of_class? {handle : Handle} (h : heap.class? handle = some c) :
    heap.classAt? handle.index = some c := by
  unfold class? get? at h
  split at h
  · next hg =>
    cases h
    split at hg
    · exact classAt?_eq_some.mpr hg
    · cases hg
  · cases h

theorem lt_of_classAt? (h : heap.classAt? index = some c) : index < heap.size :=
  (Array.getElem?_eq_some_iff.mp (classAt?_eq_some.mp h)).1

end Heap

namespace Act

variable {s : Store} {a : Act} {name : Symbol} {sup : Option Word} {made : Nat}

theorem not_adds_class (hnew : ∀ {name sup}, a ≠ .newClass name sup) {c : Class} :
    ¬a.Adds s (.ofClass c) := by
  intro h
  cases a with
  | newClass => exact hnew rfl
  | binary | getProperty | getSuper | call => obtain ⟨_, h⟩ := h; cases h
  | makeClosure => obtain ⟨_, _, h⟩ := h; cases h
  | newCell => cases h
  | _ => exact h

theorem footprint_ne_method (hadd : ∀ {target name method}, a ≠ .addMethod target name method)
    {index : Nat} {w : Word} : a.footprint s ≠ some (index, .method name w) := by
  intro h
  cases a with
  | addMethod => exact hadd rfl
  | setCell cell value =>
    simp only [footprint, target, Store.cellFootprint] at h
    split at h <;> cases h
  | setProperty object name value site =>
    simp only [footprint] at h
    split at h
    · cases h
    · simp [Store.fieldFootprint] at h
  | _ => cases h

theorem classAt?_other (h : s.Laid) (hnew : ∀ {name sup}, a ≠ .newClass name sup)
    (hadd : ∀ {target name method}, a ≠ .addMethod target name method) (index : Nat) :
    (a.apply s).heap.classAt? index = s.heap.classAt? index := by
  have hwr := a.apply_writesOnly h
  have hn : ∀ {o : Object}, (∀ c, o ≠ .ofClass c) →
      (a.apply s).heap.objects[index]? = some o → (a.apply s).heap.classAt? index = none := by
    intro o ho hobj
    cases hcls : (a.apply s).heap.classAt? index with
    | none => rfl
    | some c =>
      exact absurd (Option.some.inj (hobj.symm.trans (Heap.classAt?_eq_some.mp hcls))) (ho c)
  cases ho : s.heap.objects[index]? with
  | none =>
    have hold : s.heap.classAt? index = none := by rw [Heap.classAt?, ho]
    rw [hold]
    cases hcls : (a.apply s).heap.classAt? index with
    | none => rfl
    | some c =>
      rcases (Act.evolves s a).heap.added (Heap.classAt?_eq_some.mp hcls) with ⟨o0, ho0, _⟩ | hf
      · cases ho.symm.trans ho0
      · exact absurd hf (not_adds_class hnew)
  | some o =>
    by_cases hwri : ∃ w, a.footprint s = some (index, w)
    · obtain ⟨w, hw⟩ := hwri
      obtain ⟨o1, o2, ho1, ho2, hk⟩ := hwr.written hw
      cases hk with
      | method => exact absurd hw (footprint_ne_method hadd)
      | cell | field | slot => rw [hn (fun _ h => by cases h) ho2, Heap.classAt?, ho1]
    · exact Heap.classAt?_congr
        ((hwr.untouched ho fun w hw => hwri ⟨w, hw⟩).trans ho.symm)

theorem classAt?_newClass (hs : s.heap.Sound .any)
    (h : (Act.newClass name sup).made? s = some made) :
    made = s.heap.size ∧ ∃ methods, s.inherited sup = .ok methods ∧
      ∀ index, ((Act.newClass name sup).apply s).heap.classAt? index =
        if index = made then some ⟨name, methods⟩ else s.heap.classAt? index := by
  simp only [made?] at h
  simp only [apply, Serve.newClass]
  cases hnew : s.newClass name sup with
  | mk result s' =>
    rw [hnew] at h
    cases result with
    | error e => cases h
    | ok w =>
      obtain ⟨methods, hm, hlt, rfl, rfl⟩ := Store.newClass_ok hs hnew
      obtain rfl : s.heap.size = made := by
        rw [← Word.objectIndex_ofIndex hlt]
        exact Option.some.inj h
      refine ⟨rfl, methods, hm, fun index => ?_⟩
      simp only [Serve.report, Heap.classAt?, Heap.objects_push, Array.getElem?_push]
      by_cases hi : index = s.heap.size
      · rw [if_pos hi, if_pos (show index = s.heap.objects.size from hi)]
      · rw [if_neg hi, if_neg (show ¬index = s.heap.objects.size from hi)]

theorem classAt?_of_made?_none (h : (Act.newClass name sup).made? s = none) (index : Nat) :
    ((Act.newClass name sup).apply s).heap.classAt? index = s.heap.classAt? index := by
  simp only [made?] at h
  simp only [apply, Serve.newClass]
  have hst : (s.newClass name sup).2 = s ∨ ∃ w, (s.newClass name sup).1 = .ok w := by
    unfold Store.newClass
    split
    · next methods _ =>
      rcases s.alloc_cases (.ofClass ⟨name, methods⟩) with ⟨_, heq⟩ | ⟨_, heq⟩ <;> rw [heq]
      · exact .inr ⟨_, rfl⟩
      · exact .inl rfl
    · exact .inl rfl
  rcases hst with heq | ⟨w, hw⟩
  · have hh : (Serve.report (s.newClass name sup)).2.heap = s.heap := by
      rw [← congrArg Store.heap heq]
      generalize s.newClass name sup = r
      obtain ⟨_ | _, _⟩ := r <;> rfl
    rw [hh]
  · rw [hw] at h
    cases h

theorem classAt?_addMethod {method : Word} (h : s.heap.HasClass made) (index : Nat) :
    ((Act.addMethod (.ofIndex made) name method).apply s).heap.classAt? index =
      if index = made then (s.heap.classAt? made).map (·.addMethod name method)
      else s.heap.classAt? index := by
  obtain ⟨hlt, c, hc⟩ := h
  have hd : s.heap.deref? (.ofIndex made) = some (.ofClass c) := by
    rw [Heap.deref?_ofIndex _ hlt, hc]
  simp only [apply, Serve.addMethod, Store.addMethod_eq, hd, Word.objectIndex_ofIndex hlt]
  split
  · next heq =>
    subst heq
    rw [Heap.classAt?_eq_some.mpr hc]
    refine Heap.classAt?_eq_some.mpr (Array.getElem?_setIfInBounds_self_of_lt ?_)
    exact (Array.getElem?_eq_some_iff.mp hc).1
  · next hne => exact Heap.classAt?_congr (Array.getElem?_setIfInBounds_ne (Ne.symm hne))

end Act

theorem Store.inherited_ok {sup : Option Word} {methods : Table Symbol Word}
    (h : s.inherited sup = .ok methods) :
    (∀ {i}, sup.map (·.objectIndex) = some i → ∃ c, s.heap.classAt? i = some c) ∧
      ∀ name, methods.get? name = (sup.map (·.objectIndex)).bind fun i =>
        (s.heap.classAt? i).bind (·.method? name) := by
  cases sup with
  | none =>
    cases h
    exact ⟨nofun, fun _ => rfl⟩
  | some w =>
    simp only [inherited] at h
    split at h
    · next c hd =>
      cases h
      have hcls := Heap.classAt?_of_deref? hd
      refine ⟨fun hi => ⟨c, Option.some.inj hi ▸ hcls⟩, fun name => ?_⟩
      simp only [Option.map_some, Option.bind_some, hcls]
      rfl
    · cases h

/-! ## §2 Histories -/

/-- What a class statement did. -/
structure ClassRecord where
  made : Nat
  superclass : Option Nat
  own : Table Symbol Word := []

/-- What class statements did, the last one first. -/
abbrev History := List ClassRecord

namespace History

def attach (name : Symbol) (method : Word) : History → History
  | [] => []
  | last :: older => { last with own := last.own.insert name method } :: older

/-- Looks a method up by walking from class to superclass: the one the class was
given last by its own statement, or else what the superclass answers to. -/
def walk (name : Symbol) : History → Nat → Option Word
  | [], _ => none
  | last :: older, index =>
    if last.made = index then (last.own.get? name).or (last.superclass.bind (walk name older))
    else walk name older index

end History

def Act.record (s : Store) (a : Act) (history : History) : History :=
  match a with
  | .newClass _ sup =>
    match a.made? s with
    | some made => ⟨made, sup.map (·.objectIndex), []⟩ :: history
    | none => history
  | .addMethod _ name method => history.attach name method
  | _ => history

inductive Act.Change (s : Store) (a : Act) : Prop
  | none : a.made? s = none → (∀ history, a.record s history = history) →
      (∀ i, (a.apply s).heap.classAt? i = s.heap.classAt? i) → Change s a
  | made {sup : Option Nat} {c : Class} : a.made? s = some s.heap.size →
      (∀ history, a.record s history = ⟨s.heap.size, sup, []⟩ :: history) →
        (∀ {i}, sup = some i → ∃ c, s.heap.classAt? i = some c) →
          (∀ name, c.method? name = sup.bind fun i => (s.heap.classAt? i).bind (·.method? name)) →
            (∀ i, (a.apply s).heap.classAt? i =
              if i = s.heap.size then some c else s.heap.classAt? i) → Change s a
  | attached {target method : Word} {name : Symbol} : a = .addMethod target name method → Change s a

theorem Act.change (hl : s.Laid) (hs : s.heap.Sound .any) (a : Act) : a.Change s := by
  cases a with
  | newClass name sup =>
    cases hm : (Act.newClass name sup).made? s with
    | none =>
      refine .none hm (fun history => ?_) (Act.classAt?_of_made?_none hm)
      simp [record, hm]
    | some made =>
      obtain ⟨rfl, methods, hmths, hcla⟩ := Act.classAt?_newClass hs hm
      obtain ⟨hsuper, hans⟩ := Store.inherited_ok hmths
      refine .made (c := ⟨name, methods⟩) hm (fun history => ?_) hsuper hans hcla
      simp [record, hm]
  | addMethod target name method => exact .attached rfl
  | _ => exact .none rfl (fun _ => rfl) (Act.classAt?_other hl nofun nofun)

/-! ## §3 Accounts -/

structure History.Tells (history : History) (heap : Heap) : Prop where
  ordered : history.Pairwise fun later earlier => earlier.made < later.made
  answers : ∀ {d}, d ∈ history → ∃ c, heap.classAt? d.made = some c ∧
    ∀ name, c.method? name = (d.own.get? name).or
      (d.superclass.bind fun i => (heap.classAt? i).bind (·.method? name))
  superclass : ∀ {d i}, d ∈ history → d.superclass = some i →
    i < d.made ∧ ∃ e ∈ history, e.made = i

/-- A history that tells how all classes of a heap came about. -/
structure History.Accounts (history : History) (heap : Heap) : Prop extends
    history.Tells heap where
  classes : ∀ {i c}, heap.classAt? i = some c → ∃ d ∈ history, d.made = i

namespace History

variable {history older : History} {last : ClassRecord} {heap heap' : Heap}

theorem Tells.tail (h : Tells (last :: older) heap) : Tells older heap where
  ordered := (List.pairwise_cons.mp h.ordered).2
  answers hd := h.answers (List.mem_cons_of_mem _ hd)
  superclass {d i} hd hi := by
    obtain ⟨hlt, e, he, rfl⟩ := h.superclass (List.mem_cons_of_mem _ hd) hi
    refine ⟨hlt, e, ?_, rfl⟩
    rcases List.mem_cons.mp he with rfl | he
    · have := (List.pairwise_cons.mp h.ordered).1 d hd
      omega
    · exact he

theorem Tells.walk_eq (h : history.Tells heap) {d : ClassRecord} (hd : d ∈ history)
    (name : Symbol) : history.walk name d.made = (heap.classAt? d.made).bind (·.method? name) := by
  induction history generalizing d with
  | nil => cases hd
  | cons last older ih =>
    obtain ⟨c, hc, hans⟩ := h.answers hd
    rw [hc, Option.bind_some, hans, walk]
    split
    · next heq =>
      obtain rfl : d = last := by
        rcases List.mem_cons.mp hd with rfl | hmem
        · rfl
        · have := (List.pairwise_cons.mp h.ordered).1 d hmem
          omega
      cases hs : d.superclass with
      | none => rfl
      | some i =>
        -- The superclass is older, so that it is found in the rest of the history.
        obtain ⟨hlt, e, he, rfl⟩ := h.superclass hd hs
        rcases List.mem_cons.mp he with rfl | he
        · omega
        · simp only [Option.bind_some]
          rw [ih h.tail he]
    · next hne =>
      rcases List.mem_cons.mp hd with rfl | hmem
      · exact absurd rfl hne
      · rw [ih h.tail hmem, hc, Option.bind_some, hans]

theorem walk_eq_none (h : ∀ d ∈ history, d.made ≠ i) (name : Symbol) :
    history.walk name i = none := by
  induction history with
  | nil => rfl
  | cons last older ih =>
    obtain ⟨hl, holder⟩ := List.forall_mem_cons.mp h
    rw [walk, if_neg hl]
    exact ih holder

theorem Accounts.walk_eq (h : history.Accounts heap) (name : Symbol) (i : Nat) :
    (heap.classAt? i).bind (·.method? name) = history.walk name i := by
  by_cases hmem : ∃ d ∈ history, d.made = i
  · obtain ⟨d, hd, rfl⟩ := hmem
    exact (h.toTells.walk_eq hd name).symm
  · rw [walk_eq_none fun d hd heq => hmem ⟨d, hd, heq⟩]
    cases hc : heap.classAt? i with
    | none => rfl
    | some c => exact absurd (h.classes hc) hmem

theorem Accounts.congr (h : history.Accounts heap)
    (hs : ∀ i, heap'.classAt? i = heap.classAt? i) : history.Accounts heap' where
  ordered := h.ordered
  answers hd := by
    simp only [hs]
    exact h.answers hd
  superclass := h.superclass
  classes hc := h.classes ((hs _).symm.trans hc)

theorem Accounts.newClass (h : history.Accounts heap) {sup : Option Nat} {c : Class}
    (hsuper : ∀ {i}, sup = some i → ∃ c, heap.classAt? i = some c)
    (hans : ∀ name, c.method? name = sup.bind fun i => (heap.classAt? i).bind (·.method? name))
    (hm : ∀ i, heap'.classAt? i = if i = heap.size then some c else heap.classAt? i) :
    Accounts (⟨heap.size, sup, []⟩ :: history) heap' := by
  have hold : ∀ {d}, d ∈ history → d.made < heap.size := by
    intro d hd
    obtain ⟨c, hc, _⟩ := h.answers hd
    exact Heap.lt_of_classAt? hc
  have hk : ∀ {i}, i < heap.size → heap'.classAt? i = heap.classAt? i :=
    fun hi => (hm _).trans (if_neg (Nat.ne_of_lt hi))
  refine ⟨⟨List.pairwise_cons.mpr ⟨fun d hd => hold hd, h.ordered⟩, ?_, ?_⟩, ?_⟩
  · intro d hd
    rcases List.mem_cons.mp hd with rfl | hd
    · refine ⟨c, (hm _).trans (if_pos rfl), fun name => (hans name).trans ?_⟩
      cases sup with
      | none => rfl
      | some i =>
        obtain ⟨c', hc'⟩ := hsuper rfl
        simp [Option.bind_some, Table.get?, hk (Heap.lt_of_classAt? hc')]
    · obtain ⟨c', hc', hans'⟩ := h.answers hd
      refine ⟨c', (hk (hold hd)).trans hc', fun name => (hans' name).trans ?_⟩
      cases hs : d.superclass with
      | none => rfl
      | some i =>
        have hlt := Nat.lt_trans (h.superclass hd hs).1 (hold hd)
        simp [Option.bind_some, hk hlt]
  · intro d i hd hi
    rcases List.mem_cons.mp hd with rfl | hd
    · obtain ⟨c', hc'⟩ := hsuper hi
      obtain ⟨e, he, heq⟩ := h.classes hc'
      exact ⟨Heap.lt_of_classAt? hc', e, List.mem_cons_of_mem _ he, heq⟩
    · obtain ⟨hlt, e, he, heq⟩ := h.superclass hd hi
      exact ⟨hlt, e, List.mem_cons_of_mem _ he, heq⟩
  · intro i c' hc'
    rw [hm] at hc'
    split at hc'
    · next heq => exact ⟨_, List.mem_cons_self, heq.symm⟩
    · obtain ⟨d, hd, heq⟩ := h.classes hc'
      exact ⟨d, List.mem_cons_of_mem _ hd, heq⟩

theorem Accounts.addMethod (h : Accounts (last :: older) heap) {name : Symbol} {method : Word}
    (ha : ∀ i, heap'.classAt? i =
      if i = last.made then (heap.classAt? last.made).map (·.addMethod name method)
      else heap.classAt? i) : Accounts (attach name method (last :: older)) heap' := by
  have hk : ∀ {i}, i < last.made → heap'.classAt? i = heap.classAt? i :=
    fun hi => (ha _).trans (if_neg (Nat.ne_of_lt hi))
  have holder := (List.pairwise_cons.mp h.ordered).1
  have hmem : ∀ {i}, (∃ e ∈ last :: older, e.made = i) →
      ∃ e ∈ attach name method (last :: older), e.made = i := by
    rintro i ⟨e, he, heq⟩
    rcases List.mem_cons.mp he with rfl | he
    · exact ⟨_, List.mem_cons_self, heq⟩
    · exact ⟨e, List.mem_cons_of_mem _ he, heq⟩
  have hsuper : ∀ {d}, d ∈ last :: older → ∀ {other}, (d.superclass.bind fun i =>
      (heap.classAt? i).bind (·.method? other)) = d.superclass.bind fun i =>
        (heap'.classAt? i).bind (·.method? other) := by
    intro d hd other
    cases hs : d.superclass with
    | none => rfl
    | some i =>
      have hlt := (h.superclass hd hs).1
      have hle : d.made ≤ last.made := by
        rcases List.mem_cons.mp hd with rfl | hd
        · exact Nat.le_refl _
        · exact Nat.le_of_lt (holder d hd)
      simp [Option.bind_some, hk (Nat.lt_of_lt_of_le hlt hle)]
  refine ⟨⟨List.pairwise_cons.mpr ⟨holder, (List.pairwise_cons.mp h.ordered).2⟩, ?_, ?_⟩, ?_⟩
  · intro d hd
    rcases List.mem_cons.mp hd with rfl | hd
    · obtain ⟨c, hc, hans⟩ := h.answers List.mem_cons_self
      refine ⟨c.addMethod name method, ?_, fun other => ?_⟩
      · rw [ha, if_pos rfl, hc]
        rfl
      · rw [← hsuper List.mem_cons_self]
        simp only [Class.method?, Class.addMethod, Table.get?_insert]
        split
        · rfl
        · exact hans other
    · obtain ⟨c, hc, hans⟩ := h.answers (List.mem_cons_of_mem _ hd)
      refine ⟨c, (hk (holder d hd)).trans hc, fun other => ?_⟩
      rw [hans, hsuper (List.mem_cons_of_mem _ hd)]
  · intro d i hd hi
    rcases List.mem_cons.mp hd with rfl | hd
    · obtain ⟨hlt, he⟩ := h.superclass List.mem_cons_self hi
      exact ⟨hlt, hmem he⟩
    · obtain ⟨hlt, he⟩ := h.superclass (List.mem_cons_of_mem _ hd) hi
      exact ⟨hlt, hmem he⟩
  · intro i c hc
    rw [ha] at hc
    split at hc
    · next heq => exact ⟨_, List.mem_cons_self, heq.symm⟩
    · exact hmem (h.classes hc)

theorem Accounts.act (h : history.Accounts s.heap) (hl : s.Laid)
    (hs : s.heap.Sound .any) (a : Act) (hlast : ∀ {target name method},
      a = .addMethod target name method → ∃ last older, history = last :: older ∧
        target = .ofIndex last.made ∧ s.heap.HasClass last.made) :
    (a.record s history).Accounts (a.apply s).heap := by
  cases a.change hl hs with
  | none _ hrec hsame =>
    rw [hrec]
    exact h.congr hsame
  | made _ hrec hsuper hans hcla =>
    rw [hrec]
    exact h.newClass hsuper hans hcla
  | attached heq =>
    obtain ⟨last, older, rfl, rfl, hcls⟩ := hlast heq
    subst heq
    exact h.addMethod (Act.classAt?_addMethod hcls)

end History

/-! ## §4 Runs -/

def Heap.Attached (M : Symbol → CodeUnit → Nat → Prop) (heap : Heap) : Prop :=
  ∀ {i c name w}, heap.classAt? i = some c → c.method? name = some w →
    ∃ k unit d, heap.deref? w = some (.closure k) ∧ k.entry = .compiled unit d ∧ M name unit d

structure Machine.Recounted (M : Symbol → CodeUnit → Nat → Prop) (latest : Option Nat)
    (history : History) (m : Machine) : Prop where
  sectioned : m.Sectioned M latest
  accounts : history.Accounts m.store.heap
  last : ∀ {index}, latest = some index → ∃ last older, history = last :: older ∧ last.made = index
  methods : m.store.heap.Attached M

/-- The history after some steps of a run. -/
def Machine.recount (host : Host) : Nat → Machine → History → History
  | 0, _, history => history
  | n + 1, m, history => recount host n (m.step host) ((m.act host).record m.store history)

namespace Machine

variable {M : Symbol → CodeUnit → Nat → Prop} {latest : Option Nat} {history : History}
  {m : Machine} {host : Host} {name : Symbol} {i : Nat} {c : Class}

theorem recount_succ (m : Machine) (host : Host) (history : History) (n : Nat) :
    m.recount host (n + 1) history =
      ((m.run host n).act host).record (m.run host n).store (m.recount host n history) := by
  induction n generalizing m history with
  | zero => rfl
  | succ n ih =>
    have hrun : m.run host (n + 1) = (m.step host).run host n := by
      rw [Nat.add_comm, run_add, run_succ]
      rfl
    rw [hrun]
    exact ih (m.step host) ((m.act host).record m.store history)

theorem Recounted.attaches (h : m.Recounted M latest history) {target method : Word}
    (hact : m.act host = .addMethod target name method) :
    ∃ last older, history = last :: older ∧ target = .ofIndex last.made ∧
      m.store.heap.HasClass last.made := by
  obtain ⟨⟨index, hlat, rfl, hcls⟩, _⟩ := h.sectioned.attaches hact
  obtain ⟨last, older, rfl, rfl⟩ := h.last hlat
  exact ⟨last, older, rfl, rfl, hcls⟩

theorem Recounted.step_attached [host.Attached] (hl : m.store.Laid)
    (hs : m.store.heap.Sound .any) (h : m.Recounted M latest history) :
    (m.step host).store.heap.Attached M := by
  have hk : ∀ {w : Word} {k : Closure}, m.store.heap.deref? w = some (.closure k) →
      (m.step host).store.heap.deref? w = some (.closure k) :=
    fun hd => (step_evolves host m).toRetains.deref?_closure hd
  have hold : ∀ {i c name w}, m.store.heap.classAt? i = some c → c.method? name = some w →
      ∃ k unit d, (m.step host).store.heap.deref? w = some (.closure k) ∧
        k.entry = .compiled unit d ∧ M name unit d := by
    intro i c name w hc hw
    obtain ⟨k, unit, d, hd, hent, hm⟩ := h.methods hc hw
    exact ⟨k, unit, d, hk hd, hent, hm⟩
  intro i c name w hc hw
  have hc' := hc
  rw [step_store] at hc'
  cases (m.act host).change hl hs with
  | none _ _ hsame => exact hold ((hsame i).symm.trans hc') hw
  | made _ _ _ hans hcla =>
    rw [hcla] at hc'
    split at hc'
    · obtain ⟨rfl⟩ := hc'
      obtain ⟨j, _, hmth⟩ := Option.bind_eq_some_iff.mp ((hans name).symm.trans hw)
      obtain ⟨c', hsuper, hw'⟩ := Option.bind_eq_some_iff.mp hmth
      exact hold hsuper hw'
    · exact hold hc' hw
  | attached hact =>
    obtain ⟨⟨index, _, rfl, hcls⟩, k, unit, d, hd, hent, hm⟩ := h.sectioned.attaches hact
    rw [hact, Act.classAt?_addMethod hcls] at hc'
    split at hc'
    · obtain ⟨c', ha, rfl⟩ := Option.map_eq_some_iff.mp hc'
      simp only [Class.method?, Class.addMethod, Table.get?_insert] at hw
      split at hw
      · next heq =>
        obtain ⟨rfl⟩ := hw
        exact ⟨k, unit, d, hk hd, hent, heq ▸ hm⟩
      · exact hold ha hw
    · exact hold hc' hw

theorem Recounted.step [host.Attached] (hl : m.store.Laid)
    (hs : m.store.heap.Sound .any) (h : m.Recounted M latest history) :
    (m.step host).Recounted M (((m.act host).made? m.store).or latest)
      ((m.act host).record m.store history) where
  sectioned := h.sectioned.step hs
  accounts := by
    rw [step_store]
    exact h.accounts.act hl hs _ fun heq => h.attaches heq
  last {index} hidx := by
    cases (m.act host).change hl hs with
    | none hm hrec _ =>
      rw [hm] at hidx
      rw [hrec]
      exact h.last hidx
    | made hm hrec _ _ _ =>
      rw [hm] at hidx
      rw [hrec]
      exact ⟨_, history, rfl, Option.some.inj hidx⟩
    | attached hact =>
      rw [hact] at hidx ⊢
      obtain ⟨last, older, rfl, heq⟩ := h.last hidx
      exact ⟨_, older, rfl, heq⟩
  methods := h.step_attached hl hs

theorem Recounted.run [host.Attached] (hl : m.store.Laid)
    (hs : ∀ n, (m.run host n).store.heap.Sound .any) (h : m.Recounted M latest history) (n : Nat) :
    ∃ latest', (m.run host n).Recounted M latest' (m.recount host n history) := by
  induction n with
  | zero => exact ⟨latest, h⟩
  | succ n ih =>
    obtain ⟨latest', h'⟩ := ih
    rw [run_succ, recount_succ]
    exact ⟨_, h'.step (run_laid host hl n) (hs n)⟩

theorem Sectioned.between (h : m.Sectioned M latest) {sup : Option Word}
    (hact : m.act host = .newClass name sup) : m.Sectioned M none := by
  obtain ⟨index, hc, _⟩ := act_newClass hact
  obtain ⟨R, hl, hsize, hphase⟩ := h.running
  refine ⟨h.heap, ⟨R, hl, hsize, ?_⟩, h.waiting⟩
  cases hphase with
  | ending he => exact .ending he
  | outside hh => exact .outside hh
  | makes hlt hc hs hres => exact .makes hlt hc hs hres
  | making hlt hc hs hres => exact .making hlt hc hs hres
  | inside hc' | made _ _ hc' | attaching _ hc' | attached _ hc' => cases hc.symm.trans hc'
  | passing _ hp =>
    rw [hc] at hp
    exact absurd hp id

theorem Sectioned.step_classAt? [host.Attached] (hl : m.store.Laid)
    (hs : m.store.heap.Sound .any) (h : m.Sectioned M latest)
      (hc : m.store.heap.classAt? i = some c)
    (hi : latest ≠ some i) : (m.step host).store.heap.classAt? i = some c := by
  rw [step_store, ← hc]
  cases (m.act host).change hl hs with
  | none _ _ hsame => exact hsame i
  | made _ _ _ _ hcla => rw [hcla, if_neg (Nat.ne_of_lt (Heap.lt_of_classAt? hc))]
  | attached hact =>
    obtain ⟨⟨index, hlat, rfl, hcls⟩, _⟩ := h.attaches hact
    rw [hact, Act.classAt?_addMethod hcls, if_neg]
    rintro rfl
    exact hi hlat

theorem Sectioned.run_classAt? [host.Attached] (hl : m.store.Laid)
    (hs : ∀ n, (m.run host n).store.heap.Sound .any) (h : m.Sectioned M none)
    (hc : m.store.heap.classAt? i = some c) (n : Nat) :
    (m.run host n).store.heap.classAt? i = some c := by
  -- A class that was made since has a larger index.
  have hrun : ∃ latest, (m.run host n).Sectioned M latest ∧ latest ≠ some i ∧
      (m.run host n).store.heap.classAt? i = some c := by
    induction n with
    | zero => exact ⟨none, h, nofun, hc⟩
    | succ n ih =>
      obtain ⟨latest, hsec, hi, hc'⟩ := ih
      have hl' := run_laid host hl n
      rw [run_succ]
      refine ⟨_, hsec.step (hs n), ?_,
        hsec.step_classAt? hl' (hs n) hc' hi⟩
      cases ((m.run host n).act host).change hl' (hs n) with
      | none hm => rwa [hm]
      | made hm =>
        rw [hm]
        rintro ⟨⟩
        exact Nat.lt_irrefl _ (Heap.lt_of_classAt? hc')
      | attached hact => rwa [hact]
  obtain ⟨_, _, _, hc'⟩ := hrun
  exact hc'

/-- While a value is handed over, all the code that waits is sectioned. -/
theorem Phase.rest {R : Roster} {w : Word} {code : List Instr} (h : m.Phase R latest)
    (hc : m.control = .give w) (hmem : .rest code ∈ m.stack) : ∃ made, sectioned R made code := by
  have hres {v stack} : R.Resumes v stack → .rest code ∈ stack → ∃ made, sectioned R made code := by
    rintro ⟨_, _, rfl, hcode, hb⟩ hmem
    cases hmem with
    | head => exact ⟨_, hcode⟩
    | tail _ hmem => exact ⟨none, hb _ hmem⟩
  cases h with
  | ending hend => rcases hend with ⟨_, hend⟩ | ⟨_, hend⟩ <;> cases hc.symm.trans hend
  | outside hh => exact ⟨none, Fragment.covers_nil.mp hh.1 _ hmem⟩
  | inside hrun | makes _ hrun | making _ hrun | attaching _ hrun => cases hc.symm.trans hrun
  | made _ _ _ _ hs hr | attached _ _ _ _ _ hs hr => exact hres hr (by simpa [hs] using hmem)
  | passing _ _ ht hs hr =>
    rcases List.mem_append.mp (hs ▸ hmem) with hmem | hmem
    · exact absurd (ht _ hmem) id
    · exact hres hr hmem

theorem superclass_operand {M : Symbol → CodeUnit → Nat → Prop} {w : Word} {u v : Nat}
    {rest : List Instr} {below : List Pending} (h : m.Sectioned M latest) (hc : m.control = .give w)
    (hs : m.stack = .assignVariable u :: .discard ::
      .rest (.evaluate (.assignVariable v (.newClass name (some u))) :: rest) :: below) :
    (m.run host 5).act host = .newClass name (some w) := by
  have hu : u < m.frame.locals.size := by
    obtain ⟨R, _, hsize, hp⟩ := h.running
    obtain ⟨_, hcode⟩ := hp.rest hc (by rw [hs]; exact .tail _ (.tail _ (.head _)))
    exact hsize ▸ hcode.superclass_lt
  have ha : m.step host = { m with
      frame := m.frame.setVariable u w
      stack := .discard ::
        .rest (.evaluate (.assignVariable v (.newClass name (some u))) :: rest) :: below }.give w :=
    step_give_cons hc hs
  have hrun : m.run host 5 = ((((m.step host).step host).step host).step host).step host := by
    rw [run_succ, run_succ, run_succ, run_succ, run_succ]
    rfl
  rw [hrun, ha]
  simp [give, step, receive, next, resume, exec, evalFor, eval, act, evalAct,
    Frame.value_setVariable, hu]

end Machine

/-! ## §5 Lookups -/

/-- Wherever a program or the machine looks for a method of a class, `find` says
what is found. -/
structure Store.Resolves (find : Symbol → Nat → Option Word) (s : Store) : Prop where
  property : ∀ {object index i name}, s.heap.instance? object = some (index, i) →
    s.shapes.slot? i.shape name = none → ∀ site, s.getProperty object name site =
      match find name i.classHandle.index with
      | some method => (s.modifySite site .miss).bind object method
      | none => (.error (s.undefinedProperty name), s.modifySite site .miss)
  super : ∀ {sup c}, s.heap.deref? sup = some (.ofClass c) → ∀ receiver name,
    s.getSuper sup receiver name =
      match find name sup.objectIndex with
      | some method => s.bind receiver method
      | none => (.error (s.undefinedProperty name), s)
  initializer : ∀ {callee c}, s.heap.deref? callee = some (.ofClass c) → ∀ count,
    s.prepareCall callee count =
      if (find s.initializer callee.objectIndex).isNone && count != 0 then
        (.error (.arity 0 count), s)
      else
        match s.alloc (.ofInstance { classHandle := ⟨callee.payload⟩ }) with
        | (.error e, s') => (.error e, s')
        | (.ok created, s') =>
          match find s.initializer callee.objectIndex with
          | some method => (s'.bindCall method created count, s')
          | none => (.ok ⟨.construct, callee, created⟩, s')

theorem History.Accounts.resolves {history : History} (h : history.Accounts s.heap)
    (hsound : s.heap.Sound .any) : s.Resolves history.walk where
  property := by
    intro object index i name hins hs site
    obtain ⟨hderef, _⟩ := Heap.instance?_eq_some hins
    obtain ⟨⟨c, hget⟩, _⟩ := hsound.deref? hderef
    have hcls : s.heap.class? i.classHandle = some c := by rw [Heap.class?, hget]
    have hw := h.walk_eq name i.classHandle.index
    rw [Heap.classAt?_of_class? hcls, Option.bind_some] at hw
    have hh : (s.modifySite site .miss).heap = s.heap := rfl
    have hsha : (s.modifySite site .miss).shapes = s.shapes := rfl
    unfold Store.getProperty
    rw [← hw]
    cases hm : c.method? name with
    | some method => simp [hh, hsha, hins, hs, hcls, hm]
    | none =>
      simp only [hh, hsha, hins, hs, hcls, Option.bind_some, hm]
      rfl
  super := by
    intro sup c hd receiver name
    have hw := h.walk_eq name sup.objectIndex
    rw [Heap.classAt?_of_deref? hd, Option.bind_some] at hw
    unfold Store.getSuper
    rw [← hw]
    cases hm : c.method? name <;> simp [hd, hm]
  initializer := by
    intro callee c hd count
    have hw := h.walk_eq s.initializer callee.objectIndex
    rw [Heap.classAt?_of_deref? hd, Option.bind_some] at hw
    unfold Store.prepareCall Store.prepareConstruction
    rw [← hw]
    cases hm : c.method? s.initializer <;>
      rcases s.alloc_cases (.ofInstance { classHandle := ⟨callee.payload⟩ }) with
        ⟨_, ha⟩ | ⟨_, ha⟩ <;> simp [hd, hm, ha]

end ScriptMachine
