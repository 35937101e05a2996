/-
ScriptMachine.Proofs.Layouts — a shape is its layout.
-/
import ScriptMachine.Shapes
import Mathlib.Data.List.Induction

namespace ScriptMachine.Shapes

variable {shapes : Shapes} {k : ShapeId}

/-- A layout with a field added, which is the layout itself if the field
is part of it. -/
def withField (fields : List Symbol) (field : Symbol) : List Symbol :=
  if field ∈ fields then fields else fields ++ [field]

/-- Two records of a shape that differ at most in the children tried. -/
def SameLayout (a b : Shape) : Prop :=
  a.parent = b.parent ∧ a.added = b.added ∧ a.fields = b.fields ∧ a.slots = b.slots

def grow (shapes : Shapes) (id : ShapeId) (field : Symbol) : Shapes :=
  { nodes := (shapes.nodes.modify id fun n =>
      { n with children := n.children.insert field shapes.size }).push
        { parent := some id
          added := some field
          fields := (shapes.shape id).fields ++ [field]
          slots := (shapes.shape id).slots.insert field (shapes.shape id).fields.length } }

theorem extend_cases (shapes : Shapes) (id : ShapeId) (field : Symbol) :
    ((shapes.slot? id field).isSome ∧ shapes.extend id field = (id, shapes)) ∨
    (shapes.slot? id field = none ∧
      ((∃ child, (shapes.shape id).children.get? field = some child ∧
          shapes.extend id field = (child, shapes)) ∨
        ((shapes.shape id).children.get? field = none ∧
          shapes.extend id field = (shapes.size, shapes.grow id field)))) := by
  unfold slot? extend
  cases hs : (shapes.shape id).slots.get? field with
  | some slot => simp [hs]
  | none =>
    cases hc : (shapes.shape id).children.get? field with
    | some child => simp [hs, hc]
    | none => simp [hs, hc, grow]

@[simp] theorem size_grow (shapes : Shapes) (id : ShapeId) (field : Symbol) :
    (shapes.grow id field).size = shapes.size + 1 := by
  simp [grow, size]

theorem shape_grow_new (shapes : Shapes) (id : ShapeId) (field : Symbol) :
    (shapes.grow id field).shape shapes.size =
      { parent := some id
        added := some field
        fields := shapes.fields id ++ [field]
        slots := (shapes.shape id).slots.insert field (shapes.fields id).length } := by
  simp [grow, shape, size, fields, Array.getElem_push]

theorem shape_grow_old (id : ShapeId) (field : Symbol) (hk : k < shapes.size) :
    (shapes.grow id field).shape k =
      if k = id then
        { shapes.shape k with children := (shapes.shape k).children.insert field shapes.size }
      else shapes.shape k := by
  have hne : k ≠ shapes.nodes.size := Nat.ne_of_lt hk
  have hk' : k < shapes.nodes.size := hk
  by_cases h : k = id
  · subst h
    simp [grow, shape, Array.getElem?_push, Array.getElem_modify, hne, hk']
  · simp [grow, shape, Array.getElem?_push, Array.getElem?_modify, hne, h, Ne.symm h]

theorem shape_of_size_le (hk : shapes.size ≤ k) : shapes.shape k = {} := by
  have : shapes.nodes[k]? = none := Array.getElem?_eq_none hk
  simp [shape, this]

theorem sameLayout_grow (id : ShapeId) (field : Symbol) (hk : k < shapes.size) :
    SameLayout (shapes.shape k) ((shapes.grow id field).shape k) := by
  rw [shape_grow_old id field hk]
  split <;> exact ⟨rfl, rfl, rfl, rfl⟩

theorem fields_grow_old (id : ShapeId) (field : Symbol) (hk : k < shapes.size) :
    (shapes.grow id field).fields k = shapes.fields k :=
  (sameLayout_grow id field hk).2.2.1.symm

theorem fields_grow_new (shapes : Shapes) (id : ShapeId) (field : Symbol) :
    (shapes.grow id field).fields shapes.size = shapes.fields id ++ [field] := by
  rw [fields, shape_grow_new]

theorem sameLayout_extend (id : ShapeId) (field : Symbol) (hk : k < shapes.size) :
    SameLayout (shapes.shape k) ((shapes.extend id field).2.shape k) := by
  rcases extend_cases shapes id field with ⟨_, h⟩ | ⟨_, ⟨_, _, h⟩ | ⟨_, h⟩⟩ <;> rw [h]
  · exact ⟨rfl, rfl, rfl, rfl⟩
  · exact ⟨rfl, rfl, rfl, rfl⟩
  · exact sameLayout_grow id field hk

theorem size_le_extend (shapes : Shapes) (id : ShapeId) (field : Symbol) :
    shapes.size ≤ (shapes.extend id field).2.size := by
  rcases extend_cases shapes id field with ⟨_, h⟩ | ⟨_, ⟨_, _, h⟩ | ⟨_, h⟩⟩ <;> simp [h]

/-- Trees made by calls of `extend` on shapes they hold. -/
inductive Reachable : Shapes → Prop
  | initial : Reachable {}
  | extend {shapes : Shapes} {id : ShapeId} (field : Symbol) :
      Reachable shapes → id < shapes.size → Reachable (shapes.extend id field).2

/-- Parents, children, field lists and slots fit together. -/
structure Linked (shapes : Shapes) : Prop where
  root_lt : root < shapes.size
  fields_root : shapes.fields root = []
  parent_root : (shapes.shape root).parent = none
  nodup : ∀ id, (shapes.fields id).Nodup
  slot_eq : ∀ id field, shapes.slot? id field = (shapes.fields id).idxOf? field
  parent : ∀ id, id < shapes.size → id ≠ root → ∃ parent added,
    (shapes.shape id).parent = some parent ∧ (shapes.shape id).added = some added ∧
      parent < id ∧ shapes.fields id = shapes.fields parent ++ [added]
  child_iff : ∀ id field child, (shapes.shape id).children.get? field = some child ↔
    child < shapes.size ∧ (shapes.shape child).parent = some id ∧
      (shapes.shape child).added = some field

theorem linked_initial : Linked {} := by
  have hs : ∀ id, ({} : Shapes).shape id = {} := by
    intro id
    cases id with
    | zero => rfl
    | succ n => exact shape_of_size_le (by simp [size])
  refine ⟨by decide, rfl, rfl, ?_, ?_, ?_, ?_⟩
  · intro id
    simp [fields, hs]
  · intro id field
    simp [slot?, fields, hs, Table.get?]
  · intro id hid hne
    exact absurd (Nat.lt_one_iff.mp hid) hne
  · intro id field child
    simp [hs, Table.get?]

namespace Linked

variable {shapes : Shapes} {id : ShapeId} {field : Symbol}

theorem slot?_isSome (h : Linked shapes) : (shapes.slot? id field).isSome ↔
    field ∈ shapes.fields id := by
  rw [h.slot_eq]
  simp

theorem slot?_eq_none (h : Linked shapes) : shapes.slot? id field = none ↔
    field ∉ shapes.fields id := by
  rw [h.slot_eq]
  simp

theorem idxOf?_append_singleton (fields : List Symbol) (f g : Symbol) (hf : f ∉ fields) :
    (fields ++ [f]).idxOf? g = if f = g then some fields.length else fields.idxOf? g := by
  by_cases hg : g ∈ fields
  · have hne : f ≠ g := fun h => hf (h ▸ hg)
    have hs : (fields.idxOf? g).isSome := by simpa using hg
    obtain ⟨n, hn⟩ := Option.isSome_iff_exists.mp hs
    simp [List.idxOf?, List.findIdx?_append, hne] at hn ⊢
  · have hnone : fields.findIdx? (· == g) = none := by
      rw [← List.idxOf?.eq_1, List.idxOf?_eq_none_iff]
      exact hg
    by_cases hfg : f = g
    · simp [List.idxOf?, hnone]
    · simp [List.idxOf?, hfg]

variable (h : Linked shapes) (hid : id < shapes.size)

include h hid

theorem child_iff_grow
    (hchild : (shapes.shape id).children.get? field = none) (k : ShapeId) (g : Symbol)
    (child : ShapeId) : ((shapes.grow id field).shape k).children.get? g = some child ↔
      child < (shapes.grow id field).size ∧
        ((shapes.grow id field).shape child).parent = some k ∧
          ((shapes.grow id field).shape child).added = some g := by
  have hold : ∀ c, c < shapes.size →
      (((shapes.grow id field).shape c).parent = some k ∧
        ((shapes.grow id field).shape c).added = some g ↔
          (shapes.shape k).children.get? g = some c) := by
    intro c hc
    obtain ⟨hp, ha, _⟩ := sameLayout_grow id field hc
    rw [← hp, ← ha, h.child_iff k g c]
    simp [hc]
  have hnew : ((shapes.grow id field).shape shapes.size).parent = some k ∧
      ((shapes.grow id field).shape shapes.size).added = some g ↔ id = k ∧ field = g := by
    simp [shape_grow_new]
  have hs : child < (shapes.grow id field).size ∧
      ((shapes.grow id field).shape child).parent = some k ∧
        ((shapes.grow id field).shape child).added = some g ↔
      (child < shapes.size ∧ (shapes.shape k).children.get? g = some child) ∨
        (child = shapes.size ∧ id = k ∧ field = g) := by
    rcases Nat.lt_trichotomy child shapes.size with hc | rfl | hc
    · simp [hold child hc, hc, Nat.lt_succ_of_lt hc, Nat.ne_of_lt hc]
    · simp [hnew]
    · have hge : ¬child < shapes.size + 1 := Nat.not_lt.mpr hc
      simp [hge, Nat.not_lt.mpr (Nat.le_of_lt hc), Nat.ne_of_gt hc]
  have hlt : ∀ {f c}, (shapes.shape k).children.get? f = some c → c < shapes.size :=
    fun hc => ((h.child_iff k _ _).mp hc).1
  rw [hs]
  rcases Nat.lt_trichotomy k shapes.size with hk | rfl | hk
  · rw [shape_grow_old id field hk]
    by_cases hkid : k = id
    · subst hkid
      rw [if_pos rfl, Table.get?_insert]
      by_cases hg : field = g
      · subst hg
        simp [hchild, eq_comm]
      · simp only [hg, if_false, and_false, or_false]
        exact ⟨fun hc => ⟨hlt hc, hc⟩, fun hc => hc.2⟩
    · simp only [hkid, Ne.symm hkid, if_false, false_and, and_false, or_false]
      exact ⟨fun hc => ⟨hlt hc, hc⟩, fun hc => hc.2⟩
  · simp [shape_grow_new, shape_of_size_le (Nat.le_refl shapes.size), Table.get?,
      Nat.ne_of_lt hid]
  · have h1 : (shapes.grow id field).shape k = {} :=
      shape_of_size_le (by rw [size_grow]; exact hk)
    simp [h1, shape_of_size_le (Nat.le_of_lt hk), Table.get?,
      Nat.ne_of_lt (Nat.lt_trans hid hk)]

theorem grow (hfield : field ∉ shapes.fields id)
    (hc : (shapes.shape id).children.get? field = none) : Linked (shapes.grow id field) := by
  have hr : root < shapes.size := h.root_lt
  refine ⟨?_, ?_, ?_, ?_, ?_, ?_, ?_⟩
  · rw [size_grow]
    exact Nat.lt_succ_of_lt hr
  · rw [fields_grow_old id field hr, h.fields_root]
  · rw [← (sameLayout_grow id field hr).1, h.parent_root]
  · intro k
    rcases Nat.lt_trichotomy k shapes.size with hk | rfl | hk
    · rw [fields_grow_old id field hk]
      exact h.nodup k
    · rw [fields_grow_new, List.nodup_append]
      exact ⟨h.nodup id, by simp, fun a ha b hb => by simp_all; rintro rfl; exact hfield ha⟩
    · rw [fields, shape_of_size_le (by rw [size_grow]; exact hk)]
      exact List.nodup_nil
  · intro k g
    rcases Nat.lt_trichotomy k shapes.size with hk | rfl | hk
    · rw [fields_grow_old id field hk, slot?, ← (sameLayout_grow id field hk).2.2.2]
      exact h.slot_eq k g
    · rw [fields_grow_new, slot?, shape_grow_new, Table.get?_insert,
        idxOf?_append_singleton _ _ _ hfield]
      have := h.slot_eq id g
      rw [slot?] at this
      rw [this]
    · rw [fields, slot?, shape_of_size_le (by rw [size_grow]; exact hk)]
      rfl
  · intro k hk hne
    rw [size_grow] at hk
    rcases Nat.lt_succ_iff_lt_or_eq.mp hk with hk | rfl
    · obtain ⟨p, f, hp, hf, hlt, hfs⟩ := h.parent k hk hne
      have hs := sameLayout_grow id field hk
      refine ⟨p, f, by rw [← hs.1, hp], by rw [← hs.2.1, hf], hlt, ?_⟩
      rw [fields_grow_old id field hk, fields_grow_old id field (Nat.lt_trans hlt hk), hfs]
    · refine ⟨id, field, by rw [shape_grow_new], by rw [shape_grow_new], hid, ?_⟩
      rw [fields_grow_new, fields_grow_old id field hid]
  · intro k g child
    exact h.child_iff_grow hid hc k g child

theorem extend (field : Symbol) : Linked (shapes.extend id field).2 := by
  rcases extend_cases shapes id field with ⟨_, hx⟩ | ⟨hs, ⟨_, _, hx⟩ | ⟨hc, hx⟩⟩ <;> rw [hx]
  · exact h
  · exact h
  · exact h.grow hid (h.slot?_eq_none.mp hs) hc

end Linked

theorem Reachable.linked (h : Reachable shapes) : Linked shapes := by
  induction h with
  | initial => exact linked_initial
  | extend field _ hid ih => exact ih.extend hid field

namespace Linked

variable {shapes : Shapes} {id : ShapeId} {field : Symbol}

theorem eq_of_fields_eq (h : Linked shapes) {a b : ShapeId} (ha : a < shapes.size)
    (hb : b < shapes.size) (heq : shapes.fields a = shapes.fields b) : a = b := by
  induction hl : shapes.fields a using List.reverseRecOn generalizing a b with
  | nil =>
    have hr : ∀ c, c < shapes.size → shapes.fields c = [] → c = root := by
      intro c hc hnil
      by_contra hne
      obtain ⟨p, f, _, _, _, hfs⟩ := h.parent c hc hne
      simp [hnil] at hfs
    rw [hr a ha hl, hr b hb (heq ▸ hl)]
  | append_singleton fields f ih =>
    have hne : ∀ c, shapes.fields c = fields ++ [f] → c ≠ root := by
      rintro c hc rfl
      simp [h.fields_root] at hc
    obtain ⟨p, x, hp, hx, hplt, hpf⟩ := h.parent a ha (hne a hl)
    obtain ⟨q, y, hq, hy, hqlt, hqf⟩ := h.parent b hb (hne b (heq ▸ hl))
    obtain ⟨hpq, hxy⟩ : shapes.fields p = shapes.fields q ∧ x = y := by
      simpa [hpf, hqf] using heq
    have hpfi : shapes.fields p = fields := by
      rw [hpf] at hl
      exact (List.append_inj' hl rfl).1
    obtain rfl : p = q := ih (Nat.lt_trans hplt ha) (Nat.lt_trans hqlt hb) hpq hpfi
    have hca := (h.child_iff p x a).mpr ⟨ha, hp, hx⟩
    have hcb := (h.child_iff p x b).mpr ⟨hb, hq, hxy ▸ hy⟩
    exact Option.some.inj (hca.symm.trans hcb)

theorem extend_spec (h : Linked shapes) (hid : id < shapes.size) (field : Symbol) :
    (shapes.extend id field).1 < (shapes.extend id field).2.size ∧
      (shapes.extend id field).2.fields (shapes.extend id field).1 =
        withField (shapes.fields id) field := by
  rcases extend_cases shapes id field with ⟨hs, hx⟩ | ⟨hs, ⟨child, hc, hx⟩ | ⟨hc, hx⟩⟩
  · rw [hx, withField, if_pos (h.slot?_isSome.mp hs)]
    exact ⟨hid, rfl⟩
  · obtain ⟨hlt, hp, hf⟩ := (h.child_iff id field child).mp hc
    have hne : child ≠ root := by
      rintro rfl
      simp [h.parent_root] at hp
    obtain ⟨p, f, hp', hf', _, hfs⟩ := h.parent child hlt hne
    obtain rfl : p = id := by simpa [hp'] using hp
    obtain rfl : f = field := by simpa [hf'] using hf
    rw [hx, withField, if_neg (h.slot?_eq_none.mp hs)]
    exact ⟨hlt, hfs⟩
  · rw [hx, withField, if_neg (h.slot?_eq_none.mp hs)]
    refine ⟨by rw [size_grow]; exact Nat.lt_succ_self _, fields_grow_new shapes id field⟩

theorem size_extend_eq_succ_iff (h : Linked shapes) (hid : id < shapes.size) (field : Symbol) :
    (shapes.extend id field).2.size = shapes.size + 1 ↔
      ∀ k < shapes.size, shapes.fields k ≠ withField (shapes.fields id) field := by
  obtain ⟨hlt, hs⟩ := h.extend_spec hid field
  constructor
  · intro hsize k hk heq
    have hn := h.extend hid field
    have hk' : k < (shapes.extend id field).2.size := by omega
    have hf : (shapes.extend id field).2.fields k = shapes.fields k :=
      (sameLayout_extend id field hk).2.2.1.symm
    -- The shape with that layout is the one `extend` returns, and a new one is no old one.
    have hret : k = (shapes.extend id field).1 :=
      hn.eq_of_fields_eq hk' hlt (by rw [hf, heq, hs])
    rcases extend_cases shapes id field with ⟨_, hx⟩ | ⟨_, ⟨_, _, hx⟩ | ⟨_, hx⟩⟩
    · simp [hx] at hsize
    · simp [hx] at hsize
    · rw [hx] at hret
      exact absurd hret (Nat.ne_of_lt hk)
  · intro hnew
    rcases extend_cases shapes id field with ⟨_, hx⟩ | ⟨_, ⟨_, _, hx⟩ | ⟨_, hx⟩⟩
    · rw [hx] at hs
      exact absurd hs (hnew _ hid)
    · rw [hx] at hs hlt
      exact absurd hs (hnew _ hlt)
    · rw [hx, size_grow]

theorem size_extend_le (shapes : Shapes) (id : ShapeId) (field : Symbol) :
    (shapes.extend id field).2.size ≤ shapes.size + 1 := by
  rcases extend_cases shapes id field with ⟨_, hx⟩ | ⟨_, ⟨_, _, hx⟩ | ⟨_, hx⟩⟩ <;> simp [hx]

end Linked

/-- `Trail shapes id path after last`: starting from `id`, the fields of
`path` were added one by one and led to `last`; in between, any steps
were taken elsewhere in the tree. -/
inductive Trail : Shapes → ShapeId → List Symbol → Shapes → ShapeId → Prop
  | done (shapes : Shapes) (id : ShapeId) : Trail shapes id [] shapes id
  | follow {shapes : Shapes} {id : ShapeId} {field : Symbol} {path : List Symbol}
      {after : Shapes} {last : ShapeId} :
      Trail (shapes.extend id field).2 (shapes.extend id field).1 path after last →
        Trail shapes id (field :: path) after last
  | elsewhere {shapes : Shapes} {id other : ShapeId} {field : Symbol} {path : List Symbol}
      {after : Shapes} {last : ShapeId} :
      other < shapes.size → Trail (shapes.extend other field).2 id path after last →
        Trail shapes id path after last

theorem Trail.fields_last {after : Shapes} {id last : ShapeId} {path : List Symbol}
    (ht : Trail shapes id path after last) (h : Linked shapes) (hid : id < shapes.size) :
    last < after.size ∧ after.fields last = path.foldl withField (shapes.fields id) := by
  induction ht with
  | done => exact ⟨hid, rfl⟩
  | @follow shapes id field path after last _ ih =>
    obtain ⟨hlt, hs⟩ := h.extend_spec hid field
    have := ih (h.extend hid field) hlt
    rwa [hs] at this
  | @elsewhere shapes id other field path after last ho _ ih =>
    have hle := size_le_extend shapes other field
    have hf : (shapes.extend other field).2.fields id = shapes.fields id :=
      (sameLayout_extend other field hid).2.2.1.symm
    have := ih (h.extend ho field) (Nat.lt_of_lt_of_le hid hle)
    rwa [hf] at this

theorem foldl_withField (fields path : List Symbol) :
    path.foldl withField fields = fields ++ (path.filter (· ∉ fields)).eraseDups := by
  induction path generalizing fields with
  | nil => simp
  | cons f path ih =>
    rw [List.foldl_cons, ih, withField]
    by_cases hf : f ∈ fields
    · simp [hf]
    · have hfil : path.filter (· ∉ fields ++ [f]) =
          (path.filter (· ∉ fields)).filter (fun g => !g == f) := by
        rw [List.filter_filter]
        apply List.filter_congr
        intro g _
        by_cases hgf : g = f <;> simp [hgf]
      rw [if_neg hf, hfil, List.filter_cons_of_pos (by simpa using hf), List.eraseDups_cons,
        List.append_assoc, List.singleton_append]

/-- **A shape is its layout.** In every reachable tree: the slots of a
shape are the positions of its fields, which are those of its parent and
one more; shapes with the same fields in the same order are one shape;
adding fields one by one from the root leads to the shape of those
fields, whatever steps are taken before or in between; and a step changes
no shape there is, and makes one exactly when its layout is new. -/
theorem shape_eq_layout {shapes : Shapes} (h : Reachable shapes) :
    (∀ id < shapes.size, (shapes.fields id).Nodup ∧
      (∀ field, shapes.slot? id field = (shapes.fields id).idxOf? field) ∧
      (id ≠ root → ∃ parent < shapes.size, ∃ added, (shapes.shape id).parent = some parent ∧
        (shapes.shape id).added = some added ∧
        shapes.fields id = shapes.fields parent ++ [added])) ∧
    (∀ a < shapes.size, ∀ b < shapes.size, a = b ↔ shapes.fields a = shapes.fields b) ∧
    (∀ path after last, Trail shapes root path after last →
      last < after.size ∧ after.fields last = path.eraseDups) ∧
    (∀ id < shapes.size, ∀ field,
      (∀ k < shapes.size, SameLayout (shapes.shape k) ((shapes.extend id field).2.shape k)) ∧
      (shapes.extend id field).2.size ≤ shapes.size + 1 ∧
      ((shapes.extend id field).2.size = shapes.size + 1 ↔
        ∀ k < shapes.size, shapes.fields k ≠ withField (shapes.fields id) field)) := by
  have hl := h.linked
  refine ⟨?_, ?_, ?_, ?_⟩
  · intro id hid
    refine ⟨hl.nodup id, hl.slot_eq id, fun hne => ?_⟩
    obtain ⟨p, f, hp, hf, hlt, hfs⟩ := hl.parent id hid hne
    exact ⟨p, Nat.lt_trans hlt hid, f, hp, hf, hfs⟩
  · intro a ha b hb
    exact ⟨fun heq => heq ▸ rfl, hl.eq_of_fields_eq ha hb⟩
  · intro path after last ht
    obtain ⟨hlt, hfs⟩ := ht.fields_last hl hl.root_lt
    have hall : path.filter (· ∉ ([] : List Symbol)) = path := List.filter_eq_self.mpr (by simp)
    rw [hl.fields_root, foldl_withField, hall, List.nil_append] at hfs
    exact ⟨hlt, hfs⟩
  · intro id hid field
    exact ⟨fun k hk => sameLayout_extend id field hk, Linked.size_extend_le shapes id field,
      hl.size_extend_eq_succ_iff hid field⟩

/-- In the tree with the layouts `[]`, `[7]` and `[8, 7]` on the way, the
path `7, 8, 7` ends in a new shape with the layout `[7, 8]`. -/
theorem shape_eq_layout_seven_eight :
    let shapes := ((({} : Shapes).extend root 8).2.extend 1 7).2
    let first := shapes.extend root 7
    let second := first.2.extend first.1 8
    let third := second.2.extend second.1 7
    Reachable shapes ∧ Trail shapes root [7, 8, 7] third.2 third.1 ∧
      third.2.size = 5 ∧ third.2.fields third.1 = [7, 8] := by
  have h : Reachable ((({} : Shapes).extend root 8).2.extend 1 7).2 :=
    .extend 7 (.extend 8 .initial (by decide)) (by decide)
  have ht := Trail.follow (.follow (.follow (.done
    (((((({} : Shapes).extend root 8).2.extend 1 7).2.extend root 7).2.extend 3 8).2.extend 4 7).2
    4)))
  exact ⟨h, ht, by decide, ((shape_eq_layout h).2.2.1 _ _ _ ht).2.trans (by decide)⟩

end ScriptMachine.Shapes
