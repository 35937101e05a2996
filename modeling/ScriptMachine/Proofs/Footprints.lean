/-
ScriptMachine.Proofs.Footprints — what the operations of a store write.
-/
import ScriptMachine.Proofs.Evolution
import ScriptMachine.Proofs.Lowers.Outcomes

namespace ScriptMachine

variable {shapes : Shapes} {i : Instance}

/-- What is written to an object. -/
inductive Write where
  | cell (value : Word)
  | field (name : Symbol) (value : Word)
  | slot (index : Nat) (value : Word)
  | method (name : Symbol) (value : Word)

/-- An object before and after a write, with the layouts there were before and
after. No other object is ever written. -/
inductive Object.Written (before after : Shapes) : Write → Object → Object → Prop
  | cell (v w : Word) : Written before after (.cell w) (.cell v) (.cell w)
  | field {i i' : Instance} {name : Symbol} {w : Word} : i'.classHandle = i.classHandle →
      after.fields i'.shape = Shapes.withField (before.fields i.shape) name →
        i'.field? after name = some w →
          (∀ {other}, other ≠ name → i'.field? after other = i.field? before other) →
            Written before after (.field name w) (.ofInstance i) (.ofInstance i')
  | slot (i : Instance) (k : Nat) (w : Word) : Written before after (.slot k w) (.ofInstance i)
      (.ofInstance { i with slots := i.slots.setIfInBounds k w })
  | method (c : Class) (name : Symbol) (w : Word) :
      Written before after (.method name w) (.ofClass c) (.ofClass (c.addMethod name w))

/-- An instance has one of the layouts, and a slot for each of its fields. -/
structure Instance.Laid (shapes : Shapes) (i : Instance) : Prop where
  shape_lt : i.shape < shapes.size
  slots : i.slots.size = (shapes.fields i.shape).length

namespace Instance.Laid

variable {shapes : Shapes} {i : Instance} {name : Symbol} {slot : Nat}

theorem start (h : shapes.Linked) (handle : Handle) :
    Instance.Laid shapes { classHandle := handle } :=
  ⟨h.root_lt, by rw [h.fields_root]; rfl⟩

theorem slot_lt (h : i.Laid shapes) (hs : shapes.Linked)
    (hslot : shapes.slot? i.shape name = some slot) : slot < i.slots.size := by
  rw [hs.slot_eq] at hslot
  rw [h.slots]
  exact (List.idxOf?_eq_some_iff.mp hslot).1

theorem slot_ne (hs : shapes.Linked) {id : ShapeId} {other : Symbol}
    (hslot : shapes.slot? id name = some slot) (hne : other ≠ name) :
    shapes.slot? id other ≠ some slot := by
  intro ho
  rw [hs.slot_eq] at hslot ho
  obtain ⟨hlt, heq, _⟩ := List.idxOf?_eq_some_iff.mp hslot
  obtain ⟨_, heq', _⟩ := List.idxOf?_eq_some_iff.mp ho
  exact hne (heq'.symm.trans heq)

end Instance.Laid

/-- The layouts after some were added. -/
structure Shapes.Keeps (shapes shapes' : Shapes) : Prop where
  linked : shapes'.Linked
  size_le : shapes.size ≤ shapes'.size
  fields : ∀ {id}, id < shapes.size → shapes'.fields id = shapes.fields id

theorem Shapes.Keeps.refl (h : shapes.Linked) : shapes.Keeps shapes :=
  ⟨h, Nat.le_refl _, fun _ => rfl⟩

theorem Shapes.keeps_extend (h : shapes.Linked) {id : ShapeId} (hid : id < shapes.size)
    (field : Symbol) : shapes.Keeps (shapes.extend id field).2 where
  linked := h.extend hid field
  size_le := shapes.size_le_extend id field
  fields hk := (Shapes.sameLayout_extend id field hk).2.2.1.symm

theorem Instance.Laid.mono {shapes' : Shapes} (h : i.Laid shapes) (hk : shapes.Keeps shapes') :
    i.Laid shapes' :=
  ⟨Nat.lt_of_lt_of_le h.shape_lt hk.size_le, by rw [hk.fields h.shape_lt, h.slots]⟩

theorem Instance.setField_written (h : i.Laid shapes) (hs : shapes.Linked) (name : Symbol)
    (w : Word) :
    shapes.Keeps (i.setField shapes name w).2.2 ∧
      (i.setField shapes name w).2.1.Laid (i.setField shapes name w).2.2 ∧
      Object.Written shapes (i.setField shapes name w).2.2 (.field name w) (.ofInstance i)
        (.ofInstance (i.setField shapes name w).2.1) := by
  unfold setField
  cases hslot : shapes.slot? i.shape name with
  | some slot =>
    have hlt := h.slot_lt hs hslot
    have hmem : name ∈ shapes.fields i.shape := hs.slot?_isSome.mp (by rw [hslot]; rfl)
    refine ⟨.refl hs, ⟨h.shape_lt, ?_⟩, .field rfl ?_ ?_ ?_⟩
    · rw [← h.slots]
      exact Array.size_setIfInBounds
    · rw [Shapes.withField, if_pos hmem]
    · simp [field?, hslot, hlt]
    · intro other hne
      unfold field?
      cases ho : shapes.slot? i.shape other with
      | none => simp
      | some k =>
        have hk : slot ≠ k := by
          rintro rfl
          exact Laid.slot_ne hs hslot hne ho
        simp [hk]
  | none =>
    have hmem := hs.slot?_eq_none.mp hslot
    obtain ⟨hlt, hf⟩ := hs.extend_spec h.shape_lt name
    have hkeeps := Shapes.keeps_extend hs h.shape_lt name
    have hslots : ∀ other, (shapes.extend i.shape name).2.slot?
      (shapes.extend i.shape name).1 other =
        ((shapes.fields i.shape) ++ [name]).idxOf? other := by
      intro other
      rw [hkeeps.linked.slot_eq, hf, Shapes.withField, if_neg hmem]
    refine ⟨hkeeps, ⟨hlt, ?_⟩, .field rfl hf ?_ ?_⟩
    · rw [hf, Shapes.withField, if_neg hmem]
      simp [h.slots]
    · simp [field?, hslots, Shapes.Linked.idxOf?_append_singleton _ _ _ hmem, ← h.slots]
    · intro other hne
      unfold field?
      rw [hslots, Shapes.Linked.idxOf?_append_singleton _ _ _ hmem, if_neg hne.symm, hs.slot_eq]
      cases ho : (shapes.fields i.shape).idxOf? other with
      | none => rfl
      | some k =>
        have hk : k < i.slots.size := h.slot_lt hs ((hs.slot_eq ..).trans ho)
        simp [Array.getElem?_push, Nat.ne_of_lt hk]

/-- Every instance has a layout of the store. -/
structure Store.Laid (s : Store) : Prop where
  linked : s.shapes.Linked
  instances : ∀ {index : Nat} {i : Instance}, s.heap.objects[index]? = some (.ofInstance i) →
    i.Laid s.shapes

/-- What is written, and to the object at which index. -/
abbrev Footprint := Option (Nat × Write)

/-- At most one object is written, all others stay what they are, and no layout
changes. Objects may be added. -/
structure Store.WritesOnly (footprint : Footprint) (s s' : Store) : Prop where
  untouched : ∀ {index : Nat} {o : Object}, s.heap.objects[index]? = some o →
    (∀ w, footprint ≠ some (index, w)) → s'.heap.objects[index]? = some o
  written : ∀ {index : Nat} {w : Write}, footprint = some (index, w) →
    ∃ o o', s.heap.objects[index]? = some o ∧ s'.heap.objects[index]? = some o' ∧
      o.Written s.shapes s'.shapes w o'
  shapes : s.shapes.Keeps s'.shapes
  instances : ∀ {index : Nat} {i : Instance}, s'.heap.objects[index]? = some (.ofInstance i) →
    i.Laid s'.shapes

namespace Store.WritesOnly

variable {s s' s'' : Store} {footprint : Footprint} {o : Object}

theorem laid (h : s.WritesOnly footprint s') : s'.Laid := ⟨h.shapes.linked, h.instances⟩

theorem nothing (h : s.Laid) (hobjs : s'.heap.objects = s.heap.objects)
    (hsha : s'.shapes = s.shapes) : s.WritesOnly none s' where
  untouched ho _ := hobjs ▸ ho
  written := nofun
  shapes := by
    rw [hsha]
    exact .refl h.linked
  instances hi := hsha ▸ h.instances (hobjs ▸ hi)

theorem refl (h : s.Laid) : s.WritesOnly none s := nothing h rfl rfl

theorem congr (h : s.WritesOnly footprint s') (hobjs : s''.heap.objects = s'.heap.objects)
    (hsha : s''.shapes = s'.shapes) : s.WritesOnly footprint s'' where
  untouched ho hne := hobjs ▸ h.untouched ho hne
  written hw := by
    rw [hobjs, hsha]
    exact h.written hw
  shapes := hsha ▸ h.shapes
  instances hi := hsha ▸ h.instances (hobjs ▸ hi)

theorem after (h : s'.WritesOnly footprint s'') (hobjs : s'.heap.objects = s.heap.objects)
    (hsha : s'.shapes = s.shapes) : s.WritesOnly footprint s'' where
  untouched ho hne := h.untouched (hobjs ▸ ho) hne
  written hw := by
    rw [← hobjs, ← hsha]
    exact h.written hw
  shapes := hsha ▸ h.shapes
  instances := h.instances

theorem prepares (h : s.Laid) (hp : s.Prepares s') : s.WritesOnly none s' where
  untouched ho _ := hp.objects ho
  written := nofun
  shapes := by
    rw [hp.shapes]
    exact .refl h.linked
  instances hi := by
    rw [hp.shapes]
    rcases hp.objects_new hi with hold | ⟨t, ht⟩
    · exact h.instances hold
    · cases ht

theorem alloc (h : s.Laid) (ho : ∀ {i}, o = .ofInstance i → i.Laid s.shapes) :
    s.WritesOnly none (s.alloc o).2 := by
  rcases s.alloc_cases o with ⟨_, heq⟩ | ⟨_, heq⟩ <;> rw [heq]
  · refine ⟨fun hold _ => getElem?_push_of_some hold, nofun, .refl h.linked, fun hi => ?_⟩
    rcases getElem?_push_cases hi with hold | heq
    · exact h.instances hold
    · exact ho heq.symm
  · exact refl h

theorem put (h : s.Laid) {index : Nat} {w : Write} {o' : Object}
    (ho : s.heap.objects[index]? = some o) (hs : s.shapes.Keeps shapes)
    (hw : o.Written s.shapes shapes w o') (hl : ∀ {i}, o' = .ofInstance i → i.Laid shapes) :
    s.WritesOnly (some (index, w)) { s with shapes := shapes, heap := s.heap.put index o' } where
  untouched hold hne := by
    refine (Array.getElem?_setIfInBounds_ne ?_).trans hold
    rintro rfl
    exact hne w rfl
  written heq := by
    cases heq
    refine ⟨o, o', ho, ?_, hw⟩
    have hlt := (Array.getElem?_eq_some_iff.mp ho).1
    exact Array.getElem?_setIfInBounds_self_of_lt hlt
  shapes := hs
  instances {j i} hi := by
    rcases getElem?_setIfInBounds_cases hi with hold | ⟨_, heq⟩
    · exact (h.instances hold).mono hs
    · exact hl heq.symm

theorem report {r : Except Failure Word × Store} (h : s.WritesOnly footprint r.2) :
    s.WritesOnly footprint (Serve.report r).2 := by
  obtain ⟨_ | _, _⟩ := r
  · exact h.congr rfl rfl
  · exact h

end Store.WritesOnly

namespace Store

variable {s : Store}

def cellFootprint (s : Store) (cell value : Word) : Footprint :=
  match s.heap.deref? cell with
  | some (.cell _) => some (cell.objectIndex, .cell value)
  | _ => none

def fieldFootprint (s : Store) (object : Word) (name : Symbol) (value : Word) : Footprint :=
  (s.heap.instance? object).map fun (index, _) => (index, .field name value)

def methodFootprint (s : Store) (target : Word) (name : Symbol) (method : Word) : Footprint :=
  match s.heap.deref? target with
  | some (.ofClass _) => some (target.objectIndex, .method name method)
  | _ => none

theorem Makes.writesOnly {fresh : Object → Prop} {r : Except Failure Word × Store}
    (hr : s.Makes fresh r) (h : s.Laid) (hf : ∀ i, ¬fresh (.ofInstance i)) :
    s.WritesOnly none r.2 :=
  hr.store (.refl h) fun ho => .alloc h fun {i} hi => absurd (hi ▸ ho) (hf i)

section

variable (h : s.Laid)

include h

theorem writesOnly_binary (op : BinaryOp) (left right : Word) :
    s.WritesOnly none (s.binary op left right).2 :=
  (s.binary_makes op left right).writesOnly h fun _ ⟨_, ho⟩ => nomatch ho

theorem writesOnly_print (w : Word) : s.WritesOnly none (s.print w) := by
  unfold print
  split
  · exact .refl h
  · exact .nothing h rfl rfl

theorem writesOnly_setGlobal (slot : Nat) (w : Word) :
    s.WritesOnly none (s.setGlobal slot w).2 := by
  unfold setGlobal
  split
  · exact .nothing h rfl rfl
  · exact .refl h

theorem writesOnly_setCell (cell w : Word) :
    s.WritesOnly (s.cellFootprint cell w) (s.setCell cell w) := by
  unfold cellFootprint setCell Heap.setCell
  cases hd : s.heap.deref? cell with
  | none => exact .refl h
  | some o =>
    cases o with
    | cell v => exact .put h (Heap.getElem?_objectIndex hd) (.refl h.linked) (.cell v w) nofun
    | _ => exact .refl h

theorem writesOnly_makeClosure (proto : Nat) (entry : Entry) (cells : Array Word) :
    s.WritesOnly none (s.makeClosure proto entry cells).2 :=
  (s.makeClosure_makes proto entry cells).writesOnly h fun _ ⟨_, _, ho⟩ => nomatch ho

theorem writesOnly_construction (handle : Handle) :
    s.WritesOnly none (s.alloc (.ofInstance { classHandle := handle })).2 :=
  .alloc h fun {i} hi => by
    cases hi
    exact .start h.linked _

theorem writesOnly_getProperty (object : Word) (name : Symbol) (site : Nat) :
    s.WritesOnly none (s.getProperty object name site).2 := by
  have hm : s.WritesOnly none (s.modifySite site .miss) := .nothing h rfl rfl
  rcases s.getProperty_cases object name site with ⟨_, _, _, _, heq⟩ | hmakes
  · rw [heq]
    exact hm.congr rfl rfl
  · exact (hmakes.writesOnly hm.laid fun _ ⟨_, ho⟩ => nomatch ho).after rfl rfl

theorem writesOnly_setProperty (object : Word) (name : Symbol) (w : Word) (site : Nat) :
    s.WritesOnly (s.fieldFootprint object name w) (s.setProperty object name w site).2 := by
  unfold fieldFootprint setProperty
  cases hi : s.heap.instance? object with
  | none => exact .refl h
  | some found =>
    obtain ⟨index, i⟩ := found
    obtain ⟨hd, rfl⟩ := Heap.instance?_eq_some hi
    have ho := Heap.getElem?_objectIndex hd
    obtain ⟨hk, hl, hwri⟩ := Instance.setField_written (h.instances ho) h.linked name w
    have hput := WritesOnly.put h ho hk hwri fun heq => by
      cases heq
      exact hl
    dsimp only [Option.map_some]
    split <;> exact hput.congr rfl rfl

theorem writesOnly_newClass (name : Symbol) (sup : Option Word) :
    s.WritesOnly none (s.newClass name sup).2 :=
  (s.newClass_makes name sup).writesOnly h fun _ ⟨_, _, ho⟩ => nomatch ho

theorem writesOnly_addMethod (target : Word) (name : Symbol) (method : Word) :
    s.WritesOnly (s.methodFootprint target name method) (s.addMethod target name method) := by
  rw [addMethod_eq]
  unfold methodFootprint
  cases hd : s.heap.deref? target with
  | none => exact .refl h
  | some o =>
    cases o with
    | ofClass c =>
      exact .put h (Heap.getElem?_objectIndex hd) (.refl h.linked) (.method c name method) nofun
    | _ => exact .refl h

theorem writesOnly_getSuper (sup receiver : Word) (name : Symbol) :
    s.WritesOnly none (s.getSuper sup receiver name).2 :=
  (s.getSuper_makes sup receiver name).writesOnly h fun _ ⟨_, ho⟩ => nomatch ho

theorem writesOnly_setCached {object : Word} {site : Nat} {slot : Nat}
    (hc : s.cached? object site = some (i, slot)) (w : Word) :
    s.WritesOnly (some (object.objectIndex, .slot slot w)) (s.setCached object i slot w site) := by
  obtain ⟨_, ho, _⟩ := cached?_eq_some hc
  have hi := h.instances ho
  refine (WritesOnly.put h ho (.refl h.linked) (.slot i slot w) fun heq => ?_).congr rfl rfl
  cases heq
  exact ⟨hi.shape_lt, Array.size_setIfInBounds.trans hi.slots⟩

theorem writesOnly_servePrepareCall (callee : Word) (count : Nat) :
    s.WritesOnly none (Serve.prepareCall callee count s).2 :=
  Serve.prepareCall_store count (.refl h) (writesOnly_construction h _) fun _ ht => ht.congr rfl rfl

end

theorem create_laid {heap : Heap} {maxDepth : Nat} (hh : heap.objects = #[])
    (h : Store.create heap maxDepth = .ok s) : s.Laid := by
  obtain ⟨name, t, heq, _, rfl⟩ := create_eq_ok h
  have hb : (seed heap maxDepth).Laid := by
    refine ⟨Shapes.linked_initial, fun hi => ?_⟩
    change heap.objects[_]? = _ at hi
    rw [hh] at hi
    cases hi
  have ha : (seed heap maxDepth).WritesOnly none
      ((seed heap maxDepth).alloc (.native ⟨name, 0, .clock⟩)).2 := .alloc hb nofun
  rw [heq] at ha
  have hs := WritesOnly.prepares ha.laid (t.prepares_globalSlot "clock")
  have hdef : t.WritesOnly none (t.defineGlobal "clock" (.ofIndex heap.size)) :=
    hs.congr rfl rfl
  exact hdef.laid

end Store

def Service.footprint (service : Service) (words : List Word) (s : Store) : Footprint :=
  let word (i : Nat) : Word := words[i]?.getD .zero
  let low (i : Nat) : Nat := (word i).bits.toNat % 0x100000000
  match service with
  | .cellSet => s.cellFootprint (word 0) (word 1)
  | .setProperty => s.fieldFootprint (word 0) (low 1) (word 2)
  | .addMethod => s.methodFootprint (word 0) (low 1) (word 2)
  | _ => none

/-- What a host may ask of a store. -/
inductive Operation where
  | binary (op : BinaryOp) (left right : Word)
  | print (w : Word)
  | getProperty (object : Word) (name : Symbol) (site : Nat)
  | setProperty (object : Word) (name : Symbol) (value : Word) (site : Nat)
  | prepareCall (callee : Word) (count : Nat)
  | makeClosure (proto : Nat) (entry : Entry) (cells : Array Word)
  | define (name : String) (w : Word)
  | takeError
  | mute (muted : Bool)
  | mention (m : Mention)
  | call (service : Service) (words : List Word)
  | compile (name : String) (program : Program)

namespace Operation

/-- The store after an operation. -/
def apply (s : Store) : Operation → Store
  | .binary op left right => (s.binary op left right).2
  | .print w => s.print w
  | .getProperty object name site => (s.getProperty object name site).2
  | .setProperty object name value site => (s.setProperty object name value site).2
  | .prepareCall callee count => (s.prepareCall callee count).2
  | .makeClosure proto entry cells => (s.makeClosure proto entry cells).2
  | .define name w => s.defineGlobal name w
  | .takeError => s.takeError.2
  | .mute muted => { s with muted := muted }
  | .mention m => s.mention m
  | .call service words => (service.call words s).2
  | .compile name program => (s.compile name program).2

/-- The object an operation writes. -/
def footprint (s : Store) : Operation → Footprint
  | .setProperty object name value _ => s.fieldFootprint object name value
  | .call service words => service.footprint words s
  | _ => none

end Operation

variable {s : Store}

theorem Service.call_writesOnly (h : s.Laid) (service : Service) (words : List Word) :
    s.WritesOnly (service.footprint words s) (service.call words s).2 := by
  have hs : s.WritesOnly none s := .refl h
  cases service with
  | print => exact Store.writesOnly_print h _
  | binary =>
    unfold Service.call
    dsimp only
    split
    · exact .report (Store.writesOnly_binary h _ _ _)
    · exact hs
  | negate | globalGet => exact .report hs
  | valuesEqual | cellGet | closureCell => exact hs
  | globalSet => exact .report (Store.writesOnly_setGlobal h _ _)
  | globalDefine => exact .nothing h rfl rfl
  | newCell => exact .report (.alloc h nofun)
  | cellSet => exact Store.writesOnly_setCell h _ _
  | makeClosure => exact .report (Store.writesOnly_makeClosure h _ _ _)
  | prepareCall =>
    have hc := Store.writesOnly_servePrepareCall h (words[0]?.getD .zero)
      (words[1]?.getD Word.zero).bits.toNat
    unfold Service.call
    dsimp only
    split <;> next heq =>
      rw [heq] at hc
      exact hc
  | stackOverflow => exact .nothing h rfl rfl
  | getProperty => exact .report (Store.writesOnly_getProperty h _ _ _)
  | setProperty => exact .report (Store.writesOnly_setProperty h _ _ _ _)
  | newClass => exact .report (Store.writesOnly_newClass h _ _)
  | addMethod => exact Store.writesOnly_addMethod h _ _ _
  | getSuper => exact .report (Store.writesOnly_getSuper h _ _ _)

theorem Operation.apply_writesOnly (h : s.Laid) (op : Operation) :
    s.WritesOnly (op.footprint s) (op.apply s) := by
  cases op with
  | binary op left right => exact Store.writesOnly_binary h op left right
  | print w => exact Store.writesOnly_print h w
  | getProperty object name site => exact Store.writesOnly_getProperty h object name site
  | setProperty object name value site =>
    exact Store.writesOnly_setProperty h object name value site
  | prepareCall callee count =>
    exact Store.prepareCall_store count (.refl h) (Store.writesOnly_construction h _)
  | makeClosure proto entry cells => exact Store.writesOnly_makeClosure h proto entry cells
  | define name w => exact (Store.WritesOnly.prepares h (s.prepares_globalSlot name)).congr rfl rfl
  | takeError => exact .nothing h rfl rfl
  | mute muted => exact .nothing h rfl rfl
  | mention m => exact .prepares h (s.prepares_mention m)
  | call service words => exact service.call_writesOnly h words
  | compile name program => exact .prepares h (s.compile_prepares name program)

/-- The stores a host can have. -/
inductive Store.Hosted : Store → Prop
  | create {limit maxDepth : Nat} {s : Store} : Store.create (.withLimit limit) maxDepth = .ok s →
      Hosted s
  | operate {s : Store} (op : Operation) : Hosted s → Hosted (op.apply s)

theorem Store.Hosted.laid (h : s.Hosted) : s.Laid := by
  induction h with
  | create hcre => exact Store.create_laid rfl hcre
  | operate op _ ih => exact (op.apply_writesOnly ih).laid

/-- What an object is at a later time. An instance may have more fields then,
after those it has. -/
inductive Object.Endures (before after : Shapes) : Object → Object → Prop
  | text (t : String) : Endures before after (.text t) (.text t)
  | closure (c : Closure) : Endures before after (.closure c) (.closure c)
  | native (n : Native) : Endures before after (.native n) (.native n)
  | bound (b : BoundMethod) : Endures before after (.bound b) (.bound b)
  | cell (v w : Word) : Endures before after (.cell v) (.cell w)
  | ofClass {c c' : Class} : c'.name = c.name → Endures before after (.ofClass c) (.ofClass c')
  | ofInstance {i i' : Instance} : i'.classHandle = i.classHandle →
      before.fields i.shape <+: after.fields i'.shape →
        Endures before after (.ofInstance i) (.ofInstance i')

namespace Object.Endures

variable {x y z : Shapes} {a b c : Object}

theorem trans (h : a.Endures x y b) (h' : b.Endures y z c) : a.Endures x z c := by
  cases h with
  | text | closure | native | bound =>
    cases h'
    constructor
  | cell v w =>
    cases h' with
    | cell _ w' => exact .cell v w'
  | ofClass hn =>
    cases h' with
    | ofClass hn' => exact .ofClass (hn'.trans hn)
  | ofInstance hcls hf =>
    cases h' with
    | ofInstance hcls' hf' =>
      exact .ofInstance (hcls'.trans hcls) (hf.trans hf')

theorem same (h : ∀ {i}, a = .ofInstance i → y.fields i.shape = x.fields i.shape) :
    a.Endures x y a := by
  cases a with
  | text | closure | native | bound | cell => constructor
  | ofClass c => exact .ofClass rfl
  | ofInstance i => exact .ofInstance rfl ((h rfl).symm ▸ List.prefix_rfl)

theorem written {w : Write} (h : a.Written x y w b)
    (hf : ∀ {i}, a = .ofInstance i → y.fields i.shape = x.fields i.shape) : a.Endures x y b := by
  cases h with
  | cell v w => exact .cell v w
  | method c name w => exact .ofClass rfl
  | slot i k w => exact .ofInstance rfl ((hf rfl).symm ▸ List.prefix_rfl)
  | @field i i' name w hcls ha _ _ =>
    refine .ofInstance hcls ?_
    rw [ha, Shapes.withField]
    split
    · exact List.prefix_rfl
    · exact List.prefix_append _ _

end Object.Endures

/-- Handles go on referring to the objects they refer to. -/
structure Store.Endures (s s' : Store) : Prop where
  get? : ∀ {handle : Handle} {o : Object}, s.heap.get? handle = some o →
    ∃ o', s'.heap.get? handle = some o' ∧ o.Endures s.shapes s'.shapes o'

namespace Store.Endures

variable {s s' s'' : Store}

theorem of_objects (h : ∀ {index : Nat} {o : Object}, s.heap.objects[index]? = some o →
    ∃ o', s'.heap.objects[index]? = some o' ∧ o.Endures s.shapes s'.shapes o') : s.Endures s' := by
  refine ⟨fun {handle o} ho => ?_⟩
  unfold Heap.get? at ho ⊢
  split at ho
  · next hgen =>
    rw [if_pos hgen]
    exact h ho
  · cases ho

theorem refl (s : Store) : s.Endures s := ⟨fun ho => ⟨_, ho, .same fun _ => rfl⟩⟩

theorem trans (h : s.Endures s') (h' : s'.Endures s'') : s.Endures s'' := by
  refine ⟨fun {handle o} ho => ?_⟩
  obtain ⟨o', ho', he⟩ := h.get? ho
  obtain ⟨o'', ho'', he'⟩ := h'.get? ho'
  exact ⟨o'', ho'', he.trans he'⟩

end Store.Endures

theorem Store.WritesOnly.endures {s' : Store} {footprint : Footprint}
    (h : s.WritesOnly footprint s') (hl : s.Laid) : s.Endures s' := by
  refine .of_objects fun {index o} ho => ?_
  have hf : ∀ {i}, o = .ofInstance i → s'.shapes.fields i.shape = s.shapes.fields i.shape := by
    rintro i rfl
    exact h.shapes.fields (hl.instances ho).shape_lt
  by_cases hw : ∃ w, footprint = some (index, w)
  · obtain ⟨w, hw⟩ := hw
    obtain ⟨o1, o', ho1, ho', hwri⟩ := h.written hw
    cases ho.symm.trans ho1
    exact ⟨o', ho', .written hwri hf⟩
  · exact ⟨o, h.untouched ho fun w heq => hw ⟨w, heq⟩, .same hf⟩

end ScriptMachine
