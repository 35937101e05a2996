/-
ScriptMachine.Proofs.Caching — what sites remember is right.
-/
import ScriptMachine.Proofs.Runs.Typed
import ScriptMachine.Proofs.Sites

namespace ScriptMachine

variable {names : Nat → Symbol} {kinds : Array SiteKind}

def Object.Shaped (shapes : Shapes) : Object → Prop
  | .ofInstance i => i.shape < shapes.size
  | _ => True

def Known.ofSites (names : Nat → Symbol) (kinds : Array SiteKind) : Known where
  constant _ := True
  site site kind name := kinds[site]? = some kind ∧ names site = name

structure Store.Remembers (names : Nat → Symbol) (kinds : Array SiteKind) (s : Store) : Prop where
  linked : Shapes.Linked s.shapes
  shaped : ∀ {index : Nat} {o : Object}, s.heap.objects[index]? = some o → o.Shaped s.shapes
  kinds : s.kinds = kinds
  sites : ∀ {site : Nat} {entry : Site} {shape : ShapeId} {slot : Nat},
    s.sites[site]? = some entry → entry.cached = some (shape, slot) →
      s.shapes.slot? shape (names site) = some slot

namespace Store.Remembers

variable {names : Nat → Symbol} {kinds : Array SiteKind} {s : Store} {o : Object}
  {r : Except Failure Word × Store} {site slot : Nat} {i : Instance}

theorem congr {s' : Store} (h : s.Remembers names kinds) (hsha : s'.shapes = s.shapes)
    (hh : s'.heap = s.heap) (hs : s'.sites = s.sites) : s'.Remembers names kinds := by
  obtain ⟨h1, h2, h3, h4⟩ := h
  rw [← hsha] at h1 h2 h4
  rw [← hh] at h2
  rw [Store.kinds, ← hs] at h3
  rw [← hs] at h4
  exact ⟨h1, h2, h3, h4⟩

theorem alloc (h : s.Remembers names kinds) (ho : o.Shaped s.shapes) :
    (s.alloc o).2.Remembers names kinds := by
  rcases s.alloc_cases o with ⟨_, heq⟩ | ⟨_, heq⟩ <;> rw [heq]
  · refine { h with shaped := ?_ }
    intro index o' ho'
    rcases getElem?_push_cases ho' with hold | rfl
    · exact h.shaped hold
    · exact ho
  · exact h

theorem put (h : s.Remembers names kinds) (ho : o.Shaped s.shapes) (index : Nat) :
    Store.Remembers names kinds { s with heap := s.heap.put index o } := by
  refine { h with shaped := ?_ }
  intro j o' ho'
  rcases getElem?_setIfInBounds_cases ho' with hold | ⟨rfl, rfl⟩
  · exact h.shaped hold
  · exact ho

theorem report (h : r.2.Remembers names kinds) : (Serve.report r).2.Remembers names kinds := by
  obtain ⟨_ | _, _⟩ := r
  · exact h.congr rfl rfl rfl
  · exact h

variable (h : s.Remembers names kinds)

include h

theorem count (site : Nat) {f : Site → Site}
    (hf : ∀ entry, (f entry).kind = entry.kind ∧ (f entry).cached = entry.cached) :
    (s.modifySite site f).Remembers names kinds := by
  refine { h with
    kinds := Eq.trans (SameKinds.modify s.sites site fun entry => (hf entry).1) h.kinds, sites :=
      ?_ }
  intro k entry shape slot hent hcch
  simp only [Store.modifySite, Array.getElem?_modify] at hent
  split at hent
  · obtain ⟨old, hold, rfl⟩ := Option.map_eq_some_iff.mp hent
    rw [(hf old).2] at hcch
    exact h.sites hold hcch
  · exact h.sites hent hcch

theorem refresh {shape : ShapeId} (hs : s.shapes.slot? shape (names site) = some slot) :
    (s.modifySite site (·.refresh shape slot)).Remembers names kinds := by
  refine { h with
    kinds := Eq.trans (SameKinds.modify s.sites site (·.refresh_kind shape slot)) h.kinds, sites :=
      ?_ }
  intro k entry shape' slot' hent hcch
  simp only [Store.modifySite, Array.getElem?_modify] at hent
  split at hent
  · next heq =>
    subst heq
    obtain ⟨old, hold, rfl⟩ := Option.map_eq_some_iff.mp hent
    unfold Site.refresh at hcch
    split at hcch
    · exact h.sites hold hcch
    · cases hcch
      exact hs
  · exact h.sites hent hcch

theorem print (w : Word) : (Serve.print w s).2.Remembers names kinds := by
  unfold Serve.print Store.print
  split
  · exact h
  · exact h.congr rfl rfl rfl

theorem makes {fresh : Object → Prop} (hr : s.Makes fresh r)
    (hf : ∀ {o}, fresh o → o.Shaped s.shapes) : (Serve.report r).2.Remembers names kinds :=
  report (hr.store h fun ho => h.alloc (hf ho))

theorem putSlot (slot : Nat) (w : Word) : (s.putSlot slot w).Remembers names kinds :=
  h.congr rfl rfl rfl

theorem globalSet (slot : Nat) (w : Word) : (Serve.globalSet slot w s).2.Remembers names kinds := by
  refine report ?_
  unfold Store.setGlobal
  split
  · exact h.putSlot slot w
  · exact h

theorem cellSet (c w : Word) : (Serve.cellSet c w s).2.Remembers names kinds := by
  unfold Serve.cellSet Store.setCell Heap.setCell
  split
  · exact h.put (show (Object.cell w).Shaped s.shapes from trivial) _
  · exact h

theorem prepareCall (callee : Word) (count : Nat) :
    (Serve.prepareCall callee count s).2.Remembers names kinds :=
  Serve.prepareCall_store count h (h.alloc h.linked.root_lt) fun _ ht => ht.congr rfl rfl rfl

theorem addMethod (w : Word) (name : Symbol) (method : Word) :
    (Serve.addMethod w name method s).2.Remembers names kinds := by
  rw [Serve.addMethod, Store.addMethod_eq]
  split
  · next c _ =>
    exact h.put (show (Object.ofClass (c.addMethod name method)).Shaped s.shapes from trivial) _
  · exact h

theorem getProperty (object : Word) (site : Nat) :
    (Serve.getProperty object (names site) site s).2.Remembers names kinds := by
  have hm : (s.modifySite site .miss).Remembers names kinds := h.count site fun _ => ⟨rfl, rfl⟩
  rcases s.getProperty_cases object (names site) site with ⟨_, _, _, hs, heq⟩ | hmakes
  · rw [Serve.getProperty, heq]
    exact hm.refresh hs
  · exact hm.makes hmakes fun ⟨_, ho⟩ => ho ▸ trivial

theorem setField (hi : i.shape < s.shapes.size) (name : Symbol)
    (w : Word) : Store.Remembers names kinds { s with shapes := (i.setField s.shapes name w).2.2 } ∧
      (i.setField s.shapes name w).2.1.shape < (i.setField s.shapes name w).2.2.size ∧
      ((i.setField s.shapes name w).2.1.shape = i.shape →
        (i.setField s.shapes name w).2.2.slot? i.shape name =
          some (i.setField s.shapes name w).1) := by
  unfold Instance.setField
  cases hs : s.shapes.slot? i.shape name with
  | some slot => exact ⟨h, hi, fun _ => hs⟩
  | none =>
    have hnew := h.linked.slot?_eq_none.mp hs
    obtain ⟨hlt, hf⟩ := h.linked.extend_spec hi name
    refine ⟨⟨h.linked.extend hi name, ?_, h.kinds, ?_⟩, hlt, fun heq => ?_⟩
    · intro index o ho
      have hold := h.shaped ho
      cases o with
      | ofInstance j => exact Nat.lt_of_lt_of_le hold (Shapes.size_le_extend s.shapes i.shape name)
      | text | closure | cell | ofClass | bound | native => trivial
    · intro site entry shape slot hent hcch
      exact Serve.slot?_extend i.shape name (h.sites hent hcch)
    · have hk : s.shapes.fields i.shape = (s.shapes.extend i.shape name).2.fields i.shape :=
        (Shapes.sameLayout_extend i.shape name hi).2.2.1
      have heq : (s.shapes.extend i.shape name).1 = i.shape := heq
      rw [heq, ← hk, Shapes.withField, if_neg hnew] at hf
      exact absurd (congrArg List.length hf) (by simp)

theorem setProperty (object w : Word) (site : Nat) :
    (Serve.setProperty object (names site) w site s).2.Remembers names kinds := by
  refine report ?_
  unfold Store.setProperty
  split
  · exact h
  · next index i hi =>
    obtain ⟨hd, rfl⟩ := Heap.instance?_eq_some hi
    have hsha := h.shaped (Heap.getElem?_objectIndex hd)
    obtain ⟨hs, hcha, hslot⟩ := h.setField hsha (names site) w
    have hput := hs.put (show (Object.ofInstance _).Shaped _ from hcha) object.objectIndex
    have hm := hput.count site (f := Site.miss) fun _ => ⟨rfl, rfl⟩
    dsimp only
    split
    · next hsame => exact hm.refresh (hslot hsame)
    · exact hm

theorem setCached {object : Word} (hc : s.cached? object site = some (i, slot)) (w : Word) :
    (s.setCached object i slot w site).Remembers names kinds := by
  obtain ⟨_, ho, _⟩ := Store.cached?_eq_some hc
  have hs : i.shape < s.shapes.size := h.shaped ho
  have hsha : (Object.ofInstance { i with slots := i.slots.setIfInBounds slot w }).Shaped
      s.shapes := hs
  exact (h.put hsha object.objectIndex).count site fun _ => ⟨rfl, rfl⟩

end Store.Remembers

def Discipline.caching (names : Nat → Symbol) (kinds : Array SiteKind) : Discipline where
  Keeps s := s.Remembers names kinds
  Fits _ _ _ := True
  Boxes _ _ := True

theorem Discipline.caching_lawful (host : Host) [host.Attached] :
    (caching names kinds).Lawful (.ofSites names kinds) host where
  attached := host.attached_eq
  evolves _ _ := trivial
  boxes_evolves _ _ := trivial
  done := trivial
  nil := trivial
  zero := trivial
  truth := trivial
  now := trivial
  arithmetic := trivial
  flipSign _ _ := trivial
  constant _ _ := trivial
  closure_value _ := trivial
  cell_boxes _ := trivial
  zero_boxes := trivial
  depth _ h := h.congr rfl rfl rfl
  raise _ h := h.congr rfl rfl rfl
  print h := h.print _
  binary h := ⟨h.makes (Store.binary_makes ..) fun ⟨_, ho⟩ => ho ▸ trivial, fun _ => trivial⟩
  negate h := ⟨Store.Remembers.report h, fun _ => trivial⟩
  globalGet h := ⟨Store.Remembers.report h, fun _ => trivial⟩
  globalSet h _ := h.globalSet _ _
  globalDefine h _ := h.putSlot _ _
  newCell h _ := ⟨Store.Remembers.report (h.alloc trivial), fun _ => trivial⟩
  cellGet _ _ := trivial
  cellSet h _ _ := h.cellSet _ _
  closureCell _ _ _ := trivial
  makeClosure h _ :=
    ⟨h.makes (Store.makeClosure_makes ..) fun ⟨_, _, ho⟩ => ho ▸ trivial, fun _ => trivial⟩
  prepareCall h _ := ⟨h.prepareCall _ _, fun _ => trivial⟩
  getProperty h hs _ := ⟨hs.2 ▸ h.getProperty _ _, fun _ => trivial⟩
  getCached h _ := ⟨h.count _ fun _ => ⟨rfl, rfl⟩, trivial⟩
  setProperty h hs _ := ⟨hs.2 ▸ h.setProperty _ _ _, fun _ => trivial⟩
  setCached h hc _ := h.setCached hc _
  newClass h :=
    ⟨h.makes (Store.newClass_makes ..) fun ⟨_, _, ho⟩ => ho ▸ trivial, fun _ => trivial⟩
  addMethod h _ := h.addMethod _ _ _
  getSuper h _ := ⟨h.makes (Store.getSuper_makes ..) fun ⟨_, ho⟩ => ho ▸ trivial, fun _ => trivial⟩

theorem Store.Remembers.instance_of_cached {s : Store} (h : s.Remembers names kinds) {object : Word}
    (hobj : object.Issued s.heap) {site : Nat} {i : Instance} {slot : Nat}
    (hc : s.cached? object site = some (i, slot)) :
    s.heap.instance? object = some (object.objectIndex, i) ∧
      s.shapes.slot? i.shape (names site) = some slot := by
  obtain ⟨hisObject, ho, entry, hent, hcch⟩ := Store.cached?_eq_some hc
  obtain ⟨o, hd⟩ := hobj hisObject
  obtain rfl : o = .ofInstance i := Option.some.inj ((Heap.getElem?_objectIndex hd).symm.trans ho)
  refine ⟨?_, h.sites hent hcch⟩
  unfold Heap.instance?
  rw [hd]

namespace Serve

variable {names : Nat → Symbol} {kinds : Array SiteKind} {s : Store} {object : Word} {site : Nat}
  {i : Instance} {slot : Nat}

theorem agree_getCached (h : s.Remembers names kinds) (hobj : object.Issued s.heap)
    (hc : s.cached? object site = some (i, slot)) :
    Agree (Serve.getProperty object (names site) site s) (s.getCached i slot site) := by
  obtain ⟨hi, hs⟩ := h.instance_of_cached hobj hc
  unfold Serve.getProperty Store.getProperty
  dsimp only
  rw [show (s.modifySite site .miss).heap = s.heap from rfl, hi]
  dsimp only
  rw [show (s.modifySite site .miss).shapes = s.shapes from rfl, hs]
  have hm := (Store.Alike.refl s).modifySite site (f := Site.miss) (g := Site.hit)
    (fun _ => rfl) fun _ => rfl
  exact ⟨rfl, hm.modifySite_left site (·.refresh_kind _ _)⟩

theorem agree_setCached (h : s.Remembers names kinds) (hobj : object.Issued s.heap)
    (hc : s.cached? object site = some (i, slot)) (w : Word) :
    Agree (Serve.setProperty object (names site) w site s)
      (w, s.setCached object i slot w site) := by
  obtain ⟨hi, hs⟩ := h.instance_of_cached hobj hc
  unfold Serve.setProperty Store.setProperty Store.setCached
  rw [hi]
  simp only [Instance.setField, hs, if_true]
  refine ⟨rfl, Store.Alike.modifySite_left ?_ site (·.refresh_kind _ _)⟩
  exact (Store.Alike.refl _).modifySite site (fun _ => rfl) fun _ => rfl

end Serve

end ScriptMachine
