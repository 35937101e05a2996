/-
ScriptMachine.Proofs.Twins.Mentions — issuing numbers does not show.
-/
import ScriptMachine.Proofs.Twins.Routines

namespace ScriptMachine

namespace Names

theorem find?_intern_cases (names : Names) (name other : String) :
    (names.intern name).2.find? other = names.find? other ∨
      (names.find? other = none ∧ (names.intern name).2.find? other = some names.size) := by
  have hg := names.grows_intern name
  cases ho : names.find? other with
  | some symbol => exact .inl (hg.find ho)
  | none =>
    unfold intern
    split
    · exact .inl ho
    · have hget : (names.symbols.insert name names.size).get? other = _ := Table.get?_insert ..
      by_cases heq : name = other
      · exact .inr ⟨rfl, hget.trans (if_pos heq)⟩
      · exact .inl ((hget.trans (if_neg heq)).trans ho)

theorem size_le_intern (names : Names) (name : String) :
    names.size ≤ (names.intern name).2.size := by
  unfold intern
  split
  · exact Nat.le_refl _
  · simp [size, add]

theorem intern_lt (names : Names) (name : String) :
    (names.intern name).1 < (names.intern name).2.size :=
  (Array.getElem?_eq_some_iff.mp (getElem?_of_find? (names.find?_intern name))).1

end Names

namespace Store

variable {s : Store}

structure SameGlobals (s t : Store) : Prop where
  named : t.Named
  value : ∀ name, t.global? name = s.global? name

theorem SameGlobals.trans {t u : Store} (h : s.SameGlobals t) (h' : t.SameGlobals u) :
    s.SameGlobals u :=
  ⟨h'.named, fun name => (h'.value name).trans (h.value name)⟩

theorem sameGlobals_intern (h : s.Named) (name : String) : s.SameGlobals (s.intern name).2 where
  named _ _ hg := Nat.lt_of_lt_of_le (h hg) (s.names.size_le_intern name)
  value other := by
    show ((s.names.intern name).2.find? other).bind (fun symbol =>
      (s.globalSlot? symbol).bind s.slotValue?) = (s.names.find? other).bind _
    rcases s.names.find?_intern_cases name other with heq | ⟨hn, hnew⟩
    · rw [heq]
      rfl
    · -- no slot has the name that was just issued
      have hs : s.globalSlot? s.names.size = none := by
        unfold globalSlot?
        rw [Array.findIdx?_eq_none_iff]
        intro g hg
        obtain ⟨i, hi, rfl⟩ := Array.mem_iff_getElem.mp hg
        have hlt := h (Array.getElem?_eq_getElem hi)
        simp [Nat.ne_of_lt hlt]
      rw [hn, hnew]
      simp [hs]

theorem sameGlobals_push (h : s.Named) {symbol : Symbol} (hlt : symbol < s.names.size) :
    s.SameGlobals { s with globals := s.globals.push { name := symbol } } where
  named := by
    intro i g hg
    rcases getElem?_push_cases hg with hg | rfl
    · exact h hg
    · exact hlt
  value other := by
    have hfound : ∀ symbol', (Store.globalSlot?
        { s with globals := s.globals.push { name := symbol } } symbol').bind
          (Store.slotValue? { s with globals := s.globals.push { name := symbol } }) =
        (s.globalSlot? symbol').bind s.slotValue? := by
      intro symbol'
      unfold globalSlot? slotValue?
      rw [Array.findIdx?_push]
      cases hf : s.globals.findIdx? (·.name == symbol') with
      | some i =>
        have hi : i < s.globals.size := (Array.findIdx?_eq_some_iff_getElem.mp hf).1
        simp [Array.getElem?_push, Nat.ne_of_lt hi]
      | none =>
        by_cases heq : symbol = symbol'
        · simp
        · simp
    show (s.names.find? other).bind _ = (s.names.find? other).bind _
    congr 1
    funext symbol'
    exact hfound symbol'

theorem sameGlobals_mention (h : s.Named) (m : Mention) : s.SameGlobals (s.mention m) := by
  cases m with
  | text text =>
    have hgls : (s.internText text).2.globals = s.globals ∧
        (s.internText text).2.names = s.names := by
      unfold internText
      split <;> exact ⟨rfl, rfl⟩
    refine ⟨?_, fun name => ?_⟩
    · intro i g hg
      unfold mention at hg ⊢
      rw [hgls.1] at hg
      rw [hgls.2]
      exact h hg
    · show Store.global? (s.internText text).2 name = s.global? name
      unfold global? globalSlot? slotValue?
      rw [hgls.1, hgls.2]
  | name name => exact sameGlobals_intern h name
  | global name =>
    have hint := sameGlobals_intern h name
    refine hint.trans ?_
    show (s.intern name).2.SameGlobals (s.globalSlot name).2
    rw [globalSlot_eq]
    cases (s.intern name).2.globalSlot? (s.intern name).1 with
    | some slot => exact ⟨hint.named, fun _ => rfl⟩
    | none => exact sameGlobals_push hint.named (s.names.intern_lt name)
  | prototype name arity =>
    have hint := sameGlobals_intern h name
    exact ⟨hint.named, hint.value⟩
  | site kind => exact ⟨h, fun _ => rfl⟩

theorem sameGlobals_mentionAll (h : s.Named) (ms : List Mention) :
    s.SameGlobals (s.mentionAll ms) := by
  induction ms generalizing s with
  | nil => exact ⟨h, fun _ => rfl⟩
  | cons m ms ih =>
    have hm := sameGlobals_mention h m
    exact hm.trans (ih hm.named)

end Store

namespace Kin

variable {K : Kin} {s s' t t' : Store} {m : Mention} (h : K.Stores s s')

include h

theorem Stores.prepare {K' : Kin} (hle : K.Le K') (hs : s.Prepares t)
    (hs' : s'.Prepares t') (hg : s.SameGlobals t) (hg' : s'.SameGlobals t')
    (hh : K'.Heaps t.heap t'.heap) (hfst : K'.pair.first.Later t)
    (hsnd : K'.pair.second.Later t') : K'.Stores t t' where
  heap := hh
  first := hfst
  second := hsnd
  named := hg.named
  named' := hg'.named
  shapes := by
    rw [hs.shapes, hs'.shapes]
    exact h.shapes.mono hle.view
  globals name := by
    rw [hg.value, hg'.value]
    exact Pairing.Same.option (h.globals name) hle.object
  initializer := by
    rw [hs.initializer, hs'.initializer]
    exact hle.pair.symbols h.initializer
  pending := by rw [hs.pending, hs'.pending, h.pending]
  error := by rw [hs.error, hs'.error, h.error]
  depth := by rw [hs.depth, hs'.depth, h.depth]
  maxDepth := by rw [hs.maxDepth, hs'.maxDepth, h.maxDepth]
  printed := by rw [hs.printed, hs'.printed, h.printed]
  muted := by rw [hs.muted, hs'.muted, h.muted]

theorem Stores.renew :
    K.Moves { K with pair := ⟨s, s'⟩ } ∧ Kin.Stores { K with pair := ⟨s, s'⟩ } s s' := by
  have hle : K.Le { K with pair := ⟨s, s'⟩ } := ⟨id, h.first, h.second⟩
  exact ⟨⟨hle, id⟩, h.prepare hle (.refl s) (.refl s') ⟨h.named, fun _ => rfl⟩
    ⟨h.named', fun _ => rfl⟩ (h.heap.mono hle rfl id) (.refl s) (.refl s')⟩

theorem Stores.first_mention (hm : m.text? = none) : K.Stores (s.mention m) s' := by
  have hp := s.prepares_mention m
  refine h.prepare (.refl K) hp (.refl s') (Store.sameGlobals_mention h.named m)
    ⟨h.named', fun _ => rfl⟩ ?_ (h.first.trans hp.later) h.second
  rw [Store.heap_mention hm]
  exact h.heap

theorem Stores.second_mention (hm : m.text? = none) : K.Stores s (s'.mention m) := by
  have hp := s'.prepares_mention m
  refine h.prepare (.refl K) (.refl s) hp ⟨h.named, fun _ => rfl⟩
    (Store.sameGlobals_mention h.named' m) ?_ h.first (h.second.trans hp.later)
  rw [Store.heap_mention hm]
  exact h.heap

end Kin

def Heap.takeText (heap : Heap) (text : String) : Heap :=
  { heap.push (.text text) with interned := heap.interned.insert text heap.size }

theorem Heap.get?_takeText (heap : Heap) (text other : String) :
    (heap.takeText text).interned.get? other =
      if text = other then some heap.size else heap.interned.get? other :=
  Table.get?_insert ..

theorem Heap.size_takeText (heap : Heap) (text : String) :
    (heap.takeText text).size = heap.size + 1 :=
  Array.size_push ..

theorem Store.internText_cases (s : Store) (text : String) :
    (∃ i, s.heap.interned.get? text = some i ∧ s.internText text = (.ok (.ofIndex i), s)) ∨
    (s.heap.interned.get? text = none ∧
      ((s.heap.size < s.heap.limit ∧ s.internText text =
          (.ok (.ofIndex s.heap.size), { s with heap := s.heap.takeText text })) ∨
        (¬s.heap.size < s.heap.limit ∧
          s.internText text = (.error (.exhausted s.heap.size), s)))) := by
  unfold Store.internText
  rcases s.heap.internText_cases text with ⟨i, hi, heq⟩ | ⟨hn, ⟨hlt, heq⟩ | ⟨hf, heq⟩⟩ <;> rw [heq]
  · exact .inl ⟨i, hi, rfl⟩
  · exact .inr ⟨hn, .inl ⟨hlt, rfl⟩⟩
  · exact .inr ⟨hn, .inr ⟨hf, rfl⟩⟩

namespace Kin

variable {K : Kin} {s s' : Store}

namespace Heaps

variable {h h' : Heap} {text : String}

theorem second_takeText (hh : K.Heaps h h') (hnew : h'.interned.get? text = none)
    (hr : h'.size < h'.limit) : Kin.Heaps { K with even := False } h (h'.takeText text) where
  toHeaps :=
    have hle : K.Le { K with even := False } := ⟨id, .refl _⟩
    { (hh.toHeaps.pushSecond (.text text) hr).mono hle.view rfl with }
  known := by
    intro t i ht
    obtain ⟨j, hj, hij⟩ := hh.known ht
    refine ⟨j, ?_, hij⟩
    rw [Heap.get?_takeText, if_neg, hj]
    rintro rfl
    rw [hnew] at hj
    cases hj
  spare := by
    intro t j hn ht
    rw [Heap.get?_takeText] at ht
    split at ht
    · next heq =>
      subst heq
      obtain rfl := Option.some.inj ht
      refine ⟨Array.getElem?_push_size, fun i hij => ?_⟩
      exact absurd (hh.lt hij).2 (Nat.lt_irrefl _)
    · obtain ⟨htext, hf⟩ := hh.spare hn ht
      exact ⟨getElem?_push_of_some htext, hf⟩
  slack := by
    intro ts hnodup hs
    have hold := hh.slack (ts.erase text) (hnodup.erase text) fun t ht => by
      obtain ⟨hne, hmem⟩ := hnodup.mem_erase_iff.mp ht
      obtain ⟨hfst, hsnd⟩ := hs t hmem
      rw [Heap.get?_takeText, if_neg (Ne.symm hne)] at hsnd
      exact ⟨hfst, hsnd⟩
    have hlen : ts.length ≤ (ts.erase text).length + 1 := by
      rw [List.length_erase]
      split <;> omega
    rw [Heap.size_takeText]
    omega
  level := False.elim

theorem first_takeText (hh : K.Heaps h h') (hnew : h.interned.get? text = none) {j : Nat}
    (hj : h'.interned.get? text = some j) : (K.add h.size j).Heaps (h.takeText text) h' := by
  have hle := (K.moves_add h.size j).toLe
  obtain ⟨htext, hf⟩ := hh.spare hnew hj
  have hr := hh.slack [text] (List.nodup_singleton _) (by simp [hnew, hj])
  exact
    { objects := by
        rintro i k (hik | ⟨rfl, rfl⟩)
        · obtain ⟨x, x', hx, hx', hsame⟩ := hh.objects hik
          exact ⟨x, x', getElem?_push_of_some hx, hx', hsame.mono hle.view⟩
        · exact ⟨_, _, Array.getElem?_push_size, htext, .text text⟩
      functional := by
        rintro i k k' (hik | ⟨rfl, rfl⟩) (hik' | ⟨hi, rfl⟩)
        · exact hh.functional hik hik'
        · exact absurd (hh.lt hik).1 (by omega)
        · exact absurd (hh.lt hik').1 (by omega)
        · rfl
      injective := by
        rintro i i' k (hik | ⟨rfl, rfl⟩) (hik' | ⟨rfl, hk⟩)
        · exact hh.injective hik hik'
        · exact absurd (hk ▸ hik) (hf i)
        · exact absurd hik' (hf i')
        · rfl
      known := by
        intro t i ht
        rw [Heap.get?_takeText] at ht
        split at ht
        · next heq =>
          subst heq
          obtain rfl := Option.some.inj ht
          exact ⟨j, hj, .inr ⟨rfl, rfl⟩⟩
        · obtain ⟨k, hk, hik⟩ := hh.known ht
          exact ⟨k, hk, .inl hik⟩
      spare := by
        intro t k hn ht
        rw [Heap.get?_takeText] at hn
        split at hn
        · cases hn
        · next hne =>
          obtain ⟨ho, hf'⟩ := hh.spare hn ht
          refine ⟨ho, ?_⟩
          rintro i (hik | ⟨_, rfl⟩)
          · exact hf' i hik
          · rw [htext] at ho
            exact hne (Object.text.inj (Option.some.inj ho))
      slack := by
        intro ts hnodup hs
        have hne : text ∉ ts := fun hmem => by
          have := (hs text hmem).1
          rw [Heap.get?_takeText, if_pos rfl] at this
          cases this
        have hold := hh.slack (text :: ts) (List.nodup_cons.mpr ⟨hne, hnodup⟩) fun t ht => by
          rcases List.mem_cons.mp ht with rfl | hmem
          · exact ⟨hnew, by rw [hj]; rintro ⟨⟩⟩
          · obtain ⟨hfst, hsnd⟩ := hs t hmem
            rw [Heap.get?_takeText, if_neg] at hfst
            · exact ⟨hfst, hsnd⟩
            · rintro rfl
              exact hne hmem
        rw [List.length_cons] at hold
        rw [Heap.size_takeText]
        omega
      limit := hh.limit
      limit_le := hh.limit_le
      within := hh.within
      size_le := by
        rw [Heap.size_takeText]
        exact hr
      level := by
        intro he
        have := (hh.level he).1
        simp only [List.length_singleton] at hr
        omega }

theorem both_takeText (hh : K.Heaps h h') (hr : h'.size < h'.limit) :
    (K.add h.size h'.size).Heaps (h.takeText text) (h'.takeText text) where
  toHeaps := { hh.toHeaps.push (.text text) hr (K.moves_add _ _).toLe.view rfl with }
  known := by
    intro t i ht
    rw [Heap.get?_takeText] at ht ⊢
    by_cases heq : text = t
    · rw [if_pos heq] at ht ⊢
      exact ⟨_, rfl, .inr ⟨(Option.some.inj ht).symm, rfl⟩⟩
    · rw [if_neg heq] at ht ⊢
      obtain ⟨j, hj, hij⟩ := hh.known ht
      exact ⟨j, hj, .inl hij⟩
  spare := by
    intro t j hn ht
    rw [Heap.get?_takeText] at hn ht
    split at hn
    · cases hn
    · next hne =>
      rw [if_neg hne] at ht
      exact hh.push_spare _ hn ht
  slack := by
    intro ts hnodup hs
    have hold := hh.slack ts hnodup fun t ht => by
      have hb := hs t ht
      rw [Heap.get?_takeText, Heap.get?_takeText] at hb
      split at hb
      · exact absurd hb.1 (by rintro ⟨⟩)
      · exact hb
    rw [Heap.size_takeText, Heap.size_takeText]
    omega
  level := hh.push_level

end Heaps

variable (h : K.Stores s s')

include h

theorem Stores.second_takes (m : Mention) : ∃ K', K.Le K' ∧ K'.Stores s (s'.mention m) := by
  cases hm : m.text? with
  | none => exact ⟨K, .refl K, h.second_mention hm⟩
  | some text =>
    obtain rfl : m = .text text := by cases m <;> simp_all [Mention.text?]
    have hp := s'.prepares_internText text
    have hg : s'.SameGlobals (s'.internText text).2 :=
      Store.sameGlobals_mention h.named' (.text text)
    show ∃ K', K.Le K' ∧ K'.Stores s (s'.internText text).2
    rcases s'.internText_cases text with ⟨i, _, heq⟩ | ⟨hnew, ⟨hr, heq⟩ | ⟨_, heq⟩⟩ <;>
      rw [heq] at hp hg ⊢
    · exact ⟨K, .refl K, h⟩
    · have hle : K.Le { K with even := False } := ⟨id, .refl _⟩
      exact ⟨_, hle, h.prepare hle (.refl s) hp ⟨h.named, fun _ => rfl⟩ hg
        (h.heap.second_takeText hnew hr) h.first (h.second.trans hp.later)⟩
    · exact ⟨K, .refl K, h⟩

theorem Stores.second_takesAll (ms : List Mention) :
    ∃ K', K.Le K' ∧ K'.Stores s (s'.mentionAll ms) := by
  induction ms generalizing K s' with
  | nil => exact ⟨K, .refl K, h⟩
  | cons m ms ih =>
    obtain ⟨K1, hle, h1⟩ := h.second_takes m
    obtain ⟨K2, hle', h2⟩ := ih h1
    exact ⟨K2, hle.trans hle', h2⟩

theorem Stores.first_takes (m : Mention)
    (hm : ∀ text, m.text? = some text → s'.heap.interned.get? text ≠ none) :
    s.CanMention m ∧ ∃ K', K.Moves K' ∧ K'.Stores (s.mention m) s' := by
  cases ht : m.text? with
  | none =>
    exact ⟨Store.canMention_of_none ht, K, .refl K, h.first_mention ht⟩
  | some text =>
    obtain rfl : m = .text text := by cases m <;> simp_all [Mention.text?]
    obtain ⟨j, hj⟩ := Option.ne_none_iff_exists'.mp (hm text rfl)
    have hp := s.prepares_internText text
    have hg : s.SameGlobals (s.internText text).2 := Store.sameGlobals_mention h.named (.text text)
    show (∃ w, (s.internText text).1 = .ok w) ∧ ∃ K', K.Moves K' ∧
      K'.Stores (s.internText text).2 s'
    rcases s.internText_cases text with ⟨i, _, heq⟩ | ⟨hnew, ⟨_, heq⟩ | ⟨hf, _⟩⟩
    · rw [heq]
      exact ⟨⟨_, rfl⟩, K, .refl K, h⟩
    · rw [heq] at hp hg ⊢
      have hmoves := K.moves_add s.heap.size j
      exact ⟨⟨_, rfl⟩, _, hmoves, h.prepare hmoves.toLe hp (.refl s') hg ⟨h.named', fun _ => rfl⟩
        (h.heap.first_takeText hnew hj) (h.first.trans hp.later) h.second⟩
    · have := h.heap.slack [text] (List.nodup_singleton _) (by simp [hnew, hj])
      have := h.heap.within
      have := h.heap.limit
      simp only [List.length_singleton] at *
      omega

theorem Stores.first_takesAll (ms : List Mention)
    (hms : ∀ text ∈ textsOf ms, s'.heap.interned.get? text ≠ none) :
    s.HasRoom ms ∧ ∃ K', K.Moves K' ∧ K'.Stores (s.mentionAll ms) s' := by
  induction ms generalizing K s with
  | nil => exact ⟨trivial, K, .refl K, h⟩
  | cons m ms ih =>
    obtain ⟨hcan, K1, hmoves, h1⟩ := h.first_takes m fun text ht =>
      hms text (by rw [textsOf, List.filterMap_cons_some ht]; exact List.mem_cons_self)
    obtain ⟨hr, K2, hmoves', h2⟩ := ih h1 fun text ht => hms text (by
      unfold textsOf at ht ⊢
      cases hm : m.text? with
      | none => rwa [List.filterMap_cons_none hm]
      | some t =>
        rw [List.filterMap_cons_some hm]
        exact List.mem_cons_of_mem _ ht)
    exact ⟨⟨hcan, hr⟩, K2, hmoves.trans hmoves', h2⟩

theorem Stores.internText (text : String) :
    (∃ K', K.Moves K' ∧ K'.Stores (s.internText text).2 (s'.internText text).2 ∧
      ((∃ w w', (s.internText text).1 = .ok w ∧ (s'.internText text).1 = .ok w') ∨
        ∃ e, (s.internText text).1 = .error e ∧ (s'.internText text).1 = .error e)) ∨
    (¬K.even ∧ ∃ e, (s'.internText text).1 = .error e) := by
  have hp := s.prepares_internText text
  have hp' := s'.prepares_internText text
  have hg : s.SameGlobals (s.internText text).2 := Store.sameGlobals_mention h.named (.text text)
  have hg' : s'.SameGlobals (s'.internText text).2 :=
    Store.sameGlobals_mention h.named' (.text text)
  have hs := h.heap.size_le
  have hlim := h.heap.limit
  rcases s'.internText_cases text with ⟨j, hj, heq'⟩ | ⟨hnew', ⟨hr, heq'⟩ | ⟨hf, heq'⟩⟩
  · -- the second store has the text, and so has the first afterwards
    obtain ⟨⟨w, hw⟩, K', hm, h'⟩ := h.first_takes (.text text) (by
      rintro _ ⟨⟩
      rw [hj]
      nofun)
    rw [heq']
    exact .inl ⟨K', hm, h', .inl ⟨w, _, hw, rfl⟩⟩
  · have hnew : s.heap.interned.get? text = none := by
      by_contra hne
      obtain ⟨i, hi⟩ := Option.ne_none_iff_exists'.mp hne
      obtain ⟨j, hj, _⟩ := h.heap.known hi
      rw [hnew'] at hj
      cases hj
    rcases s.internText_cases text with ⟨i, hi, _⟩ | ⟨_, ⟨_, heq⟩ | ⟨hf, _⟩⟩
    · rw [hnew] at hi
      cases hi
    · rw [heq] at hp hg ⊢
      rw [heq'] at hp' hg' ⊢
      have hm := K.moves_add s.heap.size s'.heap.size
      exact .inl ⟨_, hm, h.prepare hm.toLe hp hp' hg hg'
        (h.heap.both_takeText hr) (h.first.trans hp.later) (h.second.trans hp'.later),
        .inl ⟨_, _, rfl, rfl⟩⟩
    · omega
  · rw [heq']
    by_cases he : K.even
    · have hl := (h.heap.level he).1
      rcases s.internText_cases text with ⟨i, hi, _⟩ | ⟨_, ⟨hr, _⟩ | ⟨_, heq⟩⟩
      · obtain ⟨j, hj, _⟩ := h.heap.known hi
        rw [hnew'] at hj
        cases hj
      · omega
      · rw [heq, hl]
        exact .inl ⟨K, .refl K, h, .inr ⟨_, rfl, rfl⟩⟩
    · exact .inr ⟨he, _, rfl⟩

end Kin

end ScriptMachine
