/-
ScriptMachine.Proofs.Lowers.Decisions — which expressions are accepted.
-/
import ScriptMachine.Proofs.Captures
import ScriptMachine.Proofs.Duties
import ScriptMachine.Proofs.Lowers.Outcomes
import ScriptMachine.Proofs.Lowers.Statements
import Mathlib.Data.Finset.Card

namespace ScriptMachine

variable {caps : List Key} {uses more : List Use}

def Mention.text? : Mention → Option String
  | .text s => some s
  | _ => none

def textsOf (ms : List Mention) : List String := ms.filterMap Mention.text?

/-- The constant texts of a program. -/
def Program.texts (program : Program) : List String := textsOf program.mentions

/-- There is room for those of the texts that the heap does not hold yet. -/
def Heap.HasRoomFor (heap : Heap) (texts : List String) : Prop :=
  (texts.toFinset.filter fun t => heap.interned.get? t = none).card ≤ heap.limit - heap.size

instance (heap : Heap) (texts : List String) : Decidable (heap.HasRoomFor texts) :=
  inferInstanceAs (Decidable (_ ≤ _))

namespace Heap

variable {heap : Heap} {text : String}

theorem hasRoomFor_nil (heap : Heap) : heap.HasRoomFor [] := Nat.zero_le _

theorem hasRoomFor_cons_of_some {i : Nat} (h : heap.interned.get? text = some i)
    (texts : List String) : heap.HasRoomFor (text :: texts) ↔ heap.HasRoomFor texts := by
  unfold HasRoomFor
  rw [List.toFinset_cons, Finset.filter_insert, if_neg (by simp [h])]

theorem hasRoomFor_cons_of_none (h : heap.interned.get? text = none) (hlt : heap.size < heap.limit)
    (texts : List String) :
    heap.HasRoomFor (text :: texts) ↔
      HasRoomFor
        { heap.push (.text text) with interned := heap.interned.insert text heap.size } texts := by
  unfold HasRoomFor size at *
  have he : texts.toFinset.filter
        (fun t => (heap.interned.insert text heap.objects.size).get? t = none) =
      ((text :: texts).toFinset.filter fun t => heap.interned.get? t = none).erase text := by
    ext t
    simp only [Finset.mem_filter, List.mem_toFinset, Finset.mem_erase, List.mem_cons,
      Table.get?_insert]
    by_cases ht : text = t
    · simp [ht]
    · simp [ht, Ne.symm ht]
  have hmem : text ∈ (text :: texts).toFinset.filter fun t => heap.interned.get? t = none := by
    simp [h]
  have hc := Finset.card_erase_of_mem hmem
  have hpos := Finset.card_pos.mpr ⟨text, hmem⟩
  rw [he, hc, limit_push, objects_push, Array.size_push]
  omega

theorem not_hasRoomFor_cons (h : heap.interned.get? text = none) (hf : ¬heap.size < heap.limit)
    (texts : List String) : ¬heap.HasRoomFor (text :: texts) := by
  have hmem : text ∈ (text :: texts).toFinset.filter fun t => heap.interned.get? t = none := by
    simp [h]
  have hpos := Finset.card_pos.mpr ⟨text, hmem⟩
  unfold HasRoomFor
  omega

end Heap

namespace Store

variable {s : Store} {m : Mention}

def CanMention (s : Store) : Mention → Prop
  | .text text => ∃ w, (s.internText text).1 = .ok w
  | _ => True

def HasRoom (s : Store) : List Mention → Prop
  | [] => True
  | m :: ms => s.CanMention m ∧ (s.mention m).HasRoom ms

theorem hasRoom_append (s : Store) (ms ns : List Mention) :
    s.HasRoom (ms ++ ns) ↔ s.HasRoom ms ∧ (s.mentionAll ms).HasRoom ns := by
  induction ms generalizing s with
  | nil => simp [HasRoom]
  | cons m ms ih =>
    have hall : s.mentionAll (m :: ms) = (s.mention m).mentionAll ms := rfl
    rw [List.cons_append, HasRoom, HasRoom, ih, hall, and_assoc]

theorem heap_mention (h : m.text? = none) : (s.mention m).heap = s.heap := by
  cases m with
  | text text => cases h
  | name name => rfl
  | global name =>
    rw [mention, globalSlot_eq]
    split <;> rfl
  | prototype name arity => rfl
  | site kind => rfl

theorem canMention_of_none (h : m.text? = none) : s.CanMention m := by
  cases m with
  | text text => cases h
  | _ => trivial

theorem hasRoom_iff (s : Store) (ms : List Mention) :
    s.HasRoom ms ↔ s.heap.HasRoomFor (textsOf ms) := by
  induction ms generalizing s with
  | nil => exact iff_of_true trivial s.heap.hasRoomFor_nil
  | cons m ms ih =>
    rw [HasRoom, ih]
    cases ht : m.text? with
    | none =>
      have hs : textsOf (m :: ms) = textsOf ms := List.filterMap_cons_none ht
      rw [hs, heap_mention ht]
      exact and_iff_right (canMention_of_none ht)
    | some text =>
      obtain rfl : m = .text text := by cases m <;> simp_all [Mention.text?]
      have hc : textsOf (.text text :: ms) = text :: textsOf ms := rfl
      rw [hc, CanMention, mention, internText]
      rcases s.heap.internText_cases text with ⟨i, hi, heq⟩ | ⟨hn, ⟨hlt, heq⟩ | ⟨hf, heq⟩⟩ <;>
        rw [heq]
      · rw [Heap.hasRoomFor_cons_of_some hi]
        exact and_iff_right ⟨_, rfl⟩
      · rw [Heap.hasRoomFor_cons_of_none hn hlt]
        exact and_iff_right ⟨_, rfl⟩
      · refine iff_of_false ?_ (Heap.not_hasRoomFor_cons hn hf _)
        rintro ⟨⟨w, hw⟩, _⟩
        cases hw

end Store

structure Lowering.Agrees (l : Lowering) : Prop where
  boxed : ∀ {key frame storage}, l.bindings.get? key = some ⟨frame, storage⟩ →
    (key ∈ l.captured ↔ ∃ index, storage = .boxed index)
  upvalues : ∀ key ∈ l.current.upvalues, key ∈ l.captured

theorem Lowering.Quiet.agrees {l l' : Lowering} (h : l.Quiet l') (ha : l.Agrees) : l'.Agrees where
  boxed hk := by
    rw [h.bindings] at hk
    rw [h.captured]
    exact ha.boxed hk
  upvalues := by
    rw [h.upvalues, h.captured]
    exact ha.upvalues

structure Lowering.Ready (l : Lowering) (sc : Scopes) (caps : List Key) : Prop where
  tidy : l.Tidy
  agrees : l.Agrees
  scopes_eq : l.scopes = sc
  captured_eq : l.captured = caps

def Covers (caps : List Key) (uses : List Use) : Prop :=
  ∀ use ∈ uses, use.Countable ∧ ∀ key, use.Captures key → key ∈ caps

theorem Covers.left (h : Covers caps (uses ++ more)) : Covers caps uses :=
  fun use hu => h use (List.mem_append_left _ hu)

theorem Covers.right (h : Covers caps (uses ++ more)) : Covers caps more :=
  fun use hu => h use (List.mem_append_right _ hu)

theorem Covers.head {use : Use} (h : Covers caps (use :: uses)) : Covers caps [use] :=
  fun _ hu => h _ (List.mem_singleton.mp hu ▸ List.mem_cons_self)

theorem Covers.tail {use : Use} (h : Covers caps (use :: uses)) : Covers caps uses :=
  fun use hu => h use (List.mem_cons_of_mem _ hu)

namespace Lower

variable {α β : Type} {l l' m : Lowering} {sc : Scopes} {caps : List Key}
  {ms : List Mention} {P : Final → FunctionState → Prop} {key : Key} {depth : UInt64}
  {e : CompileError} {count : Nat} {target : Resolution}

structure Decides (x : Lower α) (l : Lowering) (ds : List Duty) (ms : List Mention) : Prop where
  accepted : ∀ {a l'}, x l = .ok a l' →
    l'.Agrees ∧ Met ds ∧ l.store.HasRoom ms ∧ l'.store = l.store.mentionAll ms
  rejected : ∀ {e l'}, x l = .error e l' → (∀ key, e ≠ .captureMismatch key) ∧
    ((unmet? ds).map Duty.error = some e ∨ (∃ full, e = .heap full) ∧ ¬l.store.HasRoom ms)
  stopped : ∀ {e l'}, x l = .error e l' → ∃ met, met <+: ms ∧ l'.store = l.store.mentionAll met

namespace Decides

variable {x : Lower α} {f : α → Lower β} {ds es : List Duty} {ms ns : List Mention}

theorem seq (hx : Decides x l ds ms)
    (hf : ∀ {a m}, x l = .ok a m → m.Agrees → Decides (f a) m es ns) :
    Decides (x >>= f) l (ds ++ es) (ms ++ ns) where
  accepted {b l'} h := by
    obtain ⟨a, m, ha, hb⟩ := bind_eq_ok.mp h
    obtain ⟨hagree, hmet, hroom, hst⟩ := hx.accepted ha
    obtain ⟨hagree', hmet', hroom', hst'⟩ := (hf ha hagree).accepted hb
    rw [hst] at hroom' hst'
    refine ⟨hagree', met_append.mpr ⟨hmet, hmet'⟩,
      (l.store.hasRoom_append ms ns).mpr ⟨hroom, hroom'⟩, ?_⟩
    rw [hst', Store.mentionAll_append]
  rejected {e l'} h := by
    have h : EStateM.bind x f l = .error e l' := h
    unfold EStateM.bind at h
    rw [unmet?_append, Store.hasRoom_append]
    cases ha : x l with
    | error e' m =>
      rw [ha] at h
      cases h
      obtain ⟨hne, hwhy⟩ := hx.rejected ha
      refine ⟨hne, hwhy.imp (fun hu => ?_) fun ⟨hfull, hnot⟩ =>
        ⟨hfull, fun hall => hnot hall.1⟩⟩
      obtain ⟨d, hd, rfl⟩ := Option.map_eq_some_iff.mp hu
      simp [hd]
    | ok a m =>
      rw [ha] at h
      obtain ⟨hagree, hmet, _, hst⟩ := hx.accepted ha
      obtain ⟨hne, hwhy⟩ := (hf ha hagree).rejected h
      rw [hst] at hwhy
      rw [unmet?_eq_none.mpr hmet, Option.none_or]
      exact ⟨hne, hwhy.imp_right fun ⟨hfull, hnot⟩ => ⟨hfull, fun hall => hnot hall.2⟩⟩
  stopped {e l'} h := by
    have h : EStateM.bind x f l = .error e l' := h
    unfold EStateM.bind at h
    cases ha : x l with
    | error e' m =>
      rw [ha] at h
      cases h
      obtain ⟨met, hmet, hst⟩ := hx.stopped ha
      exact ⟨met, hmet.trans (List.prefix_append ms ns), hst⟩
    | ok a m =>
      rw [ha] at h
      obtain ⟨hagree, _, _, hst⟩ := hx.accepted ha
      obtain ⟨met, hmet, hst'⟩ := (hf ha hagree).stopped h
      refine ⟨ms ++ met, (List.prefix_append_right_inj ms).mpr hmet, ?_⟩
      rw [hst', hst, Store.mentionAll_append]

theorem adds (hx : Decides x l ds ms)
    (hf : ∀ {a m}, x l = .ok a m → m.Agrees → Decides (f a) m [] ns) :
    Decides (x >>= f) l ds (ms ++ ns) := by
  simpa using hx.seq hf

theorem after (hx : Decides x l [] ms)
    (hf : ∀ {a m}, x l = .ok a m → m.Agrees → Decides (f a) m es ns) :
    Decides (x >>= f) l es (ms ++ ns) :=
  hx.seq hf

theorem follow (hx : Decides x l ds ms)
    (hf : ∀ {a m}, x l = .ok a m → m.Agrees → Decides (f a) m [] []) :
    Decides (x >>= f) l ds ms := by
  simpa using hx.adds hf

theorem lead (hx : Decides x l [] [])
    (hf : ∀ {a m}, x l = .ok a m → m.Agrees → Decides (f a) m es ns) :
    Decides (x >>= f) l es ns :=
  hx.seq hf

theorem meets (h : Decides x l [] ms) (hmet : Met ds) : Decides x l ds ms where
  accepted hx := by
    obtain ⟨ha, _, hst⟩ := h.accepted hx
    exact ⟨ha, hmet, hst⟩
  rejected hx := by
    obtain ⟨hne, hwhy⟩ := h.rejected hx
    exact ⟨hne, .inr (hwhy.resolve_left nofun)⟩
  stopped := h.stopped

theorem of_ok {a : α} (h : x l = .ok a l') (ha : l'.Agrees) (hs : l'.store = l.store) :
    Decides x l [] [] where
  accepted hx := by
    rw [h] at hx
    cases hx
    exact ⟨ha, met_nil, trivial, hs⟩
  rejected hx := nomatch h.symm.trans hx
  stopped hx := nomatch h.symm.trans hx

theorem of_throw (he : ∀ key, e ≠ .captureMismatch key)
    (hu : (unmet? ds).map Duty.error = some e) : Decides (throw e : Lower α) l ds ms where
  accepted hx := absurd hx throw_eq_ok
  rejected {e' l'} hx := by
    have hx : EStateM.Result.error e l = (.error e' l' : EStateM.Result CompileError Lowering α) :=
      hx
    cases hx
    exact ⟨he, .inl hu⟩
  stopped {e' l'} hx := by
    have hx : EStateM.Result.error e l = (.error e' l' : EStateM.Result CompileError Lowering α) :=
      hx
    cases hx
    exact ⟨[], List.nil_prefix, rfl⟩

theorem done {a : α} (ha : l.Agrees) : Decides (pure a : Lower α) l [] [] := of_ok rfl ha rfl

theorem of_get {f : Lowering → Lower β} (h : Decides (f l) l ds ms) : Decides (get >>= f) l ds ms :=
  ⟨h.accepted, h.rejected, h.stopped⟩

end Decides

theorem Evaluates.ready (h : Evaluates l m ms P) (hr : l.Ready sc caps) (ha : m.Agrees) :
    m.Ready sc caps :=
  ⟨h.tidy, ha, h.scopes.trans hr.scopes_eq, h.grows.captured.trans hr.captured_eq⟩

theorem Executes.ready {sc' : Scopes} {code : List Instr} (h : Executes l m sc' code ms P)
    (hcap : l.captured = caps) (ha : m.Agrees) : m.Ready sc' caps :=
  ⟨h.tidy, ha, h.scopes_eq, h.grows.captured.trans hcap⟩

section

variable (ha : l.Agrees)

include ha

theorem refer_decides (declaration : Nat) : Decides (refer declaration) l [] [] :=
  have hq : l.Quiet _ := refer_quiet rfl
  .of_ok rfl (hq.agrees ha) rfl

theorem use_decides (service : Service) : Decides (use service) l [] [] := by
  refine .of_get ?_
  split
  · exact refer_decides ha _
  · exact Decides.lead (.of_ok rfl ⟨ha.boxed, ha.upvalues⟩ rfl) fun _ ha =>
      Decides.lead (.of_ok rfl ⟨ha.boxed, ha.upvalues⟩ rfl) fun _ ha => refer_decides ha _

theorem useIf_decides (condition : Bool) (service : Service) :
    Decides (useIf condition service) l [] [] := by
  unfold useIf
  split
  · exact use_decides ha service
  · exact .done ha

theorem newVariable_decides : Decides newVariable l [] [] :=
  .of_ok rfl ⟨ha.boxed, ha.upvalues⟩ rfl

theorem onScopes_decides (f : Scopes → Scopes) : Decides (onScopes f) l [] [] :=
  .of_ok rfl ⟨ha.boxed, ha.upvalues⟩ rfl

theorem onStore_decides {f : Store → α × Store} {mention : Mention}
    (hm : (f l.store).2 = l.store.mention mention) (hn : mention.text? = none) :
    Decides (onStore f) l [] [mention] where
  accepted hx := by
    obtain ⟨_, rfl⟩ := onStore_eq_ok.mp hx
    exact ⟨⟨ha.boxed, ha.upvalues⟩, met_nil, ⟨Store.canMention_of_none hn, trivial⟩, hm⟩
  rejected {e l'} hx := by
    have hx : EStateM.Result.ok (f l.store).1 { l with store := (f l.store).2 } = .error e l' := hx
    cases hx
  stopped {e l'} hx := by
    have hx : EStateM.Result.ok (f l.store).1 { l with store := (f l.store).2 } = .error e l' := hx
    cases hx

theorem intern_decides (name : String) : Decides (onStore (·.intern name)) l [] [.name name] :=
  onStore_decides ha rfl rfl

theorem globalSlot_decides (name : String) :
    Decides (onStore (·.globalSlot name)) l [] [.global name] :=
  onStore_decides ha rfl rfl

end

def Owns (l : Lowering) (key : Key) : Prop :=
  ∃ storage, l.bindings.get? key = some ⟨l.scopes.frame, storage⟩

theorem Owns.grows (h : Owns l key) (hg : l.Grows l') : Owns l' key := by
  obtain ⟨storage, hk⟩ := h
  exact ⟨storage, by rw [hg.frame]; exact hg.bindings hk⟩

def Finds (l : Lowering) (key : Key) : Prop :=
  ∃ frame storage, l.bindings.get? key = some ⟨frame, storage⟩ ∧
    (frame ≠ l.scopes.frame → key ∈ l.captured)

theorem Owns.finds (h : Owns l key) : Finds l key := by
  obtain ⟨storage, hk⟩ := h
  exact ⟨_, storage, hk, fun hne => absurd rfl hne⟩

theorem declareLocal_decides (ha : l.Agrees) (name : String) (value : Code) :
    Decides (declareLocal name value) l [] [] := by
  refine (newVariable_decides ha).lead fun hv hav => .of_get ?_
  refine (useIf_decides hav _ _).lead fun hu hau => ?_
  have hq := useIf_quiet hu
  refine Decides.lead (.of_ok rfl ⟨?_, hau.upvalues⟩ rfl) fun _ hab =>
    (onScopes_decides hab _).lead fun _ has => .done has
  intro key frame storage hk
  have hk : (Table.insert _ _ _).get? key = _ := hk
  rw [Table.get?_insert] at hk
  split at hk
  · next hkey =>
    obtain ⟨_, rfl⟩ := Binding.mk.inj (Option.some.inj hk)
    show key ∈ _ ↔ _
    rw [hq.captured, ← hkey, hq.scopes, ← List.contains_iff_mem]
    split <;> simp_all
  · exact hau.boxed hk

theorem declareLocal_owns {name : String} {value : Code} {instr : Instr}
    (h : declareLocal name value l = .ok instr l') : Owns l' l.scopes.nextKey := by
  obtain ⟨_, hq⟩ := declareLocal_inv h
  refine ⟨nextStorage l, ?_⟩
  rw [hq.bindings, Lowering.declared_get?, if_pos rfl, hq.scopes, Lowering.declared_frame]

theorem bindingOf_eq {b : Binding} (h : l.bindings.get? key = some b) :
    bindingOf key l = .ok b l := by
  refine bind_eq_ok.mpr ⟨l, l, get_eq_ok.mpr ⟨rfl, rfl⟩, ?_⟩
  rw [h]
  rfl

theorem upvalue_decides (ha : l.Agrees) (hk : key ∈ l.captured) :
    Decides (upvalue key) l [] [] := by
  refine .of_get ?_
  split
  · exact .done ha
  · refine .of_ok rfl ⟨ha.boxed, fun k hmem => ?_⟩ rfl
    rcases List.mem_append.mp hmem with hmem | hmem
    · exact ha.upvalues k hmem
    · rw [List.mem_singleton.mp hmem]
      exact hk

theorem cellOf_decides (ha : l.Agrees) {frame index : Nat}
    (h : l.bindings.get? key = some ⟨frame, .boxed index⟩) : Decides (cellOf key) l [] [] := by
  refine Decides.lead (.of_ok (bindingOf_eq h) ha rfl) fun hb _ => ?_
  rw [bindingOf_eq h] at hb
  cases hb
  refine .of_get ?_
  split
  · exact .done ha
  · exact (upvalue_decides ha ((ha.boxed h).mpr ⟨index, rfl⟩)).lead fun _ hau =>
      (use_decides hau _).lead fun _ hu => .done hu

theorem cellsOf_decides (ht : l.Tidy) (ha : l.Agrees) {keys : List Key}
    (ho : ∀ key ∈ keys, l.scopes.Opens key)
    (hcap : ∀ key ∈ keys, key ∈ l.captured) : Decides (cellsOf keys) l [] [] := by
  induction keys generalizing l with
  | nil => exact .done ha
  | cons key keys ih =>
    obtain ⟨scope, hs, n, hent⟩ := ho key List.mem_cons_self
    obtain ⟨storage, hb⟩ := ht.bound scope hs hent
    obtain ⟨index, rfl⟩ := (ha.boxed hb).mp (hcap key List.mem_cons_self)
    refine (cellOf_decides ha hb).lead fun hc hac => ?_
    have hy := cellOf_yields ht ⟨scope, hs, n, hent⟩ hc
    refine (ih hy.tidy hac ?_ ?_).lead fun _ har => .done har
    · rw [hy.scopes]
      exact fun k hk => ho k (List.mem_cons_of_mem _ hk)
    · rw [hy.grows.captured]
      exact fun k hk => hcap k (List.mem_cons_of_mem _ hk)

section

variable (ha : l.Agrees) (h : Finds l key)

include ha h

theorem ownVariable?_of_finds : (∃ index, ownVariable? key l = .ok (some index) l) ∨
      ∃ frame index, ownVariable? key l = .ok none l ∧
        l.bindings.get? key = some ⟨frame, .boxed index⟩ := by
  obtain ⟨frame, storage, hb, hfor⟩ := h
  have hf := bindingOf_eq hb
  cases storage with
  | direct index =>
    have hfr : frame = l.scopes.frame := by
      by_contra hne
      obtain ⟨_, heq⟩ := (ha.boxed hb).mp (hfor hne)
      cases heq
    refine .inl ⟨index, (bind_of_ok hf _).trans ?_⟩
    refine bind_eq_ok.mpr ⟨l, l, get_eq_ok.mpr ⟨rfl, rfl⟩, ?_⟩
    rw [if_pos hfr]
    rfl
  | boxed index => exact .inr ⟨frame, index, bind_of_ok hf _, hb⟩

theorem ownVariable?_decides {f : Option Nat → Lower α}
    (hown : ∀ index, Decides (f (some index)) l [] [])
    (hc : Decides (cellOf key) l [] [] → Decides (f none) l [] []) :
    Decides (ownVariable? key >>= f) l [] [] := by
  rcases ownVariable?_of_finds ha h with ⟨index, heq⟩ | ⟨frame, index, heq, hb⟩
  · refine Decides.lead (.of_ok heq ha rfl) fun hx _ => ?_
    rw [heq] at hx
    cases hx
    exact hown index
  · refine Decides.lead (.of_ok heq ha rfl) fun hx _ => ?_
    rw [heq] at hx
    cases hx
    exact hc (cellOf_decides ha hb)

theorem readKey_decides : Decides (readKey key) l [] [] :=
  ownVariable?_decides ha h (fun _ => .done ha) fun hc => hc.lead fun _ hac =>
    (use_decides hac _).lead fun _ hu => .done hu

theorem assignKey_decides (value : Code) : Decides (assignKey key value) l [] [] :=
  ownVariable?_decides ha h (fun _ => .done ha) fun hc => hc.lead fun _ hac =>
    (use_decides hac _).lead fun _ hu => .done hu

end

theorem local_decides (hr : l.Ready sc caps) {name : String}
    (hc : Covers caps [⟨sc, name, depth⟩]) {f : Key → Lower α} (d : Duty)
    (hd : d.met = sc.nest.holds name depth) (he : ∀ key, d.error ≠ .captureMismatch key)
    (hf : ∀ key, Finds l key → Decides (f key) l [] []) :
    Decides (do
      match ← resolve? name depth with
      | some key => f key
      | none => throw d.error) l [d] [] := by
  obtain ⟨rfl, rfl⟩ := And.intro hr.scopes_eq hr.captured_eq
  obtain ⟨hcnt, hcover⟩ := hc _ List.mem_cons_self
  obtain ⟨found, hfound⟩ := Use.resolve_of_countable hcnt
  have hmet : (∃ d, Use.LeadsTo ⟨l.scopes, name, depth⟩ d) ↔ d.met := by
    rw [hd, Nest.holds_iff]
    exact Use.exists_leadsTo_iff hcnt
  have hres : resolve? name depth l = .ok (found.map (·.key)) l := by
    refine bind_eq_ok.mpr ⟨l, l, get_eq_ok.mpr ⟨rfl, rfl⟩, ?_⟩
    rw [hfound]
    rfl
  refine Decides.lead (.of_ok hres hr.agrees rfl) fun hx _ => ?_
  rw [hres] at hx
  cases hx
  cases found with
  | none =>
    have hu : d.met = false := by
      by_contra hh
      obtain ⟨_, hl⟩ := hmet.mpr (Bool.not_eq_false _ ▸ hh)
      cases hfound.symm.trans hl
    exact .of_throw he (by simp [unmet?, hu])
  | some found =>
    obtain ⟨frame, key⟩ := found
    obtain ⟨_, storage, hb⟩ := resolve_declared hr.tidy hfound
    have hfinds : Finds l key :=
      ⟨frame, storage, hb, fun hne => hcover key ⟨frame, hne, hfound⟩⟩
    exact (hf key hfinds).meets (by simpa using hmet.mp ⟨_, hfound⟩)

theorem checkCount_inv {u : Unit} (h : checkCount count e l = .ok u l') : l' = l := by
  unfold checkCount at h
  split at h
  · exact absurd h throw_eq_ok
  · exact (pure_eq_ok.mp h).2.symm

theorem literal_decides (ha : l.Agrees) (value : Literal) :
    Decides (literal value) l [] (Expr.literal value).mentions := by
  cases value with
  | nil | bool | number => exact .done ha
  | text text =>
    cases hw : (l.store.internText text).1 with
    | ok w =>
      have heq : literal (.text text) l =
          .ok (.constant w) { l with store := (l.store.internText text).2 } := by
        rw [literal, bind_of_ok (onStore_eq_ok.mpr ⟨hw.symm, rfl⟩)]
        rfl
      refine ⟨fun h => ?_, fun h => ?_, fun h => ?_⟩ <;> cases heq.symm.trans h
      exact ⟨⟨ha.boxed, ha.upvalues⟩, met_nil, ⟨⟨w, hw⟩, trivial⟩, rfl⟩
    | error e =>
      have heq : literal (.text text) l =
          .error (.heap e) { l with store := (l.store.internText text).2 } := by
        rw [literal, bind_of_ok (onStore_eq_ok.mpr ⟨hw.symm, rfl⟩)]
        rfl
      refine ⟨fun h => ?_, fun h => ?_, fun h => ?_⟩ <;> cases heq.symm.trans h
      · refine ⟨fun _ => by rintro ⟨⟩, .inr ⟨⟨e, rfl⟩, ?_⟩⟩
        rintro ⟨⟨w, hok⟩, _⟩
        cases hw.symm.trans hok
      · exact ⟨_, List.prefix_rfl, rfl⟩

section

variable (hr : l.Ready sc caps)

include hr

theorem read_decides {name : Ident} (hc : Covers caps (target.uses sc name.name)) :
    Decides (read name target) l (target.duties sc name) (target.mentions name.name) := by
  cases target with
  | global =>
    exact (globalSlot_decides hr.agrees _).follow fun _ ha => (use_decides ha _).lead fun _ hu =>
      .done hu
  | scope depth =>
    exact local_decides hr hc (.reach ⟨sc, name.name, depth⟩ name.line) rfl nofun
      fun key hk => readKey_decides hr.agrees hk

theorem assign_decides {name : Ident} (value : Code) (hc : Covers caps (target.uses sc name.name)) :
    Decides (assign name value target) l (target.duties sc name) (target.mentions name.name) := by
  cases target with
  | global =>
    exact (globalSlot_decides hr.agrees _).follow fun _ ha => (use_decides ha _).lead fun _ hu =>
      .done hu
  | scope depth =>
    exact local_decides hr hc (.reach ⟨sc, name.name, depth⟩ name.line) rfl nofun
      fun key hk => assignKey_decides hr.agrees hk value

theorem readImplicit_decides (keyword : Ident) {name : String}
    (hc : Covers caps [⟨sc, name, depth⟩]) :
    Decides (readImplicit keyword name depth) l [.receiver ⟨sc, name, depth⟩ keyword] [] :=
  local_decides hr hc (.receiver _ _) rfl nofun fun _ hk => readKey_decides hr.agrees hk

theorem self_decides (keyword : Ident) (hc : Covers caps (target.uses sc "this")) :
    Decides (self keyword target) l (target.selfDuties sc keyword) [] := by
  cases target with
  | global => exact .of_throw nofun rfl
  | scope depth => exact readImplicit_decides hr keyword hc

theorem super_decides (keyword : Ident) (method : String)
    (hc : Covers caps (target.superUses sc)) : Decides (super keyword method target) l
      (target.superDuties sc keyword) [.name method] := by
  cases target with
  | global => exact .of_throw nofun rfl
  | scope depth =>
    rw [super, Resolution.superDuties]
    by_cases hd : depth = 0
    · rw [if_pos hd, if_pos hd]
      exact .of_throw nofun rfl
    · rw [if_neg hd, if_neg hd]
      rw [Resolution.superUses, if_neg hd] at hc
      exact (readImplicit_decides hr keyword hc.head).seq fun hs has =>
        (readImplicit_decides ((readImplicit_yields hr.tidy hs).ready hr has) keyword hc.tail).seq
          fun _ hat => (intern_decides hat method).follow fun _ hai =>
            (use_decides hai _).lead fun _ hu => .done hu

end

theorem checkCount_decides (ha : l.Agrees) (he : ∀ key, e ≠ .captureMismatch key) :
    Decides (checkCount count e) l [.check (count ≤ maxArity) e] [] := by
  unfold checkCount
  split
  · next hlt => exact .of_throw he (by simp [unmet?, Duty.met, Duty.error, hlt])
  · next hle => exact (Decides.done ha).meets (by simpa [Duty.met] using hle)

mutual

theorem expr_decides : ∀ (e : Expr) {l : Lowering}, l.Ready sc caps → Covers caps (e.uses sc) →
      Decides (expr e) l (e.duties sc) e.mentions
  | .literal value, _, hr, _ => by
    exact literal_decides hr.agrees value
  | .group inner, _, hr, hc => by
    exact expr_decides inner hr hc
  | .unary .negate operand, _, hr, hc => by
    exact (expr_decides operand hr hc).follow fun _ ha =>
      (use_decides ha _).lead fun _ hu => .done hu
  | .unary .not operand, _, hr, hc => by
    exact (expr_decides operand hr hc).follow fun _ ha => .done ha
  | .binary op left right, _, hr, hc => by
    refine (expr_decides left hr hc.left).seq fun hx ha => ?_
    have hm := (expr_yields left hr.tidy hx).ready hr ha
    exact (expr_decides right hm hc.right).follow fun _ ha => (use_decides ha _).lead fun _ hu =>
      .done hu
  | .logical op left right, _, hr, hc => by
    refine (expr_decides left hr hc.left).seq fun hx ha => ?_
    have hm := (expr_yields left hr.tidy hx).ready hr ha
    exact (expr_decides right hm hc.right).follow fun _ ha => .done ha
  | .read name target, _, hr, hc => by
    exact read_decides hr hc
  | .assign name target value, _, hr, hc => by
    refine (expr_decides value hr hc.left).seq fun hx ha => ?_
    exact assign_decides ((expr_yields value hr.tidy hx).ready hr ha) _ hc.right
  | .call callee arguments line, l, hr, hc => by
    have hcnt : ∀ key, CompileError.tooManyArguments line ≠ .captureMismatch key := nofun
    refine (checkCount_decides hr.agrees hcnt).seq fun hn _ => ?_
    obtain rfl := checkCount_inv hn
    refine (expr_decides callee hr hc.left).seq fun hx ha => ?_
    have hm := (expr_yields callee hr.tidy hx).ready hr ha
    exact (exprs_decides arguments hm hc.right).follow fun _ ha => (use_decides ha _).lead
      fun _ hu => .done hu
  | .get object name, _, hr, hc => by
    exact (expr_decides object hr hc).adds fun _ ha =>
      (onStore_decides ha rfl rfl : Decides _ _ _ [.site .get]).adds fun _ ha =>
        (intern_decides ha name).follow fun _ ha => (use_decides ha _).lead fun _ hu => .done hu
  | .set object name value, _, hr, hc => by
    rw [expr, Expr.mentions, List.append_assoc]
    refine (expr_decides object hr hc.left).seq fun hx ha => ?_
    have hm := (expr_yields object hr.tidy hx).ready hr ha
    exact (expr_decides value hm hc.right).adds fun _ ha =>
      (onStore_decides ha rfl rfl : Decides _ _ _ [.site .set]).adds fun _ ha =>
        (intern_decides ha name).follow fun _ ha => (use_decides ha _).lead fun _ hu => .done hu
  | .self keyword target, _, hr, hc => by
    exact self_decides hr keyword hc
  | .super keyword method target, _, hr, hc => by
    exact super_decides hr keyword method hc

theorem exprs_decides : ∀ (es : List Expr) {l : Lowering}, l.Ready sc caps →
    Covers caps (usesOfArguments sc es) →
      Decides (exprs es) l (dutiesOfArguments sc es) (mentionsOfArguments es)
  | [], _, hr, _ => by
    exact .done hr.agrees
  | e :: rest, _, hr, hc => by
    refine (expr_decides e hr hc.left).seq fun hx ha => ?_
    have hm := (expr_yields e hr.tidy hx).ready hr ha
    exact (exprs_decides rest hm hc.right).follow fun _ ha => .done ha

end

theorem expr?_decides (initial : Option Expr) (hr : l.Ready sc caps)
    (hc : Covers caps (usesOfInitial sc initial)) :
    Decides (expr? initial) l (dutiesOfInitial sc initial) (mentionsOfInitial initial) := by
  cases initial with
  | none => exact .done hr.agrees
  | some e => exact expr_decides e hr hc

end Lower

end ScriptMachine
