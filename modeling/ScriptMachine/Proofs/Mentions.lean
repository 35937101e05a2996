/-
ScriptMachine.Proofs.Mentions — what lowering a program does to the store.
-/
import ScriptMachine.Lowering.Program
import Mathlib.Data.List.Basic

namespace ScriptMachine

variable {α : Type} {i : Nat}

inductive Mention where
  | text (s : String)
  | name (s : String)
  | global (name : String)
  | prototype (name : String) (arity : Nat)
  | site (kind : SiteKind)

def Store.mention (s : Store) : Mention → Store
  | .text text => (s.internText text).2
  | .name name => (s.intern name).2
  | .global name => (s.globalSlot name).2
  | .prototype name arity => (s.addPrototype name arity).2
  | .site kind => (s.addSite kind).2

def Store.mentionAll (s : Store) (mentions : List Mention) : Store :=
  mentions.foldl Store.mention s

@[simp] theorem Store.mentionAll_nil (s : Store) : s.mentionAll [] = s := rfl

theorem Store.mentionAll_append (s : Store) (ms ns : List Mention) :
    s.mentionAll (ms ++ ns) = (s.mentionAll ms).mentionAll ns := by
  simp [Store.mentionAll]

/-- The slot of a global, by name. -/
def Store.slotOf? (s : Store) (name : String) : Option Nat := do
  let symbol ← s.names.find? name
  s.globalSlot? symbol

theorem getElem?_push_of_some {xs : Array α} {a b : α} (h : xs[i]? = some a) :
    (xs.push b)[i]? = some a := by
  have hlt : i < xs.size := (Array.getElem?_eq_some_iff.mp h).1
  rw [Array.getElem?_push, if_neg (Nat.ne_of_lt hlt), h]

section

variable [BEq α] [LawfulBEq α] {xs : List α} {a : α}

theorem eraseDups_concat_of_not_mem (hnew : a ∉ xs) :
    (xs ++ [a]).eraseDups = xs.eraseDups ++ [a] := by
  rw [List.eraseDups_append, List.cons_removeAll]
  simp [hnew, List.eraseDups_cons]

theorem eraseDups_concat_of_mem (hold : a ∈ xs) : (xs ++ [a]).eraseDups = xs.eraseDups := by
  rw [List.eraseDups_append, List.cons_removeAll]
  simp [hold]

end

structure Names.Grows (names names' : Names) : Prop where
  find : ∀ {name symbol}, names.find? name = some symbol → names'.find? name = some symbol
  spelling : ∀ {symbol : Symbol} {text : String},
    names.texts[symbol]? = some text → names'.texts[symbol]? = some text

theorem Names.Grows.refl (names : Names) : names.Grows names := ⟨id, id⟩

theorem Names.Grows.trans {a b c : Names} (h : a.Grows b) (h' : b.Grows c) : a.Grows c :=
  ⟨fun hf => h'.find (h.find hf), fun hs => h'.spelling (h.spelling hs)⟩

theorem Names.find?_intern (names : Names) (name : String) :
    (names.intern name).2.find? name = some (names.intern name).1 := by
  unfold Names.intern
  split
  · next hf => exact hf
  · exact (Table.get?_insert ..).trans (if_pos rfl)

theorem Names.grows_intern (names : Names) (name : String) :
    names.Grows (names.intern name).2 := by
  unfold Names.intern
  split
  · exact .refl names
  · next hnew =>
    have hspe : ∀ {symbol : Symbol} {text : String}, names.texts[symbol]? = some text →
        (names.add name hnew).texts[symbol]? = some text := getElem?_push_of_some
    -- what is found is what is spelled
    refine ⟨fun hf => ?_, hspe⟩
    exact ((names.add name hnew).inverse _ _).mpr (hspe ((names.inverse _ _).mp hf))

structure Store.Prepares (s s' : Store) : Prop where
  names : s.names.Grows s'.names
  slot : ∀ {symbol i}, s.globalSlot? symbol = some i → s'.globalSlot? symbol = some i
  globals : ∀ {i : Nat} {g : Global}, s.globals[i]? = some g → s'.globals[i]? = some g
  globals_new : ∀ {i : Nat} {g : Global},
    s'.globals[i]? = some g → s.globals[i]? = some g ∨ g.value = none
  interned : ∀ {t i}, s.heap.interned.get? t = some i → s'.heap.interned.get? t = some i
  interned_new : ∀ {t i}, s'.heap.interned.get? t = some i →
    s.heap.interned.get? t = some i ∨ s'.heap.objects[i]? = some (.text t)
  objects : ∀ {i : Nat} {o : Object}, s.heap.objects[i]? = some o → s'.heap.objects[i]? = some o
  objects_new : ∀ {i : Nat} {o : Object}, s'.heap.objects[i]? = some o →
    s.heap.objects[i]? = some o ∨ ∃ t, o = .text t
  limit : s'.heap.limit = s.heap.limit
  size_le : s.heap.size ≤ s.heap.limit → s'.heap.size ≤ s'.heap.limit
  prototypes : ∀ {i : Nat} {p : Prototype},
    s.prototypes[i]? = some p → s'.prototypes[i]? = some p
  sites : ∀ {i : Nat} {x : Site}, s.sites[i]? = some x → s'.sites[i]? = some x
  sites_new : ∀ {i : Nat} {x : Site},
    s'.sites[i]? = some x → s.sites[i]? = some x ∨ ∃ kind, x = { kind := kind }
  shapes : s'.shapes = s.shapes
  initializer : s'.initializer = s.initializer
  pending : s'.pending = s.pending
  error : s'.error = s.error
  depth : s'.depth = s.depth
  maxDepth : s'.maxDepth = s.maxDepth
  printed : s'.printed = s.printed
  muted : s'.muted = s.muted

namespace Store.Prepares

variable {s s' : Store}

theorem refl (s : Store) : s.Prepares s := by
  constructor <;> first | exact .refl _ | exact id | exact .inl

theorem trans {a b c : Store} (h : a.Prepares b) (h' : b.Prepares c) : a.Prepares c where
  names := h.names.trans h'.names
  slot hs := h'.slot (h.slot hs)
  globals hg := h'.globals (h.globals hg)
  globals_new hg := (h'.globals_new hg).elim h.globals_new .inr
  interned hi := h'.interned (h.interned hi)
  interned_new hi := (h'.interned_new hi).elim
    (fun hb => (h.interned_new hb).imp_right h'.objects) .inr
  objects ho := h'.objects (h.objects ho)
  objects_new ho := (h'.objects_new ho).elim h.objects_new .inr
  limit := h'.limit.trans h.limit
  size_le hs := h'.size_le (h.size_le hs)
  prototypes hp := h'.prototypes (h.prototypes hp)
  sites hs := h'.sites (h.sites hs)
  sites_new hs := (h'.sites_new hs).elim h.sites_new .inr
  shapes := h'.shapes.trans h.shapes
  initializer := h'.initializer.trans h.initializer
  pending := h'.pending.trans h.pending
  error := h'.error.trans h.error
  depth := h'.depth.trans h.depth
  maxDepth := h'.maxDepth.trans h.maxDepth
  printed := h'.printed.trans h.printed
  muted := h'.muted.trans h.muted

theorem slotOf (h : s.Prepares s') {name : String} (hi : s.slotOf? name = some i) :
    s'.slotOf? name = some i := by
  simp only [Store.slotOf?, Option.bind_eq_bind, Option.bind_eq_some_iff] at hi ⊢
  obtain ⟨symbol, hf, hs⟩ := hi
  exact ⟨symbol, h.names.find hf, h.slot hs⟩

theorem sites_size_le (h : s.Prepares s') : s.sites.size ≤ s'.sites.size := by
  by_contra hlt
  have hlt : s'.sites.size < s.sites.size := Nat.lt_of_not_le hlt
  have := h.sites (Array.getElem?_eq_getElem hlt)
  simp at this

end Store.Prepares

theorem getElem?_push_cases {xs : Array α} {a b : α} (h : (xs.push b)[i]? = some a) :
    xs[i]? = some a ∨ a = b := by
  rw [Array.getElem?_push] at h
  split at h
  · exact .inr (Option.some.inj h).symm
  · exact .inl h

theorem getElem?_setIfInBounds_cases {xs : Array α} {a b : α} {k : Nat}
    (h : (xs.setIfInBounds k b)[i]? = some a) : xs[i]? = some a ∨ i = k ∧ a = b := by
  grind

namespace Store

theorem prepares_names (s : Store) (names : Names) (h : s.names.Grows names) :
    s.Prepares { s with names := names } :=
  { Prepares.refl s with names := h }

theorem prepares_intern (s : Store) (name : String) : s.Prepares (s.intern name).2 :=
  s.prepares_names _ (s.names.grows_intern name)

theorem globalSlot_eq (s : Store) (name : String) :
    s.globalSlot name =
      match (s.intern name).2.globalSlot? (s.intern name).1 with
      | some slot => (slot, (s.intern name).2)
      | none =>
        ((s.intern name).2.globals.size,
          { (s.intern name).2 with
            globals := (s.intern name).2.globals.push { name := (s.intern name).1 } }) := rfl

theorem prepares_globalSlot (s : Store) (name : String) : s.Prepares (s.globalSlot name).2 := by
  refine (s.prepares_intern name).trans ?_
  rw [globalSlot_eq]
  generalize (s.intern name).2 = t
  generalize (s.intern name).1 = symbol
  cases hs : t.globalSlot? symbol with
  | some slot => exact .refl t
  | none =>
    refine { Prepares.refl t with slot := ?_, globals := getElem?_push_of_some, globals_new := ?_ }
    · intro other i hi
      simp only [globalSlot?, Array.findIdx?_push] at hi ⊢
      simp [hi]
    · intro i g hg
      exact (getElem?_push_cases hg).imp_right fun h => by rw [h]

theorem prepares_addPrototype (s : Store) (name : String) (arity : Nat) :
    s.Prepares (s.addPrototype name arity).2 :=
  (s.prepares_intern name).trans
    { Prepares.refl _ with prototypes := getElem?_push_of_some }

theorem prepares_addSite (s : Store) (kind : SiteKind) : s.Prepares (s.addSite kind).2 :=
  { Prepares.refl s with
    sites := getElem?_push_of_some
    sites_new := fun h => (getElem?_push_cases h).imp_right fun h => ⟨_, h⟩ }

end Store

theorem Heap.internText_cases (heap : Heap) (text : String) :
    (∃ i, heap.interned.get? text = some i ∧ heap.internText text = .ok (i, heap)) ∨
    (heap.interned.get? text = none ∧
      ((heap.size < heap.limit ∧ heap.internText text = .ok (heap.size,
          { heap.push (.text text) with interned := heap.interned.insert text heap.size })) ∨
        (¬heap.size < heap.limit ∧ heap.internText text = .error (.exhausted heap.size)))) := by
  unfold Heap.internText Heap.allocate
  cases hi : heap.interned.get? text with
  | some i => simp
  | none =>
    by_cases hs : heap.size < heap.limit
    · simp [hs, bind, Except.bind, pure, Except.pure]
    · simp [hs]

namespace Store

theorem prepares_internText (s : Store) (text : String) : s.Prepares (s.internText text).2 := by
  unfold internText
  rcases s.heap.internText_cases text with ⟨i, _, h⟩ | ⟨hn, ⟨hlt, h⟩ | ⟨_, h⟩⟩ <;> rw [h]
  · exact .refl s
  · refine
      { Prepares.refl s with
        interned := ?_, interned_new := ?_, objects := getElem?_push_of_some
        objects_new := ?_, size_le := ?_ }
    · intro t i hi
      show (s.heap.interned.insert text s.heap.size).get? t = some i
      rw [Table.get?_insert, if_neg, hi]
      rintro rfl
      simp [hn] at hi
    · intro t i hi
      have hi : (s.heap.interned.insert text s.heap.size).get? t = some i := hi
      rw [Table.get?_insert] at hi
      split at hi
      · next ht =>
        obtain rfl : s.heap.size = i := Option.some.inj hi
        exact .inr (by simp [Heap.size, ht])
      · exact .inl hi
    · intro i o ho
      exact (getElem?_push_cases ho).imp_right fun h => ⟨text, h⟩
    · intro _
      show (s.heap.objects.push _).size ≤ s.heap.limit
      rw [Array.size_push]
      exact hlt
  · exact .refl s

theorem prepares_mention (s : Store) (m : Mention) : s.Prepares (s.mention m) := by
  cases m with
  | text text => exact s.prepares_internText text
  | name name => exact s.prepares_intern name
  | global name => exact s.prepares_globalSlot name
  | prototype name arity => exact s.prepares_addPrototype name arity
  | site kind => exact s.prepares_addSite kind

theorem prepares_mentionAll (s : Store) (ms : List Mention) : s.Prepares (s.mentionAll ms) := by
  induction ms generalizing s with
  | nil => exact .refl s
  | cons m ms ih => exact (s.prepares_mention m).trans (ih (s.mention m))

end Store

def Resolution.mentions (name : String) : Resolution → List Mention
  | .global => [.global name]
  | .scope _ => []

mutual

def Expr.mentions : Expr → List Mention
  | .literal (.text s) => [.text s]
  | .literal _ => []
  | .group inner => inner.mentions
  | .unary _ operand => operand.mentions
  | .binary _ left right => left.mentions ++ right.mentions
  | .logical _ left right => left.mentions ++ right.mentions
  | .read name target => target.mentions name.name
  | .assign name target value => value.mentions ++ target.mentions name.name
  | .call callee arguments _ => callee.mentions ++ mentionsOfArguments arguments
  | .get object name => object.mentions ++ [.site .get, .name name]
  | .set object name value => object.mentions ++ value.mentions ++ [.site .set, .name name]
  | .self _ _ => []
  | .super _ method _ => [.name method]

def mentionsOfArguments : List Expr → List Mention
  | [] => []
  | e :: rest => e.mentions ++ mentionsOfArguments rest

end

def mentionsOfInitial : Option Expr → List Mention
  | none => []
  | some e => e.mentions

def mentionsOfName (atTop : Bool) (name : String) : List Mention :=
  if atTop then [.global name] else []

mutual

def Stmt.mentions (atTop : Bool) : Stmt → List Mention
  | .expression e => e.mentions
  | .print e => e.mentions
  | .declare name initial => mentionsOfInitial initial ++ mentionsOfName atTop name
  | .block body => mentionsOfAll false body
  | .branch cond yes none => cond.mentions ++ yes.mentions atTop
  | .branch cond yes (some no) =>
    cond.mentions ++ yes.mentions atTop ++ no.mentions atTop
  | .loop cond body => cond.mentions ++ body.mentions atTop
  | .function decl => decl.mentions ++ mentionsOfName atTop decl.name.name
  | .leave none => []
  | .leave (some e) => e.mentions
  | .classDecl name none methods =>
    [.name name] ++ mentionsOfName atTop name ++ mentionsOfMethods methods
  | .classDecl name (some superclass) methods =>
    superclass.mentions ++ [.name name] ++ mentionsOfName atTop name ++ mentionsOfMethods methods

def mentionsOfAll (atTop : Bool) : List Stmt → List Mention
  | [] => []
  | s :: rest => s.mentions atTop ++ mentionsOfAll atTop rest

def FunctionDecl.mentions : FunctionDecl → List Mention
  | .mk name params body => mentionsOfAll false body ++ [.prototype name.name params.length]

def mentionsOfMethods : List FunctionDecl → List Mention
  | [] => []
  | m :: rest => m.mentions ++ [.name m.name.name] ++ mentionsOfMethods rest

end

def Program.mentions (program : Program) : List Mention := mentionsOfAll true program

end ScriptMachine
