/-
ScriptMachine.Proofs.Twins.Code — one program lowered against two stores.
-/
import ScriptMachine.Proofs.Lexical.Scripts

namespace ScriptMachine

variable {names : Names} {name : String} {symbol : Symbol}

section

variable (h : names.find? name = some symbol)

include h

theorem Names.getElem?_of_find? : names.texts[symbol]? = some name := (names.inverse _ _).mp h

theorem Names.spelling_of_find? : names.spelling symbol = name := by
  unfold Names.spelling Names.spelling?
  rw [Names.getElem?_of_find? h]
  rfl

theorem Names.find?_inj {other : String} (h' : names.find? other = some symbol) : name = other :=
  (Names.spelling_of_find? h).symm.trans (Names.spelling_of_find? h')

end

structure Pair where
  first : Store
  second : Store

namespace Pair

variable {a a' : Symbol}

def Symbols (P : Pair) (a a' : Symbol) : Prop :=
  ∃ name, P.first.names.find? name = some a ∧ P.second.names.find? name = some a'

def Globals (P : Pair) (slot slot' : Nat) : Prop :=
  ∃ name, P.first.slotOf? name = some slot ∧ P.second.slotOf? name = some slot'

def Texts (P : Pair) (i i' : Nat) : Prop :=
  ∃ text, P.first.heap.interned.get? text = some i ∧ P.second.heap.interned.get? text = some i'

def Prototypes (P : Pair) (p p' : Nat) : Prop :=
  ∃ x x', P.first.prototypes[p]? = some x ∧ P.second.prototypes[p']? = some x' ∧
    P.Symbols x.name x'.name ∧ x'.arity = x.arity

structure Later (P Q : Pair) : Prop where
  first : P.first.Later Q.first
  second : P.second.Later Q.second

variable {P Q R : Pair}

namespace Later

theorem refl (P : Pair) : P.Later P := ⟨.refl _, .refl _⟩

variable (h : P.Later Q)

include h

theorem trans (h' : Q.Later R) : P.Later R :=
  ⟨h.first.trans h'.first, h.second.trans h'.second⟩

theorem symbols (ha : P.Symbols a a') : Q.Symbols a a' := by
  obtain ⟨name, hfst, hsnd⟩ := ha
  exact ⟨name, h.first.names.find hfst, h.second.names.find hsnd⟩

theorem globals {slot slot' : Nat} (hs : P.Globals slot slot') : Q.Globals slot slot' := by
  obtain ⟨name, hfst, hsnd⟩ := hs
  exact ⟨name, h.first.slotOf? hfst, h.second.slotOf? hsnd⟩

theorem texts {i i' : Nat} (hi : P.Texts i i') : Q.Texts i i' := by
  obtain ⟨text, hfst, hsnd⟩ := hi
  exact ⟨text, h.first.interned hfst, h.second.interned hsnd⟩

theorem prototypes {p p' : Nat} (hp : P.Prototypes p p') : Q.Prototypes p p' := by
  obtain ⟨x, x', hfst, hsnd, hn, ha⟩ := hp
  exact ⟨x, x', h.first.prototypes hfst, h.second.prototypes hsnd, h.symbols hn, ha⟩

end Later

theorem Symbols.eq_iff {b b' : Symbol} (ha : P.Symbols a a') (hb : P.Symbols b b') :
    a' = b' ↔ a = b := by
  obtain ⟨name, hfst, hsnd⟩ := ha
  obtain ⟨other, hfst', hsnd'⟩ := hb
  constructor
  · rintro rfl
    obtain rfl := Names.find?_inj hsnd hsnd'
    exact Option.some.inj (hfst.symm.trans hfst')
  · rintro rfl
    obtain rfl := Names.find?_inj hfst hfst'
    exact Option.some.inj (hsnd.symm.trans hsnd')

theorem Symbols.spelling (h : P.Symbols a a') :
    P.second.names.spelling a' = P.first.names.spelling a := by
  obtain ⟨name, hfst, hsnd⟩ := h
  rw [Names.spelling_of_find? hfst, Names.spelling_of_find? hsnd]

end Pair

structure View where
  place : Nat → Nat
  least : Nat
  total : Nat
  bound : Nat
  place_lt : ∀ {i}, i < total → place i < bound
  injective : ∀ {i j}, i < total → j < total → place i = place j → i = j

namespace View

def whole (total : Nat) : View := ⟨id, 0, total, total, id, fun _ _ => id⟩

def Reads (V : View) (i i' : Nat) : Prop := i' = V.place i ∧ V.least ≤ i ∧ i < V.total

def Writes (V : View) (i i' : Nat) : Prop := i' = V.place i ∧ i < V.total

inductive Cells (V : View) : CellRef → CellRef → Prop
  | own {i i' : Nat} : V.Reads i i' → V.Cells (.own i) (.own i')
  | captured (i : Nat) : V.Cells (.captured i) (.captured i)

end View

namespace Pair

mutual

inductive Codes (P : Pair) (u u' : CodeUnit) : View → Code → Code → Prop
  | constant {V : View} {w : Word} : w.Atomic → Codes P u u' V (.constant w) (.constant w)
  | text {V : View} {i i' : Nat} : P.Texts i i' →
      Codes P u u' V (.constant (.ofIndex i)) (.constant (.ofIndex i'))
  | receiver {V : View} : Codes P u u' V .receiver .receiver
  | argument {V : View} (k : Nat) : Codes P u u' V (.argument k) (.argument k)
  | readVariable {V : View} {i i' : Nat} : V.Reads i i' →
      Codes P u u' V (.readVariable i) (.readVariable i')
  | assignVariable {V : View} {i i' : Nat} {e e' : Code} : V.Writes i i' → Codes P u u' V e e' →
      Codes P u u' V (.assignVariable i e) (.assignVariable i' e')
  | newCell {V : View} {e e' : Code} : Codes P u u' V e e' →
      Codes P u u' V (.newCell e) (.newCell e')
  | readCell {V : View} {c c' : CellRef} : V.Cells c c' →
      Codes P u u' V (.readCell c) (.readCell c')
  | assignCell {V : View} {c c' : CellRef} {e e' : Code} : V.Cells c c' → Codes P u u' V e e' →
      Codes P u u' V (.assignCell c e) (.assignCell c' e')
  | readGlobal {V : View} {slot slot' : Nat} : P.Globals slot slot' →
      Codes P u u' V (.readGlobal slot) (.readGlobal slot')
  | assignGlobal {V : View} {slot slot' : Nat} {e e' : Code} : P.Globals slot slot' →
      Codes P u u' V e e' → Codes P u u' V (.assignGlobal slot e) (.assignGlobal slot' e')
  | negate {V : View} {e e' : Code} : Codes P u u' V e e' →
      Codes P u u' V (.negate e) (.negate e')
  | not {V : View} {e e' : Code} : Codes P u u' V e e' → Codes P u u' V (.not e) (.not e')
  | binary {V : View} (op : BinaryOp) {a a' b b' : Code} : Codes P u u' V a a' →
      Codes P u u' V b b' → Codes P u u' V (.binary op a b) (.binary op a' b')
  | logical {V : View} (op : LogicalOp) {a a' b b' : Code} : Codes P u u' V a a' →
      Codes P u u' V b b' → Codes P u u' V (.logical op a b) (.logical op a' b')
  | call {V : View} {e e' : Code} {es es' : List Code} : Codes P u u' V e e' →
      CodeLists P u u' V es es' → Codes P u u' V (.call e es) (.call e' es')
  | getProperty {V : View} {e e' : Code} {name name' : Symbol} (site site' : Nat) :
      Codes P u u' V e e' → P.Symbols name name' →
        Codes P u u' V (.getProperty e name site) (.getProperty e' name' site')
  | setProperty {V : View} {a a' b b' : Code} {name name' : Symbol} (site site' : Nat) :
      Codes P u u' V a a' → P.Symbols name name' → Codes P u u' V b b' →
        Codes P u u' V (.setProperty a name b site) (.setProperty a' name' b' site')
  | getSuper {V : View} {a a' b b' : Code} {name name' : Symbol} : Codes P u u' V a a' →
      Codes P u u' V b b' → P.Symbols name name' →
        Codes P u u' V (.getSuper a b name) (.getSuper a' b' name')
  | closure {V : View} {d d' p p' : Nat} {cells cells' : List CellRef} {f f' : Function} :
      P.Prototypes p p' → List.Forall₂ V.Cells cells cells' → u.function? d = some f →
        u'.function? d' = some f' → f'.locals = f.locals →
          InstrLists P u u' (.whole f.locals) true f.body f'.body →
            Codes P u u' V (.closure d p cells) (.closure d' p' cells')
  | newClass {V : View} {name name' : Symbol} {i i' : Option Nat} : P.Symbols name name' →
      Option.Rel V.Reads i i' → Codes P u u' V (.newClass name i) (.newClass name' i')

inductive CodeLists (P : Pair) (u u' : CodeUnit) : View → List Code → List Code → Prop
  | nil {V : View} : CodeLists P u u' V [] []
  | cons {V : View} {e e' : Code} {es es' : List Code} : Codes P u u' V e e' →
      CodeLists P u u' V es es' → CodeLists P u u' V (e :: es) (e' :: es')

inductive Instrs (P : Pair) (u u' : CodeUnit) : View → Bool → Instr → Instr → Prop
  | evaluate {V : View} {leaves : Bool} {e e' : Code} : Codes P u u' V e e' →
      Instrs P u u' V leaves (.evaluate e) (.evaluate e')
  | print {V : View} {leaves : Bool} {e e' : Code} : Codes P u u' V e e' →
      Instrs P u u' V leaves (.print e) (.print e')
  | defineGlobal {V : View} {leaves : Bool} {slot slot' : Nat} {e e' : Code} :
      P.Globals slot slot' → Codes P u u' V e e' →
        Instrs P u u' V leaves (.defineGlobal slot e) (.defineGlobal slot' e')
  | branch {V : View} {leaves : Bool} {e e' : Code} {yes yes' no no' : List Instr} :
      Codes P u u' V e e' → InstrLists P u u' V leaves yes yes' →
        InstrLists P u u' V leaves no no' →
          Instrs P u u' V leaves (.branch e yes no) (.branch e' yes' no')
  | loop {V : View} {leaves : Bool} {e e' : Code} {body body' : List Instr} :
      Codes P u u' V e e' → InstrLists P u u' V leaves body body' →
        Instrs P u u' V leaves (.loop e body) (.loop e' body')
  | addMethod {V : View} {leaves : Bool} {i i' : Nat} {name name' : Symbol} {e e' : Code} :
      V.Reads i i' → P.Symbols name name' → Codes P u u' V e e' →
        Instrs P u u' V leaves (.addMethod i name e) (.addMethod i' name' e')
  | leave {V : View} {e e' : Code} : Codes P u u' V e e' →
      Instrs P u u' V true (.leave e) (.leave e')

inductive InstrLists (P : Pair) (u u' : CodeUnit) : View → Bool → List Instr → List Instr → Prop
  | nil {V : View} {leaves : Bool} : InstrLists P u u' V leaves [] []
  | cons {V : View} {leaves : Bool} {i i' : Instr} {is is' : List Instr} :
      Instrs P u u' V leaves i i' → InstrLists P u u' V leaves is is' →
        InstrLists P u u' V leaves (i :: is) (i' :: is')

end

inductive Functions (P : Pair) (u u' : CodeUnit) (d d' : Nat) : Prop
  | intro {f f' : Function} : u.function? d = some f → u'.function? d' = some f' →
      f'.locals = f.locals → P.InstrLists u u' (.whole f.locals) true f.body f'.body →
        Functions P u u' d d'

variable {P : Pair} {u u' : CodeUnit} {V : View} {leaves : Bool}

theorem InstrLists.append {is is' js js' : List Instr} (h : P.InstrLists u u' V leaves is is')
    (h' : P.InstrLists u u' V leaves js js') :
      P.InstrLists u u' V leaves (is ++ js) (is' ++ js') := by
  match h with
  | .nil => exact h'
  | .cons hi his => exact .cons hi (his.append h')

end Pair

structure Setting where
  pair : Pair
  unit : CodeUnit
  unit' : CodeUnit
  view : View

namespace Setting

abbrev Codes (E : Setting) (c c' : Code) : Prop := E.pair.Codes E.unit E.unit' E.view c c'

abbrev CodeLists (E : Setting) (cs cs' : List Code) : Prop :=
  E.pair.CodeLists E.unit E.unit' E.view cs cs'

abbrev Instrs (E : Setting) (leaves : Bool) (i i' : Instr) : Prop :=
  E.pair.Instrs E.unit E.unit' E.view leaves i i'

abbrev InstrLists (E : Setting) (leaves : Bool) (is is' : List Instr) : Prop :=
  E.pair.InstrLists E.unit E.unit' E.view leaves is is'

end Setting

end ScriptMachine
