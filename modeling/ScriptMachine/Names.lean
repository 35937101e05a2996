/-
ScriptMachine.Names — symbols: names by the order of their first use.
-/
import ScriptMachine.Table

namespace ScriptMachine

abbrev Symbol := Nat

theorem Names.inverse_nil (name : String) (symbol : Symbol) :
    Table.get? [] name = some symbol ↔ (#[] : Array String)[symbol]? = some name := by
  simp [Table.get?]

structure Names where
  texts : Array String := #[]
  symbols : Table String Symbol := []
  inverse : ∀ (name : String) (symbol : Symbol),
    symbols.get? name = some symbol ↔ texts[symbol]? = some name := by exact Names.inverse_nil

namespace Names

def size (names : Names) : Nat := names.texts.size

def find? (names : Names) (name : String) : Option Symbol := names.symbols.get? name

def spelling? (names : Names) (symbol : Symbol) : Option String := names.texts[symbol]?

def spelling (names : Names) (symbol : Symbol) : String := (names.spelling? symbol).getD "?"

theorem inverse_push (names : Names) {name : String} (hnew : names.find? name = none)
    (other : String) (symbol : Symbol) :
    (names.symbols.insert name names.size).get? other = some symbol ↔
      (names.texts.push name)[symbol]? = some other := by
  rw [Table.get?_insert, Array.getElem?_push]
  by_cases hn : name = other
  · subst hn
    have hunl : names.texts[symbol]? ≠ some name := fun h => by
      rw [← names.inverse] at h
      cases hnew.symm.trans h
    by_cases hsym : symbol = names.texts.size <;> simp [size, hsym, hunl, eq_comm]
  · rw [if_neg hn, names.inverse]
    split
    · next hsym => simp [hsym, hn]
    · rfl

def add (names : Names) (name : String) (hnew : names.find? name = none) : Names where
  texts := names.texts.push name
  symbols := names.symbols.insert name names.size
  inverse := names.inverse_push hnew

def intern (names : Names) (name : String) : Symbol × Names :=
  match h : names.find? name with
  | some symbol => (symbol, names)
  | none => (names.size, names.add name h)

theorem intern_of_some {names : Names} {name : String} {symbol : Symbol}
    (h : names.find? name = some symbol) : names.intern name = (symbol, names) := by
  unfold intern
  split
  · next hf => rw [Option.some.inj (hf.symm.trans h)]
  · next hnew => cases hnew.symm.trans h

theorem intern_of_none {names : Names} {name : String} (h : names.find? name = none) :
    names.intern name = (names.size, names.add name h) := by
  unfold intern
  split
  · next hf => cases h.symm.trans hf
  · rfl

/-! ## Symbols as numbers -/

def issue (names : Names) (name : String) : UInt32 × Names :=
  let (symbol, names) := names.intern name
  (.ofNat symbol, names)

def issued? (names : Names) (name : String) : Option UInt32 := (names.find? name).map .ofNat

def spelled? (names : Names) (number : UInt32) : Option String := names.spelling? number.toNat

end Names

end ScriptMachine
