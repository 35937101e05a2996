/-
ScriptMachine.Word.Basic — the 64-bit words every value is written in.
-/

namespace ScriptMachine

/-! ## 1. Tags -/

inductive Tag where
  | number
  | bool
  | nil
  | object
deriving DecidableEq, Inhabited

def Tag.ofCode (code : UInt64) : Tag :=
  if code = 1 then .bool
  else if code = 2 then .nil
  else if code = 3 then .object
  else .number

def Tag.name : Tag → String
  | .number => "number"
  | .bool => "bool"
  | .nil => "nil"
  | .object => "object"

/-! ## 2. Handles -/

structure Handle where
  raw : UInt64
deriving DecidableEq

namespace Handle

def ofParts (index : UInt32) (generation : UInt16) : Handle :=
  ⟨generation.toUInt64 <<< 32 ||| index.toUInt64⟩

def index (h : Handle) : Nat := h.raw.toNat % 0x100000000

def generation (h : Handle) : Nat := h.raw.toNat / 0x100000000 % 0x10000

def compare (a b : Handle) : Ordering := Ord.compare a.raw b.raw

end Handle

/-! ## 3. Words -/

@[ext]
structure Word where
  bits : UInt64
deriving DecidableEq

inductive EncodingError where
  | mismatch (expected found : Tag)
  | payloadOverflow (raw : UInt64)
deriving DecidableEq

namespace Word

def quietNaN : Word := ⟨0x7FF8000000000000⟩

def nil : Word := ⟨0x7FFA000000000000⟩

def zero : Word := ⟨0⟩

def ofBool (b : Bool) : Word := if b then ⟨0x7FF9000000000001⟩ else ⟨0x7FF9000000000000⟩

def ofFlag (flag : Bool) : Word := ⟨(ofBool false).bits ||| flag.toUInt64⟩

instance : Inhabited Word := ⟨nil⟩

def tagMask : UInt64 := 0x0007000000000000

def payloadMask : UInt64 := 0x0000FFFFFFFFFFFF

def boxedMask : UInt64 := 0xFFFC000000000000

def selectMask : UInt64 := 0x0003000000000000

def objectMask : UInt64 := 0xFFFF000000000000

def objectMark : UInt64 := 0x7FFB000000000000

def head (w : Word) : UInt64 := w.bits >>> 48

def payload (w : Word) : UInt64 := w.bits &&& payloadMask

def tag (w : Word) : Tag :=
  if w.bits &&& boxedMask = quietNaN.bits then .ofCode ((w.bits &&& selectMask) >>> 48)
  else .number

def isNumber (w : Word) : Bool := w.tag == .number

def isNil (w : Word) : Bool := w == nil

def isObject (w : Word) : Bool := w.bits &&& objectMask == objectMark

def isFalsy (w : Word) : Bool := w == nil || w == ofBool false

def isTruthy (w : Word) : Bool := !w.isFalsy

def isPlain (w : Word) : Bool := w.bits &&& boxedMask != quietNaN.bits

def objectIndex (w : Word) : Nat := w.bits.toNat % 0x100000000

def readAs {α : Type} (w : Word) (expected : Tag) (found : α) : Except EncodingError α :=
  if w.tag = expected then .ok found else .error (.mismatch expected w.tag)

def toNumber? (w : Word) : Except EncodingError UInt64 := w.readAs .number w.bits

def toBool? (w : Word) : Except EncodingError Bool := w.readAs .bool (w.bits &&& 1 == 1)

def toHandle? (w : Word) : Except EncodingError Handle := w.readAs .object ⟨w.payload⟩

def ofNumber (bits : UInt64) : Word :=
  if bits % 0x8000000000000000 > 0x7FF0000000000000 then quietNaN else ⟨bits⟩

def ofHandle? (h : Handle) : Except EncodingError Word :=
  if h.raw &&& ~~~payloadMask = 0 then .ok ⟨objectMark ||| h.raw⟩
  else .error (.payloadOverflow h.raw)

def ofIndex (index : Nat) : Word := ⟨0x7FFB000000000000 + UInt64.ofNat index⟩

end Word

/-! ## 4. The layout, as published to hosts -/

def Word.layout : List UInt64 :=
  [Word.quietNaN.bits, Word.tagMask, Word.payloadMask, Word.boxedMask, Word.selectMask,
   Word.objectMask, Word.objectMark, Word.nil.bits, (Word.ofBool false).bits,
   (Word.ofBool true).bits]

end ScriptMachine
