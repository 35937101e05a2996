/-
ScriptMachine.Number.Binary — doubles as bit patterns.
-/

namespace ScriptMachine.Number

/-! ## 1. Parts of a pattern -/

def isNegative (b : UInt64) : Bool := b >>> 63 == 1

def magnitude (b : UInt64) : UInt64 := b % 0x8000000000000000

def isNaN (b : UInt64) : Bool := magnitude b > 0x7FF0000000000000

def isInfinite (b : UInt64) : Bool := magnitude b == 0x7FF0000000000000

def isZero (b : UInt64) : Bool := magnitude b == 0

def exponentField (b : UInt64) : Nat := (magnitude b).toNat / 0x10000000000000

def fractionField (b : UInt64) : Nat := (magnitude b).toNat % 0x10000000000000

def significand (b : UInt64) : Nat :=
  if exponentField b = 0 then fractionField b else 0x10000000000000 + fractionField b

def exponent (b : UInt64) : Int :=
  if exponentField b = 0 then -1074 else (exponentField b : Int) - 1075

/-! ## 2. Order -/

def rank (b : UInt64) : Int :=
  if isNegative b then -((magnitude b).toNat : Int) else (magnitude b).toNat

def equal (a b : UInt64) : Bool := !isNaN a && !isNaN b && rank a == rank b

def less (a b : UInt64) : Bool := !isNaN a && !isNaN b && decide (rank a < rank b)

def atMost (a b : UInt64) : Bool := !isNaN a && !isNaN b && decide (rank a ≤ rank b)

inductive Relation where
  | less
  | equal
  | greater
  | unordered
deriving DecidableEq

def relate (a b : UInt64) : Relation :=
  if isNaN a || isNaN b then .unordered
  else if rank a < rank b then .less
  else if rank a = rank b then .equal
  else .greater

inductive Condition where
  | equal
  | notEqual
  | less
  | lessEqual
  | greater
  | greaterEqual
deriving DecidableEq

def Condition.admits : Condition → Relation → Bool
  | .equal, r => r == .equal
  | .notEqual, r => r == .less || r == .greater || r == .unordered
  | .less, r => r == .less
  | .lessEqual, r => r == .less || r == .equal
  | .greater, r => r == .greater
  | .greaterEqual, r => r == .greater || r == .equal

/-! ## 3. Arithmetic -/

def canonical (x : Float) : UInt64 :=
  if x.isNaN then 0x7FF8000000000000 else x.toBits

def add (a b : UInt64) : UInt64 := canonical (Float.ofBits a + Float.ofBits b)

def sub (a b : UInt64) : UInt64 := canonical (Float.ofBits a - Float.ofBits b)

def mul (a b : UInt64) : UInt64 := canonical (Float.ofBits a * Float.ofBits b)

def div (a b : UInt64) : UInt64 := canonical (Float.ofBits a / Float.ofBits b)

def flipSign (b : UInt64) : UInt64 := b ^^^ 0x8000000000000000

def ofInt (n : Int) : UInt64 := (Float.ofInt n).toBits

end ScriptMachine.Number
