/-
ScriptMachine.Number.Decimal — exact decimals of positive fractions.
-/
import ScriptMachine.Number.Binary

namespace ScriptMachine.Number

/-! ## 1. Integers -/

def roundDiv (num den : Nat) : Nat :=
  let q := num / den
  let r := num % den
  if 2 * r < den then q
  else if den < 2 * r then q + 1
  else if q % 2 = 0 then q
  else q + 1

def digitCountWithin : Nat → Nat → Nat
  | 0, _ => 1
  | fuel + 1, n => if n < 10 then 1 else digitCountWithin fuel (n / 10) + 1

def digitCount (n : Nat) : Nat := digitCountWithin (n.log2 + 1) n

/-! ## 2. Fractions -/

structure Fraction where
  num : Nat
  den : Nat

namespace Fraction

def ofBinary (m : Nat) (q : Int) : Fraction :=
  if 0 ≤ q then ⟨m * Nat.pow 2 q.toNat, 1⟩ else ⟨m, Nat.pow 2 (-q).toNat⟩

def scale (x : Fraction) (k : Int) : Fraction :=
  if 0 ≤ k then ⟨x.num * Nat.pow 10 k.toNat, x.den⟩ else ⟨x.num, x.den * Nat.pow 10 (-k).toNat⟩

def le (x y : Fraction) : Bool := decide (x.num * y.den ≤ y.num * x.den)

def lt (x y : Fraction) : Bool := decide (x.num * y.den < y.num * x.den)

def exponent (x : Fraction) : Int :=
  let e : Int := (digitCount x.num : Int) - digitCount x.den
  let y := x.scale (-e)
  if y.den ≤ y.num then e else e - 1

end Fraction

/-! ## 3. Rounded decimals -/

structure Decimal where
  digits : Nat
  exponent : Int
deriving DecidableEq

def Fraction.round (count : Nat) (x : Fraction) : Decimal :=
  let e := x.exponent
  let y := x.scale ((count : Int) - 1 - e)
  let d := roundDiv y.num y.den
  if d = Nat.pow 10 count then ⟨Nat.pow 10 (count - 1), e + 1⟩ else ⟨d, e⟩

/-! ## 4. Digit strings -/

def digitsOf (n : Nat) : List Char := Nat.toDigits 10 n

def trimEnd (c : Char) (text : List Char) : List Char :=
  (text.reverse.dropWhile (· == c)).reverse

def stripZeros (ds : List Char) : List Char := trimEnd '0' ds

def withPoint (whole fraction : List Char) : List Char :=
  if fraction.isEmpty then whole else whole ++ '.' :: fraction

def trimFraction (text : List Char) : List Char :=
  if text.contains '.' then trimEnd '.' (stripZeros text) else text

def positional (ds : List Char) (e : Int) : List Char × List Char :=
  if 0 ≤ e then
    let n := e.toNat + 1
    (ds.take n ++ List.replicate (n - ds.length) '0', ds.drop n)
  else
    (['0'], List.replicate ((-e).toNat - 1) '0' ++ ds)

/-! ## 5. Fractions as texts -/

def Fraction.scientific (places : Nat) (x : Fraction) : List Char × Int :=
  let d := x.round (places + 1)
  let ds := digitsOf d.digits
  (withPoint (ds.take 1) (ds.drop 1), d.exponent)

def Fraction.fixed (places : Nat) (x : Fraction) : List Char :=
  let y := x.scale places
  let ds := digitsOf (roundDiv y.num y.den)
  let ds := List.replicate (places + 1 - ds.length) '0' ++ ds
  let whole := ds.length - places
  withPoint (ds.take whole) (ds.drop whole)

end ScriptMachine.Number
