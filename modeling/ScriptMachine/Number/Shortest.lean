/-
ScriptMachine.Number.Shortest — numbers as diagnostics show them.
-/
import ScriptMachine.Number.Decimal

namespace ScriptMachine.Number

/-! ## 1. The digits -/

structure Interval where
  low : Fraction
  high : Fraction
  closed : Bool

def interval (b : UInt64) : Interval :=
  let m := significand b
  let q := exponent b - 2
  let below := if fractionField b = 0 && 1 < exponentField b then 1 else 2
  { low := .ofBinary (4 * m - below) q
    high := .ofBinary (4 * m + 2) q
    closed := m % 2 == 0 }

def Interval.contains (i : Interval) (x : Fraction) : Bool :=
  if i.closed then i.low.le x && x.le i.high else i.low.lt x && x.lt i.high

def nearestIn (i : Interval) (x : Fraction) (k : Int) : Option Nat :=
  let y := x.scale (-k)
  let c := y.num / y.den
  let lower := i.contains ((Fraction.mk c 1).scale k)
  let upper := i.contains ((Fraction.mk (c + 1) 1).scale k)
  match lower, upper with
  | true, true => some (if 2 * (y.num % y.den) < y.den then c else c + 1)
  | true, false => some c
  | false, true => some (c + 1)
  | false, false => none

def shortest (b : UInt64) : List Char × Int :=
  let i := interval b
  let x := Fraction.ofBinary (significand b) (exponent b)
  let e := x.exponent
  let hit := (List.range 17).findSome? fun (n : Nat) =>
    let k := e - (n : Int)
    (nearestIn i x k).map fun c => (c, k)
  let (c, k) := hit.getD ((x.round 17).digits, e - 16)
  let ds := digitsOf c
  (stripZeros ds, k + (ds.length : Int) - 1)

/-! ## 2. The text -/

def intText (e : Int) : List Char :=
  if e < 0 then '-' :: digitsOf e.natAbs else digitsOf e.natAbs

def plainMagnitude (b : UInt64) : List Char :=
  if isInfinite b then "inf".toList
  else if isZero b then "0.0".toList
  else
    let (ds, e) := shortest b
    if e < -4 || 16 ≤ e then
      withPoint (ds.take 1) (ds.drop 1) ++ 'e' :: intText e
    else
      let (whole, fraction) := positional ds e
      withPoint whole (if fraction.isEmpty then ['0'] else fraction)

def inspect (b : UInt64) : String :=
  if isNaN b then "NaN"
  else String.ofList (if isNegative b then '-' :: plainMagnitude b else plainMagnitude b)

end ScriptMachine.Number
