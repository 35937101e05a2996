/-
ScriptMachine.Number.General — numbers as programs print them.
-/
import ScriptMachine.Number.Decimal

namespace ScriptMachine.Number

def printedDigits : Nat := 6

def exponentText (e : Int) : List Char :=
  let sign := if e < 0 then '-' else '+'
  let ds := digitsOf e.natAbs
  sign :: (List.replicate (2 - ds.length) '0' ++ ds)

def Fraction.general (x : Fraction) : List Char :=
  let (mantissa, e) := x.scientific (printedDigits - 1)
  if e < -4 || (printedDigits : Int) ≤ e then
    trimFraction mantissa ++ 'e' :: exponentText e
  else
    trimFraction (x.fixed ((printedDigits : Int) - 1 - e).toNat)

def signed (b : UInt64) (text : List Char) : List Char :=
  if isNegative b then '-' :: text else text

def magnitudeText (b : UInt64) : List Char :=
  if isNaN b then "nan".toList
  else if isInfinite b then "inf".toList
  else if isZero b then "0".toList
  else (Fraction.ofBinary (significand b) (exponent b)).general

def general (b : UInt64) : String := String.ofList (signed b (magnitudeText b))

end ScriptMachine.Number
