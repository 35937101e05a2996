/-
ScriptMachine.Settings.Scanner — the words of a configuration document.
-/
import ScriptMachine.Number.Binary

namespace ScriptMachine

inductive Fault where
  | ended
  | malformed
  | meaningless
deriving DecidableEq

abbrev Scan := StateT (List Char) (Except Fault)

namespace Scan

/-! ## 1. Characters -/

def isBlank (c : Char) : Bool := c == ' ' || c == '\n' || c == '\t' || c == '\r'

def peek? : Scan (Option Char) := return (← get).head?

def drop : Scan Unit := modify List.tail

def token? : Scan (Option Char) := do
  modify (·.dropWhile isBlank)
  peek?

def token : Scan Char := do
  match ← token? with
  | some c => return c
  | none => throw .ended

def next : Scan Char := do
  match ← peek? with
  | some c => drop; return c
  | none => throw .ended

def expect (c : Char) : Scan Unit := do
  if (← token) = c then drop else throw .malformed

def word : List Char → Scan Unit
  | [] => return ()
  | c :: rest => do
    if (← next) = c then word rest else throw .malformed

/-! ## 2. Strings -/

def hexDigit? (c : Char) : Option Nat :=
  if '0' ≤ c ∧ c ≤ '9' then some (c.toNat - 48)
  else if 'a' ≤ c ∧ c ≤ 'f' then some (c.toNat - 87)
  else if 'A' ≤ c ∧ c ≤ 'F' then some (c.toNat - 55)
  else none

def hexUnit? (a b c d : Char) : Option Nat := do
  return (((← hexDigit? a) * 16 + (← hexDigit? b)) * 16 + (← hexDigit? c)) * 16 + (← hexDigit? d)

def badUnit (rest : List Char) : Fault :=
  if rest.foldl (fun n c => n + c.utf8Size) 0 < 4 then .ended else .malformed

def isLeading (unit : Nat) : Bool := 0xD800 ≤ unit && unit ≤ 0xDBFF

def isTrailing (unit : Nat) : Bool := 0xDC00 ≤ unit && unit ≤ 0xDFFF

def joinPair (leading trailing : Nat) : Char :=
  Char.ofNat ((leading - 0xD800) * 0x400 + (trailing - 0xDC00) + 0x10000)

def escaped? : Char → Option Char
  | '"' => some '"'
  | '\\' => some '\\'
  | '/' => some '/'
  | 'b' => some '\x08'
  | 'f' => some '\x0C'
  | 'n' => some '\n'
  | 'r' => some '\r'
  | 't' => some '\t'
  | _ => none

def textFrom (done : List Char) : List Char → Except Fault (String × List Char)
  | [] => .error .ended
  | '"' :: rest => .ok (String.ofList done.reverse, rest)
  | '\\' :: rest =>
    match rest with
    | [] => .error .ended
    | 'u' :: rest =>
      match rest with
      | a :: b :: c :: d :: more =>
        match hexUnit? a b c d with
        | none => .error (badUnit rest)
        | some unit =>
          if isTrailing unit then .error .malformed
          else if isLeading unit then
            match more with
            | [] | ['\\'] => .error .ended
            | '\\' :: 'u' :: low =>
              match low with
              | e :: f :: g :: h :: more =>
                match hexUnit? e f g h with
                | none => .error (badUnit low)
                | some second =>
                  if isTrailing second then textFrom (joinPair unit second :: done) more
                  else .error .malformed
              | _ => .error (badUnit low)
            | _ => .error .malformed
          else textFrom (Char.ofNat unit :: done) more
      | _ => .error (badUnit rest)
    | c :: rest =>
      match escaped? c with
      | some c => textFrom (c :: done) rest
      | none => .error .malformed
  | c :: rest => if c.toNat < 0x20 then .error .malformed else textFrom (c :: done) rest

def text : Scan String := fun input => textFrom [] input

def afterText : List Char → Except Fault (List Char)
  | [] => .error .ended
  | '"' :: rest => .ok rest
  | '\\' :: rest =>
    match rest with
    | [] => .error .ended
    | 'u' :: rest =>
      match rest with
      | a :: b :: c :: d :: more =>
        match hexUnit? a b c d with
        | none => .error (badUnit rest)
        | some _ => afterText more
      | _ => .error (badUnit rest)
    | c :: rest => if (escaped? c).isSome then afterText rest else .error .malformed
  | c :: rest => if c.toNat < 0x20 then .error .malformed else afterText rest

def skipText : Scan Unit := fun input => do return ((), ← afterText input)

/-! ## 3. Numbers -/

def digits : Scan (List Char) := do
  let input ← get
  set (input.dropWhile Char.isDigit)
  return input.takeWhile Char.isDigit

def valueOf (ds : List Char) : Nat := ds.foldl (fun n d => n * 10 + (d.toNat - 48)) 0

def wholeDigits : Scan (List Char) := do
  let first ← next
  if first = '0' then
    match ← peek? with
    | some c => if c.isDigit then throw .malformed else return ['0']
    | none => return ['0']
  else if first.isDigit then return first :: (← digits)
  else throw .malformed

def leading (value : Nat) : List Char → Nat × Nat
  | [] => (value, 0)
  | d :: rest =>
    let grown := value * 10 + (d.toNat - 48)
    if grown < 0x10000000000000000 then leading grown rest else (value, rest.length + 1)

def tooLarge (significand : Nat) (exponent : Int) : Bool :=
  significand != 0 &&
    (308 < exponent ||
      0 ≤ exponent &&
        Number.isInfinite
          (Number.mul (Number.ofInt significand) (Number.ofInt (Nat.pow 10 exponent.toNat))))

structure Numeral where
  significand : Nat
  exponent : Int
  whole : Bool

def wholePart : Scan Numeral := do
  let (significand, dropped) := leading 0 (← wholeDigits)
  return ⟨significand, dropped, dropped == 0⟩

def fractionPart (n : Numeral) : Scan Numeral := do
  let fraction ← digits
  if fraction.isEmpty then
    match ← peek? with
    | some _ => throw .malformed
    | none => throw .ended
  let (significand, dropped) := leading n.significand fraction
  return ⟨significand, n.exponent - (fraction.length - dropped : Nat), false⟩

def exponentPart (n : Numeral) : Scan Numeral := do
  let sign ← peek?
  if sign = some '+' ∨ sign = some '-' then drop
  let first ← next
  if !first.isDigit then throw .malformed
  let value : Int := valueOf (first :: (← digits))
  return ⟨n.significand, if sign = some '-' then n.exponent - value else n.exponent + value, false⟩

def number (negative : Bool) : Scan (Option Nat) := do
  let n ← wholePart
  let n ← if (← peek?) = some '.' then do drop; fractionPart n else pure n
  let mark ← peek?
  let n ← if mark = some 'e' ∨ mark = some 'E' then do drop; exponentPart n else pure n
  if !n.whole && tooLarge n.significand n.exponent then throw .malformed
  return if n.whole && !negative then some n.significand else none

def skipDigits : Scan Unit := do
  if (← digits).isEmpty then throw .malformed

def skipFraction : Scan Unit := do
  if (← peek?) = some '.' then
    drop
    skipDigits

def skipPower : Scan Unit := do
  let mark ← peek?
  if mark = some 'e' ∨ mark = some 'E' then
    drop
    let sign ← peek?
    if sign = some '+' ∨ sign = some '-' then drop
    skipDigits

def skipNumber : Scan Unit := do
  match ← peek? with
  | none => throw .malformed
  | some _ => discard wholeDigits
  skipFraction
  skipPower

/-! ## 4. Values -/

inductive Bracket where
  | list
  | object
deriving DecidableEq

def Bracket.closing : Bracket → Char
  | .list => ']'
  | .object => '\x7d'

def skipKey : Scan Unit := do
  expect '"'
  skipText
  expect ':'

def skipStart : Scan (Option Bracket) := do
  let c ← token
  drop
  match c with
  | 'n' => word ['u', 'l', 'l']; return none
  | 't' => word ['r', 'u', 'e']; return none
  | 'f' => word ['a', 'l', 's', 'e']; return none
  | '"' => skipText; return none
  | '-' => skipNumber; return none
  | '[' => return some .list
  | '\x7b' => return some .object
  | c =>
    if c.isDigit then
      modify (c :: ·)
      skipNumber
      return none
    else throw .malformed

def skipEnds (fresh : Bool) : List Bracket → Scan (List Bracket)
  | [] => return []
  | b :: outer => do
    let c ← token
    if c = b.closing then
      drop
      skipEnds false outer
    else
      if !fresh then expect ','
      if b = .object then skipKey
      return b :: outer

def skipOpen : Nat → List Bracket → Scan Unit
  | 0, _ => throw .malformed
  | fuel + 1, stack => do
    let opened ← skipStart
    let stack ← skipEnds opened.isSome (opened.toList ++ stack)
    if stack.isEmpty then return () else skipOpen fuel stack

def skipValue : Scan Unit := do skipOpen ((← get).length + 1) []

def refuse {α : Type} : Scan α := do
  let c ← token
  match c with
  | 'n' => drop; word ['u', 'l', 'l']
  | 't' => drop; word ['r', 'u', 'e']
  | 'f' => drop; word ['a', 'l', 's', 'e']
  | '"' => drop; discard text
  | '-' => drop; discard (number true)
  | '[' | '\x7b' => throw .meaningless
  | c => if c.isDigit then discard (number false) else throw .malformed
  throw .meaningless

end Scan

end ScriptMachine
