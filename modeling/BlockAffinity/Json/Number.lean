import BlockAffinity.Decimal.Numeral

/-!
# BlockAffinity.Json.Number

**Numbers in documents.** A lexeme is an optional minus, digits without a needless leading zero,
an optional fraction and an optional exponent.

A lexeme is read in one pass over its digits. They go into a 64-bit significand as long as it can
hold them; further digits before the point only raise the exponent, and further digits after it are
ignored. The significand is then scaled by a power of ten in one multiplication or division of
doubles, two where the exponent is below -308. This is exact for short numbers and may miss the
nearest double by a few units in the last place for long ones.
-/

namespace BlockAffinity.Json

open Decimal (digitValue)

/-- The parts of a lexeme. -/
structure Number where
  negative : Bool
  whole : List Char
  /-- The digits after the point, empty without a point. -/
  fraction : List Char
  /-- The sign and the digits of the exponent. -/
  exponent : Option (Bool × List Char)
  deriving Repr, DecidableEq

/-- Splits a fraction off: a point with at least one digit behind it. -/
def splitFraction? : List Char → Option (List Char × List Char)
  | '.' :: rest =>
      let digits := rest.takeWhile Char.isDigit
      if digits.isEmpty then none else some (digits, rest.dropWhile Char.isDigit)
  | cs => some ([], cs)

/-- Splits an exponent off: a mark, an optional sign and at least one digit. -/
def splitExponent? : List Char → Option (Option (Bool × List Char) × List Char)
  | [] => some (none, [])
  | mark :: rest =>
      if mark = 'e' ∨ mark = 'E' then
        let (negative, body) := Decimal.splitSign rest
        let digits := body.takeWhile Char.isDigit
        if digits.isEmpty then none
        else some (some (negative, digits), body.dropWhile Char.isDigit)
      else some (none, mark :: rest)

/-- Splits a lexeme off the front of a text. -/
def Number.scan? (cs : List Char) : Option (Number × List Char) := do
  let (negative, body) := match cs with
    | '-' :: rest => (true, rest)
    | _ => (false, cs)
  let whole := body.takeWhile Char.isDigit
  if whole.isEmpty || (whole.head? == some '0' && whole.length != 1) then none
  let (fraction, rest) ← splitFraction? (body.dropWhile Char.isDigit)
  let (exponent, rest) ← splitExponent? rest
  return (⟨negative, whole, fraction, exponent⟩, rest)

/-- The largest significand. -/
def maxSignificand : Nat := Nat.pow 2 64 - 1

/-- The value of a whole number, if it is one and fits into 64 bits. -/
def Number.toNat? (n : Number) : Option Nat :=
  let value := Decimal.digitsValue 0 n.whole
  if !n.negative && n.fraction.isEmpty && n.exponent.isNone && value ≤ maxSignificand then
    some value
  else none

/-- Takes digits before the point into a significand; from the first one on that does not fit, each
digit raises the exponent. -/
def takeWhole (significand : Nat) : List Char → Nat × Int
  | [] => (significand, 0)
  | c :: rest =>
      let next := 10 * significand + digitValue c
      if next ≤ maxSignificand then takeWhole next rest else (significand, rest.length + 1)

/-- Takes digits after the point into a significand until one does not fit. -/
def takeFraction (significand : Nat) (exponent : Int) : List Char → Nat × Int
  | [] => (significand, exponent)
  | c :: rest =>
      let next := 10 * significand + digitValue c
      if next ≤ maxSignificand then takeFraction next (exponent - 1) rest
      else (significand, exponent)

/-- The double nearest to a power of ten with an exponent up to 308. -/
def powerOfTen (exponent : Nat) : Float := OfScientific.ofScientific 1 false exponent

/-- Divides by `10 ^ 308` as often as it takes to bring the exponent up to -308. -/
def scaleDown (value : Float) : (fuel : Nat) → (exponent : Nat) → Float
  | 0, _ => value
  | fuel + 1, exponent =>
      if exponent ≤ 308 then value / powerOfTen exponent
      else if value == 0 then value
      else scaleDown (value / powerOfTen 308) fuel (exponent - 308)

/-- The significand scaled by a power of ten, unless the result is not finite. -/
def scale? (significand : Nat) (exponent : Int) : Option Float :=
  let value := Float.ofNat significand
  if exponent < 0 then some (scaleDown value 8 exponent.natAbs)
  else if exponent ≤ 308 then
    let scaled := value * powerOfTen exponent.toNat
    if scaled.isInf then none else some scaled
  else if significand = 0 then some value
  else none

/-- An exponent of this size or more is out of range whatever the significand is. -/
def exponentLimit : Nat := Nat.pow 2 31

/-- The magnitude of a number as a double, unless it is out of range. -/
def Number.magnitude? (n : Number) : Option Float :=
  let (significand, dropped) := takeWhole 0 n.whole
  let (significand, exponent) := takeFraction significand dropped n.fraction
  match n.exponent with
  | none => scale? significand exponent
  | some (negative, digits) =>
      let magnitude := Decimal.digitsValue 0 digits
      if exponentLimit ≤ magnitude then
        if significand ≠ 0 && !negative then none else some 0
      else scale? significand (if negative then exponent - magnitude else exponent + magnitude)

/-- A number as a double. -/
def Number.toFloat? (n : Number) : Option Float :=
  n.magnitude?.map fun value => if n.negative then -value else value

/-- The number that a whole text is a lexeme of. -/
def Number.ofLexeme? (lexeme : String) : Option Number :=
  match Number.scan? lexeme.toList with
  | some (number, []) => some number
  | _ => none

end BlockAffinity.Json
