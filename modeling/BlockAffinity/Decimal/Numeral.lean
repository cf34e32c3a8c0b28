/-!
# BlockAffinity.Decimal.Numeral

**Reading a number from text.** A numeral is an optional sign followed by decimal digits with an
optional point and an optional exponent, or by one of the words `inf`, `infinity` and `nan` in any
case. Nothing may stand around it, blanks included.

A numeral keeps its exact decimal value; rounding to the nearest double is a separate step.
-/

namespace BlockAffinity.Decimal

/-- Why a text is no numeral. -/
inductive NumeralFault
  | empty
  | invalid
  deriving Repr, DecidableEq

/-- The text of a reading fault. -/
def NumeralFault.message : NumeralFault → String
  | .empty => "cannot parse float from empty string"
  | .invalid => "invalid float literal"

/-- The exact value of a numeral; a finite one is `coefficient · 10 ^ exponent` under its sign. -/
inductive Numeral
  | nan
  | infinite (negative : Bool)
  | finite (negative : Bool) (coefficient : Nat) (exponent : Int)
  deriving Repr, DecidableEq

/-- The value of a decimal digit. -/
def digitValue (c : Char) : Nat := c.toNat - '0'.toNat

/-- The value of a run of decimal digits that follows the digits of `start`. -/
def digitsValue (start : Nat) (cs : List Char) : Nat :=
  cs.foldl (fun value c => 10 * value + digitValue c) start

/-- Splits an optional sign off; the flag says whether it is a minus. -/
def splitSign : List Char → Bool × List Char
  | '-' :: rest => (true, rest)
  | '+' :: rest => (false, rest)
  | cs => (false, cs)

/-- The exponent after its mark, which the whole rest of the text has to be. -/
def readExponent? (cs : List Char) : Option Int :=
  let (negative, digits) := splitSign cs
  if digits.isEmpty || !digits.all Char.isDigit then none
  else
    let magnitude := digitsValue 0 digits
    some (if negative then -magnitude else magnitude)

/-- Digits with an optional point and an optional exponent, as a coefficient and an exponent. -/
def readDecimal? (cs : List Char) : Option (Nat × Int) :=
  let whole := cs.takeWhile Char.isDigit
  let afterWhole := cs.dropWhile Char.isDigit
  let (fraction, rest) :=
    match afterWhole with
    | '.' :: tail => (tail.takeWhile Char.isDigit, tail.dropWhile Char.isDigit)
    | _ => ([], afterWhole)
  if whole.isEmpty && fraction.isEmpty then none
  else
    let coefficient := digitsValue (digitsValue 0 whole) fraction
    let shift : Int := -fraction.length
    match rest with
    | [] => some (coefficient, shift)
    | mark :: tail =>
        if mark = 'e' ∨ mark = 'E' then
          (readExponent? tail).map fun exponent => (coefficient, shift + exponent)
        else none

/-- The words for values that are not finite. -/
def readWord? (negative : Bool) (cs : List Char) : Option Numeral :=
  let word := String.ofList (cs.map Char.toLower)
  if word = "nan" then some .nan
  else if word = "inf" ∨ word = "infinity" then some (.infinite negative)
  else none

/-- Reads a numeral. -/
def readNumeral (text : String) : Except NumeralFault Numeral :=
  match text.toList with
  | [] => .error .empty
  | cs =>
      let (negative, body) := splitSign cs
      match readDecimal? body with
      | some (coefficient, exponent) => .ok (.finite negative coefficient exponent)
      | none =>
          match readWord? negative body with
          | some value => .ok value
          | none => .error .invalid

/-- The double nearest to `coefficient · 10 ^ exponent`. Exponents that leave the range of doubles
whatever the digits are settled before the power of ten is formed. -/
def nearestFloat (coefficient : Nat) (exponent : Int) : Float :=
  if coefficient = 0 then 0
  else
    let position := exponent + (Nat.toDigits 10 coefficient).length
    if position > 310 then 1 / 0
    else if position < -330 then 0
    else OfScientific.ofScientific coefficient (decide (exponent < 0)) exponent.natAbs

/-- The double nearest to a numeral. -/
def Numeral.toFloat : Numeral → Float
  | .nan => 0 / 0
  | .infinite negative => if negative then -(1 / 0) else 1 / 0
  | .finite negative coefficient exponent =>
      let magnitude := nearestFloat coefficient exponent
      if negative then -magnitude else magnitude

end BlockAffinity.Decimal
