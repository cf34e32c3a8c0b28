import BlockAffinity.Decimal.Shortest

/-!
# BlockAffinity.Decimal.Style

**How a double is written.** A `Style` records the decisions of one output format: how ties are
broken, when the point is placed among the digits, whether a whole number keeps a fraction, and
what stands for the values that are not numbers. Two styles are in use: `plain` for tables and
messages, `json` for documents.

`fixed` is the third form, a given number of places with halves going to the even neighbour.
-/

namespace BlockAffinity.Decimal

/-- The decisions of one output format for doubles. -/
structure Style where
  tie : Tie
  /-- Whether a number whose point stands after its first `position` digits is written without an
  exponent. -/
  positional : (position : Int) → Bool
  /-- Whether a whole number ends in a zero fraction. -/
  wholeFraction : Bool
  nan : String
  infinite : String
  negativeInfinite : String

/-- Tables and messages: never an exponent, no fraction on whole numbers. -/
def plain : Style where
  tie := .up
  positional _ := true
  wholeFraction := false
  nan := "NaN"
  infinite := "inf"
  negativeInfinite := "-inf"

/-- Documents: an exponent below `1e-5` and from `1e16` on, a fraction on whole numbers, and no
values that are not numbers. -/
def json : Style where
  tie := .toEven
  positional position := -4 ≤ position && position ≤ 16
  wholeFraction := true
  nan := "null"
  infinite := "null"
  negativeInfinite := "null"

/-- `n` zeros. -/
def zeros (n : Nat) : String := String.ofList (List.replicate n '0')

/-- Digits with the point after the first `position` of them. -/
def positionalText (wholeFraction : Bool) (digits : List Char) (position : Int) : String :=
  if position ≤ 0 then
    "0." ++ zeros (-position).toNat ++ String.ofList digits
  else
    let whole := digits.take position.toNat
    let fraction := digits.drop position.toNat
    let head := String.ofList whole ++ zeros (position.toNat - digits.length)
    if fraction.isEmpty then (if wholeFraction then head ++ ".0" else head)
    else head ++ "." ++ String.ofList fraction

/-- Digits with the point after the first of them and the exponent that this takes. The sign of
the exponent is always written, without leading zeros. -/
def exponentText (digits : List Char) (exponent : Int) : String :=
  let fraction := digits.drop 1
  String.ofList (digits.take 1)
    ++ (if fraction.isEmpty then "" else "." ++ String.ofList fraction)
    ++ (if exponent < 0 then "e-" else "e+") ++ digitText exponent.natAbs

/-- A positive decimal in a style. -/
def Style.digits (style : Style) (d : Digits) : String :=
  let digits := Nat.toDigits 10 d.coefficient
  let position := d.exponent + digits.length
  if style.positional position then positionalText style.wholeFraction digits position
  else exponentText digits (position - 1)

/-- A decoded double in a style. -/
def Style.binary (style : Style) : Binary64 → String
  | .nan => style.nan
  | .infinite negative => if negative then style.negativeInfinite else style.infinite
  | .finite negative significand exponent =>
      let sign := if negative then "-" else ""
      if significand = 0 then sign ++ (if style.wholeFraction then "0.0" else "0")
      else sign ++ style.digits (shortest style.tie (.ofFinite significand exponent))

/-- A double in a style. -/
def Style.write (style : Style) (x : Float) : String := style.binary (.ofFloat x)

/-- The quotient rounded to the nearest whole number, halves to the even neighbour. -/
def roundDivEven (numerator denominator : Nat) : Nat :=
  let below := numerator / denominator
  let twice := 2 * (numerator % denominator)
  if denominator < twice || (twice == denominator && below % 2 == 1) then below + 1 else below

/-- A double with exactly `places` digits after the point. -/
def fixed (places : Nat) (x : Float) : String :=
  match Binary64.ofFloat x with
  | .nan => plain.nan
  | .infinite negative => if negative then plain.negativeInfinite else plain.infinite
  | .finite negative significand exponent =>
      let scaled :=
        roundDivEven (significand * Nat.pow 2 exponent.toNat * Nat.pow 10 places)
          (Nat.pow 2 (-exponent).toNat)
      let digits := Nat.toDigits 10 scaled
      let padded := List.replicate (places + 1 - digits.length) '0' ++ digits
      (if negative then "-" else "")
        ++ String.ofList (padded.take (padded.length - places)) ++ "."
        ++ String.ofList (padded.drop (padded.length - places))

end BlockAffinity.Decimal
