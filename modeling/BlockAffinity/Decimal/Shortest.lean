import BlockAffinity.Decimal.Binary64

/-!
# BlockAffinity.Decimal.Shortest

**The shortest decimal that reads back.** Among the decimals inside a rounding interval the one
with the fewest digits is taken, among several of those the nearest to the value, and on a tie the
one that the `Tie` names.

The search goes through the digit counts 1, 2, …, 17 and looks on each decimal grid at the two
neighbours of the value alone: if any point of the grid lies in the interval, one of the
neighbours does. Seventeen digits always suffice.
-/

namespace BlockAffinity.Decimal

/-- Which of two equally near neighbours is taken. -/
inductive Tie
  | up
  | toEven
  deriving Repr, DecidableEq

/-- The decimal `coefficient · 10 ^ exponent`. -/
structure Digits where
  coefficient : Nat
  exponent : Int
  deriving Repr, DecidableEq

/-- Number of decimal digits of a natural number; zero has one. -/
def digitCount (n : Nat) : Nat := (Nat.toDigits 10 n).length

/-- Decimal digits as text. -/
def digitText (n : Nat) : String := String.ofList (Nat.toDigits 10 n)

/-- Drops trailing zeros of the coefficient, at most `fuel` of them. -/
def Digits.strip (d : Digits) : Nat → Digits
  | 0 => d
  | fuel + 1 =>
      if d.coefficient % 10 = 0 ∧ d.coefficient ≠ 0 then
        Digits.strip ⟨d.coefficient / 10, d.exponent + 1⟩ fuel
      else d

/-- The number `p` with `10 ^ (p - 1) ≤ numerator / denominator < 10 ^ p`, for a positive
fraction. -/
def pointPosition (numerator denominator : Nat) : Int :=
  let guess : Int := digitCount numerator - digitCount denominator
  if denominator * Nat.pow 10 guess.toNat ≤ numerator * Nat.pow 10 (-guess).toNat then guess + 1
  else guess

/-- The neighbours of the interval's value on the grid of multiples of `10 ^ exponent`, reduced to
the one that is taken, if either lies in the interval. -/
def RoundingInterval.onGrid? (r : RoundingInterval) (tie : Tie) (exponent : Int) : Option Digits :=
  let up := Nat.pow 10 (-exponent).toNat
  let unit := r.unit * Nat.pow 10 exponent.toNat
  let value := r.value * up
  let below := value / unit
  let rest := value % unit
  let lowHit :=
    if r.closed then decide (r.low * up ≤ below * unit) else decide (r.low * up < below * unit)
  let highHit :=
    if r.closed then decide ((below + 1) * unit ≤ r.high * up)
    else decide ((below + 1) * unit < r.high * up)
  let nearerAbove :=
    unit < 2 * rest || (2 * rest == unit && (tie == .up || below % 2 == 1))
  match lowHit, highHit with
  | true, true => some ⟨if nearerAbove then below + 1 else below, exponent⟩
  | true, false => some ⟨below, exponent⟩
  | false, true => some ⟨below + 1, exponent⟩
  | false, false => none

/-- The shortest decimal in the rounding interval of a positive double. -/
def shortest (tie : Tie) (r : RoundingInterval) : Digits :=
  let position := pointPosition r.value r.unit
  let hit := (List.range 17).findSome? fun (k : Nat) => r.onGrid? tie (position - (k + 1))
  (hit.getD ⟨0, 0⟩).strip 20

end BlockAffinity.Decimal
