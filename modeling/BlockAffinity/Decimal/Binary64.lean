/-!
# BlockAffinity.Decimal.Binary64

**Doubles as exact fractions.** A finite double is decoded into a natural significand and a power
of two; together with it goes its *rounding interval*, the fractions that no other double is
nearer to. Digit work downstream is on natural numbers alone.
-/

namespace BlockAffinity.Decimal

/-- What the 64 bits of a double stand for. A finite value is `significand · 2 ^ exponent`, negated
if `negative`; zero is the finite value with significand 0. -/
inductive Binary64
  | nan
  | infinite (negative : Bool)
  | finite (negative : Bool) (significand : Nat) (exponent : Int)
  deriving Repr, DecidableEq

/-- Decodes the bits of a double. -/
def Binary64.ofBits (bits : UInt64) : Binary64 :=
  let word := bits.toNat
  let negative := word / Nat.pow 2 63 == 1
  let field : Nat := word / Nat.pow 2 52 % Nat.pow 2 11
  let fraction : Nat := word % Nat.pow 2 52
  if field = 2047 then
    if fraction = 0 then .infinite negative else .nan
  else if field = 0 then .finite negative fraction (-1074)
  else .finite negative (fraction + Nat.pow 2 52) ((field : Int) - 1075)

/-- Decodes a double. -/
def Binary64.ofFloat (x : Float) : Binary64 := .ofBits x.toBits

/-- The fractions `low / unit` to `high / unit` that round to the double `value / unit`. -/
structure RoundingInterval where
  low : Nat
  value : Nat
  high : Nat
  unit : Nat
  /-- Whether the two ends round to the double as well. -/
  closed : Bool
  deriving Repr, DecidableEq

/-- The rounding interval of a positive finite double. The double below a power of two is only
half as far away as the one above, except at the bottom of the range; ties go to the even
significand, so the ends belong to the interval of an even one. -/
def RoundingInterval.ofFinite (significand : Nat) (exponent : Int) : RoundingInterval :=
  let gap := if significand = Nat.pow 2 52 ∧ exponent ≠ -1074 then 1 else 2
  let scale := Nat.pow 2 (exponent - 2).toNat
  { low := (4 * significand - gap) * scale
    value := 4 * significand * scale
    high := (4 * significand + 2) * scale
    unit := Nat.pow 2 (2 - exponent).toNat
    closed := significand % 2 = 0 }

end BlockAffinity.Decimal
