import BlockAffinity.Decimal.Text
import BlockAffinity.Proofs.Decimal
import BlockAffinity.Proofs.Number.Exact

/-!
# BlockAffinity.Proofs.Number.RationalText

**Rationals as texts.** A rational is written as a fraction of two whole numbers, and it is read
without rounding from a numeral or from a fraction of two numerals. What is written has no blanks in
it and is read back (`Fraction.read_write`).
-/

namespace BlockAffinity

open Decimal

namespace Fraction

/-- A number of the form `coefficient · 10 ^ exponent` under a sign. -/
def ofDecimal (negative : Bool) (coefficient : Nat) (exponent : Int) : ℚ :=
  let magnitude : ℚ := coefficient * 10 ^ exponent.toNat / 10 ^ (-exponent).toNat
  if negative then -magnitude else magnitude

/-- The number of a numeral, if it is finite. -/
def ofNumeral : Numeral → Except NumeralFault ℚ
  | .finite negative coefficient exponent => .ok (ofDecimal negative coefficient exponent)
  | _ => .error .invalid

/-- What stands between the parts of a fraction. -/
def bar : Char := '/'

/-- A rational in lowest terms. -/
def write (q : ℚ) : String :=
  (if q.num < 0 then "-" else "") ++ digitText q.num.natAbs ++ String.singleton bar
    ++ digitText q.den

/-- Reads a numeral or a fraction of two. -/
def read (text : String) : Except NumeralFault ℚ := do
  let numerator ← readNumeral (String.ofList (text.toList.takeWhile (· ≠ bar)))
  let numerator ← ofNumeral numerator
  match text.toList.dropWhile (· ≠ bar) with
  | [] => return numerator
  | _ :: rest =>
      let denominator ← readNumeral (String.ofList rest)
      let denominator ← ofNumeral denominator
      return numerator / denominator

/-- A number of a document without rounding. -/
def ofJson (number : Json.Number) : ℚ :=
  let coefficient := digitsValue (digitsValue 0 number.whole) number.fraction
  let exponent : Int := match number.exponent with
    | none => 0
    | some (negative, digits) => if negative then -digitsValue 0 digits else digitsValue 0 digits
  ofDecimal number.negative coefficient (exponent - number.fraction.length)

/-! ### Reading back -/

theorem ne_bar_of_mem {negative : Bool} {n : Nat} {c : Char} (h : c ∈ wholeChars negative n) :
    c ≠ bar := by
  rintro rfl
  rcases List.mem_append.mp h with hsign | hdigit
  · cases negative <;> simp [bar] at hsign
  · exact absurd (isDigit_of_mem hdigit) (by decide)

theorem toList_write (q : ℚ) : (write q).toList =
    wholeChars (decide (q.num < 0)) q.num.natAbs ++ bar :: wholeChars false q.den := by
  by_cases hneg : q.num < 0 <;> simp [write, wholeChars, digitText, hneg]

theorem isSolid_write (q : ℚ) : Text.IsSolid (write q) := by
  have hwhole (negative : Bool) (n : Nat) {c : Char} (hc : c ∈ wholeChars negative n) :
      Text.isBlankChar c = false := by
    rcases List.mem_append.mp hc with hsign | hdigit
    · cases negative with
      | true =>
          obtain rfl := List.mem_singleton.mp hsign
          decide +kernel
      | false => simp at hsign
    · exact Text.isBlankChar_of_isDigit (isDigit_of_mem hdigit)
  intro c hc
  rw [toList_write, List.mem_append, List.mem_cons] at hc
  rcases hc with hc | rfl | hc
  · exact hwhole _ _ hc
  · decide +kernel
  · exact hwhole _ _ hc

/-- **A rational is read back** from its text. -/
theorem read_write (q : ℚ) : read (write q) = .ok q := by
  have hbefore (c : Char) (hc : c ∈ wholeChars (decide (q.num < 0)) q.num.natAbs) :
      decide (c ≠ bar) = true := decide_eq_true (ne_bar_of_mem hc)
  have htake : (write q).toList.takeWhile (· ≠ bar) =
      wholeChars (decide (q.num < 0)) q.num.natAbs := by
    rw [toList_write, List.takeWhile_append_of_pos hbefore]
    simp
  have hdrop : (write q).toList.dropWhile (· ≠ bar) = bar :: wholeChars false q.den := by
    rw [toList_write, List.dropWhile_append_of_pos hbefore]
    simp
  have hvalue : ofDecimal (decide (q.num < 0)) q.num.natAbs 0 / ofDecimal false q.den 0 = q := by
    have hwhole (negative : Bool) (n : Nat) :
        ofDecimal negative n 0 = if negative then -(n : ℚ) else n := by
      simp [ofDecimal]
    rw [hwhole, hwhole, if_neg Bool.false_ne_true]
    conv_rhs => rw [← Rat.num_div_den q]
    congr 1
    by_cases hneg : q.num < 0
    · rw [decide_eq_true hneg, if_pos rfl, Nat.cast_natAbs, abs_of_neg hneg, Int.cast_neg, neg_neg]
    · rw [decide_eq_false hneg, if_neg Bool.false_ne_true, Nat.cast_natAbs,
        abs_of_nonneg (not_lt.mp hneg)]
  rw [read, htake, hdrop, readNumeral_wholeChars]
  dsimp only
  rw [readNumeral_wholeChars]
  exact congrArg Except.ok hvalue

end Fraction

/-- Rationals are written as fractions everywhere. -/
instance : ScalarText ℚ where
  write := Fraction.write
  writeJson := Fraction.write
  writeFixed := Fraction.write
  read := Fraction.read
  readJson? number := some (Fraction.ofJson number)

end BlockAffinity
