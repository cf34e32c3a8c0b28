import BlockAffinity.Decimal.Numeral
import BlockAffinity.Decimal.Style
import BlockAffinity.Proofs.Text.Trim
import Mathlib.Data.List.TakeWhile

/-!
# BlockAffinity.Proofs.Decimal

**Digits as text.** The digits of a whole number are read as that number
(`readNumeral_wholeChars`), and what is written for a double in a table has no blanks in it
(`isSolid_write`).
-/

namespace BlockAffinity.Decimal

open Text

theorem isDigit_of_mem {n : Nat} {c : Char} (h : c ∈ Nat.toDigits 10 n) : c.isDigit = true :=
  Nat.isDigit_of_mem_toDigits (by decide) (by decide) h

/-! ### Whole numbers -/

/-- Digits alone are a numeral. -/
theorem readDecimal?_toDigits (n : Nat) : readDecimal? (Nat.toDigits 10 n) = some (n, 0) := by
  have htake : (Nat.toDigits 10 n).takeWhile Char.isDigit = Nat.toDigits 10 n :=
    List.takeWhile_eq_self_iff.mpr fun _ => isDigit_of_mem
  have hdrop : (Nat.toDigits 10 n).dropWhile Char.isDigit = [] :=
    List.dropWhile_eq_nil_iff.mpr fun _ => isDigit_of_mem
  have hsome : (Nat.toDigits 10 n).isEmpty = false :=
    List.isEmpty_eq_false_iff.mpr Nat.toDigits_ne_nil
  have hvalue : digitsValue 0 (Nat.toDigits 10 n) = n := Nat.ofDigitChars_ten_toDigits
  rw [readDecimal?]
  simp only [htake, hdrop, hsome, hvalue]
  rfl

/-- The characters of a whole number with an optional minus. -/
def wholeChars (negative : Bool) (n : Nat) : List Char :=
  (if negative then ['-'] else []) ++ Nat.toDigits 10 n

theorem splitSign_wholeChars (negative : Bool) (n : Nat) :
    splitSign (wholeChars negative n) = (negative, Nat.toDigits 10 n) := by
  cases negative with
  | true => rfl
  | false =>
      rw [wholeChars, if_neg Bool.false_ne_true, List.nil_append]
      -- digits do not begin with a sign
      cases hdigits : Nat.toDigits 10 n with
      | nil => exact absurd hdigits Nat.toDigits_ne_nil
      | cons c rest =>
          have hc : c.isDigit = true := isDigit_of_mem (n := n) (by rw [hdigits]; exact List.mem_cons_self)
          unfold splitSign
          split
          · exact absurd hc (by simp_all [Char.isDigit])
          · exact absurd hc (by simp_all [Char.isDigit])
          · rfl

/-- **A whole number is read back** from its digits. -/
theorem readNumeral_wholeChars (negative : Bool) (n : Nat) :
    readNumeral (String.ofList (wholeChars negative n)) = .ok (.finite negative n 0) := by
  have hsome : wholeChars negative n ≠ [] := by
    simp [wholeChars, Nat.toDigits_ne_nil]
  rw [readNumeral, String.toList_ofList]
  split
  · exact absurd ‹_› hsome
  · rw [splitSign_wholeChars]
    dsimp only
    rw [readDecimal?_toDigits]

/-! ### Doubles -/

theorem isSolid_digits {cs : List Char} (h : ∀ c ∈ cs, c.isDigit = true) : IsSolid (String.ofList cs) :=
  isSolid_ofList fun c hc => isBlankChar_of_isDigit (h c hc)

theorem isSolid_zeros (n : Nat) : IsSolid (zeros n) :=
  isSolid_digits fun c hc => by rw [List.eq_of_mem_replicate hc]; rfl

theorem isSolid_positionalText {digits : List Char} (h : ∀ c ∈ digits, c.isDigit = true)
    (wholeFraction : Bool) (position : Int) :
    IsSolid (positionalText wholeFraction digits position) := by
  have hpoint : IsSolid "." := by decide +kernel
  unfold positionalText
  split
  · exact ((by decide +kernel : IsSolid "0.").append (isSolid_zeros _)).append (isSolid_digits h)
  · have hhead : IsSolid (String.ofList (digits.take position.toNat) ++
        zeros (position.toNat - digits.length)) :=
      (isSolid_digits fun c hc => h c (List.mem_of_mem_take hc)).append (isSolid_zeros _)
    dsimp only
    split
    · split
      · exact hhead.append (by decide +kernel)
      · exact hhead
    · exact (hhead.append hpoint).append (isSolid_digits fun c hc => h c (List.mem_of_mem_drop hc))

/-- **What is written in a table** for a double has no blanks in it. -/
theorem isSolid_write (x : Float) : IsSolid (plain.write x) := by
  rw [Style.write]
  cases Binary64.ofFloat x with
  | nan => decide +kernel
  | infinite negative => cases negative <;> decide +kernel
  | finite negative significand exponent =>
      have hsign : IsSolid (if negative then "-" else "") := by
        cases negative <;> decide +kernel
      rw [Style.binary]
      split
      · exact hsign.append (by decide +kernel)
      · exact hsign.append (isSolid_positionalText (fun _ => isDigit_of_mem) _ _)

end BlockAffinity.Decimal
