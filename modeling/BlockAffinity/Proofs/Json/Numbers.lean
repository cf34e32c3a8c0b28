import BlockAffinity.Proofs.Json.Reading
import BlockAffinity.Proofs.Decimal

/-!
# BlockAffinity.Proofs.Json.Numbers

**Numbers are read back from their characters.** A number whose parts are as the grammar wants them is
split into these parts again (`Number.ofLexeme?_chars`), so its text is a lexeme (`isLexeme_chars`).

As long as all digits together fit the significand, taking them in one by one makes the number that
they are the digits of, with one step of the exponent for each digit behind the point
(`Number.magnitude?_eq`).
-/

namespace BlockAffinity.Json

open Decimal

namespace Number

/-! ### The characters of a number -/

/-- The characters of a fraction, none if it has no digits. -/
def fractionChars : List Char → List Char
  | [] => []
  | digits => '.' :: digits

theorem fractionChars_cons (c : Char) (cs : List Char) :
    fractionChars (c :: cs) = '.' :: c :: cs := rfl

/-- The characters of an exponent, with its sign. -/
def exponentChars : Option (Bool × List Char) → List Char
  | none => []
  | some (negative, digits) => 'e' :: (if negative then '-' else '+') :: digits

/-- The characters of a number without its sign. -/
def body (n : Number) : List Char := n.whole ++ (fractionChars n.fraction ++ exponentChars n.exponent)

/-- The characters of a number. -/
def chars (n : Number) : List Char := (if n.negative then ['-'] else []) ++ n.body

/-- The parts are digits, the whole part begins with a zero only if it is one, and the exponent has
digits if there is one. -/
structure IsProper (n : Number) : Prop where
  whole_ne_nil : n.whole ≠ []
  whole_digits : ∀ c ∈ n.whole, c.isDigit = true
  leading : n.whole.head? = some '0' → n.whole.length = 1
  fraction_digits : ∀ c ∈ n.fraction, c.isDigit = true
  exponent_digits : ∀ part ∈ n.exponent, part.2 ≠ [] ∧ ∀ c ∈ part.2, c.isDigit = true

/-- A text that does not go on with a digit. -/
def EndsDigits (cs : List Char) : Prop := ∀ c ∈ cs.head?, c.isDigit = false

theorem takeWhile_digits {digits cs : List Char} (h : ∀ c ∈ digits, c.isDigit = true)
    (hend : EndsDigits cs) : (digits ++ cs).takeWhile Char.isDigit = digits := by
  rw [List.takeWhile_append_of_pos h]
  cases cs with
  | nil => simp
  | cons c cs => rw [List.takeWhile_cons_of_neg (by simp [hend c rfl]), List.append_nil]

theorem dropWhile_digits {digits cs : List Char} (h : ∀ c ∈ digits, c.isDigit = true)
    (hend : EndsDigits cs) : (digits ++ cs).dropWhile Char.isDigit = cs := by
  rw [List.dropWhile_append_of_pos h]
  cases cs with
  | nil => rfl
  | cons c cs => rw [List.dropWhile_cons_of_neg (by simp [hend c rfl])]

theorem endsDigits_cons {c : Char} (h : c.isDigit = false) (cs : List Char) :
    EndsDigits (c :: cs) := by
  intro d hd
  rw [List.head?_cons, Option.mem_some] at hd
  exact hd ▸ h

theorem endsDigits_exponent (exponent : Option (Bool × List Char)) :
    EndsDigits (exponentChars exponent) := by
  cases exponent with
  | none => simp [EndsDigits, exponentChars]
  | some part => exact endsDigits_cons (by decide) _

theorem endsDigits_fraction (fraction : List Char) (exponent : Option (Bool × List Char)) :
    EndsDigits (fractionChars fraction ++ exponentChars exponent) := by
  cases fraction with
  | nil => exact endsDigits_exponent exponent
  | cons c rest => exact endsDigits_cons (by decide) _

/-! ### Splitting -/

theorem splitExponent?_chars {exponent : Option (Bool × List Char)}
    (h : ∀ part ∈ exponent, part.2 ≠ [] ∧ ∀ c ∈ part.2, c.isDigit = true) :
    splitExponent? (exponentChars exponent) = some (exponent, []) := by
  cases exponent with
  | none => rfl
  | some part =>
      obtain ⟨negative, digits⟩ := part
      obtain ⟨hne, hdigits⟩ := h _ rfl
      have htake : digits.takeWhile Char.isDigit = digits := List.takeWhile_eq_self_iff.mpr hdigits
      have hdrop : digits.dropWhile Char.isDigit = [] := List.dropWhile_eq_nil_iff.mpr hdigits
      have hsome : digits.isEmpty = false := List.isEmpty_eq_false_iff.mpr hne
      cases negative <;>
        simp [exponentChars, splitExponent?, splitSign, htake, hdrop, hsome]

theorem splitFraction?_chars {fraction : List Char} (h : ∀ c ∈ fraction, c.isDigit = true)
    (exponent : Option (Bool × List Char)) :
    splitFraction? (fractionChars fraction ++ exponentChars exponent) =
      some (fraction, exponentChars exponent) := by
  cases fraction with
  | nil =>
      cases exponent with
      | none => rfl
      | some part => rfl
  | cons c rest =>
      have hend := endsDigits_exponent exponent
      have hsome : ((c :: rest ++ exponentChars exponent).takeWhile Char.isDigit).isEmpty = false := by
        rw [takeWhile_digits h hend]
        rfl
      show splitFraction? ('.' :: (c :: rest ++ exponentChars exponent)) = _
      rw [splitFraction?, hsome, takeWhile_digits h hend, dropWhile_digits h hend]
      rfl

/-- Splitting what comes behind the sign. -/
def scanBody? (negative : Bool) (cs : List Char) : Option (Number × List Char) := do
  let whole := cs.takeWhile Char.isDigit
  if whole.isEmpty || (whole.head? == some '0' && whole.length != 1) then none
  let (fraction, rest) ← splitFraction? (cs.dropWhile Char.isDigit)
  let (exponent, rest) ← splitExponent? rest
  return (⟨negative, whole, fraction, exponent⟩, rest)

theorem scan?_minus (cs : List Char) : Number.scan? ('-' :: cs) = scanBody? true cs := rfl

theorem scan?_digit {c : Char} (h : c.isDigit = true) (cs : List Char) :
    Number.scan? (c :: cs) = scanBody? false (c :: cs) := by
  have hminus : c ≠ '-' := by
    rintro rfl
    exact absurd h (by decide)
  unfold Number.scan?
  split
  · rename_i heq
    split at heq
    · rename_i hcons
      exact absurd (List.cons.inj hcons).1 hminus
    · obtain ⟨rfl, rfl⟩ := Prod.mk.inj heq
      rfl

theorem scanBody?_body {n : Number} (h : n.IsProper) : scanBody? n.negative n.body = some (n, []) := by
  have hend := endsDigits_fraction n.fraction n.exponent
  have hleading : (n.whole.isEmpty || (n.whole.head? == some '0' && n.whole.length != 1)) = false := by
    simpa [h.whole_ne_nil] using h.leading
  rw [scanBody?, body, takeWhile_digits h.whole_digits hend, dropWhile_digits h.whole_digits hend,
    splitFraction?_chars h.fraction_digits]
  dsimp only
  rw [hleading, if_neg Bool.false_ne_true]
  show (splitExponent? (exponentChars n.exponent)).bind _ = _
  rw [splitExponent?_chars h.exponent_digits]
  rfl

/-- **A number is split** into its parts again. -/
theorem scan?_chars {n : Number} (h : n.IsProper) : Number.scan? n.chars = some (n, []) := by
  have hbody := scanBody?_body h
  cases hnegative : n.negative with
  | true =>
      rw [hnegative] at hbody
      rw [chars, hnegative, if_pos rfl, List.singleton_append, scan?_minus, hbody]
  | false =>
      obtain ⟨c, rest, hwhole⟩ := List.exists_cons_of_ne_nil h.whole_ne_nil
      have hc : c.isDigit = true := h.whole_digits c (by rw [hwhole]; exact List.mem_cons_self)
      have hcons : n.body = c :: (rest ++ (fractionChars n.fraction ++ exponentChars n.exponent)) := by
        rw [body, hwhole, List.cons_append]
      rw [hnegative] at hbody
      rw [chars, hnegative, if_neg Bool.false_ne_true, List.nil_append, hcons, scan?_digit hc,
        ← hcons, hbody]

theorem ofLexeme?_chars {n : Number} (h : n.IsProper) :
    ofLexeme? (String.ofList n.chars) = some n := by
  rw [ofLexeme?, String.toList_ofList, scan?_chars h]

theorem isNumberChar_of_isDigit {c : Char} (h : c.isDigit = true) : isNumberChar c = true := by
  simp [isNumberChar, h]

theorem isNumberChar_of_mem_chars {n : Number} (h : n.IsProper) {c : Char} (hc : c ∈ n.chars) :
    isNumberChar c = true := by
  rw [chars, body] at hc
  simp only [List.mem_append] at hc
  rcases hc with hsign | hwhole | hfraction | hexponent
  · split at hsign
    · rw [List.mem_singleton.mp hsign]
      decide
    · cases hsign
  · exact isNumberChar_of_isDigit (h.whole_digits c hwhole)
  · cases hdigits : n.fraction with
    | nil => simp [hdigits, fractionChars] at hfraction
    | cons d rest =>
        rw [hdigits, fractionChars_cons, List.mem_cons] at hfraction
        rcases hfraction with rfl | hmem
        · decide
        · exact isNumberChar_of_isDigit (h.fraction_digits c (hdigits ▸ hmem))
  · cases hpart : n.exponent with
    | none => simp [hpart, exponentChars] at hexponent
    | some part =>
        obtain ⟨negative, digits⟩ := part
        rw [hpart, exponentChars, List.mem_cons, List.mem_cons] at hexponent
        rcases hexponent with rfl | rfl | hmem
        · decide
        · cases negative <;> decide
        · exact isNumberChar_of_isDigit ((h.exponent_digits _ (by rw [hpart]; rfl)).2 c hmem)

/-- **The text of a number** is a lexeme. -/
theorem isLexeme_chars {n : Number} (h : n.IsProper) : IsLexeme (String.ofList n.chars) where
  chars c hc := isNumberChar_of_mem_chars h (by rwa [String.toList_ofList] at hc)
  isNumber := by
    rw [ofLexeme?_chars h]
    rfl

/-! ### Natural numbers -/

/-- A natural number as a number of a document. -/
def ofNat (n : Nat) : Number := ⟨false, Nat.toDigits 10 n, [], none⟩

/-- Digits do not begin with a zero. -/
theorem head?_toDigits {n : Nat} (h : 0 < n) : (Nat.toDigits 10 n).head? ≠ some '0' := by
  induction n using Nat.strongRecOn with
  | ind n ih =>
      rcases Nat.lt_or_ge n 10 with hlt | hge
      · rw [Nat.toDigits_of_lt_base hlt]
        have hall : ∀ n < 10, 0 < n → [Nat.digitChar n].head? ≠ some '0' := by decide
        exact hall n hlt h
      · rw [Nat.toDigits_of_base_le (by decide) hge, List.head?_append_of_ne_nil _ Nat.toDigits_ne_nil]
        exact ih (n / 10) (by omega) (by omega)

theorem leading_toDigits (n : Nat) :
    (Nat.toDigits 10 n).head? = some '0' → (Nat.toDigits 10 n).length = 1 := by
  rcases Nat.eq_zero_or_pos n with rfl | hpos
  · exact fun _ => rfl
  · exact fun h => absurd h (head?_toDigits hpos)

theorem isProper_ofNat (n : Nat) : (ofNat n).IsProper where
  whole_ne_nil := Nat.toDigits_ne_nil
  whole_digits _ := isDigit_of_mem
  leading := leading_toDigits n
  fraction_digits := nofun
  exponent_digits := nofun

theorem digitText_eq (n : Nat) : digitText n = String.ofList (ofNat n).chars := by
  simp [digitText, ofNat, chars, body, fractionChars, exponentChars]

theorem digitsValue_toDigits (n : Nat) : digitsValue 0 (Nat.toDigits 10 n) = n :=
  Nat.ofDigitChars_ten_toDigits

/-- **A natural number of 64 bits** is read back. -/
theorem toNat?_ofNat {n : Nat} (h : n ≤ maxSignificand) : (ofNat n).toNat? = some n := by
  simp [Number.toNat?, ofNat, digitsValue_toDigits, h]

/-! ### The significand -/

theorem le_digitsValue (start : Nat) (cs : List Char) : start ≤ digitsValue start cs := by
  induction cs generalizing start with
  | nil => exact le_rfl
  | cons c cs ih =>
      show start ≤ digitsValue (10 * start + digitValue c) cs
      exact (by omega : start ≤ 10 * start + digitValue c).trans (ih _)

theorem takeWhole_of_le {significand : Nat} {cs : List Char}
    (h : digitsValue significand cs ≤ maxSignificand) :
    takeWhole significand cs = (digitsValue significand cs, 0) := by
  induction cs generalizing significand with
  | nil => rfl
  | cons c cs ih =>
      have hnext : 10 * significand + digitValue c ≤ maxSignificand := (le_digitsValue _ cs).trans h
      rw [takeWhole, if_pos hnext]
      exact ih h

theorem takeFraction_of_le {significand : Nat} {cs : List Char} (exponent : Int)
    (h : digitsValue significand cs ≤ maxSignificand) :
    takeFraction significand exponent cs = (digitsValue significand cs, exponent - cs.length) := by
  induction cs generalizing significand exponent with
  | nil => simp [takeFraction, digitsValue]
  | cons c cs ih =>
      have hnext : 10 * significand + digitValue c ≤ maxSignificand := (le_digitsValue _ cs).trans h
      rw [takeFraction, if_pos hnext, ih (exponent - 1) h, List.length_cons]
      refine Prod.ext rfl ?_
      push_cast
      omega

/-- The number that all digits together make. -/
def significand (n : Number) : Nat := digitsValue 0 (n.whole ++ n.fraction)

/-- The exponent that stands at the end of a number. -/
def exponentValue (n : Number) : Int :=
  match n.exponent with
  | none => 0
  | some (negative, digits) => if negative then -digitsValue 0 digits else digitsValue 0 digits

/-- **The magnitude of a number** whose digits fit the significand. -/
theorem magnitude?_eq {n : Number} (hdigits : n.significand ≤ maxSignificand)
    (hexponent : n.exponentValue.natAbs < exponentLimit) :
    n.magnitude? = scale? n.significand (n.exponentValue - n.fraction.length) := by
  have happend : n.significand = digitsValue (digitsValue 0 n.whole) n.fraction :=
    Nat.ofDigitChars_append 0
  have hwhole : digitsValue 0 n.whole ≤ maxSignificand :=
    (le_digitsValue _ n.fraction).trans (happend ▸ hdigits)
  rw [magnitude?, takeWhole_of_le hwhole]
  dsimp only
  rw [takeFraction_of_le _ (happend ▸ hdigits), ← happend]
  dsimp only
  rw [exponentValue] at hexponent ⊢
  cases hpart : n.exponent with
  | none => simp
  | some part =>
      obtain ⟨negative, digits⟩ := part
      have hlimit : ¬exponentLimit ≤ digitsValue 0 digits := by
        rw [hpart] at hexponent
        dsimp only at hexponent
        split at hexponent <;> omega
      dsimp only
      rw [if_neg hlimit]
      cases negative with
      | true => rw [if_pos rfl, if_pos rfl]; congr 1; omega
      | false => rw [if_neg Bool.false_ne_true, if_neg Bool.false_ne_true]; congr 1; omega

end Number

end BlockAffinity.Json
