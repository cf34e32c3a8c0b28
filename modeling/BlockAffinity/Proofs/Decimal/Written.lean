import BlockAffinity.Proofs.Decimal.Shortest
import BlockAffinity.Proofs.Json.Numbers

/-!
# BlockAffinity.Proofs.Decimal.Written

**What documents hold for a double** is a number of the grammar, and the digits of this number are those
of the shortest decimal, maybe with zeros behind them (`exists_isWritten_digits`). So reading it back
begins with the same decimal, as a significand and an exponent.
-/

namespace BlockAffinity.Decimal

open Json (Number)

/-- The significand and the exponent of what is written for a decimal. Where the point stands behind all
digits, zeros are written up to it and one behind it. -/
inductive Digits.WrittenAs (d : Digits) : ℕ → ℤ → Prop
  | same : WrittenAs d d.coefficient d.exponent
  | padded {zeros : ℕ} (h : d.exponent = zeros)
      (hshort : d.coefficient * 10 ^ (zeros + 1) < 10 ^ 17) :
      WrittenAs d (d.coefficient * 10 ^ (zeros + 1)) (-1)

/-- A number of the grammar is written for a decimal. -/
structure IsWritten (d : Digits) (text : List Char) (n : Number) : Prop where
  text_eq : text = n.chars
  proper : n.IsProper
  negative : n.negative = false
  limit : n.exponentValue.natAbs < Json.exponentLimit
  written : d.WrittenAs n.significand (n.exponentValue - n.fraction.length)

theorem digitsValue_append (start : ℕ) (xs ys : List Char) :
    digitsValue start (xs ++ ys) = digitsValue (digitsValue start xs) ys :=
  Nat.ofDigitChars_append start

theorem digitsValue_zeros (start n : ℕ) :
    digitsValue start (List.replicate n '0') = 10 ^ n * start := Nat.ofDigitChars_replicate_zero

theorem toList_zeros (n : ℕ) : (zeros n).toList = List.replicate n '0' := String.toList_ofList

theorem toList_digitText (n : ℕ) : (digitText n).toList = Nat.toDigits 10 n := String.toList_ofList

variable {d : Digits}

theorem isDigit_of_mem_zeros {n : ℕ} {c : Char} (h : c ∈ List.replicate n '0') :
    c.isDigit = true := by
  rw [List.eq_of_mem_replicate h]
  rfl

/-! ### Without an exponent -/

/-- A number without an exponent, from its digits before and behind the point. -/
theorem isWritten_of_parts {text : List Char} (whole fraction : List Char) (hne : whole ≠ [])
    (hwhole : ∀ c ∈ whole, c.isDigit = true)
    (hleading : whole.head? = some '0' → whole.length = 1)
    (hfraction : ∀ c ∈ fraction, c.isDigit = true)
    (htext : text = whole ++ Number.fractionChars fraction)
    (hwritten : d.WrittenAs (digitsValue 0 (whole ++ fraction)) (-fraction.length)) :
    IsWritten d text ⟨false, whole, fraction, none⟩ where
  text_eq := by simp [htext, Number.chars, Number.body, Number.exponentChars]
  proper := ⟨hne, hwhole, hleading, hfraction, nofun⟩
  negative := rfl
  limit := by
    show (0 : ℤ).natAbs < Json.exponentLimit
    decide
  written := by
    show d.WrittenAs _ (0 - (fraction.length : ℤ))
    rw [zero_sub]
    exact hwritten

/-- **The point before all digits**: a zero, the point, zeros and the digits. -/
theorem exists_isWritten_leading (hposition : d.exponent + (digitCount d.coefficient : ℤ) ≤ 0) :
    ∃ n, IsWritten d (positionalText true (Nat.toDigits 10 d.coefficient)
      (d.exponent + digitCount d.coefficient)).toList n := by
  obtain ⟨places, hplaces⟩ : ∃ places : ℕ, d.exponent + digitCount d.coefficient = -(places : ℤ) :=
    ⟨(-(d.exponent + digitCount d.coefficient)).toNat, by omega⟩
  have hlength : (Nat.toDigits 10 d.coefficient).length = digitCount d.coefficient := rfl
  refine ⟨_, isWritten_of_parts ['0']
    (List.replicate places '0' ++ Nat.toDigits 10 d.coefficient) (by simp) ?_ (by simp)
    ?_ ?_ ?_⟩
  · intro c hc
    rw [List.mem_singleton.mp hc]
    rfl
  · intro c hc
    rcases List.mem_append.mp hc with hzero | hdigit
    · exact isDigit_of_mem_zeros hzero
    · exact isDigit_of_mem hdigit
  · rw [positionalText, if_pos hposition, hplaces, neg_neg, Int.toNat_natCast]
    cases hfraction : List.replicate places '0' ++ Nat.toDigits 10 d.coefficient with
    | nil => simp [Nat.toDigits_ne_nil] at hfraction
    | cons c rest => simp [toList_zeros, Number.fractionChars, hfraction]
  · have hvalue : digitsValue 0 (['0'] ++ (List.replicate places '0' ++
        Nat.toDigits 10 d.coefficient)) = d.coefficient := by
      rw [digitsValue_append, digitsValue_append, digitsValue_zeros]
      exact Json.Number.digitsValue_toDigits _
    have hexponent : -((List.replicate places '0' ++ Nat.toDigits 10 d.coefficient).length : ℤ) =
        d.exponent := by
      rw [List.length_append, List.length_replicate, hlength]
      push_cast
      omega
    rw [hvalue, hexponent]
    exact .same

/-- **The point among the digits.** -/
theorem exists_isWritten_split (hpos : 0 < d.coefficient)
    (hposition : 0 < d.exponent + (digitCount d.coefficient : ℤ)) (hneg : d.exponent < 0) :
    ∃ n, IsWritten d (positionalText true (Nat.toDigits 10 d.coefficient)
      (d.exponent + digitCount d.coefficient)).toList n := by
  obtain ⟨position, hwhole⟩ : ∃ position : ℕ,
      d.exponent + digitCount d.coefficient = (position : ℤ) :=
    ⟨(d.exponent + digitCount d.coefficient).toNat, by omega⟩
  have hlength : (Nat.toDigits 10 d.coefficient).length = digitCount d.coefficient := rfl
  have hlt : position < (Nat.toDigits 10 d.coefficient).length := by omega
  have hpos' : 0 < position := by omega
  obtain ⟨c, rest, hfraction⟩ := List.exists_cons_of_ne_nil
    (List.length_pos_iff.mp (by rw [List.length_drop]; omega) :
      (Nat.toDigits 10 d.coefficient).drop position ≠ [])
  refine ⟨_, isWritten_of_parts ((Nat.toDigits 10 d.coefficient).take position)
    ((Nat.toDigits 10 d.coefficient).drop position) ?_ ?_ ?_ ?_ ?_ ?_⟩
  · exact List.length_pos_iff.mp (by rw [List.length_take]; omega)
  · exact fun c hc => isDigit_of_mem (List.mem_of_mem_take hc)
  · rw [List.head?_take, if_neg (by omega)]
    exact fun hzero => absurd hzero (Json.Number.head?_toDigits hpos)
  · exact fun c hc => isDigit_of_mem (List.mem_of_mem_drop hc)
  · rw [positionalText, if_neg (by omega), hwhole, Int.toNat_natCast]
    simp only [hfraction]
    have hzeros : position - (Nat.toDigits 10 d.coefficient).length = 0 := by omega
    simp [hzeros, toList_zeros, Number.fractionChars_cons]
  · rw [List.take_append_drop, Json.Number.digitsValue_toDigits, List.length_drop]
    have hexponent : -(((Nat.toDigits 10 d.coefficient).length - position : ℕ) : ℤ) = d.exponent := by
      omega
    rw [hexponent]
    exact .same

/-- **The point behind all digits**: zeros up to it, and one behind it. -/
theorem exists_isWritten_padded (hpos : 0 < d.coefficient)
    (hposition : d.exponent + (digitCount d.coefficient : ℤ) ≤ 16) (hneg : 0 ≤ d.exponent) :
    ∃ n, IsWritten d (positionalText true (Nat.toDigits 10 d.coefficient)
      (d.exponent + digitCount d.coefficient)).toList n := by
  obtain ⟨places, hplaces⟩ : ∃ places : ℕ, d.exponent = places := ⟨d.exponent.toNat, by omega⟩
  have hlength : (Nat.toDigits 10 d.coefficient).length = digitCount d.coefficient := rfl
  have hcount : 0 < digitCount d.coefficient := Nat.length_toDigits_pos
  refine ⟨_, isWritten_of_parts (Nat.toDigits 10 d.coefficient ++ List.replicate places '0') ['0']
    ?_ ?_ ?_ ?_ ?_ ?_⟩
  · simp [Nat.toDigits_ne_nil]
  · intro c hc
    rcases List.mem_append.mp hc with hdigit | hzero
    · exact isDigit_of_mem hdigit
    · exact isDigit_of_mem_zeros hzero
  · rw [List.head?_append_of_ne_nil _ Nat.toDigits_ne_nil]
    exact fun hzero => absurd hzero (Json.Number.head?_toDigits hpos)
  · intro c hc
    rw [List.mem_singleton.mp hc]
    rfl
  · rw [positionalText, if_neg (by omega)]
    have hdrop : (Nat.toDigits 10 d.coefficient).drop
        (d.exponent + digitCount d.coefficient).toNat = [] :=
      List.drop_eq_nil_of_le (by omega)
    have htake : (Nat.toDigits 10 d.coefficient).take
        (d.exponent + digitCount d.coefficient).toNat = Nat.toDigits 10 d.coefficient :=
      List.take_of_length_le (by omega)
    have hzeros : (d.exponent + digitCount d.coefficient).toNat -
        (Nat.toDigits 10 d.coefficient).length = places := by omega
    simp [hdrop, htake, hzeros, toList_zeros, Number.fractionChars_cons]
  · have hvalue : digitsValue 0 (Nat.toDigits 10 d.coefficient ++ List.replicate places '0' ++ ['0']) =
        d.coefficient * 10 ^ (places + 1) := by
      rw [digitsValue_append, digitsValue_append, Json.Number.digitsValue_toDigits, digitsValue_zeros]
      show 10 * (10 ^ places * d.coefficient) + 0 = _
      ring
    rw [hvalue]
    refine .padded hplaces ?_
    calc d.coefficient * 10 ^ (places + 1)
        < 10 ^ digitCount d.coefficient * 10 ^ (places + 1) :=
          Nat.mul_lt_mul_of_pos_right (lt_pow_digitCount _) (by positivity)
      _ = 10 ^ (digitCount d.coefficient + (places + 1)) := (Nat.pow_add _ _ _).symm
      _ ≤ 10 ^ 17 := Nat.pow_le_pow_right (by norm_num) (by omega)

/-! ### With an exponent -/

/-- The number that is written with the point behind its first digit. -/
def leadingNumber (c : Char) (rest : List Char) (exponent : ℤ) : Number :=
  ⟨false, [c], rest, some (decide (exponent < 0), Nat.toDigits 10 exponent.natAbs)⟩

theorem exponentValue_leadingNumber (c : Char) (rest : List Char) (exponent : ℤ) :
    (leadingNumber c rest exponent).exponentValue = exponent := by
  show (if decide (exponent < 0) = true then -(digitsValue 0 (Nat.toDigits 10 exponent.natAbs) : ℤ)
    else digitsValue 0 (Nat.toDigits 10 exponent.natAbs)) = exponent
  rw [Json.Number.digitsValue_toDigits]
  by_cases hneg : exponent < 0
  · rw [if_pos (decide_eq_true hneg)]
    omega
  · rw [if_neg (by simpa using hneg)]
    omega

theorem toList_exponentText (c : Char) (rest : List Char) (exponent : ℤ) :
    (exponentText (c :: rest) exponent).toList = (leadingNumber c rest exponent).chars := by
  rw [exponentText]
  cases rest <;> by_cases hneg : exponent < 0 <;>
    simp [hneg, leadingNumber, Number.chars, Number.body, Number.fractionChars, Number.exponentChars,
      toList_digitText]

/-- **The point behind the first digit** and the exponent that this takes. -/
theorem exists_isWritten_exponent
    (hlimit : (d.exponent + (digitCount d.coefficient : ℤ) - 1).natAbs < Json.exponentLimit) :
    ∃ n, IsWritten d (exponentText (Nat.toDigits 10 d.coefficient)
      (d.exponent + digitCount d.coefficient - 1)).toList n := by
  obtain ⟨exponent, hexponent⟩ : ∃ exponent : ℤ,
      exponent = d.exponent + digitCount d.coefficient - 1 := ⟨_, rfl⟩
  obtain ⟨c, rest, hdigits⟩ := List.exists_cons_of_ne_nil
    (Nat.toDigits_ne_nil (n := d.coefficient) (b := 10))
  have hall : ∀ x ∈ c :: rest, x.isDigit = true := fun x hx => isDigit_of_mem (hdigits ▸ hx)
  have hvalue : digitsValue 0 (c :: rest) = d.coefficient := by
    rw [← hdigits]
    exact Json.Number.digitsValue_toDigits _
  have hcount : digitCount d.coefficient = rest.length + 1 := by
    rw [digitCount, hdigits, List.length_cons]
  have hsame := exponentValue_leadingNumber c rest exponent
  rw [← hexponent] at hlimit ⊢
  refine ⟨leadingNumber c rest exponent, ?_, ⟨by simp [leadingNumber], ?_, by simp [leadingNumber], ?_,
    ?_⟩, rfl, ?_, ?_⟩
  · rw [hdigits, toList_exponentText]
  · exact fun x hx => hall x (List.mem_cons.mpr (.inl (List.mem_singleton.mp hx)))
  · exact fun x hx => hall x (List.mem_cons_of_mem _ hx)
  · rintro part hpart
    obtain rfl := Option.mem_some.mp hpart
    exact ⟨Nat.toDigits_ne_nil, fun _ => isDigit_of_mem⟩
  · rwa [hsame]
  · have hshift : exponent - rest.length = d.exponent := by omega
    rw [hsame]
    show d.WrittenAs (digitsValue 0 ([c] ++ rest)) (exponent - rest.length)
    rw [hshift, List.singleton_append, hvalue]
    exact .same

/-- **A positive decimal** is written as a number. -/
theorem exists_isWritten_digits (hpos : 0 < d.coefficient)
    (hlimit : (d.exponent + (digitCount d.coefficient : ℤ) - 1).natAbs < Json.exponentLimit) :
    ∃ n, IsWritten d (json.digits d).toList n := by
  have hdigits : json.digits d =
      if json.positional (d.exponent + digitCount d.coefficient) then
        positionalText true (Nat.toDigits 10 d.coefficient) (d.exponent + digitCount d.coefficient)
      else exponentText (Nat.toDigits 10 d.coefficient) (d.exponent + digitCount d.coefficient - 1) :=
    rfl
  rw [hdigits]
  split
  · rename_i hpositional
    have hrange : d.exponent + (digitCount d.coefficient : ℤ) ≤ 16 := by
      simp only [json, Bool.and_eq_true, decide_eq_true_eq] at hpositional
      exact hpositional.2
    rcases le_or_gt (d.exponent + (digitCount d.coefficient : ℤ)) 0 with hle | hgt
    · exact exists_isWritten_leading hle
    · rcases lt_or_ge d.exponent 0 with hneg | hnonneg
      · exact exists_isWritten_split hpos hgt hneg
      · exact exists_isWritten_padded hpos hrange hnonneg
  · exact exists_isWritten_exponent hlimit

end BlockAffinity.Decimal
