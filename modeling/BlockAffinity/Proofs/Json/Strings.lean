import BlockAffinity.Json.Reader

/-!
# BlockAffinity.Proofs.Json.Strings

**Strings in quotes are read back.** Each character is written as one unit of a string, as it stands, by
a short escape or by a numeric one, and this unit is what the reader finds (`scanUnits?_escapeChar`).
Numeric escapes are only written for control characters, far below the surrogates, so no unit is taken
for half of a pair and every text comes back (`scanString?_escaped`).
-/

namespace BlockAffinity.Json

open Document

/-! ### One character -/

/-- The control characters with a short escape. -/
def HasShortEscape (c : Char) : Prop :=
  c = '\n' ∨ c = '\r' ∨ c = '\t' ∨ c = '\x08' ∨ c = '\x0c'

instance (c : Char) : Decidable (HasShortEscape c) := inferInstanceAs (Decidable (_ ∨ _))

/-- The unit that a character is written as. -/
def unitOf (c : Char) : StringUnit :=
  if c.toNat < 0x20 ∧ ¬HasShortEscape c then .code c.toNat else .char c

/-- What is found behind a unit, with the unit. -/
def withUnit (unit : StringUnit) (found : List StringUnit × List Char) :
    List StringUnit × List Char :=
  (unit :: found.1, found.2)

theorem scanUnits?_shortEscape {e c : Char} (hc : shortEscape? e = some c) (hu : e ≠ 'u')
    (rest : List Char) :
    scanUnits? ('\\' :: e :: rest) = (scanUnits? rest).map (withUnit (.char c)) := by
  rw [scanUnits?.eq_3]
  · rw [hc]
    cases scanUnits? rest <;> rfl
  · simp [hu]

theorem scanUnits?_plain {c : Char} (hquote : c ≠ '"') (hslash : c ≠ '\\') (hc : ¬c.toNat < 0x20)
    (rest : List Char) :
    scanUnits? (c :: rest) = (scanUnits? rest).map (withUnit (.char c)) := by
  rw [scanUnits?.eq_4]
  · rw [if_neg hquote, if_neg (by simp [hslash, hc])]
    cases scanUnits? rest <;> rfl
  · simp [hslash]
  · simp [hslash]

theorem hexValue?_digitChar {n : Nat} (h : n < 16) : hexValue? (Nat.digitChar n) = some n := by
  revert n
  decide

theorem codeValue?_of_lt {n : Nat} (h : n < 0x20) :
    codeValue? '0' '0' (Nat.digitChar (n / 16)) (Nat.digitChar (n % 16)) = some n := by
  have hzero : hexValue? '0' = some 0 := rfl
  rw [codeValue?, hzero, hexValue?_digitChar (by omega), hexValue?_digitChar (by omega)]
  show some ((0 * 16 + 0) * 256 + (n / 16 * 16 + n % 16)) = some n
  rw [Option.some.injEq]
  omega

theorem scanUnits?_numericEscape {n : Nat} (h : n < 0x20) (rest : List Char) :
    scanUnits? ('\\' :: 'u' :: '0' :: '0' :: Nat.digitChar (n / 16) :: Nat.digitChar (n % 16) ::
      rest) = (scanUnits? rest).map (withUnit (.code n)) := by
  rw [scanUnits?.eq_2, codeValue?_of_lt h]
  cases scanUnits? rest <;> rfl

/-- **A character is found** in what it is written as. -/
theorem scanUnits?_escapeChar (c : Char) (rest : List Char) :
    scanUnits? (escapeChar c ++ rest) = (scanUnits? rest).map (withUnit (unitOf c)) := by
  by_cases hquote : c = '"'
  · subst hquote
    exact scanUnits?_shortEscape rfl (by decide) rest
  by_cases hslash : c = '\\'
  · subst hslash
    exact scanUnits?_shortEscape rfl (by decide) rest
  by_cases hshort : HasShortEscape c
  · have hunit : unitOf c = .char c := if_neg fun h => h.2 hshort
    rw [hunit]
    rcases hshort with rfl | rfl | rfl | rfl | rfl <;>
      exact scanUnits?_shortEscape rfl (by decide) rest
  have hnone := hshort
  simp only [HasShortEscape, not_or] at hnone
  obtain ⟨hline, hreturn, htab, hback, hfeed⟩ := hnone
  rw [escapeChar, if_neg hquote, if_neg hslash, if_neg hline, if_neg hreturn, if_neg htab,
    if_neg hback, if_neg hfeed]
  by_cases hcontrol : c.toNat < 0x20
  · rw [if_pos hcontrol, unitOf, if_pos ⟨hcontrol, hshort⟩]
    exact scanUnits?_numericEscape hcontrol rest
  · rw [if_neg hcontrol, unitOf, if_neg fun h => hcontrol h.1]
    exact scanUnits?_plain hquote hslash hcontrol rest

/-! ### Texts -/

theorem scanUnits?_escaped (cs rest : List Char) :
    scanUnits? (cs.flatMap escapeChar ++ '"' :: rest) = some (cs.map unitOf, rest) := by
  induction cs with
  | nil => rfl
  | cons c cs ih =>
      rw [List.flatMap_cons, List.append_assoc, scanUnits?_escapeChar, ih]
      rfl

/-- A code below the surrogates stands for itself, whatever comes next. -/
theorem charsOfUnits?_code {n : Nat} (h : n < 0xD800) (units : List StringUnit) :
    charsOfUnits? (.code n :: units) = (charsOfUnits? units).map (Char.ofNat n :: ·) := by
  have hleading : isLeading n = false := by
    simp only [isLeading, Bool.and_eq_false_imp, decide_eq_true_eq]
    omega
  have htrailing : isTrailing n = false := by
    simp only [isTrailing, Bool.and_eq_false_imp, decide_eq_true_eq]
    omega
  cases units with
  | nil => simp [charsOfUnits?, hleading, htrailing]
  | cons unit units => cases unit <;> simp [charsOfUnits?, hleading, htrailing]

theorem charsOfUnits?_unitOf (cs : List Char) : charsOfUnits? (cs.map unitOf) = some cs := by
  induction cs with
  | nil => rfl
  | cons c cs ih =>
      rw [List.map_cons, unitOf]
      split
      · rename_i hcontrol
        rw [charsOfUnits?_code (by omega), ih, Option.map_some, Char.ofNat_toNat]
      · rw [charsOfUnits?, ih, Option.map_some]

/-- **A text is read back** from what stands between its quotes. -/
theorem scanString?_escaped (text : String) (rest : List Char) :
    scanString? (text.toList.flatMap escapeChar ++ '"' :: rest) = some (some text, rest) := by
  rw [scanString?, scanUnits?_escaped, Option.map_some]
  dsimp only
  rw [charsOfUnits?_unitOf, Option.map_some, String.ofList_toList]

theorem toList_quoted (text : String) :
    (quoted text).toList = '"' :: (text.toList.flatMap escapeChar ++ ['"']) := by
  rw [quoted, String.toList_ofList]
  rfl

end BlockAffinity.Json
