/-!
# BlockAffinity.Text.Blank

**Blank characters** and trimming. A character is blank when it has the Unicode property
`White_Space`; no-break spaces and the ideographic space are blank, zero-width ones are not.

The list functions carry the definitions, `trim` and `isBlank` wrap them for strings.
-/

namespace BlockAffinity.Text

/-- The code points with the property `White_Space`, as closed ranges. -/
def blankRanges : List (Nat × Nat) :=
  [(0x9, 0xD), (0x20, 0x20), (0x85, 0x85), (0xA0, 0xA0), (0x1680, 0x1680), (0x2000, 0x200A),
   (0x2028, 0x2029), (0x202F, 0x202F), (0x205F, 0x205F), (0x3000, 0x3000)]

/-- Whether a code point lies in one of the closed ranges. -/
def inRanges (ranges : List (Nat × Nat)) (code : Nat) : Bool :=
  ranges.any fun range => range.1 ≤ code && code ≤ range.2

/-- A blank character. -/
def isBlankChar (c : Char) : Bool := inRanges blankRanges c.toNat

/-- A list of characters without the blanks at its two ends. -/
def trimChars (cs : List Char) : List Char :=
  ((cs.dropWhile isBlankChar).reverse.dropWhile isBlankChar).reverse

/-- A text without the blanks at its two ends. -/
def trim (s : String) : String := String.ofList (trimChars s.toList)

/-- A text that holds nothing but blanks. -/
def isBlank (s : String) : Bool := s.toList.all isBlankChar

@[simp] theorem toList_trim (s : String) : (trim s).toList = trimChars s.toList := by
  simp [trim]

/-- Dropping leading blanks leaves nothing exactly from a list of blanks. -/
theorem dropWhile_isBlankChar_eq_nil_iff (cs : List Char) :
    cs.dropWhile isBlankChar = [] ↔ cs.all isBlankChar = true := by
  induction cs with
  | nil => simp
  | cons c rest ih =>
      by_cases h : isBlankChar c = true
      · simp [h, ih]
      · simp [h]

/-- A text is blank exactly when trimming leaves nothing of it. -/
theorem trimChars_eq_nil_iff (cs : List Char) :
    trimChars cs = [] ↔ cs.all isBlankChar = true := by
  rw [trimChars, List.reverse_eq_nil_iff, dropWhile_isBlankChar_eq_nil_iff]
  constructor
  · intro h
    rw [List.all_reverse] at h
    rw [← dropWhile_isBlankChar_eq_nil_iff]
    cases hd : cs.dropWhile isBlankChar with
    | nil => rfl
    | cons c rest =>
        have hc : isBlankChar c = true := by rw [hd] at h; simp at h; exact h.1
        have hne : cs.dropWhile isBlankChar ≠ [] := by simp [hd]
        have := List.head_dropWhile_not isBlankChar hne
        simp [hd, hc] at this
  · intro h
    rw [(dropWhile_isBlankChar_eq_nil_iff cs).2 h]
    rfl

end BlockAffinity.Text
