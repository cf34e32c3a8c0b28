import BlockAffinity.Text.CaseTable
import BlockAffinity.Text.Blank

/-!
# BlockAffinity.Text.Case

**Lower-casing** of whole texts, and comparison that ignores the case of ASCII letters.

Two characters do not follow the table of one-to-one mappings. A capital I with a dot becomes two
characters, so that the dot is kept; a capital sigma takes its final shape where it ends a word,
which is decided by the nearest characters on both sides that are not case-ignorable.
-/

namespace BlockAffinity.Text

/-- The code point that a run sends `code` to, if the run covers it. -/
def CaseRun.image? (run : CaseRun) (code : Nat) : Option Nat :=
  if run.first ≤ code && code ≤ run.last && (code - run.first) % run.stride == 0 then
    some (run.target + (code - run.first))
  else
    none

/-- The lower-case form of one character by the one-to-one mappings. -/
def lowerChar (c : Char) : Char :=
  ((lowerRuns.findSome? (·.image? c.toNat)).map Char.ofNat).getD c

/-- A character that has case. -/
def isCased (c : Char) : Bool := inRanges casedRanges c.toNat

/-- A character that a word's case is read through. -/
def isCaseIgnorable (c : Char) : Bool := inRanges caseIgnorableRanges c.toNat

/-- Whether the first character that is not case-ignorable has case. -/
def meetsCased (cs : List Char) : Bool := ((cs.dropWhile isCaseIgnorable).head?.map isCased).getD false

/-- Lower-cases the characters after `before`, which is held in reverse. -/
def lowerFrom (before : List Char) : List Char → List Char
  | [] => []
  | c :: rest =>
      let lowered :=
        if c = 'Σ' then
          if meetsCased before && !meetsCased rest then ['ς'] else ['σ']
        else if c = 'İ' then ['i', '\u0307']
        else [lowerChar c]
      lowered ++ lowerFrom (c :: before) rest

/-- A text in lower case. -/
def lower (s : String) : String := String.ofList (lowerFrom [] s.toList)

/-- Equality of texts up to the case of the letters A to Z. -/
def sameIgnoringAsciiCase (s t : String) : Bool :=
  s.toList.map Char.toLower == t.toList.map Char.toLower

end BlockAffinity.Text
