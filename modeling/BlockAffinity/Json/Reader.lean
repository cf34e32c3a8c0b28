import BlockAffinity.Json.Document
import BlockAffinity.Json.Number

/-!
# BlockAffinity.Json.Reader

**Reading documents.** The grammar is that of the format without extensions: no comments, no
trailing commas, nothing but blanks around the document. Numbers are kept as they stand; whether
one is in range is asked only where its value is needed. In the same way an escape for half of a
surrogate pair does no harm in a string that nobody looks at.
-/

namespace BlockAffinity.Json

/-- A blank of the format. -/
def isSpace (c : Char) : Bool := c == ' ' || c == '\t' || c == '\n' || c == '\r'

/-- A text without the blanks at its front. -/
def skipSpaces (cs : List Char) : List Char := cs.dropWhile isSpace

/-- The rest of a text after an expected front. -/
def expect? : (front : List Char) → List Char → Option (List Char)
  | [], cs => some cs
  | c :: front, d :: cs => if c = d then expect? front cs else none
  | _ :: _, [] => none

/-- One unit of a string: a character as it stands or by a short escape, or a numeric escape. -/
inductive StringUnit
  | char (c : Char)
  | code (value : Nat)
  deriving Repr, DecidableEq

/-- The value of a hexadecimal digit. -/
def hexValue? (c : Char) : Option Nat :=
  if c.isDigit then some (c.toNat - '0'.toNat)
  else if 'a' ≤ c ∧ c ≤ 'f' then some (c.toNat - 'a'.toNat + 10)
  else if 'A' ≤ c ∧ c ≤ 'F' then some (c.toNat - 'A'.toNat + 10)
  else none

/-- The character of a short escape. -/
def shortEscape? (c : Char) : Option Char :=
  if c = '"' ∨ c = '\\' ∨ c = '/' then some c
  else if c = 'b' then some '\x08'
  else if c = 'f' then some '\x0c'
  else if c = 'n' then some '\n'
  else if c = 'r' then some '\r'
  else if c = 't' then some '\t'
  else none

/-- The value of the four digits of a numeric escape. -/
def codeValue? (a b c d : Char) : Option Nat := do
  return ((← hexValue? a) * 16 + (← hexValue? b)) * 256 + ((← hexValue? c) * 16 + (← hexValue? d))

/-- The units of a string up to its closing quote, and the text after it. -/
def scanUnits? : List Char → Option (List StringUnit × List Char)
  | [] => none
  | '\\' :: 'u' :: a :: b :: c :: d :: rest => do
      let value ← codeValue? a b c d
      let (units, rest) ← scanUnits? rest
      return (.code value :: units, rest)
  | '\\' :: e :: rest => do
      let c ← shortEscape? e
      let (units, rest) ← scanUnits? rest
      return (.char c :: units, rest)
  | c :: rest =>
      if c = '"' then some ([], rest)
      else if c = '\\' ∨ c.toNat < 0x20 then none
      else do
        let (units, rest) ← scanUnits? rest
        return (.char c :: units, rest)

/-- The first half of a surrogate pair. -/
def isLeading (value : Nat) : Bool := 0xD800 ≤ value && value ≤ 0xDBFF

/-- The second half of a surrogate pair. -/
def isTrailing (value : Nat) : Bool := 0xDC00 ≤ value && value ≤ 0xDFFF

/-- The characters of a string, unless it holds half of a surrogate pair. -/
def charsOfUnits? : List StringUnit → Option (List Char)
  | [] => some []
  | .char c :: rest => (charsOfUnits? rest).map (c :: ·)
  | .code high :: .code low :: rest =>
      if isLeading high then
        if isTrailing low then
          (charsOfUnits? rest).map
            (Char.ofNat (0x10000 + (high - 0xD800) * 0x400 + (low - 0xDC00)) :: ·)
        else none
      else if isTrailing high then none
      else (charsOfUnits? (.code low :: rest)).map (Char.ofNat high :: ·)
  | .code value :: rest =>
      if isLeading value || isTrailing value then none
      else (charsOfUnits? rest).map (Char.ofNat value :: ·)

/-- The text of a string whose opening quote has been read, and the text after the string. -/
def scanString? (cs : List Char) : Option (Option String × List Char) :=
  (scanUnits? cs).map fun (units, rest) => ((charsOfUnits? units).map String.ofList, rest)

/-- A character that numbers are written with. -/
def isNumberChar (c : Char) : Bool :=
  c.isDigit || c == '-' || c == '+' || c == '.' || c == 'e' || c == 'E'

/-- The lexeme of a number at the front of a text, and the text after it. What follows a number is
never a character that numbers are written with. -/
def scanLexeme? (cs : List Char) : Option (String × List Char) :=
  let lexeme := cs.takeWhile isNumberChar
  match Number.scan? lexeme with
  | some (_, []) => some (String.ofList lexeme, cs.dropWhile isNumberChar)
  | _ => none

mutual

/-- The document at the front of a text. -/
def scanDocument? : (fuel : Nat) → List Char → Option (Document × List Char)
  | 0, _ => none
  | fuel + 1, cs =>
      match skipSpaces cs with
      | [] => none
      | '"' :: rest => (scanString? rest).map fun (text, rest) => (.string text, rest)
      | '[' :: rest =>
          match skipSpaces rest with
          | ']' :: rest => some (.array [], rest)
          | rest => (scanElements? fuel rest).map fun (elements, rest) => (.array elements, rest)
      | '\x7b' :: rest =>
          match skipSpaces rest with
          | '\x7d' :: rest => some (.object [], rest)
          | rest => (scanMembers? fuel rest).map fun (members, rest) => (.object members, rest)
      | 'n' :: rest => (expect? ['u', 'l', 'l'] rest).map fun rest => (.null, rest)
      | 't' :: rest => (expect? ['r', 'u', 'e'] rest).map fun rest => (.bool true, rest)
      | 'f' :: rest => (expect? ['a', 'l', 's', 'e'] rest).map fun rest => (.bool false, rest)
      | cs => (scanLexeme? cs).map fun (lexeme, rest) => (.number lexeme, rest)

/-- The elements of an array that has at least one, up to its closing bracket. -/
def scanElements? : (fuel : Nat) → List Char → Option (List Document × List Char)
  | 0, _ => none
  | fuel + 1, cs => do
      let (element, rest) ← scanDocument? fuel cs
      match skipSpaces rest with
      | ',' :: rest =>
          let (elements, rest) ← scanElements? fuel rest
          return (element :: elements, rest)
      | ']' :: rest => return ([element], rest)
      | _ => none

/-- The members of an object that has at least one, up to its closing brace. -/
def scanMembers? : (fuel : Nat) → List Char → Option (List (Option String × Document) × List Char)
  | 0, _ => none
  | fuel + 1, cs => do
      let rest ← expect? ['"'] (skipSpaces cs)
      let (key, rest) ← scanString? rest
      let rest ← expect? [':'] (skipSpaces rest)
      let (value, rest) ← scanDocument? fuel rest
      match skipSpaces rest with
      | ',' :: rest =>
          let (members, rest) ← scanMembers? fuel rest
          return ((key, value) :: members, rest)
      | '\x7d' :: rest => return ([(key, value)], rest)
      | _ => none

end

/-- The document that a whole text is. Every call of a scanner takes a character or is the first
one after a call that did, so twice the length of the text bounds their depth. -/
def readDocument? (text : String) : Option Document := do
  let cs := text.toList
  let (document, rest) ← scanDocument? (2 * cs.length + 2) cs
  if (skipSpaces rest).isEmpty then some document else none

end BlockAffinity.Json
