import BlockAffinity.Decimal.Style

/-!
# BlockAffinity.Json.Document

**Documents** as trees, and their two written forms. The compact form has no blanks at all; the
indented form puts each element and each member on a line of its own, two blanks further in than
the bracket that opens it.

Numbers are kept as lexemes, so that a document says nothing about the number system. A string
whose escapes name half of a surrogate pair has no text; documents that are written have texts
throughout.
-/

namespace BlockAffinity.Json

/-- A document. -/
inductive Document
  | null
  | bool (value : Bool)
  | number (lexeme : String)
  | string (text : Option String)
  | array (elements : List Document)
  /-- Members in the order in which they stand; a key may occur more than once. -/
  | object (members : List (Option String × Document))
  deriving Repr, Inhabited

namespace Document

/-- A string with a text. -/
def ofString (text : String) : Document := .string (some text)

/-- A natural number. -/
def ofNat (n : Nat) : Document := .number (Decimal.digitText n)

/-- An object with the given members. -/
def ofMembers (members : List (String × Document)) : Document :=
  .object (members.map fun (key, value) => (some key, value))

/-- A value that may be missing. -/
def ofOption : Option Document → Document
  | none => .null
  | some value => value

/-- The written form of a character of a string. Quotes, backslashes and control characters are
escaped. -/
def escapeChar (c : Char) : List Char :=
  if c = '"' then ['\\', '"']
  else if c = '\\' then ['\\', '\\']
  else if c = '\n' then ['\\', 'n']
  else if c = '\r' then ['\\', 'r']
  else if c = '\t' then ['\\', 't']
  else if c = '\x08' then ['\\', 'b']
  else if c = '\x0c' then ['\\', 'f']
  else if c.toNat < 0x20 then
    ['\\', 'u', '0', '0', Nat.digitChar (c.toNat / 16), Nat.digitChar (c.toNat % 16)]
  else [c]

/-- A string in quotes. -/
def quoted (text : String) : String :=
  String.ofList ('"' :: text.toList.flatMap escapeChar ++ ['"'])

/-- A string in quotes, empty if it has no text. -/
def quotedText (text : Option String) : String := quoted (text.getD "")

mutual

/-- The compact form. -/
def compact : Document → String
  | null => "null"
  | bool value => if value then "true" else "false"
  | number lexeme => lexeme
  | string text => quotedText text
  | array elements => "[" ++ compactElements elements ++ "]"
  | object members => "\x7b" ++ compactMembers members ++ "\x7d"

/-- The compact form of the elements of an array. -/
def compactElements : List Document → String
  | [] => ""
  | [element] => element.compact
  | element :: rest => element.compact ++ "," ++ compactElements rest

/-- The compact form of the members of an object. -/
def compactMembers : List (Option String × Document) → String
  | [] => ""
  | [(key, value)] => quotedText key ++ ":" ++ value.compact
  | (key, value) :: rest => quotedText key ++ ":" ++ value.compact ++ "," ++ compactMembers rest

end

/-- A line break with the indentation of a level. -/
def lineBreak (level : Nat) : String := String.ofList ('\n' :: List.replicate (2 * level) ' ')

mutual

/-- The indented form at a level. -/
def indentedAt (level : Nat) : Document → String
  | null => "null"
  | bool value => if value then "true" else "false"
  | number lexeme => lexeme
  | string text => quotedText text
  | array [] => "[]"
  | array (element :: rest) =>
      "[" ++ indentedElements (level + 1) (element :: rest) ++ lineBreak level ++ "]"
  | object [] => "\x7b\x7d"
  | object (member :: rest) =>
      "\x7b" ++ indentedMembers (level + 1) (member :: rest) ++ lineBreak level ++ "\x7d"

/-- The elements of an array, each on a line of its own. -/
def indentedElements (level : Nat) : List Document → String
  | [] => ""
  | [element] => lineBreak level ++ element.indentedAt level
  | element :: rest =>
      lineBreak level ++ element.indentedAt level ++ "," ++ indentedElements level rest

/-- The members of an object, each on a line of its own. -/
def indentedMembers (level : Nat) : List (Option String × Document) → String
  | [] => ""
  | [(key, value)] => lineBreak level ++ quotedText key ++ ": " ++ value.indentedAt level
  | (key, value) :: rest =>
      lineBreak level ++ quotedText key ++ ": " ++ value.indentedAt level ++ ","
        ++ indentedMembers level rest

end

/-- The indented form. -/
def indented (document : Document) : String := document.indentedAt 0

end Document

end BlockAffinity.Json
