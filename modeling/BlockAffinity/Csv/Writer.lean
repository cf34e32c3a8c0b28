/-!
# BlockAffinity.Csv.Writer

**Writing comma-separated text.** A field is quoted when it holds a comma, a quote or a line
break, with its quotes doubled; any other field is written as it is. Rows end in a line feed.
-/

namespace BlockAffinity.Csv

/-- A character that a field may hold only inside quotes. -/
def needsQuotes (c : Char) : Bool := c == ',' || c == '"' || c == '\n' || c == '\r'

/-- The characters of a quoted field: each quote twice, anything else once. -/
def doubleQuotes : List Char → List Char
  | [] => []
  | c :: rest => if c = '"' then '"' :: '"' :: doubleQuotes rest else c :: doubleQuotes rest

/-- The written form of a field. -/
def fieldChars (field : List Char) : List Char :=
  if field.any needsQuotes then '"' :: doubleQuotes field ++ ['"'] else field

/-- The written form of a row, without its line feed. -/
def rowChars : List String → List Char
  | [] => []
  | [field] => fieldChars field.toList
  | field :: rest => fieldChars field.toList ++ ',' :: rowChars rest

/-- A row as text. -/
def writeRow (fields : List String) : String := String.ofList (rowChars fields ++ ['\n'])

/-- Rows as text. -/
def writeRows (rows : List (List String)) : String := String.join (rows.map writeRow)

end BlockAffinity.Csv
