import BlockAffinity.Decimal.Numeral
import BlockAffinity.Decimal.Style
import BlockAffinity.Json.Number

/-!
# BlockAffinity.Decimal.Text

The **written forms of numbers**, as a class over the number system, so that tables, messages and
documents can be stated for any numbers that have texts.
-/

namespace BlockAffinity

/-- Numbers that are written to texts and read from them. -/
class ScalarText (α : Type) where
  /-- The form in tables and messages. -/
  write : α → String
  /-- The form in documents. -/
  writeJson : α → String
  /-- The form with four places after the point. -/
  writeFixed : α → String
  /-- Reads a numeral. -/
  read : String → Except Decimal.NumeralFault α
  /-- Reads a number of a document. -/
  readJson? : Json.Number → Option α

instance : ScalarText Float where
  write := Decimal.plain.write
  writeJson := Decimal.json.write
  writeFixed := Decimal.fixed 4
  read text := (Decimal.readNumeral text).map Decimal.Numeral.toFloat
  readJson? := Json.Number.toFloat?

end BlockAffinity
