import BlockAffinity.Decimal.Text
import BlockAffinity.Json.Reader

/-!
# BlockAffinity.Json.Decoder

**Values from documents.** A record may be written as an object or as an array of its fields in
order. In an object, members with other keys are ignored, a field that is missing is `none`, and a
field that stands twice is an error; so is an element of an array beyond the last field.
-/

namespace BlockAffinity.Json.Document

/-- The value of the member with a key, if there is one; more than one is an error. -/
def member? (members : List (Option String × Document)) (name : String) :
    Option (Option Document) :=
  match members.filter fun member => member.1 == some name with
  | [] => some none
  | [(_, value)] => some (some value)
  | _ => none

/-- The fields of a record in order, those that are missing as `none`. -/
def fields? (names : List String) : Document → Option (List (Option Document))
  | .object members =>
      if members.any fun member => member.1.isNone then none else names.mapM (member? members)
  | .array elements =>
      if names.length < elements.length then none
      else some ((List.range names.length).map (elements[·]?))
  | _ => none

/-- Whether a record is written as an array. -/
def isArray : Document → Bool
  | .array _ => true
  | _ => false

/-- The text of a string. -/
def text? : Document → Option String
  | .string text => text
  | _ => none

/-- The value of a truth value. -/
def bool? : Document → Option Bool
  | .bool value => some value
  | _ => none

/-- The value of a natural number that fits into 64 bits. -/
def nat? : Document → Option Nat
  | .number lexeme => (Number.ofLexeme? lexeme).bind Number.toNat?
  | _ => none

/-- The value of a number. -/
def scalar? {α : Type} [ScalarText α] : Document → Option α
  | .number lexeme => (Number.ofLexeme? lexeme).bind ScalarText.readJson?
  | _ => none

/-- The values of the elements of an array. -/
def list? {β : Type} (element? : Document → Option β) : Document → Option (List β)
  | .array elements => elements.mapM element?
  | _ => none

/-- A value that may be null. -/
def nullable? {β : Type} (value? : Document → Option β) : Document → Option (Option β)
  | .null => some none
  | document => (value? document).map some

/-- One of several named values, written as a string or as an object whose only member has the
name as its key and the value null. -/
def choice? {β : Type} (choices : List (String × β)) : Document → Option β
  | .string (some name) => choices.lookup name
  | .object [(some name, .null)] => choices.lookup name
  | _ => none

/-- The value of a field, or what stands for a missing one. -/
def orElse? {β : Type} (value? : Document → Option β) (missing : β) : Option Document → Option β
  | none => some missing
  | some document => value? document

end BlockAffinity.Json.Document
