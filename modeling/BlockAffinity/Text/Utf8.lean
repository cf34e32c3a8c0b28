/-!
# BlockAffinity.Text.Utf8

**Decoding bytes as UTF-8**, with the place and the kind of the first fault.

The value of a valid sequence is the string with those bytes; `firstFault` walks the bytes only to
say where an invalid one breaks the rules. A fault is either a run of one to three bytes that
begins no character, or a character that the end of the bytes cuts short.
-/

namespace BlockAffinity.Text

/-- Where and how a byte sequence stops being UTF-8. -/
structure Utf8Fault where
  /-- Number of valid bytes before the fault. -/
  index : Nat
  /-- Length of the invalid run; `none` when the bytes end inside a character. -/
  length : Option Nat
  deriving Repr, DecidableEq

/-- The text of a decoding fault. -/
def Utf8Fault.message (fault : Utf8Fault) : String :=
  match fault.length with
  | some n => s!"invalid utf-8 sequence of {n} bytes from index {fault.index}"
  | none => s!"incomplete utf-8 byte sequence from index {fault.index}"

/-- The closed ranges that the bytes after a leading byte have to lie in, in order; `none` for a
byte that leads no character. -/
def continuationRanges (lead : UInt8) : Option (List (UInt8 × UInt8)) :=
  if lead < 0x80 then some []
  else if lead < 0xC2 then none
  else if lead < 0xE0 then some [(0x80, 0xBF)]
  else if lead = 0xE0 then some [(0xA0, 0xBF), (0x80, 0xBF)]
  else if lead = 0xED then some [(0x80, 0x9F), (0x80, 0xBF)]
  else if lead < 0xF0 then some [(0x80, 0xBF), (0x80, 0xBF)]
  else if lead = 0xF0 then some [(0x90, 0xBF), (0x80, 0xBF), (0x80, 0xBF)]
  else if lead < 0xF4 then some [(0x80, 0xBF), (0x80, 0xBF), (0x80, 0xBF)]
  else if lead = 0xF4 then some [(0x80, 0x8F), (0x80, 0xBF), (0x80, 0xBF)]
  else none

/-- Walks the bytes from `index` on. While `open?` holds the ranges that a character still asks
for, together with the index of its first byte and the number of its bytes seen, the next byte has
to fit the first of them. -/
def faultFrom (index : Nat) (open? : Option (Nat × Nat × List (UInt8 × UInt8))) :
    List UInt8 → Option Utf8Fault
  | [] => open?.map fun (start, _, _) => ⟨start, none⟩
  | byte :: rest =>
      match open? with
      | some (start, seen, (low, high) :: ranges) =>
          if low ≤ byte && byte ≤ high then
            faultFrom (index + 1) (if ranges.isEmpty then none else some (start, seen + 1, ranges))
              rest
          else
            some ⟨start, some seen⟩
      | _ =>
          match continuationRanges byte with
          | none => some ⟨index, some 1⟩
          | some [] => faultFrom (index + 1) none rest
          | some ranges => faultFrom (index + 1) (some (index, 1, ranges)) rest

/-- The first fault of a byte sequence. -/
def firstFault (bytes : List UInt8) : Option Utf8Fault := faultFrom 0 none bytes

/-- The text with these bytes, or the first fault. -/
def decodeUtf8 (bytes : ByteArray) : Except Utf8Fault String :=
  match String.fromUTF8? bytes with
  | some text => .ok text
  | none => .error ((firstFault bytes.toList).getD ⟨bytes.size, none⟩)

/-- Writing a text and decoding it gives the text back. -/
theorem decodeUtf8_toUTF8 (text : String) : decodeUtf8 text.toUTF8 = .ok text := by
  have valid : text.toUTF8.IsValidUTF8 := text.isValidUTF8
  have h : String.fromUTF8? text.toUTF8 = some text := by
    unfold String.fromUTF8?
    rw [dif_pos valid]
    rfl
  rw [decodeUtf8, h]

end BlockAffinity.Text
