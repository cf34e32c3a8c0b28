import BlockAffinity.Digest.Sha256

/-!
# BlockAffinity.Digest.Chunks

**Digests of several byte strings.** Each string goes in behind its length, eight bytes with the
lowest first, so the stream that is hashed determines the strings: no two lists of strings below
`2 ^ 64` bytes give the same stream.
-/

namespace BlockAffinity.Digest

/-- The byte stream that stands for a list of byte strings. -/
def chunkStream (chunks : List (List UInt8)) : List UInt8 :=
  chunks.flatMap fun chunk => littleEndian 8 chunk.length ++ chunk

/-- The digest of a list of byte strings, in hexadecimal. -/
def digestHex (chunks : List (List UInt8)) : String := (sha256 (chunkStream chunks)).hex

@[simp] theorem chunkStream_nil : chunkStream [] = [] := rfl

@[simp] theorem chunkStream_cons (chunk : List UInt8) (rest : List (List UInt8)) :
    chunkStream (chunk :: rest) = littleEndian 8 chunk.length ++ chunk ++ chunkStream rest := by
  simp [chunkStream]

end BlockAffinity.Digest
