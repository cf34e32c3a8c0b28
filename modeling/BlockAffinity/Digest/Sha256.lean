/-!
# BlockAffinity.Digest.Sha256

**SHA-256** over a list of bytes. The message is padded to whole blocks of 64 bytes, each block is
expanded into a schedule of 64 words, and the schedule is folded into the running state of eight
words; all arithmetic is on 32-bit words.
-/

namespace BlockAffinity.Digest

/-- The round constants: the first 32 bits of the fractions of the cube roots of the first 64
primes. -/
def roundConstants : List UInt32 := [
  0x428a2f98, 0x71374491, 0xb5c0fbcf, 0xe9b5dba5, 0x3956c25b, 0x59f111f1, 0x923f82a4, 0xab1c5ed5,
  0xd807aa98, 0x12835b01, 0x243185be, 0x550c7dc3, 0x72be5d74, 0x80deb1fe, 0x9bdc06a7, 0xc19bf174,
  0xe49b69c1, 0xefbe4786, 0x0fc19dc6, 0x240ca1cc, 0x2de92c6f, 0x4a7484aa, 0x5cb0a9dc, 0x76f988da,
  0x983e5152, 0xa831c66d, 0xb00327c8, 0xbf597fc7, 0xc6e00bf3, 0xd5a79147, 0x06ca6351, 0x14292967,
  0x27b70a85, 0x2e1b2138, 0x4d2c6dfc, 0x53380d13, 0x650a7354, 0x766a0abb, 0x81c2c92e, 0x92722c85,
  0xa2bfe8a1, 0xa81a664b, 0xc24b8b70, 0xc76c51a3, 0xd192e819, 0xd6990624, 0xf40e3585, 0x106aa070,
  0x19a4c116, 0x1e376c08, 0x2748774c, 0x34b0bcb5, 0x391c0cb3, 0x4ed8aa4a, 0x5b9cca4f, 0x682e6ff3,
  0x748f82ee, 0x78a5636f, 0x84c87814, 0x8cc70208, 0x90befffa, 0xa4506ceb, 0xbef9a3f7, 0xc67178f2]

/-- The eight words of the running hash. -/
structure HashState where
  a : UInt32
  b : UInt32
  c : UInt32
  d : UInt32
  e : UInt32
  f : UInt32
  g : UInt32
  h : UInt32
  deriving Repr, DecidableEq

/-- The state before the first block: the first 32 bits of the fractions of the square roots of
the first eight primes. -/
def HashState.start : HashState :=
  ⟨0x6a09e667, 0xbb67ae85, 0x3c6ef372, 0xa54ff53a, 0x510e527f, 0x9b05688c, 0x1f83d9ab, 0x5be0cd19⟩

/-- Word-wise addition of two states. -/
def HashState.add (s t : HashState) : HashState :=
  ⟨s.a + t.a, s.b + t.b, s.c + t.c, s.d + t.d, s.e + t.e, s.f + t.f, s.g + t.g, s.h + t.h⟩

/-- The words of a state in order. -/
def HashState.words (s : HashState) : List UInt32 := [s.a, s.b, s.c, s.d, s.e, s.f, s.g, s.h]

/-- Rotation to the right, for amounts between 1 and 31. -/
def rotateRight (x : UInt32) (n : UInt32) : UInt32 := (x >>> n) ||| (x <<< (32 - n))

/-- One round, with the round constant and the schedule word already added up. -/
def HashState.round (s : HashState) (input : UInt32) : HashState :=
  let bigSigma1 := rotateRight s.e 6 ^^^ rotateRight s.e 11 ^^^ rotateRight s.e 25
  let choice := (s.e &&& s.f) ^^^ (~~~ s.e &&& s.g)
  let t1 := s.h + bigSigma1 + choice + input
  let bigSigma0 := rotateRight s.a 2 ^^^ rotateRight s.a 13 ^^^ rotateRight s.a 22
  let majority := (s.a &&& s.b) ^^^ (s.a &&& s.c) ^^^ (s.b &&& s.c)
  ⟨t1 + (bigSigma0 + majority), s.a, s.b, s.c, s.d + t1, s.e, s.f, s.g⟩

/-- The word made of four bytes, the first one highest. -/
def bigEndianWord (bytes : List UInt8) : UInt32 :=
  bytes.foldl (fun word byte => (word <<< 8) ||| byte.toUInt32) 0

/-- Cuts a list into pieces of `size` elements, at most `pieces` of them. -/
def chunk {β : Type} (size : Nat) : (pieces : Nat) → List β → List (List β)
  | 0, _ => []
  | pieces + 1, xs => xs.take size :: chunk size pieces (xs.drop size)

/-- Extends a schedule, held with its latest word first, by `count` words. -/
def extendSchedule : (count : Nat) → List UInt32 → List UInt32
  | 0, latest => latest
  | count + 1, latest =>
      let word (back : Nat) : UInt32 := latest.getD (back - 1) 0
      let w15 := word 15
      let w2 := word 2
      let sigma0 := rotateRight w15 7 ^^^ rotateRight w15 18 ^^^ (w15 >>> 3)
      let sigma1 := rotateRight w2 17 ^^^ rotateRight w2 19 ^^^ (w2 >>> 10)
      extendSchedule count ((word 16 + sigma0 + word 7 + sigma1) :: latest)

/-- Folds one block of 64 bytes into the state. -/
def HashState.absorb (s : HashState) (block : List UInt8) : HashState :=
  let schedule := (extendSchedule 48 ((chunk 4 16 block).map bigEndianWord).reverse).reverse
  s.add ((List.zipWith (· + ·) roundConstants schedule).foldl HashState.round s)

/-- The `count` lowest bytes of a number, the lowest one first. -/
def littleEndian : (count : Nat) → Nat → List UInt8
  | 0, _ => []
  | count + 1, n => UInt8.ofNat n :: littleEndian count (n / 256)

/-- A message with its padding: a single one bit, zeros, and the length in bits, so that whole
blocks of 64 bytes come out. -/
def padded (message : List UInt8) : List UInt8 :=
  let zeroCount := (119 - message.length % 64) % 64
  message ++ 0x80 :: List.replicate zeroCount 0 ++ (littleEndian 8 (8 * message.length)).reverse

/-- The digest of a message, as a hash state. -/
def sha256 (message : List UInt8) : HashState :=
  let bytes := padded message
  (chunk 64 (bytes.length / 64) bytes).foldl HashState.absorb .start

/-- The two lower-case hexadecimal digits of a byte. -/
def hexByte (byte : UInt8) : List Char :=
  [Nat.digitChar (byte.toNat / 16), Nat.digitChar (byte.toNat % 16)]

/-- The bytes of a word, the highest first. -/
def wordBytes (word : UInt32) : List UInt8 := (littleEndian 4 word.toNat).reverse

/-- A digest as 64 hexadecimal digits. -/
def HashState.hex (s : HashState) : String :=
  String.ofList ((s.words.flatMap wordBytes).flatMap hexByte)

@[simp] theorem length_littleEndian (count n : Nat) : (littleEndian count n).length = count := by
  induction count generalizing n with
  | zero => rfl
  | succ count ih => simp [littleEndian, ih]

end BlockAffinity.Digest
