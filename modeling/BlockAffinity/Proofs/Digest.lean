import BlockAffinity.Digest.Chunks
import BlockAffinity.Proofs.Lists
import Mathlib.Data.Nat.ModEq
import Mathlib.Data.String.Basic
import Mathlib.Tactic.Common

/-!
# BlockAffinity.Proofs.Digest

**What a digest tells of what was hashed.** Its hexadecimal form tells the digest
(`HashState.hex_injective`), and the stream that is hashed tells the byte strings, up to the length
of a string modulo `2 ^ 64`, which is all that stands before it (`of_chunkStream_cons`,
`chunkStream_inj`). Only the hash itself may lose something; where no two of some streams collide,
equal digests are of equal streams (`CollisionFree`).
-/

namespace BlockAffinity.Digest

/-! ### Bytes -/

theorem toList_loop_eq (bytes : ByteArray) (first : Nat) (before : List UInt8) :
    ByteArray.toList.loop bytes first before = before.reverse ++ bytes.data.toList.drop first := by
  fun_induction ByteArray.toList.loop bytes first before with
  | case1 place before hplace ih =>
      have hnext : bytes.data.toList.drop place =
          bytes.get! place :: bytes.data.toList.drop (place + 1) := by
        rw [List.drop_eq_getElem_cons (by simpa using hplace)]
        simp [ByteArray.get!, hplace]
      rw [ih, hnext, List.reverse_cons, List.append_assoc, List.singleton_append]
  | case2 place before hend =>
      have hnothing : bytes.data.toList.drop place = [] := by simpa using hend
      rw [hnothing, List.append_nil]

/-- The bytes in order tell the byte array. -/
theorem toList_injective : Function.Injective ByteArray.toList := by
  have hdata (bytes : ByteArray) : bytes.toList = bytes.data.toList := by
    rw [ByteArray.toList, toList_loop_eq]
    rfl
  intro bytes other h
  rw [hdata, hdata] at h
  exact ByteArray.ext (Array.toList_inj.mp h)

theorem mod_eq_of_littleEndian {count m n : Nat} (h : littleEndian count m = littleEndian count n) :
    m % 256 ^ count = n % 256 ^ count := by
  induction count generalizing m n with
  | zero => simp [Nat.mod_one]
  | succ count ih =>
      rw [littleEndian, littleEndian, List.cons.injEq] at h
      obtain ⟨hlow, hhigh⟩ := h
      have hlow : m % 256 = n % 256 := by simpa using congrArg UInt8.toNat hlow
      rw [Nat.pow_succ', Nat.mod_mul, Nat.mod_mul, hlow, ih hhigh]

/-! ### The hexadecimal form -/

theorem digitChar_inj {m n : Nat} (hm : m < 16) (hn : n < 16)
    (h : Nat.digitChar m = Nat.digitChar n) : m = n := by
  have hall : ∀ a b : Fin 16, Nat.digitChar a = Nat.digitChar b → a = b := by decide
  exact congrArg Fin.val (hall ⟨m, hm⟩ ⟨n, hn⟩ h)

theorem hexByte_injective : Function.Injective hexByte := by
  intro a b h
  rw [hexByte, hexByte, List.cons.injEq, List.cons.injEq] at h
  obtain ⟨hhigh, hlow, -⟩ := h
  have ha := a.toNat_lt
  have hb := b.toNat_lt
  have hhigh := digitChar_inj (by omega) (by omega) hhigh
  have hlow := digitChar_inj (Nat.mod_lt _ (by decide)) (Nat.mod_lt _ (by decide)) hlow
  exact UInt8.toNat_inj.mp (by omega)

theorem wordBytes_injective : Function.Injective wordBytes := by
  intro a b h
  have hmod := mod_eq_of_littleEndian (List.reverse_inj.mp h)
  have ha := a.toNat_lt
  have hb := b.toNat_lt
  exact UInt32.toNat_inj.mp (by omega)

/-- **The hexadecimal form tells the digest.** -/
theorem HashState.hex_injective : Function.Injective HashState.hex := by
  intro s t h
  have hpieces : ∀ byte, (hexByte byte).length = 2 := fun _ => rfl
  have hword : ∀ word, (wordBytes word).length = 4 := fun word => by simp [wordBytes]
  have hbytes : s.words.flatMap wordBytes = t.words.flatMap wordBytes :=
    flatMap_injective (by decide) hpieces hexByte_injective (String.ofList_injective h)
  have hwords := flatMap_injective (by decide) hword wordBytes_injective hbytes
  cases s
  cases t
  simpa [HashState.words] using hwords

/-- The digits of the hexadecimal form. -/
def hexDigits : List Char := "0123456789abcdef".toList

theorem digitChar_mem_hexDigits {n : Nat} (h : n < 16) : Nat.digitChar n ∈ hexDigits := by
  have hall : ∀ a : Fin 16, Nat.digitChar a ∈ hexDigits := by decide
  exact hall ⟨n, h⟩

theorem HashState.mem_hexDigits_of_mem_hex {s : HashState} {c : Char} (h : c ∈ s.hex.toList) :
    c ∈ hexDigits := by
  rw [hex, String.toList_ofList, List.mem_flatMap] at h
  obtain ⟨byte, -, h⟩ := h
  have hbyte := byte.toNat_lt
  rcases List.mem_cons.mp h with rfl | h
  · exact digitChar_mem_hexDigits (by omega)
  · obtain rfl := List.mem_singleton.mp h
    exact digitChar_mem_hexDigits (Nat.mod_lt _ (by decide))

theorem HashState.length_toList_hex (s : HashState) : s.hex.toList.length = 64 := by
  rw [hex, String.toList_ofList]
  simp [hexByte, wordBytes, words, List.length_flatMap]

/-- Every digit is a byte. -/
theorem HashState.utf8ByteSize_hex (s : HashState) : s.hex.utf8ByteSize = 64 := by
  have hsize : hexDigits.all (fun c => c.utf8Size == 1) = true := by decide
  have hlen : ∀ digits : List Char, (∀ c ∈ digits, c ∈ hexDigits) →
      String.utf8Len digits = digits.length := by
    intro digits hdigits
    induction digits with
    | nil => rfl
    | cons c digits ih =>
        have hc := beq_iff_eq.mp (List.all_eq_true.mp hsize c (hdigits c List.mem_cons_self))
        rw [String.utf8Len_cons, hc, ih fun c hmem => hdigits c (List.mem_cons_of_mem _ hmem),
          List.length_cons]
  rw [← String.ofList_toList (s := s.hex), String.utf8ByteSize_ofList,
    hlen _ fun c => s.mem_hexDigits_of_mem_hex, s.length_toList_hex]

/-! ### The stream -/

/-- The first byte string of a stream is told up to its length modulo `2 ^ 64`. -/
theorem of_chunkStream_cons {first first' : List UInt8} {rest rest' : List (List UInt8)}
    (h : chunkStream (first :: rest) = chunkStream (first' :: rest')) :
    first.length % 2 ^ 64 = first'.length % 2 ^ 64 ∧
      (first.length = first'.length → first = first' ∧ chunkStream rest = chunkStream rest') := by
  rw [chunkStream_cons, chunkStream_cons, List.append_assoc, List.append_assoc] at h
  obtain ⟨hcount, hrest⟩ := List.append_inj h (by simp)
  exact ⟨mod_eq_of_littleEndian hcount, List.append_inj hrest⟩

/-- **The stream tells byte strings** that are not too long. -/
theorem chunkStream_inj {chunks chunks' : List (List UInt8)}
    (hchunks : ∀ chunk ∈ chunks, chunk.length < 2 ^ 64)
    (hchunks' : ∀ chunk ∈ chunks', chunk.length < 2 ^ 64)
    (h : chunkStream chunks = chunkStream chunks') : chunks = chunks' := by
  induction chunks generalizing chunks' with
  | nil =>
      cases chunks' with
      | nil => rfl
      | cons first' rest' => simp [littleEndian] at h
  | cons first rest ih =>
      cases chunks' with
      | nil => simp [littleEndian] at h
      | cons first' rest' =>
          obtain ⟨hmod, hequal⟩ := of_chunkStream_cons h
          rw [Nat.mod_eq_of_lt (hchunks _ List.mem_cons_self),
            Nat.mod_eq_of_lt (hchunks' _ List.mem_cons_self)] at hmod
          obtain ⟨rfl, hrest⟩ := hequal hmod
          rw [ih (fun chunk hmem => hchunks _ (List.mem_cons_of_mem _ hmem))
            (fun chunk hmem => hchunks' _ (List.mem_cons_of_mem _ hmem)) hrest]

/-- No two of these lists of byte strings have streams with the same hash, unless the streams are
the same. -/
def CollisionFree (hashed : List (List (List UInt8))) : Prop :=
  ∀ chunks ∈ hashed, ∀ chunks' ∈ hashed,
    sha256 (chunkStream chunks) = sha256 (chunkStream chunks') →
      chunkStream chunks = chunkStream chunks'

theorem CollisionFree.chunkStream_eq {hashed : List (List (List UInt8))} (h : CollisionFree hashed)
    {chunks chunks' : List (List UInt8)} (hmem : chunks ∈ hashed) (hmem' : chunks' ∈ hashed)
    (hdigest : digestHex chunks = digestHex chunks') : chunkStream chunks = chunkStream chunks' :=
  h chunks hmem chunks' hmem' (HashState.hex_injective hdigest)

end BlockAffinity.Digest
