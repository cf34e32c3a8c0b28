import BlockAffinity.Text.Blank
import Mathlib.Data.List.DropRight

/-!
# BlockAffinity.Proofs.Text.Trim

**Trimming** takes the blanks at both ends away and nothing else. So what has been trimmed stays as it
is (`trim_trim`), and so does a text without any blank (`IsSolid.trim_eq`).
-/

namespace BlockAffinity.Text

theorem trimChars_eq_rdropWhile (cs : List Char) :
    trimChars cs = (cs.dropWhile isBlankChar).rdropWhile isBlankChar := rfl

/-- What is left after dropping the leading blanks, cut at the end, still begins without a blank. -/
theorem dropWhile_trimChars (cs : List Char) :
    (trimChars cs).dropWhile isBlankChar = trimChars cs := by
  rw [List.dropWhile_eq_self_iff]
  intro hpos hblank
  have hstart : trimChars cs <+: cs.dropWhile isBlankChar := List.rdropWhile_prefix _ _
  have hlength : 0 < (cs.dropWhile isBlankChar).length := hpos.trans_le hstart.length_le
  rw [hstart.getElem hpos] at hblank
  exact List.dropWhile_get_zero_not isBlankChar cs hlength hblank

/-- **Trimming twice** is trimming once. -/
theorem trimChars_trimChars (cs : List Char) : trimChars (trimChars cs) = trimChars cs := by
  rw [trimChars_eq_rdropWhile (trimChars cs), dropWhile_trimChars, trimChars_eq_rdropWhile,
    List.rdropWhile_idempotent]

theorem trim_trim (s : String) : trim (trim s) = trim s := by
  rw [trim, toList_trim, trimChars_trimChars, trim]

/-! ### Texts without blanks -/

/-- No character is blank. -/
def IsSolid (s : String) : Prop := ∀ c ∈ s.toList, isBlankChar c = false

instance (s : String) : Decidable (IsSolid s) := List.decidableBAll _ s.toList

theorem isSolid_ofList {cs : List Char} (h : ∀ c ∈ cs, isBlankChar c = false) :
    IsSolid (String.ofList cs) := by
  rwa [IsSolid, String.toList_ofList]

theorem IsSolid.append {s t : String} (hs : IsSolid s) (ht : IsSolid t) : IsSolid (s ++ t) := by
  intro c hc
  rw [String.toList_append, List.mem_append] at hc
  exact hc.elim (hs c) (ht c)

/-- A text without blanks stays as it is. -/
theorem IsSolid.trim_eq {s : String} (h : IsSolid s) : trim s = s := by
  have hself {cs : List Char} (hcs : ∀ c ∈ cs, isBlankChar c = false) :
      cs.dropWhile isBlankChar = cs := by
    rw [List.dropWhile_eq_self_iff]
    intro hpos
    rw [hcs _ (List.getElem_mem hpos)]
    exact Bool.false_ne_true
  rw [trim, trimChars, hself h, hself fun c hc => h c (List.mem_reverse.mp hc), List.reverse_reverse,
    String.ofList_toList]

theorem isBlankChar_of_isDigit {c : Char} (h : c.isDigit = true) : isBlankChar c = false := by
  have hcode : 48 ≤ c.toNat ∧ c.toNat ≤ 57 := Char.isDigit_iff_toNat.mp h
  simp only [isBlankChar, inRanges, blankRanges, List.any_cons, List.any_nil, Bool.or_false,
    Bool.or_eq_false_iff, Bool.and_eq_false_iff, decide_eq_false_iff_not]
  omega

end BlockAffinity.Text
