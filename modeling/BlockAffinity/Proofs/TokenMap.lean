import BlockAffinity.TokenMap
import Mathlib

/-!
# BlockAffinity.Proofs.TokenMap

**Token maps and their entries.** Since the tokens ascend, the entries of a map are exactly what its
view `get?` finds (`TokenMap.mem_entries_iff`), and applying a function or a filter to a map does to
the view what one expects. Counting a token once more adds one to the total
(`TokenMap.sum_values_count`).
-/

namespace BlockAffinity

variable {β γ : Type}

theorem lookupToken_eq_some_iff {token : Token} {value : β} {entries : List (Token × β)}
    (h : entries.Pairwise fun a b => a.1 < b.1) :
    lookupToken token entries = some value ↔ (token, value) ∈ entries := by
  induction entries with
  | nil => simp [lookupToken]
  | cons entry rest ih =>
      obtain ⟨key, v⟩ := entry
      rw [List.pairwise_cons] at h
      by_cases hkey : key = token
      · subst hkey
        have hnot : (key, value) ∉ rest := fun hmem => String.lt_irrefl key (h.1 _ hmem)
        simp [lookupToken, hnot, eq_comm]
      · simp [lookupToken, hkey, Ne.symm hkey, ih h.2]

/-- A token after all others goes to the end. -/
theorem alterTokens_of_forall_lt {token : Token} (f : Option β → β) {entries : List (Token × β)}
    (h : ∀ entry ∈ entries, entry.1 < token) :
    alterTokens token f entries = entries ++ [(token, f none)] := by
  induction entries with
  | nil => rfl
  | cons entry rest ih =>
      obtain ⟨key, value⟩ := entry
      rw [List.forall_mem_cons] at h
      have hbefore : ¬token < key := fun hlt => String.lt_irrefl key (String.lt_trans h.1 hlt)
      have hne : key ≠ token := fun heq => String.lt_irrefl key (heq ▸ h.1)
      rw [alterTokens, if_neg hbefore, if_neg hne, ih h.2, List.cons_append]

namespace TokenMap

variable {m : TokenMap β} {token : Token} {value : β}

theorem mem_entries_iff : (token, value) ∈ m.entries ↔ m.get? token = some value :=
  (lookupToken_eq_some_iff m.ascending).symm

theorem mem_values_iff : value ∈ m.values ↔ ∃ token, m.get? token = some value := by
  simp only [values, List.mem_map, Prod.exists, exists_eq_right, mem_entries_iff]

theorem isEmpty_eq_false_iff : m.isEmpty = false ↔ m.values ≠ [] := by
  rw [isEmpty, List.isEmpty_eq_false_iff, values, ne_eq, ne_eq, List.map_eq_nil_iff]

theorem eq_empty_of_values (h : m.values = []) : m = empty := ext_entries (List.map_eq_nil_iff.mp h)

theorem tokens_of_isEmpty (h : m.isEmpty = true) : m.tokens = [] := by
  rw [tokens, List.isEmpty_iff.mp h, List.map_nil]

@[simp] theorem values_map (m : TokenMap β) (f : β → γ) : (m.map f).values = m.values.map f := by
  simp [values, map]

theorem get?_map_eq_some_iff {f : β → γ} {new : γ} :
    (m.map f).get? token = some new ↔ ∃ old, m.get? token = some old ∧ f old = new := by
  rw [← mem_entries_iff]
  simp only [map, List.mem_map, Prod.exists, Prod.mk.injEq, mem_entries_iff]
  constructor
  · rintro ⟨key, old, hold, rfl, hnew⟩
    exact ⟨old, hold, hnew⟩
  · rintro ⟨old, hold, hnew⟩
    exact ⟨token, old, hold, rfl, hnew⟩

theorem get?_filter_eq_some_iff {keep : β → Bool} :
    (m.filter keep).get? token = some value ↔ m.get? token = some value ∧ keep value = true := by
  rw [← mem_entries_iff, ← mem_entries_iff]
  simp only [filter, List.mem_filter]

theorem mem_tokens_iff : token ∈ m.tokens ↔ ∃ value, m.get? token = some value := by
  simp only [tokens, List.mem_map, Prod.exists, exists_and_right, exists_eq_right, mem_entries_iff]

/-- The view tells a map. -/
theorem ext_get? {m n : TokenMap β} (h : ∀ token, m.get? token = n.get? token) : m = n := by
  have : Std.Irrefl fun a b : Token × β => a.1 < b.1 := ⟨fun a => String.lt_irrefl a.1⟩
  have : Std.Antisymm fun a b : Token × β => a.1 < b.1 :=
    ⟨fun a _ hab hba => absurd (String.lt_trans hab hba) (String.lt_irrefl a.1)⟩
  refine ext_entries (m.ascending.eq_of_mem_iff n.ascending fun entry => ?_)
  rw [mem_entries_iff, mem_entries_iff, h]

/-- Different entries have different tokens. -/
theorem nodup_tokens (m : TokenMap β) : m.tokens.Nodup :=
  List.Pairwise.map _ (fun _ _ hlt heq => String.lt_irrefl _ (heq ▸ hlt)) m.ascending

end TokenMap

theorem sum_alterTokens_count (token : Token) (entries : List (Token × Nat)) :
    ((alterTokens token (fun old => old.getD 0 + 1) entries).map Prod.snd).sum =
      (entries.map Prod.snd).sum + 1 := by
  induction entries with
  | nil => rfl
  | cons entry rest ih =>
      obtain ⟨key, count⟩ := entry
      rw [alterTokens]
      split_ifs with hlt heq
      · simp only [List.map_cons, List.sum_cons, Option.getD_none]
        omega
      · simp only [List.map_cons, List.sum_cons, Option.getD_some]
        omega
      · simp only [List.map_cons, List.sum_cons, ih]
        omega

/-- Counting a token adds one to the total. -/
theorem TokenMap.sum_values_count (counts : TokenMap Nat) (token : Token) :
    (counts.alter token fun old => old.getD 0 + 1).values.sum = counts.values.sum + 1 :=
  sum_alterTokens_count token counts.entries

end BlockAffinity
