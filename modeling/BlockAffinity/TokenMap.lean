import BlockAffinity.Block

/-!
# BlockAffinity.TokenMap

**Values by token, in token order.** The entries ascend strictly by code point, so two maps with
the same entries are one map and iteration needs no sorting.

The view is `get?`; every operation comes with its equation for `get?`.
-/

namespace BlockAffinity

/-- Looks a token up in a list of entries. -/
def lookupToken {β : Type} (token : Token) : List (Token × β) → Option β
  | [] => none
  | (key, value) :: rest => if key = token then some value else lookupToken token rest

/-- Changes the value of a token, or puts the token in its place. -/
def alterTokens {β : Type} (token : Token) (f : Option β → β) :
    List (Token × β) → List (Token × β)
  | [] => [(token, f none)]
  | (key, value) :: rest =>
      if token < key then (token, f none) :: (key, value) :: rest
      else if key = token then (key, f (some value)) :: rest
      else (key, value) :: alterTokens token f rest

/-- Of two different tokens one comes first. -/
theorem token_lt_of_not_lt {s t : Token} (h : ¬ s < t) (hne : t ≠ s) : t < s := by
  rw [String.not_lt] at h
  exact String.not_le.1 fun hle => hne (String.le_antisymm h hle)

theorem mem_keys_alterTokens {β : Type} {token key : Token} {f : Option β → β}
    {entries : List (Token × β)} :
    key ∈ (alterTokens token f entries).map Prod.fst
      ↔ key = token ∨ key ∈ entries.map Prod.fst := by
  induction entries with
  | nil => simp [alterTokens]
  | cons entry rest ih =>
      obtain ⟨k, v⟩ := entry
      by_cases hlt : token < k
      · simp [alterTokens, hlt]
      · by_cases hk : k = token
        · subst hk
          simp [alterTokens]
        · simp only [alterTokens, if_neg hlt, if_neg hk, List.map_cons, List.mem_cons, ih]
          constructor
          · rintro (h | h | h) <;> simp [h]
          · rintro (h | h | h) <;> simp [h]

theorem pairwise_alterTokens {β : Type} {token : Token} {f : Option β → β}
    {entries : List (Token × β)} (h : entries.Pairwise fun a b => a.1 < b.1) :
    (alterTokens token f entries).Pairwise fun a b => a.1 < b.1 := by
  induction entries with
  | nil => simp [alterTokens]
  | cons entry rest ih =>
      obtain ⟨k, v⟩ := entry
      rw [List.pairwise_cons] at h
      by_cases hlt : token < k
      · simp only [alterTokens, if_pos hlt]
        refine List.pairwise_cons.2 ⟨fun b hb => ?_, List.pairwise_cons.2 h⟩
        rcases List.mem_cons.1 hb with rfl | hb
        · exact hlt
        · exact String.lt_trans hlt (h.1 b hb)
      · by_cases hk : k = token
        · simp only [alterTokens, if_neg hlt, if_pos hk]
          exact List.pairwise_cons.2 ⟨h.1, h.2⟩
        · simp only [alterTokens, if_neg hlt, if_neg hk]
          refine List.pairwise_cons.2 ⟨fun b hb => ?_, ih h.2⟩
          have hkey : b.1 ∈ (alterTokens token f rest).map Prod.fst := List.mem_map_of_mem hb
          rcases mem_keys_alterTokens.1 hkey with hb | hb
          · exact hb ▸ token_lt_of_not_lt hlt hk
          · obtain ⟨c, hc, hcb⟩ := List.mem_map.1 hb
            exact hcb ▸ h.1 c hc

theorem lookupToken_eq_none_of_lt {β : Type} {token : Token} {entries : List (Token × β)}
    (h : ∀ b ∈ entries, token < b.1) : lookupToken token entries = none := by
  induction entries with
  | nil => rfl
  | cons entry rest ih =>
      obtain ⟨k, v⟩ := entry
      have hk : token < k := h (k, v) (by simp)
      have hne : k ≠ token := fun e => String.lt_irrefl token (e ▸ hk)
      simp only [lookupToken, if_neg hne]
      exact ih fun b hb => h b (List.mem_cons_of_mem _ hb)

theorem lookupToken_alterTokens {β : Type} (token key : Token) (f : Option β → β)
    {entries : List (Token × β)} (h : entries.Pairwise fun a b => a.1 < b.1) :
    lookupToken key (alterTokens token f entries)
      = if token = key then some (f (lookupToken token entries)) else lookupToken key entries := by
  induction entries with
  | nil => simp [alterTokens, lookupToken]
  | cons entry rest ih =>
      obtain ⟨k, v⟩ := entry
      rw [List.pairwise_cons] at h
      by_cases hlt : token < k
      · have hnone : lookupToken token ((k, v) :: rest) = none := by
          refine lookupToken_eq_none_of_lt fun b hb => ?_
          rcases List.mem_cons.1 hb with rfl | hb
          · exact hlt
          · exact String.lt_trans hlt (h.1 b hb)
        by_cases hkey : token = key
        · subst hkey
          simp only [alterTokens, if_pos hlt, hnone]
          simp [lookupToken]
        · simp [alterTokens, lookupToken, hlt, hkey]
      · by_cases hk : k = token
        · subst hk
          by_cases hkey : k = key <;>
            simp [alterTokens, lookupToken, hkey]
        · by_cases hkey : k = key
          · subst hkey
            simp [alterTokens, lookupToken, hk, hlt, Ne.symm hk]
          · simp [alterTokens, lookupToken, hk, hlt, hkey, ih h.2]

/-- Values by token, each token once, in ascending order. -/
structure TokenMap (β : Type) where
  entries : List (Token × β)
  ascending : entries.Pairwise fun a b => a.1 < b.1

namespace TokenMap

variable {β γ : Type}

/-- The map without tokens. -/
def empty : TokenMap β := ⟨[], .nil⟩

instance : Inhabited (TokenMap β) := ⟨empty⟩

/-- The tokens in order. -/
def tokens (m : TokenMap β) : List Token := m.entries.map Prod.fst

/-- The values in token order. -/
def values (m : TokenMap β) : List β := m.entries.map Prod.snd

/-- Number of tokens. -/
def size (m : TokenMap β) : Nat := m.entries.length

/-- Whether there are no tokens. -/
def isEmpty (m : TokenMap β) : Bool := m.entries.isEmpty

/-- The value of a token. -/
def get? (m : TokenMap β) (token : Token) : Option β := lookupToken token m.entries

/-- Changes the value of a token, adding the token if it is new. -/
def alter (m : TokenMap β) (token : Token) (f : Option β → β) : TokenMap β :=
  ⟨alterTokens token f m.entries, pairwise_alterTokens m.ascending⟩

/-- Sets the value of a token. -/
def insert (m : TokenMap β) (token : Token) (value : β) : TokenMap β := m.alter token fun _ => value

/-- The map of a list of entries; of several values for a token the last one counts. -/
def ofList (entries : List (Token × β)) : TokenMap β :=
  entries.foldl (fun m entry => m.insert entry.1 entry.2) empty

/-- Applies a function to every value. -/
def map (f : β → γ) (m : TokenMap β) : TokenMap γ where
  entries := m.entries.map fun entry => (entry.1, f entry.2)
  ascending := List.Pairwise.map _ (fun _ _ h => h) m.ascending

/-- Keeps the entries whose value satisfies a condition. -/
def filter (keep : β → Bool) (m : TokenMap β) : TokenMap β where
  entries := m.entries.filter fun entry => keep entry.2
  ascending := m.ascending.filter _

@[simp] theorem get?_empty (token : Token) : (empty : TokenMap β).get? token = none := rfl

@[simp] theorem get?_alter (m : TokenMap β) (token key : Token) (f : Option β → β) :
    (m.alter token f).get? key = if token = key then some (f (m.get? token)) else m.get? key :=
  lookupToken_alterTokens token key f m.ascending

@[simp] theorem tokens_map (m : TokenMap β) (f : β → γ) : (m.map f).tokens = m.tokens := by
  simp [tokens, map]

/-- Maps with the same entries are equal. -/
theorem ext_entries {m n : TokenMap β} (h : m.entries = n.entries) : m = n := by
  cases m
  cases n
  simpa using h

end TokenMap

end BlockAffinity
