import BlockAffinity.Block

/-!
# BlockAffinity.Roster

**Values by block, in the order in which the blocks first appeared.** A roster lists each block
once. Writing to a block that is already there keeps its place.

The view is `get?` together with `ids`; every operation comes with its equation for `get?`.
-/

namespace BlockAffinity

/-- Looks an id up in a list of entries. -/
def lookupEntry {β : Type} (id : BlockId) : List (BlockId × β) → Option β
  | [] => none
  | (key, value) :: rest => if key = id then some value else lookupEntry id rest

/-- Changes the value of an id, or adds the id at the end. -/
def alterEntries {β : Type} (id : BlockId) (f : Option β → β) :
    List (BlockId × β) → List (BlockId × β)
  | [] => [(id, f none)]
  | (key, value) :: rest =>
      if key = id then (key, f (some value)) :: rest else (key, value) :: alterEntries id f rest

theorem mem_keys_alterEntries {β : Type} {id key : BlockId} {f : Option β → β}
    {entries : List (BlockId × β)} :
    key ∈ (alterEntries id f entries).map Prod.fst ↔ key = id ∨ key ∈ entries.map Prod.fst := by
  induction entries with
  | nil => simp [alterEntries]
  | cons entry rest ih =>
      obtain ⟨k, v⟩ := entry
      by_cases h : k = id
      · subst h
        simp [alterEntries]
      · simp only [alterEntries, if_neg h, List.map_cons, List.mem_cons, ih]
        constructor
        · rintro (h | h | h) <;> simp [h]
        · rintro (h | h | h) <;> simp [h]

theorem nodup_keys_alterEntries {β : Type} {id : BlockId} {f : Option β → β}
    {entries : List (BlockId × β)} (h : (entries.map Prod.fst).Nodup) :
    ((alterEntries id f entries).map Prod.fst).Nodup := by
  induction entries with
  | nil => simp [alterEntries]
  | cons entry rest ih =>
      obtain ⟨k, v⟩ := entry
      simp only [List.map_cons, List.nodup_cons] at h
      by_cases hk : k = id
      · simp only [alterEntries, if_pos hk, List.map_cons, List.nodup_cons]
        exact h
      · simp only [alterEntries, if_neg hk, List.map_cons, List.nodup_cons]
        refine ⟨fun hm => ?_, ih h.2⟩
        rcases mem_keys_alterEntries.1 hm with hm | hm
        · exact hk hm
        · exact h.1 hm

theorem lookupEntry_alterEntries {β : Type} (id key : BlockId) (f : Option β → β)
    (entries : List (BlockId × β)) :
    lookupEntry key (alterEntries id f entries)
      = if id = key then some (f (lookupEntry id entries)) else lookupEntry key entries := by
  induction entries with
  | nil => simp [alterEntries, lookupEntry]
  | cons entry rest ih =>
      obtain ⟨k, v⟩ := entry
      by_cases hk : k = id
      · subst hk
        by_cases hkey : k = key <;> simp [alterEntries, lookupEntry, hkey]
      · by_cases hkey : k = key
        · subst hkey
          simp [alterEntries, lookupEntry, hk, Ne.symm hk]
        · simp [alterEntries, lookupEntry, hk, hkey, ih]

/-- Values by block id, each id once, in order of first appearance. -/
structure Roster (β : Type) where
  entries : List (BlockId × β)
  distinct : (entries.map Prod.fst).Nodup

namespace Roster

variable {β γ : Type}

/-- The roster without blocks. -/
def empty : Roster β := ⟨[], by simp⟩

instance : Inhabited (Roster β) := ⟨empty⟩

/-- The ids in order. -/
def ids (r : Roster β) : List BlockId := r.entries.map Prod.fst

/-- The values in order. -/
def values (r : Roster β) : List β := r.entries.map Prod.snd

/-- Number of blocks. -/
def size (r : Roster β) : Nat := r.entries.length

/-- Whether there are no blocks. -/
def isEmpty (r : Roster β) : Bool := r.entries.isEmpty

/-- The value of a block. -/
def get? (r : Roster β) (id : BlockId) : Option β := lookupEntry id r.entries

/-- Changes the value of a block, which comes last if it is new. -/
def alter (r : Roster β) (id : BlockId) (f : Option β → β) : Roster β :=
  ⟨alterEntries id f r.entries, nodup_keys_alterEntries r.distinct⟩

/-- Sets the value of a block. -/
def insert (r : Roster β) (id : BlockId) (value : β) : Roster β := r.alter id fun _ => value

/-- The roster of a list of entries: a repeated id keeps its first place and its last value. -/
def ofList (entries : List (BlockId × β)) : Roster β :=
  entries.foldl (fun r entry => r.insert entry.1 entry.2) empty

/-- Keeps the blocks for which the function gives a value. -/
def filterMap (f : BlockId → β → Option γ) (r : Roster β) : Roster γ where
  entries := r.entries.filterMap fun entry => (f entry.1 entry.2).map (entry.1, ·)
  distinct := by
    refine List.Nodup.sublist ?_ r.distinct
    generalize r.entries = entries
    induction entries with
    | nil => simp
    | cons entry rest ih =>
        cases h : f entry.1 entry.2 with
        | none => simpa [List.filterMap_cons, h] using ih.cons _
        | some value => simpa [List.filterMap_cons, h] using ih

/-- Applies a function to every value. -/
def map (f : β → γ) (r : Roster β) : Roster γ := r.filterMap fun _ value => some (f value)

@[simp] theorem get?_empty (id : BlockId) : (empty : Roster β).get? id = none := rfl

@[simp] theorem get?_alter (r : Roster β) (id key : BlockId) (f : Option β → β) :
    (r.alter id f).get? key = if id = key then some (f (r.get? id)) else r.get? key :=
  lookupEntry_alterEntries id key f r.entries

@[simp] theorem get?_insert (r : Roster β) (id key : BlockId) (value : β) :
    (r.insert id value).get? key = if id = key then some value else r.get? key := by
  simp [insert]

@[simp] theorem length_ids (r : Roster β) : r.ids.length = r.size := by simp [ids, size]

/-- Rosters with the same entries are equal. -/
theorem ext_entries {r s : Roster β} (h : r.entries = s.entries) : r = s := by
  cases r
  cases s
  simpa using h

end Roster

end BlockAffinity
