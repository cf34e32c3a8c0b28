import BlockAffinity.Roster
import Mathlib.Data.List.Basic
import Mathlib.Data.List.Induction

/-!
# BlockAffinity.Proofs.Roster

**Rosters and their entries.** A list without repeated ids is its own roster
(`Roster.entries_ofList`), and since a roster repeats no id, its entries are exactly what its view
`get?` finds (`Roster.mem_entries_iff`). A roster that is built up block by block lists the blocks in
the order in which they first come (`Roster.ids_foldl_alter`), and its ids and its view tell it
(`Roster.ext_get?`).
-/

namespace BlockAffinity

variable {β γ : Type}

theorem alterEntries_of_notMem {id : BlockId} (f : Option β → β) {entries : List (BlockId × β)}
    (h : id ∉ entries.map Prod.fst) : alterEntries id f entries = entries ++ [(id, f none)] := by
  induction entries with
  | nil => rfl
  | cons entry rest ih =>
      rw [List.map_cons, List.mem_cons, not_or] at h
      rw [alterEntries, if_neg (Ne.symm h.1), ih h.2, List.cons_append]

theorem map_fst_alterEntries_of_mem {id : BlockId} (f : Option β → β) {entries : List (BlockId × β)}
    (h : id ∈ entries.map Prod.fst) :
    (alterEntries id f entries).map Prod.fst = entries.map Prod.fst := by
  induction entries with
  | nil => simp at h
  | cons entry rest ih =>
      rw [alterEntries]
      split
      · rfl
      · rename_i hkey
        rw [List.map_cons, List.mem_cons] at h
        rw [List.map_cons, List.map_cons, ih (h.resolve_left (Ne.symm hkey))]

/-- A list without repeated ids is listed as it is. -/
theorem Roster.entries_ofList {entries : List (BlockId × β)} (h : (entries.map Prod.fst).Nodup) :
    (Roster.ofList entries).entries = entries := by
  induction entries using List.reverseRecOn with
  | nil => rfl
  | append_singleton entries entry ih =>
      rw [List.map_append, List.nodup_append] at h
      obtain ⟨hnodup, -, hdisjoint⟩ := h
      have hnew : entry.1 ∉ entries.map Prod.fst := fun hmem =>
        hdisjoint _ hmem entry.1 (by simp) rfl
      have hlast : Roster.ofList (entries ++ [entry]) =
          (Roster.ofList entries).insert entry.1 entry.2 := by
        simp [Roster.ofList]
      rw [hlast]
      show alterEntries entry.1 (fun _ => entry.2) (Roster.ofList entries).entries = _
      rw [ih hnodup, alterEntries_of_notMem _ hnew]

/-- What is found for an id that is listed once at most. -/
theorem lookupEntry_eq_some_iff_of_count {id : BlockId} {value : β} {entries : List (BlockId × β)}
    (h : (entries.map Prod.fst).count id ≤ 1) :
    lookupEntry id entries = some value ↔ (id, value) ∈ entries := by
  induction entries with
  | nil => simp [lookupEntry]
  | cons entry rest ih =>
      obtain ⟨key, v⟩ := entry
      rw [List.map_cons] at h
      by_cases hkey : key = id
      · subst hkey
        rw [List.count_cons_self] at h
        have hnot : (key, value) ∉ rest := fun hmem =>
          List.count_eq_zero.mp (by omega : (rest.map Prod.fst).count key = 0)
            (List.mem_map.mpr ⟨_, hmem, rfl⟩)
        simp [lookupEntry, hnot, eq_comm]
      · rw [List.count_cons_of_ne hkey] at h
        simp [lookupEntry, hkey, Ne.symm hkey, ih h]

theorem lookupEntry_eq_some_iff {id : BlockId} {value : β} {entries : List (BlockId × β)}
    (h : (entries.map Prod.fst).Nodup) :
    lookupEntry id entries = some value ↔ (id, value) ∈ entries :=
  lookupEntry_eq_some_iff_of_count (List.nodup_iff_count.mp h id)

theorem mem_of_lookupEntry {id : BlockId} {value : β} {entries : List (BlockId × β)}
    (h : lookupEntry id entries = some value) : (id, value) ∈ entries := by
  induction entries with
  | nil => cases h
  | cons entry rest ih =>
      obtain ⟨key, first⟩ := entry
      rw [lookupEntry] at h
      split at h
      · rename_i heq
        obtain rfl := Option.some.inj h
        rw [heq]
        exact List.mem_cons_self
      · exact List.mem_cons_of_mem _ (ih h)

/-- The last value of an id counts. -/
theorem Roster.get?_ofList (entries : List (BlockId × β)) (id : BlockId) :
    (Roster.ofList entries).get? id = lookupEntry id entries.reverse := by
  induction entries using List.reverseRecOn with
  | nil => rfl
  | append_singleton entries entry ih =>
      have hlast : Roster.ofList (entries ++ [entry]) =
          (Roster.ofList entries).insert entry.1 entry.2 := by
        simp [Roster.ofList]
      rw [hlast, get?_insert, ih, List.reverse_append, List.reverse_singleton, List.singleton_append,
        lookupEntry]

namespace Roster

theorem mem_entries_iff {r : Roster β} {id : BlockId} {value : β} :
    (id, value) ∈ r.entries ↔ r.get? id = some value :=
  (lookupEntry_eq_some_iff r.distinct).symm

theorem mem_values_iff {r : Roster β} {value : β} :
    value ∈ r.values ↔ ∃ id, r.get? id = some value := by
  simp only [values, List.mem_map, Prod.exists, exists_eq_right, mem_entries_iff]

theorem mem_ids_iff {r : Roster β} {id : BlockId} : id ∈ r.ids ↔ ∃ value, r.get? id = some value := by
  simp only [ids, List.mem_map, Prod.exists, exists_and_right, exists_eq_right, mem_entries_iff]

/-- The ids and the view tell a roster. -/
theorem ext_get? {r s : Roster β} (hids : r.ids = s.ids) (h : ∀ id ∈ r.ids, r.get? id = s.get? id) :
    r = s := by
  have hentries (t : Roster β) :
      t.entries = t.ids.filterMap fun id => (t.get? id).map (id, ·) := by
    rw [ids, List.filterMap_map]
    have hself : t.entries.filterMap ((fun id => (t.get? id).map (id, ·)) ∘ Prod.fst) =
        t.entries.map fun entry => entry :=
      List.filterMap_eq_map_iff_forall_eq_some.mpr fun entry hentry => by
        rw [Function.comp_apply, mem_entries_iff.mp hentry, Option.map_some]
    rw [hself, List.map_id']
  refine ext_entries ?_
  rw [hentries r, hentries s, ← hids]
  exact List.filterMap_congr fun id hid => by rw [h id hid]

/-! ### Built up block by block -/

theorem ids_alter (r : Roster β) (id : BlockId) (f : Option β → β) :
    (r.alter id f).ids = if id ∈ r.ids then r.ids else r.ids ++ [id] := by
  split
  · exact map_fst_alterEntries_of_mem f ‹_›
  · show (alterEntries id f r.entries).map Prod.fst = _
    rw [alterEntries_of_notMem f ‹_›, List.map_append]
    rfl

/-- **Blocks keep the order of first appearance.** -/
theorem ids_foldl_alter {δ : Type} (key : δ → BlockId) (f : δ → Option β → β) (xs : List δ) :
    (xs.foldl (fun r x => r.alter (key x) (f x)) empty).ids = (xs.map key).eraseDups := by
  induction xs using List.reverseRecOn with
  | nil => rfl
  | append_singleton xs x ih =>
      rw [List.foldl_append, List.foldl_cons, List.foldl_nil, ids_alter, ih, List.map_append,
        List.eraseDups_append]
      generalize xs.map key = keys
      by_cases hmem : key x ∈ keys
      · rw [if_pos (List.mem_eraseDups.mpr hmem)]
        simp [List.removeAll, hmem]
      · rw [if_neg fun hdup => hmem (List.mem_eraseDups.mp hdup)]
        simp [List.removeAll, hmem, List.eraseDups_cons]

/-! ### Selected blocks -/

theorem get?_filterMap (f : BlockId → β → Option γ) (r : Roster β) (id : BlockId) :
    (r.filterMap f).get? id = (r.get? id).bind (f id) := by
  ext value
  rw [← mem_entries_iff]
  simp only [filterMap, List.mem_filterMap, Prod.exists, Option.map_eq_some_iff, Prod.mk.injEq,
    mem_entries_iff, Option.bind_eq_some_iff]
  constructor
  · rintro ⟨key, old, hold, new, hnew, rfl, rfl⟩
    exact ⟨old, hold, hnew⟩
  · rintro ⟨old, hold, hnew⟩
    exact ⟨id, old, hold, value, hnew, rfl, rfl⟩

theorem get?_map (f : β → γ) (r : Roster β) (id : BlockId) :
    (r.map f).get? id = (r.get? id).map f := by
  rw [map, get?_filterMap]
  cases r.get? id <;> rfl

/-- Selecting blocks keeps their order. -/
theorem ids_filterMap_sublist (f : BlockId → β → Option γ) (r : Roster β) :
    (r.filterMap f).ids.Sublist r.ids := by
  show ((r.entries.filterMap fun entry => (f entry.1 entry.2).map (entry.1, ·)).map Prod.fst).Sublist
    (r.entries.map Prod.fst)
  induction r.entries with
  | nil => exact .slnil
  | cons entry rest ih =>
      cases h : f entry.1 entry.2 with
      | none => simpa [List.filterMap_cons, h] using ih.cons _
      | some value => simpa [List.filterMap_cons, h] using ih.cons_cons entry.1

/-- A selection that keeps every block keeps the ids. -/
theorem ids_filterMap_of_forall {f : BlockId → β → Option γ} {r : Roster β}
    (h : ∀ id value, r.get? id = some value → (f id value).isSome) : (r.filterMap f).ids = r.ids := by
  refine (ids_filterMap_sublist f r).eq_of_length ?_
  simp only [length_ids, size, filterMap]
  rw [List.length_filterMap_eq_countP, List.countP_eq_length]
  intro entry hentry
  rw [Option.isSome_map]
  exact h entry.1 entry.2 (mem_entries_iff.mp hentry)

/-- A selection that keeps every value keeps the roster. -/
theorem filterMap_eq_self {f : BlockId → β → Option β} {r : Roster β}
    (h : ∀ id value, r.get? id = some value → f id value = some value) : r.filterMap f = r := by
  refine ext_get? (ids_filterMap_of_forall fun id value hvalue => ?_) fun id _ => ?_
  · rw [h id value hvalue]
    rfl
  · rw [get?_filterMap]
    cases hvalue : r.get? id with
    | none => rfl
    | some value => exact h id value hvalue

/-- A value of the selected blocks comes from a value of the roster. -/
theorem mem_values_filterMap {f : BlockId → β → Option γ} {r : Roster β} {value : γ} :
    value ∈ (r.filterMap f).values ↔ ∃ id old, r.get? id = some old ∧ f id old = some value := by
  simp only [values, filterMap, List.mem_map, List.mem_filterMap, Prod.exists, exists_eq_right,
    Option.map_eq_some_iff, Prod.mk.injEq, mem_entries_iff]
  constructor
  · rintro ⟨id, key, old, hold, new, hnew, -, rfl⟩
    exact ⟨key, old, hold, hnew⟩
  · rintro ⟨id, old, hold, hnew⟩
    exact ⟨id, id, old, hold, value, hnew, rfl, rfl⟩

end Roster

end BlockAffinity
