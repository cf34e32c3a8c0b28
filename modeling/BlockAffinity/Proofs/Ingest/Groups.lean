import BlockAffinity.Ingest.Weights
import BlockAffinity.Proofs.Ingest.Counts

/-!
# BlockAffinity.Proofs.Ingest.Groups

**What is gathered for each block.** Blocks come in the order of their first row. The tally of a block
counts tokens of its rows, and at least one; the weights of a block and a role are those of the rows of
this block and role, in order (`get_weightGroups`).
-/

namespace BlockAffinity.Ingest

/-! ### Tallies -/

theorem ids_tallies (observations : List Observation) :
    (tallies observations).ids = (observations.map Observation.block).eraseDups :=
  Roster.ids_foldl_alter Observation.block _ observations

theorem ids_profilesOf {α : Type} [Scalar α] (observations : List Observation) :
    (profilesOf observations : Profiles α).ids = (observations.map Observation.block).eraseDups := by
  rw [← ids_tallies]
  exact Roster.ids_filterMap_of_forall fun _ _ _ => rfl

/-- A tally lists tokens that were observed. -/
theorem exists_of_mem_tally {observations : List Observation} {id : BlockId} {tally : Tally}
    (h : (tallies observations).get? id = some tally) {role : Role} {token : Token}
    (htoken : token ∈ (tally.get role).tokens) : ∃ o ∈ observations, o.token = token := by
  obtain ⟨count, hcount⟩ := TokenMap.mem_tokens_iff.mp htoken
  have hlisted := get?_tallyOf observations ⟨id, role, token⟩
  rw [tallyOf_of_get? h, hcount, listed] at hlisted
  have hpos : observations.count ⟨id, role, token⟩ ≠ 0 := fun hzero => by
    rw [if_pos hzero] at hlisted
    cases hlisted
  exact ⟨_, List.count_pos_iff.mp (Nat.pos_of_ne_zero hpos), rfl⟩

/-- A tally counts something. -/
theorem exists_sum_tally_pos {observations : List Observation} {id : BlockId} {tally : Tally}
    (h : (tallies observations).get? id = some tally) :
    ∃ role, 0 < (tally.get role).values.sum := by
  have hid : id ∈ (observations.map Observation.block).eraseDups := by
    rw [← ids_tallies]
    exact Roster.mem_ids_iff.mpr ⟨tally, h⟩
  obtain ⟨o, ho, rfl⟩ := List.mem_map.mp (List.mem_eraseDups.mp hid)
  refine ⟨o.role, ?_⟩
  rw [← tallyOf_of_get? h, sum_tallyOf, groupSize, List.countP_pos_iff]
  exact ⟨o, ho, decide_eq_true ⟨rfl, rfl⟩⟩

/-! ### Groups of weights -/

section

variable {α : Type}

theorem weightGroups_append (rows : List (Weighted α)) (row : Weighted α) :
    weightGroups (rows ++ [row]) = (weightGroups rows).alter row.observation.block fun old =>
      (old.getD (.replicate [])).modify row.observation.role
        (· ++ [(row.observation.token, row.weight)]) := by
  simp [weightGroups]

theorem ids_weightGroups (rows : List (Weighted α)) :
    (weightGroups rows).ids = (rows.map fun row => row.observation.block).eraseDups :=
  Roster.ids_foldl_alter (fun row : Weighted α => row.observation.block) _ rows

/-- The tokens of a block and a role with their weights, row by row. -/
def weightsOf (id : BlockId) (role : Role) (rows : List (Weighted α)) : List (Token × α) :=
  (rows.filter fun row => row.observation.block = id ∧ row.observation.role = role).map
    fun row => (row.observation.token, row.weight)

theorem weightsOf_append (id : BlockId) (role : Role) (rows : List (Weighted α)) (row : Weighted α) :
    weightsOf id role (rows ++ [row]) = weightsOf id role rows ++
      if row.observation.block = id ∧ row.observation.role = role
      then [(row.observation.token, row.weight)] else [] := by
  rw [weightsOf, List.filter_append, List.map_append, weightsOf]
  by_cases h : row.observation.block = id ∧ row.observation.role = role
  · rw [if_pos h, List.filter_cons_of_pos (by simpa using h)]
    rfl
  · rw [if_neg h, List.filter_cons_of_neg (by simpa using h)]
    rfl

theorem weightsOf_eq_nil {id : BlockId} {role : Role} {rows : List (Weighted α)}
    (h : ∀ row ∈ rows, ¬(row.observation.block = id ∧ row.observation.role = role)) :
    weightsOf id role rows = [] := by
  rw [weightsOf, List.map_eq_nil_iff, List.filter_eq_nil_iff]
  intro row hrow hmatch
  exact h row hrow (of_decide_eq_true hmatch)

theorem weightsOf_flatMap {β : Type} (id : BlockId) (role : Role) (f : β → List (Weighted α))
    (xs : List β) : weightsOf id role (xs.flatMap f) = xs.flatMap fun x => weightsOf id role (f x) := by
  simp only [weightsOf, List.filter_flatMap, List.map_flatMap]

/-- **The weights of a block and a role** are those of their rows. -/
theorem get_weightGroups {rows : List (Weighted α)} {id : BlockId} {groups : PerRole (List (Token × α))}
    (h : (weightGroups rows).get? id = some groups) (role : Role) :
    groups.get role = weightsOf id role rows := by
  induction rows using List.reverseRecOn generalizing id groups with
  | nil => exact absurd h (by simp [weightGroups])
  | append_singleton rows row ih =>
      rw [weightGroups_append, Roster.get?_alter] at h
      rw [weightsOf_append]
      split at h
      · rename_i hblock
        obtain rfl := Option.some.inj h
        -- a block that is new has no rows yet
        have hold : (((weightGroups rows).get? row.observation.block).getD (.replicate [])).get role =
            weightsOf row.observation.block role rows := by
          cases hfound : (weightGroups rows).get? row.observation.block with
          | some old => exact ih hfound
          | none =>
              have hnew : row.observation.block ∉ rows.map fun row => row.observation.block := by
                rw [← List.mem_eraseDups, ← ids_weightGroups, Roster.mem_ids_iff, hfound]
                simp
              rw [Option.getD_none, PerRole.get_replicate, weightsOf_eq_nil]
              exact fun earlier hearlier hmatch => hnew (List.mem_map.mpr ⟨earlier, hearlier, hmatch.1⟩)
        rw [PerRole.get_modify, hold, ← hblock]
        by_cases hrole : row.observation.role = role
        · simp [hrole]
        · simp [hrole]
      · rename_i hblock
        rw [ih h, if_neg fun hmatch => hblock hmatch.1, List.append_nil]

end

end BlockAffinity.Ingest
