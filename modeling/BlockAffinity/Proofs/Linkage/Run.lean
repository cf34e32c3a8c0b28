import BlockAffinity.Linkage.Agglomeration
import BlockAffinity.Proofs.Linkage.Slots
import BlockAffinity.Proofs.Number.Order

/-!
# BlockAffinity.Proofs.Linkage.Run

**The states that an agglomeration goes through.** `Run` relates a state to the merges that led to
it and to the blocks in each slot. Nothing is said here about what comparisons answer: `Sound` is
what holds of every state whatever the distances are. In particular a slot never remembers a vacant
slot, and so the search for a closest pair ends without one only when a single cluster is left
(`Sound.closestPair?_isSome`).

The merges of a dendrogram are those of a run of full length (`run_ofMatrix`).
-/

namespace BlockAffinity

open Scalar

variable {α : Type} [Scalar α]

/-! ### Searches as choices of the first least element -/

namespace Clusters

/-- The slots in use above a slot, with their distances. -/
def neighbours (s : Clusters α) (i : Nat) : List (Neighbour α) :=
  (s.activeAbove i).map fun j => ⟨j, s.distances.get i j⟩

theorem nearestAbove_eq (s : Clusters α) (i : Nat) :
    s.nearestAbove i = firstLeast Neighbour.distance (s.neighbours i) := by
  have hstep : nearer (α := α) = lesserOf Neighbour.distance := by
    funext best candidate
    cases best <;> rfl
  rw [nearestAbove, hstep, firstLeast, neighbours, List.foldl_map]

theorem nearestAbove_eq_none_iff {s : Clusters α} {i : Nat} :
    s.nearestAbove i = none ↔ s.activeAbove i = [] := by
  rw [nearestAbove_eq, firstLeast_eq_none_iff, neighbours, List.map_eq_nil_iff]

theorem of_nearestAbove {s : Clusters α} {i : Nat} {near : Neighbour α}
    (h : s.nearestAbove i = some near) :
    near.slot ∈ s.activeAbove i ∧ near.distance = s.distances.get i near.slot := by
  rw [nearestAbove_eq] at h
  obtain ⟨j, hj, rfl⟩ := List.mem_map.mp (mem_of_firstLeast h)
  exact ⟨hj, rfl⟩

end Clusters

namespace Agglomeration

/-- The slots in use that remember a neighbour, with that neighbour. -/
def candidates (s : Agglomeration α) : List (Nat × Neighbour α) :=
  s.clusters.active.filterMap fun i => (s.nearestAt i).map fun near => (i, near)

omit [Scalar α] in
theorem mem_candidates {s : Agglomeration α} {i : Nat} {near : Neighbour α} :
    (i, near) ∈ s.candidates ↔ s.clusters.isActive i = true ∧ s.nearestAt i = some near := by
  simp [candidates]

omit [Scalar α] in
/-- Candidates are in the order of their slots. -/
theorem pairwise_candidates (s : Agglomeration α) : s.candidates.Pairwise fun x y => x.1 < y.1 := by
  refine s.clusters.pairwise_active.filterMap _ fun i j hij x hx y hy => ?_
  obtain ⟨_, -, rfl⟩ := Option.map_eq_some_iff.mp hx
  obtain ⟨_, -, rfl⟩ := Option.map_eq_some_iff.mp hy
  exact hij

theorem closestPair?_eq (s : Agglomeration α) :
    s.closestPair? = firstLeast (fun pair => pair.2.distance) s.candidates := by
  rw [closestPair?, firstLeast, candidates, List.foldl_filterMap]
  congr 1
  funext best i
  cases s.nearestAt i with
  | none => rfl
  | some near => cases best <;> rfl

theorem of_closestPair? {s : Agglomeration α} {a : Nat} {near : Neighbour α}
    (h : s.closestPair? = some (a, near)) :
    s.clusters.isActive a = true ∧ s.nearestAt a = some near := by
  rw [closestPair?_eq] at h
  exact mem_candidates.mp (mem_of_firstLeast h)

/-! ### What every state satisfies -/

/-- Each slot in use remembers a slot in use above it, unless there is none. -/
structure Anchored (s : Agglomeration α) : Prop where
  nothing_above : ∀ {i}, s.clusters.isActive i = true → s.nearestAt i = none →
    s.clusters.activeAbove i = []
  above : ∀ {i near}, s.clusters.isActive i = true → s.nearestAt i = some near →
    near.slot ∈ s.clusters.activeAbove i

/-- What holds of every state, whatever the distances are. -/
structure Sound (s : Agglomeration α) (n : Nat) (members : Nat → Finset Nat) : Prop where
  shaped : s.clusters.Shaped n
  holds : s.clusters.Holds n members
  anchored : s.Anchored

theorem nearestAt_start (m : ScoreMatrix α) {i : Nat} (hi : i < m.size) :
    (start m).nearestAt i = (Clusters.singletons m).nearestAbove i := by
  simp [start, nearestAt, Array.getD_eq_getD_getElem?, hi]

theorem nearestAt_merge {s : Agglomeration α} (linkage : Linkage) (a b newId : Nat) {i : Nat}
    (hi : s.clusters.isActive i = true) :
    (s.merge linkage a b newId).nearestAt i =
      repaired (s.merge linkage a b newId).clusters a b i (s.nearestAt i) := by
  have hlt : i < s.clusters.slotCount := Clusters.isActive_lt hi
  rw [nearestAt, merge]
  simp [Array.getD_eq_getD_getElem?, hlt]

theorem sound_start (m : ScoreMatrix α) : (start m).Sound m.size fun i => {i} where
  shaped := Clusters.shaped_singletons m
  holds := Clusters.holds_singletons m
  anchored := by
    refine ⟨?_, ?_⟩
    · intro i hi hnone
      rw [nearestAt_start m ((Clusters.isActive_singletons m i).mp hi)] at hnone
      exact Clusters.nearestAbove_eq_none_iff.mp hnone
    · intro i near hi hnear
      rw [nearestAt_start m ((Clusters.isActive_singletons m i).mp hi)] at hnear
      exact (Clusters.of_nearestAbove hnear).1

section merge

variable {s : Agglomeration α} {n a b newId : Nat} {linkage : Linkage}
  {members : Nat → Finset Nat}

/-- The new cluster in slot `a` comes before what slot `i` has remembered: it is closer, or as close
and in a lower slot. -/
def ComesBefore (after : Clusters α) (a i : Nat) (old : Neighbour α) : Prop :=
  lt (after.distances.get i a) old.distance = true ∨
    eq (after.distances.get i a) old.distance = true ∧ a < old.slot

/-- What is remembered after a merge is the outcome of a new search, the new cluster, or what was
remembered before. -/
theorem repaired_cases {after : Clusters α} {i : Nat} (hi : after.isActive i = true) (a b : Nat)
    (before : Option (Neighbour α)) :
    repaired after a b i before = after.nearestAbove i ∨
    (i < a ∧ ∃ old, before = some old ∧ old.slot ≠ a ∧ old.slot ≠ b ∧ ComesBefore after a i old ∧
      repaired after a b i before = some ⟨a, after.distances.get i a⟩) ∨
    (i ≠ a ∧ repaired after a b i before = before ∧
      (i < a → ∃ old, before = some old ∧ old.slot ≠ a ∧ old.slot ≠ b ∧
        ¬ComesBefore after a i old) ∧
      (i < b → before.map Neighbour.slot ≠ some b)) := by
  unfold repaired
  rw [if_neg (by simpa using hi)]
  by_cases hia : i = a
  · rw [if_pos hia]
    exact Or.inl rfl
  · rw [if_neg hia]
    by_cases hlt : i < a
    · rw [if_pos hlt]
      cases before with
      | none => exact Or.inl rfl
      | some old =>
          dsimp only
          by_cases hold : old.slot = a ∨ old.slot = b
          · exact Or.inl (if_pos hold)
          · rw [if_neg hold]
            obtain ⟨holda, holdb⟩ := not_or.mp hold
            by_cases hcomes : ComesBefore after a i old
            · rw [if_pos (by simpa [ComesBefore] using hcomes)]
              exact Or.inr (Or.inl ⟨hlt, old, rfl, holda, holdb, hcomes, rfl⟩)
            · rw [if_neg (by simpa [ComesBefore] using hcomes)]
              exact Or.inr (Or.inr ⟨hia, rfl, fun _ => ⟨old, rfl, holda, holdb, hcomes⟩,
                fun _ => by simpa using holdb⟩)
    · rw [if_neg hlt]
      by_cases hb : i < b ∧ before.map Neighbour.slot = some b
      · exact Or.inl (if_pos hb)
      · rw [if_neg hb]
        exact Or.inr (Or.inr ⟨hia, rfl, fun h => absurd h hlt, fun h hslot => hb ⟨h, hslot⟩⟩)

/-- **Repairing keeps the anchors**, for whatever the comparisons answer. -/
theorem Anchored.merge (h : s.Anchored) (ha : s.clusters.isActive a = true)
    (hb : s.clusters.isActive b = true) (hab : a < b) :
    (s.merge linkage a b newId).Anchored := by
  have hact : ∀ {i}, (s.clusters.join linkage a b newId).isActive i = true ↔
      s.clusters.isActive i = true ∧ i ≠ b := Clusters.isActive_join ha hb
  refine ⟨?_, ?_⟩
  · intro i hi hnone
    obtain ⟨hi', hib⟩ := hact.mp hi
    rw [nearestAt_merge linkage a b newId hi'] at hnone
    rcases repaired_cases hi a b (s.nearestAt i) with
      hsearch | ⟨-, _, -, -, -, -, hnew⟩ | ⟨-, hkept, -, -⟩
    · rw [hsearch] at hnone
      exact Clusters.nearestAbove_eq_none_iff.mp hnone
    · rw [hnew] at hnone
      exact absurd hnone (by simp)
    · rw [hkept] at hnone
      -- no slot comes into use, so there is still nothing above
      have hempty := h.nothing_above hi' hnone
      refine List.eq_nil_iff_forall_not_mem.mpr fun j hj => ?_
      obtain ⟨hij, hj⟩ := Clusters.mem_activeAbove.mp hj
      have hmem : j ∈ s.clusters.activeAbove i :=
        Clusters.mem_activeAbove.mpr ⟨hij, (hact.mp hj).1⟩
      rw [hempty] at hmem
      exact absurd hmem (by simp)
  · intro i near hi hnear
    obtain ⟨hi', hib⟩ := hact.mp hi
    rw [nearestAt_merge linkage a b newId hi'] at hnear
    rcases repaired_cases hi a b (s.nearestAt i) with
      hsearch | ⟨hia, _, -, -, -, -, hnew⟩ | ⟨-, hkept, -, hhigh⟩
    · rw [hsearch] at hnear
      exact (Clusters.of_nearestAbove hnear).1
    · rw [hnew, Option.some.injEq] at hnear
      subst hnear
      exact Clusters.mem_activeAbove.mpr ⟨hia, hact.mpr ⟨ha, hab.ne⟩⟩
    · rw [hkept] at hnear
      obtain ⟨hij, hslot⟩ := Clusters.mem_activeAbove.mp (h.above hi' hnear)
      refine Clusters.mem_activeAbove.mpr ⟨hij, hact.mpr ⟨hslot, ?_⟩⟩
      intro hslotb
      exact hhigh (hslotb ▸ hij) (by rw [hnear, Option.map_some, hslotb])

theorem Sound.merge (h : s.Sound n members) (ha : s.clusters.isActive a = true)
    (hb : s.clusters.isActive b = true) (hab : a < b) :
    (s.merge linkage a b newId).Sound n (Clusters.joinBlocks members a b) :=
  ⟨h.shaped.join ha hb, h.holds.join ha hb hab, h.anchored.merge ha hb hab⟩

/-- A closest pair is made of two slots in use, the lower one first. -/
theorem Sound.closestPair?_active (h : s.Sound n members) {near : Neighbour α}
    (hpair : s.closestPair? = some (a, near)) :
    s.clusters.isActive a = true ∧ s.clusters.isActive near.slot = true ∧ a < near.slot := by
  obtain ⟨ha, hnear⟩ := of_closestPair? hpair
  obtain ⟨hlt, hslot⟩ := Clusters.mem_activeAbove.mp (h.anchored.above ha hnear)
  exact ⟨ha, hslot, hlt⟩

/-- As long as two clusters are left, a closest pair is found. -/
theorem Sound.closestPair?_isSome (h : s.Sound n members) (htwo : 1 < s.clusters.active.length) :
    ∃ a near, s.closestPair? = some (a, near) := by
  obtain ⟨i, j, rest, hactive⟩ : ∃ i j rest, s.clusters.active = i :: j :: rest := by
    match hlist : s.clusters.active with
    | [] => simp [hlist] at htwo
    | [_] => simp [hlist] at htwo
    | i :: j :: rest => exact ⟨i, j, rest, rfl⟩
  have hi : s.clusters.isActive i = true := Clusters.mem_active.mp (by simp [hactive])
  have hj : s.clusters.isActive j = true := Clusters.mem_active.mp (by simp [hactive])
  have hij : i < j := by
    have hsorted := s.clusters.pairwise_active
    rw [hactive, List.pairwise_cons] at hsorted
    exact hsorted.1 j (by simp)
  rw [closestPair?_eq]
  -- the lower slot has the other one above it, so it remembers some slot and is a candidate
  rcases firstLeast_cases (fun pair : Nat × Neighbour α => pair.2.distance) s.candidates with
    ⟨-, hnil⟩ | ⟨⟨a, near⟩, -, hsome⟩
  · cases hnear : s.nearestAt i with
    | none =>
        have hmem : j ∈ s.clusters.activeAbove i := Clusters.mem_activeAbove.mpr ⟨hij, hj⟩
        rw [h.anchored.nothing_above hi hnear] at hmem
        exact absurd hmem (by simp)
    | some near =>
        have hmem : (i, near) ∈ s.candidates := mem_candidates.mpr ⟨hi, hnear⟩
        rw [hnil] at hmem
        exact absurd hmem (by simp)
  · exact ⟨a, near, hsome⟩

end merge

/-! ### Runs -/

/-- The states that an agglomeration of a matrix can reach, each with the merges that led to it and
the blocks in each slot. -/
inductive Run (linkage : Linkage) (m : ScoreMatrix α) :
    List (Merge α) → (Nat → Finset Nat) → Agglomeration α → Prop
  | start : Run linkage m [] (fun i => {i}) (start m)
  | merge {merges members s a near} : Run linkage m merges members s →
      s.closestPair? = some (a, near) →
      Run linkage m (merges ++ [s.clusters.mergeRecord a near.slot])
        (Clusters.joinBlocks members a near.slot)
        (s.merge linkage a near.slot (m.size + merges.length))

variable {linkage : Linkage} {m : ScoreMatrix α} {merges : List (Merge α)}
  {members : Nat → Finset Nat} {s : Agglomeration α}

theorem Run.sound (h : Run linkage m merges members s) : s.Sound m.size members := by
  induction h with
  | start => exact sound_start m
  | merge _ hpair ih =>
      obtain ⟨ha, hb, hab⟩ := ih.closestPair?_active hpair
      exact ih.merge ha hb hab

/-- Every merge leaves one cluster less. -/
theorem Run.active_length (h : Run linkage m merges members s) :
    s.clusters.active.length + merges.length = m.size := by
  induction h with
  | start => simp [Agglomeration.start, Clusters.active_singletons]
  | merge hrun hpair ih =>
      obtain ⟨ha, hb, hab⟩ := hrun.sound.closestPair?_active hpair
      rw [(Clusters.active_perm ha hb hab.ne).length_eq] at ih
      rw [show (Agglomeration.merge linkage _ _ _ _).clusters = .join linkage _ _ _ _ from rfl,
        (Clusters.active_join_perm ha hb hab.ne).length_eq]
      simp only [List.length_cons, List.length_append, List.length_nil] at ih ⊢
      omega

/-- Runs of the same length are the same run. -/
theorem Run.unique {merges' : List (Merge α)} {members' : Nat → Finset Nat} {s' : Agglomeration α}
    (h : Run linkage m merges members s) (h' : Run linkage m merges' members' s')
    (hlength : merges.length = merges'.length) : merges = merges' ∧ members = members' ∧ s = s' := by
  induction h generalizing merges' members' s' with
  | start =>
      cases h' with
      | start => exact ⟨rfl, rfl, rfl⟩
      | merge _ _ => simp at hlength
  | merge hrun hpair ih =>
      cases h' with
      | start => simp at hlength
      | merge hrun' hpair' =>
          obtain ⟨rfl, rfl, rfl⟩ := ih hrun' (by simpa using hlength)
          obtain ⟨rfl, rfl⟩ := Prod.mk.inj (Option.some.inj (hpair.symm.trans hpair'))
          exact ⟨rfl, rfl, rfl⟩

/-- A run goes on for as many merges as there are clusters left to merge. -/
theorem Run.mergesFrom (h : Run linkage m merges members s) {steps : Nat}
    (hsteps : merges.length + steps = m.size - 1) :
    ∃ members' s', Run linkage m
        (merges ++ mergesFrom linkage steps (m.size + merges.length) s) members' s' ∧
      (merges ++ Agglomeration.mergesFrom linkage steps (m.size + merges.length) s).length =
        m.size - 1 := by
  induction steps generalizing merges members s with
  | zero =>
      exact ⟨members, s, by simpa [Agglomeration.mergesFrom] using h,
        by simpa [Agglomeration.mergesFrom] using hsteps⟩
  | succ steps ih =>
      -- a merge is left to be made, so two clusters are left
      have htwo : 1 < s.clusters.active.length := by
        have := h.active_length
        omega
      obtain ⟨a, near, hpair⟩ := h.sound.closestPair?_isSome htwo
      have hnext := h.merge hpair
      have hlength : (merges ++ [s.clusters.mergeRecord a near.slot]).length =
          merges.length + 1 := by simp
      obtain ⟨members', s', hrun, hlen⟩ := ih hnext (by omega)
      rw [hlength, ← Nat.add_assoc, List.append_assoc] at hrun hlen
      refine ⟨members', s', ?_, ?_⟩
      · simpa [Agglomeration.mergesFrom, hpair] using hrun
      · simpa [Agglomeration.mergesFrom, hpair] using hlen

end Agglomeration

variable {linkage : Linkage} {m : ScoreMatrix α}

theorem Dendrogram.ofMatrix_of_valid (linkage : Linkage) (hvalid : m.validate = .ok ()) :
    ofMatrix linkage m =
      .ok ⟨m.size, Agglomeration.mergesFrom linkage (m.size - 1) m.size (.start m)⟩ := by
  simp only [ofMatrix, hvalid]
  rfl

/-- **A dendrogram lists the merges of a run of full length.** -/
theorem Dendrogram.run_ofMatrix (linkage : Linkage) (hvalid : m.validate = .ok ()) :
    ∃ merges members s, ofMatrix linkage m = .ok ⟨m.size, merges⟩ ∧
      Agglomeration.Run linkage m merges members s ∧ merges.length = m.size - 1 := by
  have hstart : Agglomeration.Run linkage m [] (fun i => {i}) (.start m) := .start
  have hsteps : ([] : List (Merge α)).length + (m.size - 1) = m.size - 1 := by simp
  obtain ⟨members, s, hrun, hlength⟩ := hstart.mergesFrom hsteps
  exact ⟨_, members, s, ofMatrix_of_valid linkage hvalid, hrun, hlength⟩

end BlockAffinity
