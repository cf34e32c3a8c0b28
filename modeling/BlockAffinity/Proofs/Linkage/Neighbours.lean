import BlockAffinity.Proofs.Linkage.Run

/-!
# BlockAffinity.Proofs.Linkage.Neighbours

**Remembered neighbours are nearest neighbours.** `IsNearest` says what the nearest slot above a
slot is: the lowest one in use of minimal distance. A search finds it (`isNearest_nearestAbove`),
and the repairs after a merge keep it without a search (`Fresh.merge`), whichever two slots are
merged. So the pair that a step chooses is the first of all closest pairs (`Fresh.isClosest`).

All of this needs distances that can be compared: no distance between two slots in use may be a NaN.
-/

namespace BlockAffinity

open Scalar OrderedScalar

variable {α : Type} [Scalar α]

namespace Clusters

/-- No distance between two slots in use is a NaN. -/
def Comparable (s : Clusters α) : Prop :=
  ∀ {i j}, s.isActive i = true → s.isActive j = true → i ≠ j →
    isNaN (s.distances.get i j) = false

/-- **The nearest slot above a slot**: slots in use before it are farther away, and slots in use
after it are not closer. -/
structure IsNearest (s : Clusters α) (i : Nat) (near : Neighbour α) : Prop where
  isActive : s.isActive near.slot = true
  above : i < near.slot
  distance_eq : near.distance = s.distances.get i near.slot
  before : ∀ j, s.isActive j = true → i < j → j < near.slot →
    lt near.distance (s.distances.get i j) = true
  after : ∀ j, s.isActive j = true → near.slot < j →
    lt (s.distances.get i j) near.distance = false

/-- No slot in use is closer than the nearest one. -/
theorem IsNearest.least [OrderedScalar α] {s : Clusters α} {i j : Nat} {near : Neighbour α}
    (h : s.IsNearest i near) (hj : s.isActive j = true) (hij : i < j) :
    lt (s.distances.get i j) near.distance = false := by
  rcases Nat.lt_trichotomy j near.slot with hlt | heq | hgt
  · exact lt_asymm (h.before j hj hij hlt)
  · rw [heq, h.distance_eq, OrderedScalar.lt_irrefl]
  · exact h.after j hj hgt

/-- A search among comparable distances finds the nearest slot. -/
theorem isNearest_nearestAbove [OrderedScalar α] {s : Clusters α} (hs : s.Comparable) {i : Nat}
    {near : Neighbour α} (hi : s.isActive i = true) (h : s.nearestAbove i = some near) :
    s.IsNearest i near := by
  obtain ⟨hmem, hdistance⟩ := of_nearestAbove h
  obtain ⟨habove, hactive⟩ := mem_activeAbove.mp hmem
  have hkeys : ∀ y ∈ s.neighbours i, isNaN (Neighbour.distance y) = false := by
    intro y hy
    obtain ⟨j, hj, rfl⟩ := List.mem_map.mp hy
    obtain ⟨hij, hj⟩ := mem_activeAbove.mp hj
    exact hs hi hj hij.ne
  rw [nearestAbove_eq] at h
  obtain ⟨before, after, hsplit, hbefore, hafter⟩ := firstLeast_split hkeys h
  have hsorted : (s.neighbours i).Pairwise fun x y => x.slot < y.slot :=
    List.pairwise_map.mpr (s.pairwise_activeAbove i)
  rw [hsplit, List.pairwise_append, List.pairwise_cons] at hsorted
  obtain ⟨-, ⟨hright, -⟩, hleft⟩ := hsorted
  have hplace : ∀ j, s.isActive j = true → i < j →
      (⟨j, s.distances.get i j⟩ : Neighbour α) ∈ before ++ near :: after := by
    intro j hj hij
    rw [← hsplit]
    exact List.mem_map.mpr ⟨j, mem_activeAbove.mpr ⟨hij, hj⟩, rfl⟩
  -- the list is in the order of the slots, so lower slots stand before and higher ones after
  refine ⟨hactive, habove, hdistance, ?_, ?_⟩
  · intro j hj hij hlt
    rcases List.mem_append.mp (hplace j hj hij) with hin | hin
    · exact hbefore _ hin
    · rcases List.mem_cons.mp hin with heq | hin
      · exact absurd (congrArg Neighbour.slot heq) hlt.ne
      · exact absurd (hright _ hin) hlt.asymm
  · intro j hj hlt
    rcases List.mem_append.mp (hplace j hj (habove.trans hlt)) with hin | hin
    · exact absurd (hleft _ hin near (by simp)) hlt.asymm
    · rcases List.mem_cons.mp hin with heq | hin
      · exact absurd (congrArg Neighbour.slot heq) hlt.ne'
      · exact hafter _ hin

/-- **The closest pair**: pairs of slots in use with a lower first slot, or with the same first slot
and a lower second one, are farther apart, and no pair is closer. -/
structure IsClosest (s : Clusters α) (i j : Nat) : Prop where
  left : s.isActive i = true
  right : s.isActive j = true
  ordered : i < j
  before : ∀ k l, s.isActive k = true → s.isActive l = true → k < l → (k < i ∨ k = i ∧ l < j) →
    lt (s.distances.get i j) (s.distances.get k l) = true
  least : ∀ k l, s.isActive k = true → s.isActive l = true → k < l →
    lt (s.distances.get k l) (s.distances.get i j) = false

section join

variable {s : Clusters α} {n a b i newId : Nat} {linkage : Linkage} {near : Neighbour α}

/-- A nearest slot other than the two merged ones stays the nearest one, if the new cluster does not
come before it. -/
theorem IsNearest.join_kept (h : s.IsNearest i near) (hshaped : s.Shaped n)
    (hi : s.isActive i = true) (ha : s.isActive a = true) (hb : s.isActive b = true) (hia : i ≠ a)
    (hib : i ≠ b) (hslota : near.slot ≠ a) (hslotb : near.slot ≠ b)
    (hbefore : i < a → a < near.slot →
      lt near.distance ((s.join linkage a b newId).distances.get i a) = true)
    (hafter : i < a → near.slot < a →
      lt ((s.join linkage a b newId).distances.get i a) near.distance = false) :
    (s.join linkage a b newId).IsNearest i near := by
  have hstay : ∀ j, s.isActive j = true → j ≠ b → i ≠ j → j ≠ a →
      (s.join linkage a b newId).distances.get i j = s.distances.get i j :=
    fun j hj hjb hij hja => distance_join_other hshaped ha hb hi hj hib hjb hij hia hja
  refine ⟨(isActive_join ha hb).mpr ⟨h.isActive, hslotb⟩, h.above, ?_, ?_, ?_⟩
  · rw [hstay _ h.isActive hslotb h.above.ne hslota, h.distance_eq]
  · intro j hj hij hlt
    obtain ⟨hj, hjb⟩ := (isActive_join ha hb).mp hj
    by_cases hja : j = a
    · subst hja
      exact hbefore hij hlt
    · rw [hstay j hj hjb hij.ne hja]
      exact h.before j hj hij hlt
  · intro j hj hlt
    obtain ⟨hj, hjb⟩ := (isActive_join ha hb).mp hj
    have hij : i < j := h.above.trans hlt
    by_cases hja : j = a
    · subst hja
      exact hafter hij hlt
    · rw [hstay j hj hjb hij.ne hja]
      exact h.after j hj hlt

/-- The new cluster is the nearest slot, if it has come closer than the nearest one, or as close
from a lower slot. -/
theorem IsNearest.join_new [OrderedScalar α] (h : s.IsNearest i near) (hshaped : s.Shaped n)
    (hafter : (s.join linkage a b newId).Comparable) (hi : s.isActive i = true)
    (ha : s.isActive a = true) (hb : s.isActive b = true) (hia : i < a) (hab : a < b)
    (hslota : near.slot ≠ a) (hslotb : near.slot ≠ b)
    (hcomes : Agglomeration.ComesBefore (s.join linkage a b newId) a i near) :
    (s.join linkage a b newId).IsNearest i
      ⟨a, (s.join linkage a b newId).distances.get i a⟩ := by
  have hib : i ≠ b := (hia.trans hab).ne
  have hact : ∀ {j}, s.isActive j = true → j ≠ b →
      (s.join linkage a b newId).isActive j = true := fun hj hjb =>
    (isActive_join ha hb).mpr ⟨hj, hjb⟩
  have hstay : ∀ j, s.isActive j = true → j ≠ b → i ≠ j → j ≠ a →
      (s.join linkage a b newId).distances.get i j = s.distances.get i j :=
    fun j hj hjb hij hja => distance_join_other hshaped ha hb hi hj hib hjb hij hia.ne hja
  have hnumber : ∀ j, s.isActive j = true → j ≠ b → i ≠ j → j ≠ a →
      isNaN (s.distances.get i j) = false := by
    intro j hj hjb hij hja
    rw [← hstay j hj hjb hij hja]
    exact hafter (hact hi hib) (hact hj hjb) hij
  have hnear : isNaN near.distance = false := by
    rw [h.distance_eq]
    exact hnumber _ h.isActive hslotb h.above.ne hslota
  have hnew : isNaN ((s.join linkage a b newId).distances.get i a) = false :=
    hafter (hact hi hib) (hact ha hab.ne) hia.ne
  -- in both cases the new cluster is not farther away than the nearest slot was
  have hle : lt near.distance ((s.join linkage a b newId).distances.get i a) = false := by
    rcases hcomes with hlt | ⟨heq, -⟩
    · exact lt_asymm hlt
    · exact ((eq_iff hnew hnear).mp heq).2
  refine ⟨hact ha hab.ne, hia, rfl, ?_, ?_⟩
  · intro j hj hij hlt
    obtain ⟨hj, hjb⟩ := (isActive_join ha hb).mp hj
    rw [hstay j hj hjb hij.ne hlt.ne]
    rcases hcomes with hcloser | ⟨-, hslot⟩
    · exact lt_of_lt_of_not_lt (hnumber j hj hjb hij.ne hlt.ne) hcloser (h.least hj hij)
    · exact lt_of_not_lt_of_lt hnew hle (h.before j hj hij (hlt.trans hslot))
  · intro j hj hlt
    obtain ⟨hj, hjb⟩ := (isActive_join ha hb).mp hj
    have hij : i < j := hia.trans hlt
    rw [hstay j hj hjb hij.ne hlt.ne']
    exact not_lt_trans hnear (h.least hj hij) hle

end join

end Clusters

namespace Agglomeration

/-- What a slot in use remembers is its nearest neighbour. -/
def Fresh (s : Agglomeration α) : Prop :=
  ∀ {i near}, s.clusters.isActive i = true → s.nearestAt i = some near →
    s.clusters.IsNearest i near

theorem Fresh.comparable_candidates {s : Agglomeration α} (h : s.Fresh)
    (hcomparable : s.clusters.Comparable) :
    ∀ y ∈ s.candidates, isNaN (Neighbour.distance y.2) = false := by
  rintro ⟨i, other⟩ hmem
  obtain ⟨hi, hother⟩ := mem_candidates.mp hmem
  rw [(h hi hother).distance_eq]
  exact hcomparable hi (h hi hother).isActive (h hi hother).above.ne

/-- The lower slot of each pair is a candidate, with a neighbour that is as close as the pair. -/
theorem Fresh.exists_candidate {s : Agglomeration α} (h : s.Fresh) (hanchored : s.Anchored) {k l : Nat}
    (hk : s.clusters.isActive k = true) (hl : s.clusters.isActive l = true) (hkl : k < l) :
    ∃ other, (k, other) ∈ s.candidates ∧ s.clusters.IsNearest k other := by
  cases hother : s.nearestAt k with
  | none =>
      have hmem : l ∈ s.clusters.activeAbove k := Clusters.mem_activeAbove.mpr ⟨hkl, hl⟩
      rw [hanchored.nothing_above hk hother] at hmem
      exact absurd hmem (by simp)
  | some other => exact ⟨other, mem_candidates.mpr ⟨hk, hother⟩, h hk hother⟩

variable [OrderedScalar α]

theorem fresh_start {m : ScoreMatrix α} (hcomparable : (start m).clusters.Comparable) :
    (start m).Fresh := by
  intro i near hi hnear
  rw [nearestAt_start m ((Clusters.isActive_singletons m i).mp hi)] at hnear
  exact Clusters.isNearest_nearestAbove hcomparable hi hnear

section merge

variable {s : Agglomeration α} {n a b newId : Nat} {linkage : Linkage}
  {members : Nat → Finset Nat}

/-- **Repairing keeps remembered neighbours nearest.** -/
theorem Fresh.merge (h : s.Fresh) (hsound : s.Sound n members)
    (ha : s.clusters.isActive a = true) (hb : s.clusters.isActive b = true) (hab : a < b)
    (hafter : (s.merge linkage a b newId).clusters.Comparable) :
    (s.merge linkage a b newId).Fresh := by
  intro i near hactive hnear
  obtain ⟨hi, hib⟩ := (Clusters.isActive_join ha hb).mp hactive
  rw [nearestAt_merge linkage a b newId hi] at hnear
  rcases repaired_cases hactive a b (s.nearestAt i) with
    hsearch | ⟨hia, old, hold, holda, holdb, hcomes, hnew⟩ | ⟨hia, hkept, hlow, hhigh⟩
  · rw [hsearch] at hnear
    exact Clusters.isNearest_nearestAbove hafter hactive hnear
  · rw [hnew, Option.some.injEq] at hnear
    subst hnear
    exact (h hi hold).join_new hsound.shaped hafter hi ha hb hia hab holda holdb hcomes
  · rw [hkept] at hnear
    have hnearest := h hi hnear
    have habove := hnearest.above
    -- a slot that has remembered `b` has searched anew
    have hslotb : near.slot ≠ b := by
      intro heq
      subst heq
      exact hhigh habove (by rw [hnear, Option.map_some])
    by_cases hlt : i < a
    · obtain ⟨old, hold, hslota, -, hstays⟩ := hlow hlt
      obtain rfl : near = old := Option.some.inj (hnear.symm.trans hold)
      obtain ⟨hcloser, htie⟩ := not_or.mp hstays
      refine hnearest.join_kept hsound.shaped hi ha hb hia hib hslota hslotb
        (fun _ hslot => ?_) fun _ _ => Bool.eq_false_of_not_eq_true hcloser
      -- the new cluster is not closer, and it is not as close: in a lower slot it would come before
      have hnew := hafter hactive ((Clusters.isActive_join ha hb).mpr ⟨ha, hab.ne⟩) hia
      have hold : isNaN near.distance = false := by
        rw [hnearest.distance_eq, ← Clusters.distance_join_other hsound.shaped ha hb hi
          hnearest.isActive hib hslotb habove.ne hia hslota]
        exact hafter hactive ((Clusters.isActive_join ha hb).mpr ⟨hnearest.isActive, hslotb⟩)
          habove.ne
      by_contra hnot
      exact htie ⟨(eq_iff hnew hold).mpr ⟨Bool.eq_false_of_not_eq_true hcloser,
        Bool.eq_false_of_not_eq_true hnot⟩, hslot⟩
    · have hslota : near.slot ≠ a := by omega
      exact hnearest.join_kept hsound.shaped hi ha hb hia hib hslota hslotb
        (fun h => absurd h hlt) (fun h => absurd h hlt)

end merge

/-- **The chosen pair is the closest one**: a slot whose nearest neighbour is not closer has no
closer neighbour at all. -/
theorem Fresh.isClosest {s : Agglomeration α} (h : s.Fresh) (hanchored : s.Anchored)
    (hcomparable : s.clusters.Comparable) {a : Nat} {near : Neighbour α}
    (hpair : s.closestPair? = some (a, near)) : s.clusters.IsClosest a near.slot := by
  obtain ⟨ha, hnear⟩ := of_closestPair? hpair
  have hnearest := h ha hnear
  rw [closestPair?_eq] at hpair
  obtain ⟨before, after, hsplit, hbefore, hafter⟩ :=
    firstLeast_split (h.comparable_candidates hcomparable) hpair
  have hsorted := s.pairwise_candidates
  rw [hsplit, List.pairwise_append, List.pairwise_cons] at hsorted
  obtain ⟨-, ⟨hright, -⟩, hleft⟩ := hsorted
  refine ⟨ha, hnearest.isActive, hnearest.above, ?_, ?_⟩ <;> rw [← hnearest.distance_eq]
  · intro k l hk hl hkl hlower
    rcases hlower with hka | ⟨rfl, hlow⟩
    · obtain ⟨other, hmem, hother⟩ := h.exists_candidate hanchored hk hl hkl
      rw [hsplit] at hmem
      rcases List.mem_append.mp hmem with hmem | hmem
      · exact lt_of_lt_of_not_lt (hcomparable hk hl hkl.ne) (hbefore _ hmem) (hother.least hl hkl)
      · rcases List.mem_cons.mp hmem with heq | hmem
        · exact absurd (congrArg Prod.fst heq) hka.ne
        · exact absurd (hright _ hmem) hka.asymm
    · exact hnearest.before l hl hkl hlow
  · intro k l hk hl hkl
    obtain ⟨other, hmem, hother⟩ := h.exists_candidate hanchored hk hl hkl
    rw [hsplit] at hmem
    rcases List.mem_append.mp hmem with hmem | hmem
    · exact lt_asymm (lt_of_lt_of_not_lt (hcomparable hk hl hkl.ne) (hbefore _ hmem)
        (hother.least hl hkl))
    · rcases List.mem_cons.mp hmem with heq | hmem
      · obtain ⟨rfl, rfl⟩ := Prod.mk.inj heq
        exact hother.least hl hkl
      · refine not_lt_trans ?_ (hother.least hl hkl) (hafter _ hmem)
        rw [hother.distance_eq]
        exact hcomparable hk hother.isActive hother.above.ne

/-- Along a run whose distances can all be compared every remembered neighbour is the nearest. -/
theorem Run.fresh {linkage : Linkage} {m : ScoreMatrix α} {merges : List (Merge α)}
    {members : Nat → Finset Nat} {s : Agglomeration α} (h : Run linkage m merges members s)
    (hcomparable : ∀ merges members s, Run linkage m merges members s → s.clusters.Comparable) :
    s.Fresh := by
  induction h with
  | start => exact fresh_start (hcomparable _ _ _ .start)
  | merge hrun hpair ih =>
      obtain ⟨ha, hb, hab⟩ := hrun.sound.closestPair?_active hpair
      exact ih.merge hrun.sound ha hb hab (hcomparable _ _ _ (hrun.merge hpair))

end Agglomeration

end BlockAffinity
