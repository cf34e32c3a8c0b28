import BlockAffinity.Analysis
import BlockAffinity.Proofs.Except
import BlockAffinity.Proofs.Ingest.Counts
import BlockAffinity.Proofs.ScoreMatrix.Pairs

/-!
# BlockAffinity.Proofs.ScoreMatrix.Scoring

**Scoring bounded profiles never fails**, and what it gives are valid distances. A guarded
divergence is between zero and one whatever the logarithm makes of its argument, an overlap is a sum
of probabilities, and the distances of overlaps are differences raised to zero.
-/

namespace BlockAffinity

open Double Scalar

/-! ### Scores of pairs -/

namespace Divergence

theorem inRange_guard (value : Float) : InRange 1 (guard value) := by
  unfold guard
  split
  · exact inRange_clamp ‹_›
  · exact inRange_zero zero_le_one

/-- The divergence of two blocks is finite and not negative, whatever they are. -/
theorem inRange_ofBlocks (left right : Profile Float) : InRange (2 ^ 54) (ofBlocks left right) :=
  inRange_sum fun y hy => by
    obtain ⟨value, -, rfl⟩ := List.mem_map.mp hy
    exact inRange_guard value

end Divergence

namespace Overlap

theorem inRange_within {small large : Distribution Float} (hsmall : Distribution.IsBounded small)
    (hlarge : Distribution.IsBounded large) : InRange (2 ^ 54) (within small large) := by
  refine inRange_sum fun y hy => ?_
  obtain ⟨⟨token, p⟩, hentry, rfl⟩ := List.mem_map.mp hy
  have hp := hsmall p (List.mem_map.mpr ⟨_, hentry, rfl⟩)
  have hq := Distribution.inRange_probability hlarge token
  rcases minimum_eq_or p (Distribution.probability large token) with h | h
  · exact h.symm ▸ hp
  · exact h.symm ▸ hq

theorem inRange_ofDistributions {p q : Distribution Float} (hp : Distribution.IsBounded p)
    (hq : Distribution.IsBounded q) : InRange (2 ^ 54) (ofDistributions p q) := by
  unfold ofDistributions
  split
  · exact inRange_within hp hq
  · exact inRange_within hq hp

/-- The overlap of two blocks is finite and not negative. -/
theorem inRange_ofBlocks {left right : Profile Float} (hleft : Profile.IsBounded left)
    (hright : Profile.IsBounded right) : InRange (2 ^ 60) (ofBlocks left right) := by
  refine inRange_sum_of_length_le ?_ fun y hy => ?_
  · have hroles : (Profile.roles left).length ≤ 3 := List.length_filter_le _ Role.all
    exact (List.length_filterMap_le _ _).trans (hroles.trans (by norm_num))
  · obtain ⟨role, -, hy⟩ := List.mem_filterMap.mp hy
    obtain ⟨q, hq, rfl⟩ := Option.map_eq_some_iff.mp hy
    have hq' : q = right.get role := by
      unfold Profile.get? at hq
      split at hq
      · exact absurd hq (by simp)
      · exact (Option.some.inj hq).symm
    exact inRange_ofDistributions (hleft role) (hq' ▸ hright role)

end Overlap

/-! ### Matrices of scores -/

namespace ScoreMatrix

variable {b : ℚ}

/-- What holds of the scores of profiles holds of the scores of pairs, each of which has two
profiles. -/
theorem forall_betweenProfiles {α : Type} [Scalar α] {P : α → Prop} {score : Profile α → Profile α → α}
    {profiles : Profiles α}
    (h : ∀ left ∈ profiles.values, ∀ right ∈ profiles.values, P (score left right)) {i j : Nat}
    (hij : i < j) (hj : j < profiles.ids.length) : P (betweenProfiles score profiles.values i j) := by
  have hj : j < profiles.values.length := by simpa [Roster.ids, Roster.values] using hj
  rw [betweenProfiles, List.getElem?_eq_getElem (hij.trans hj), List.getElem?_eq_getElem hj]
  exact h _ (List.getElem_mem _) _ (List.getElem_mem _)

/-- The largest score is one of the scores. -/
theorem inRange_maxOffDiagonal {m : ScoreMatrix Float} (hb : 0 ≤ b)
    (h : ∀ i j, i < j → j < m.size → InRange b (m.cell i j)) : InRange b m.maxOffDiagonal := by
  have hupper : ∀ value ∈ m.upper.toList, InRange b value := by
    intro value hvalue
    obtain ⟨i, j, hij, hj, rfl⟩ := mem_toList_upper.mp hvalue
    exact h i j hij hj
  unfold maxOffDiagonal
  cases hlist : m.upper.toList with
  | nil => exact inRange_zero hb
  | cons first rest =>
      rw [hlist, List.forall_mem_cons] at hupper
      refine List.foldlRecOn rest maximum hupper.1 fun largest hlargest value hvalue => ?_
      rcases maximum_eq_or largest value with heq | heq
      · exact heq.symm ▸ hlargest
      · exact heq.symm ▸ hupper.2 value hvalue

/-- **The distances of similarities** are valid. -/
theorem validate_toDistances {m : ScoreMatrix Float} (hb : 0 ≤ b)
    (h : ∀ i j, i < j → j < m.size → InRange b (m.cell i j)) :
    m.toDistances.validate = .ok () := by
  have hlargest := inRange_maxOffDiagonal hb h
  refine validate_ofPairs fun i j hij hj => ?_
  have hj : j < m.size := hj
  rw [PairTable.get_ofFn _ hij hj]
  have hdistance := hlargest.sub (h i j hij hj)
  exact ⟨hdistance.finite, hdistance.lt_zero⟩

end ScoreMatrix

/-- **Bounded profiles can be scored**, and their distances are valid. -/
theorem Analysis.exists_score_eq_ok (settings : Settings Float) {profiles : Profiles Float}
    (h : Profiles.IsBounded profiles) :
    ∃ scores, score settings profiles = .ok scores ∧
      scores.distances.ids = profiles.ids ∧ scores.distances.WellShaped ∧
      scores.distances.validate = .ok () ∧
      ∀ similarities ∈ scores.similarities,
        similarities.ids = profiles.ids ∧ similarities.WellShaped := by
  unfold score
  cases settings.metric with
  | jsd =>
      have hpair {i j : Nat} (hij : i < j) (hj : j < profiles.ids.length) : InRange (2 ^ 54)
          (ScoreMatrix.betweenProfiles Divergence.ofBlocks profiles.values i j) :=
        ScoreMatrix.forall_betweenProfiles
          (fun left _ right _ => Divergence.inRange_ofBlocks left right) hij hj
      have haccepted : ScoreMatrix.divergences profiles = .ok (.ofPairs profiles.ids (.ofFn
          profiles.ids.length (ScoreMatrix.betweenProfiles Divergence.ofBlocks profiles.values))) := by
        unfold ScoreMatrix.divergences ScoreMatrix.distances
        exact ScoreMatrix.ofScores_eq_ok_iff.mpr
          ⟨fun i j hij hj => by rw [(hpair hij hj).finite, (hpair hij hj).lt_zero]; rfl, rfl⟩
      refine ⟨_, bind_eq_ok_iff.mpr ⟨_, haccepted, rfl⟩, rfl, ScoreMatrix.wellShaped_ofPairs _ _,
        ScoreMatrix.validate_ofPairs fun i j hij hj => ?_, by simp⟩
      rw [PairTable.get_ofFn _ hij hj]
      exact ⟨(hpair hij hj).finite, (hpair hij hj).lt_zero⟩
  | overlap =>
      have hpair {i j : Nat} (hij : i < j) (hj : j < profiles.ids.length) : InRange (2 ^ 60)
          (ScoreMatrix.betweenProfiles Overlap.ofBlocks profiles.values i j) :=
        ScoreMatrix.forall_betweenProfiles (fun left hleft right hright =>
          Overlap.inRange_ofBlocks (h left hleft) (h right hright)) hij hj
      have haccepted : ScoreMatrix.overlaps profiles = .ok (.ofPairs profiles.ids (.ofFn
          profiles.ids.length (ScoreMatrix.betweenProfiles Overlap.ofBlocks profiles.values))) :=
        ScoreMatrix.ofScores_eq_ok_iff.mpr ⟨fun i j hij hj => (hpair hij hj).finite, rfl⟩
      refine ⟨_, bind_eq_ok_iff.mpr ⟨_, haccepted, rfl⟩, rfl, ScoreMatrix.wellShaped_ofPairs _ _,
        ScoreMatrix.validate_toDistances (b := 2 ^ 60) (by norm_num) fun i j hij hj => ?_, ?_⟩
      · rw [ScoreMatrix.size_ofPairs] at hj
        rw [ScoreMatrix.cell_ofPairs (hij.trans hj) hj, if_neg hij.ne, PairTable.get_ofFn _ hij hj]
        exact hpair hij hj
      · rintro _ ⟨rfl⟩
        exact ⟨rfl, ScoreMatrix.wellShaped_ofPairs _ _⟩

end BlockAffinity
