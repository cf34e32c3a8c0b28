import BlockAffinity.Proofs.ScoreMatrix.Pairs

/-!
# BlockAffinity.Proofs.ScoreMatrix.Building

**How a matrix of scores is filled.** The pairs are scored row by row, by one worker or by several that
share out the rows; the scores are collected in order and then entered into a matrix of zeros, each one
on both sides of the diagonal, up to the first that is not acceptable (`ScoreMatrix.build`).

* The values are entered as into a square table (`table_setPairs`), so once every pair has been entered
  the matrix is that of the pair table (`setPairs_zeros`).
* However the rows are shared out, the result is that of `ScoreMatrix.ofScores` (`build_eq_ofScores`).
* The pairs come in lexicographic order (`pairwise_pairIndices`), so the pair that is refused is the
  first one that could be (`Refuses`).
-/

namespace BlockAffinity

/-! ### The order of the pairs -/

theorem pairwise_pairIndices (n : Nat) :
    (pairIndices n).Pairwise (Prod.Lex (· < ·) (· < ·)) := by
  rw [pairIndices, List.pairwise_flatMap]
  constructor
  · intro i _
    rw [List.pairwise_map]
    exact (List.pairwise_lt_range' 1).imp fun hlt => .right i hlt
  · refine List.pairwise_lt_range.imp fun {i k} hlt p hp q hq => ?_
    obtain ⟨j, -, rfl⟩ := List.mem_map.mp hp
    obtain ⟨l, -, rfl⟩ := List.mem_map.mp hq
    exact .left j l hlt

namespace ScoreMatrix

open Scalar

variable {α : Type}

/-! ### Entering scores -/

/-- Enters a value on both sides of the diagonal. -/
def setPair (m : ScoreMatrix α) (i j : Nat) (value : α) : ScoreMatrix α :=
  { m with values :=
      (m.values.setIfInBounds (i * m.size + j) value).setIfInBounds (j * m.size + i) value }

/-- Enters the values of pairs one after the other. -/
def setPairs (m : ScoreMatrix α) (f : Nat → Nat → α) (order : List (Nat × Nat)) : ScoreMatrix α :=
  order.foldl (fun m pair => m.setPair pair.1 pair.2 (f pair.1 pair.2)) m

section

variable {m : ScoreMatrix α} {f : Nat → Nat → α} {order : List (Nat × Nat)}

theorem ids_setPairs : (m.setPairs f order).ids = m.ids := by
  induction order generalizing m with
  | nil => rfl
  | cons pair order ih => exact ih

theorem table_setPairs : (m.setPairs f order).table = m.table.setPairs f order := by
  induction order generalizing m with
  | nil => rfl
  | cons pair order ih => exact ih

end

/-! ### Scoring in rows -/

/-- The pairs whose first block is one of the rows, with their scores. -/
def scoreRows (n : Nat) (score : Nat → Nat → α) (rows : List Nat) : List (Nat × Nat × α) :=
  rows.flatMap fun i => (List.range' (i + 1) (n - (i + 1))).map fun j => (i, j, score i j)

/-- Enters scores one after the other until one is not acceptable. -/
def enter (acceptable : α → Bool) :
    ScoreMatrix α → List (Nat × Nat × α) → Except (Fault α) (ScoreMatrix α)
  | m, [] => .ok m
  | m, (i, j, value) :: rest =>
      if acceptable value then enter acceptable (m.setPair i j value) rest
      else .error (.invalidScore (m.ids.getD i default) (m.ids.getD j default) value)

section

variable {acceptable : α → Bool} {score : Nat → Nat → α}

/-- The scores of all shares together are those of all pairs in order. -/
theorem flatMap_scoreRows {n : Nat} {shares : List (List Nat)} (h : shares.flatten = List.range n) :
    shares.flatMap (scoreRows n score) =
      (pairIndices n).map fun pair => (pair.1, pair.2, score pair.1 pair.2) := by
  have hall : shares.flatMap (scoreRows n score) = scoreRows n score shares.flatten := by
    rw [scoreRows, ← List.flatMap_id, List.flatMap_assoc]
    rfl
  rw [hall, h, scoreRows, pairIndices, List.map_flatMap]
  simp only [List.map_map]
  rfl

/-- Entering stops at the first score that is not acceptable, or enters them all. -/
theorem enter_eq (m : ScoreMatrix α) (order : List (Nat × Nat)) :
    enter acceptable m (order.map fun pair => (pair.1, pair.2, score pair.1 pair.2)) =
      match order.find? fun pair => !acceptable (score pair.1 pair.2) with
      | some (i, j) => .error (.invalidScore (m.ids.getD i default) (m.ids.getD j default) (score i j))
      | none => .ok (m.setPairs score order) := by
  induction order generalizing m with
  | nil => rfl
  | cons pair order ih =>
      rw [List.map_cons, enter, List.find?_cons]
      cases haccepted : acceptable (score pair.1 pair.2) with
      | false => rfl
      | true =>
          rw [if_pos rfl, ih]
          rfl

end

variable [Scalar α]

/-- The matrix of zeros. -/
def zeros (ids : List BlockId) : ScoreMatrix α :=
  ⟨ids, Array.replicate (ids.length * ids.length) zero⟩

theorem table_zeros (ids : List BlockId) : (zeros ids : ScoreMatrix α).table = .zeros ids.length := rfl

/-- **A matrix of zeros into which every pair has been entered** is the matrix of the pair table. -/
theorem setPairs_zeros (ids : List BlockId) (f : Nat → Nat → α) :
    (zeros ids).setPairs f (pairIndices ids.length) = ofPairs ids (.ofFn ids.length f) := by
  have htable : ((zeros ids).setPairs f (pairIndices ids.length)).table = .ofPairs ids.length f := by
    rw [table_setPairs, table_zeros, SquareTable.ofPairs]
  have hsize : ((zeros ids).setPairs f (pairIndices ids.length)).size = ids.length :=
    congrArg List.length ids_setPairs
  have hshape : ((zeros ids).setPairs f (pairIndices ids.length)).WellShaped := by
    have hfull := (SquareTable.mirrored_ofPairs ids.length f).cells_size
    rw [← htable] at hfull
    rw [WellShaped, hsize]
    exact hfull
  refine ext_cell? ids_setPairs hshape (wellShaped_ofPairs _ _) fun i hi j hj => ?_
  rw [hsize] at hi hj
  rw [← cell?_table, htable, SquareTable.ofPairs,
    SquareTable.cell?_setPairs_zeros (fun _ => Iff.rfl) hi hj, cell?_ofPairs _ hi hj]
  rcases Nat.lt_trichotomy i j with hij | rfl | hji
  · rw [PairTable.get_ofFn _ hij hj, Nat.min_eq_left hij.le, Nat.max_eq_right hij.le]
  · rw [if_pos rfl, if_pos rfl]
  · rw [PairTable.get_comm, PairTable.get_ofFn _ hji hi, Nat.min_eq_right hji.le,
      Nat.max_eq_left hji.le]

/-! ### Building -/

/-- The matrix of the scores of all pairs, the rows of which have been shared out. Each share is scored
by itself, and the scores are put together in the order of the shares. -/
def build (acceptable : α → Bool) (shares : List (List Nat)) (ids : List BlockId)
    (score : Nat → Nat → α) : Except (Fault α) (ScoreMatrix α) :=
  enter acceptable (zeros ids) (shares.flatMap (scoreRows ids.length score))

/-- **Sharing out the rows does not matter.** -/
theorem build_eq_ofScores {acceptable : α → Bool} {ids : List BlockId} {score : Nat → Nat → α}
    {shares : List (List Nat)} (h : shares.flatten = List.range ids.length) :
    build acceptable shares ids score = ofScores acceptable ids score := by
  rw [build, flatMap_scoreRows h, enter_eq, setPairs_zeros, ofScores_eq]
  rfl

/-! ### What is built -/

/-- The matrix holds the scores of all pairs: each one on both sides of a diagonal of zeros, and listed
once, in the lexicographic order of the places. -/
structure Holds (m : ScoreMatrix α) (ids : List BlockId) (score : Nat → Nat → α) : Prop where
  ids_eq : m.ids = ids
  wellShaped : m.WellShaped
  diagonal : ∀ i < ids.length, m.cell? i i = some zero
  upper : ∀ i j, i < j → j < ids.length → m.cell? i j = some (score i j)
  lower : ∀ i j, i < j → j < ids.length → m.cell? j i = some (score i j)
  pairs : ∃ order : List (Nat × Nat), order.Pairwise (Prod.Lex (· < ·) (· < ·)) ∧
    (∀ i j, (i, j) ∈ order ↔ i < j ∧ j < ids.length) ∧
    m.pairs = order.map fun (i, j) => (ids.getD i default, ids.getD j default, score i j)

/-- The fault names the first pair, in lexicographic order, whose score is not as it has to be. -/
def Refuses (IsScore : α → Prop) (ids : List BlockId) (score : Nat → Nat → α) (fault : Fault α) : Prop :=
  ∃ i j left right, i < j ∧ ids[i]? = some left ∧ ids[j]? = some right ∧ ¬IsScore (score i j) ∧
    (∀ k l, k < l → l < ids.length → Prod.Lex (· < ·) (· < ·) (k, l) (i, j) → IsScore (score k l)) ∧
    fault = .invalidScore left right (score i j)

/-- The outcome of building a matrix from scores that have to satisfy a condition. -/
structure BuildsFrom (IsScore : α → Prop) (ids : List BlockId) (score : Nat → Nat → α)
    (outcome : Except (Fault α) (ScoreMatrix α)) : Prop where
  ok_iff : (∃ m, outcome = .ok m) ↔ ∀ i j, i < j → j < ids.length → IsScore (score i j)
  holds : ∀ m, outcome = .ok m → m.Holds ids score
  refuses : ∀ fault, outcome = .error fault → Refuses IsScore ids score fault

section

variable {ids : List BlockId} {score : Nat → Nat → α}

theorem cell?_ofPairs_ofFn {i j : Nat} (hij : i < j) (hj : j < ids.length) :
    (ofPairs ids (.ofFn ids.length score)).cell? i j = some (score i j) ∧
      (ofPairs ids (.ofFn ids.length score)).cell? j i = some (score i j) := by
  have hi : i < ids.length := hij.trans hj
  rw [cell?_ofPairs _ hi hj, cell?_ofPairs _ hj hi, if_neg hij.ne, if_neg hij.ne', PairTable.get_comm _ j i,
    PairTable.get_ofFn _ hij hj]
  exact ⟨rfl, rfl⟩

theorem pairs_ofPairs_ofFn :
    (ofPairs ids (.ofFn ids.length score)).pairs = (pairIndices ids.length).map fun pair =>
      (ids.getD pair.1 default, ids.getD pair.2 default, score pair.1 pair.2) := by
  rw [ScoreMatrix.pairs, size_ofPairs, List.filterMap_eq_map_iff_forall_eq_some]
  intro pair hpair
  obtain ⟨hij, hj⟩ := mem_pairIndices.mp hpair
  have hj : pair.2 < ids.length := hj
  have hi : pair.1 < ids.length := hij.trans hj
  have hcell : (ofPairs ids (.ofFn ids.length score)).cell pair.1 pair.2 = score pair.1 pair.2 := by
    rw [cell, (cell?_ofPairs_ofFn hij hj).1, Option.getD_some]
  simp [hcell, hi, hj]

theorem holds_ofPairs : (ofPairs ids (.ofFn ids.length score)).Holds ids score where
  ids_eq := rfl
  wellShaped := wellShaped_ofPairs _ _
  diagonal i hi := by rw [cell?_ofPairs _ hi hi, if_pos rfl]
  upper _ _ hij hj := (cell?_ofPairs_ofFn hij hj).1
  lower _ _ hij hj := (cell?_ofPairs_ofFn hij hj).2
  pairs := ⟨_, pairwise_pairIndices _, fun _ _ => mem_pairIndices, pairs_ofPairs_ofFn⟩

theorem refuses_of_ofScores_eq_error {acceptable : α → Bool} {fault : Fault α}
    (h : ofScores acceptable ids score = .error fault) :
    Refuses (acceptable · = true) ids score fault := by
  rw [ofScores_eq] at h
  cases hfind : (pairIndices ids.length).find? fun pair => !acceptable (score pair.1 pair.2) with
  | none => rw [hfind] at h; cases h
  | some pair =>
      rw [hfind] at h
      obtain ⟨i, j⟩ := pair
      obtain rfl := Except.error.inj h
      obtain ⟨hij, hj⟩ := mem_pairIndices.mp (List.mem_of_find?_eq_some hfind)
      have hrefused : acceptable (score i j) = false := by simpa using List.find?_some hfind
      have hi : i < ids.length := hij.trans hj
      refine ⟨i, j, ids[i], ids[j], hij, List.getElem?_eq_getElem hi, List.getElem?_eq_getElem hj,
        by simp [hrefused], fun k l hkl hl hbefore => ?_, ?_⟩
      · simpa using eq_false_of_before_find? (pairwise_pairIndices _) hfind
          (mem_pairIndices.mpr ⟨hkl, hl⟩) hbefore
      · rw [List.getD_eq_getElem _ _ hi, List.getD_eq_getElem _ _ hj]

theorem buildsFrom_ofScores (acceptable : α → Bool) :
    BuildsFrom (acceptable · = true) ids score (ofScores acceptable ids score) where
  ok_iff := by simp only [ofScores_eq_ok_iff, exists_and_left, exists_eq, and_true]
  holds m hm := by
    obtain rfl := (ofScores_eq_ok_iff.mp hm).2
    exact holds_ofPairs
  refuses _ := refuses_of_ofScores_eq_error

end

/-! ### Over doubles -/

/-- A score that a distance may be: finite and not negative. -/
def IsDistanceScore (score : Float) : Prop := score.isFinite = true ∧ ¬score < 0

instance (score : Float) : Decidable (IsDistanceScore score) :=
  inferInstanceAs (Decidable (score.isFinite = true ∧ ¬score < 0))

/-- The test that distances have to pass. -/
def acceptsDistance (score : Float) : Bool := isFinite score && !lt score zero

theorem acceptsDistance_iff {score : Float} : acceptsDistance score = true ↔ IsDistanceScore score := by
  rw [acceptsDistance, Bool.and_eq_true, Bool.not_eq_true', IsDistanceScore, ← decide_eq_false_iff_not]
  rfl

end ScoreMatrix

/-- **Building matrices.** Distances are built unless a score is not finite or is negative, and
validation accepts them. Similarities are built unless a score is not finite. Both hold the scores of
all pairs, the first pair that is not acceptable is refused, and sharing out the rows makes no
difference. -/
theorem ScoreMatrix.distances_similarities_of_scores (ids : List BlockId) (score : Nat → Nat → Float) :
    BuildsFrom IsDistanceScore ids score (distances ids score) ∧
    (∀ m, distances ids score = .ok m → m.validate = .ok ()) ∧
    BuildsFrom (·.isFinite = true) ids score (similarities ids score) ∧
    ∀ shares : List (List Nat), shares.flatten = List.range ids.length →
      build acceptsDistance shares ids score = distances ids score ∧
      build Float.isFinite shares ids score = similarities ids score := by
  have hdistances : BuildsFrom (acceptsDistance · = true) ids score (distances ids score) :=
    buildsFrom_ofScores acceptsDistance
  simp only [acceptsDistance_iff] at hdistances
  refine ⟨hdistances, fun m hm => ?_, buildsFrom_ofScores Float.isFinite, fun shares hshares => ?_⟩
  · obtain ⟨hall, rfl⟩ := ofScores_eq_ok_iff.mp hm
    refine validate_ofPairs fun i j hij hj => ?_
    rw [PairTable.get_ofFn _ hij hj]
    simpa using hall i j hij hj
  · exact ⟨build_eq_ofScores hshares, build_eq_ofScores hshares⟩

namespace ScoreMatrix

/-- Three blocks. -/
def threeIds : List BlockId := [⟨"a"⟩, ⟨"b"⟩, ⟨"c"⟩]

/-- The last two of three blocks have a negative score. -/
def oneNegative (i _ : Nat) : Float := if i = 0 then 0.5 else -1

end ScoreMatrix

/-- A negative score is a similarity, which stands on both sides of the diagonal, and no distance. -/
theorem ScoreMatrix.distances_similarities_of_oneNegative :
    [[0], [1, 2]].flatten = List.range threeIds.length ∧
    (∃ m, build Float.isFinite [[0], [1, 2]] threeIds oneNegative = .ok m ∧
      m.cell? 1 2 = some (-1) ∧ m.cell? 2 1 = some (-1)) ∧
    build acceptsDistance [[0], [1, 2]] threeIds oneNegative =
      .error (.invalidScore ⟨"b"⟩ ⟨"c"⟩ (-1)) := by
  have hshares : [[0], [1, 2]].flatten = List.range threeIds.length := rfl
  obtain ⟨hdistances, -, hsimilarities, hbuild⟩ :=
    distances_similarities_of_scores threeIds oneNegative
  obtain ⟨hsharedDistances, hsharedSimilarities⟩ := hbuild _ hshares
  have hhalf : IsDistanceScore 0.5 := by decide +kernel
  have hnegative : ¬IsDistanceScore (-1) := by decide +kernel
  have hfinite : (-1 : Float).isFinite = true := by decide +kernel
  refine ⟨hshares, ?_, ?_⟩
  · obtain ⟨m, hm⟩ := hsimilarities.ok_iff.mpr fun i j _ _ => by
      unfold oneNegative
      split
      exacts [hhalf.1, hfinite]
    have hholds := hsimilarities.holds m hm
    exact ⟨m, hsharedSimilarities.trans hm, hholds.upper 1 2 (by decide) (by decide),
      hholds.lower 1 2 (by decide) (by decide)⟩
  · cases hfault : distances threeIds oneNegative with
    | ok m =>
        exact absurd (hdistances.ok_iff.mp ⟨m, hfault⟩ 1 2 (by decide) (by decide)) hnegative
    | error fault =>
        obtain ⟨i, j, left, right, hij, hleft, hright, hrefused, -, rfl⟩ :=
          hdistances.refuses fault hfault
        have hj : j < 3 := (List.getElem?_eq_some_iff.mp hright).1
        have hi : i ≠ 0 := by
          rintro rfl
          exact hrefused hhalf
        obtain rfl : i = 1 := by omega
        obtain rfl : j = 2 := by omega
        obtain rfl := Option.some.inj hleft
        obtain rfl := Option.some.inj hright
        rw [hsharedDistances, hfault]
        rfl

end BlockAffinity
