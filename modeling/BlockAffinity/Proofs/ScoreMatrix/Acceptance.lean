import BlockAffinity.Proofs.Linkage.Run
import BlockAffinity.Proofs.ScoreMatrix.Building
import BlockAffinity.Proofs.ScoreMatrix.Reordering
import BlockAffinity.Proofs.ScoreMatrix.Tolerance

/-!
# BlockAffinity.Proofs.ScoreMatrix.Acceptance

**Which matrices of doubles are accepted, and what is said of the others.** Validity is a list of
questions about cells (`Check`), asked in a fixed order; the answer is the fault of the first one that
is answered with no (`defect?_eq_firstFault?`), whatever doubles the cells hold.

All questions together say what distances are (`AreDistances`). So rows are accepted if their values
are distances (`validate_of_ofRows`). Nothing in that looks at the places of blocks, so it holds of the
transposed matrix and of any choice of different blocks in any order.
-/

namespace BlockAffinity

open Scalar Double

/-- A question about the cells of a matrix. -/
inductive Check
  /-- Whether a cell on the diagonal is zero. -/
  | diagonal (i : Nat)
  /-- Whether a cell off the diagonal is finite and not negative. -/
  | entry (i j : Nat)
  /-- Whether the two cells of a pair agree. -/
  | agreement (i j : Nat)
  deriving DecidableEq, Repr

namespace Check

/-- Whether the question is asked of a matrix with so many blocks. -/
def IsAsked (n : Nat) : Check → Prop
  | diagonal i => i < n
  | entry i j => i < n ∧ j < n ∧ i ≠ j
  | agreement i j => i < j ∧ j < n

/-- The pair of blocks whose turn it is, the smaller place first, and the place of the question among
those about the pair. -/
def turn : Check → Nat × Nat × Nat
  | diagonal i => (i, i, 0)
  | entry i j => if i < j then (i, j, 0) else (j, i, 1)
  | agreement i j => (i, j, 2)

/-- Questions are asked in the lexicographic order of their turns. -/
def Before (c d : Check) : Prop :=
  Prod.Lex (· < ·) (Prod.Lex (· < ·) (· < ·)) c.turn d.turn

instance : Std.Asymm Before where
  asymm c d := Std.Asymm.asymm (r := Prod.Lex (· < ·) (Prod.Lex (· < ·) (· < ·))) c.turn d.turn

/-- Whether the answer is yes. -/
def Passes (m : ScoreMatrix Float) : Check → Prop
  | diagonal i => eq (m.cell i i) zero = true
  | entry i j => isFinite (m.cell i j) = true ∧ lt (m.cell i j) zero = false
  | agreement i j =>
      le (magnitude (m.cell i j - m.cell j i))
        (slack * maximum one (maximum (m.cell i j) (m.cell j i))) = true

instance (m : ScoreMatrix Float) (c : Check) : Decidable (c.Passes m) := by
  cases c <;> unfold Passes <;> infer_instance

/-- What is said where the answer is no. -/
def fault (m : ScoreMatrix Float) : Check → Fault Float
  | diagonal i => .invalidMatrix i i (.diagonal (m.ids.getD i default) (m.cell i i))
  | entry i j =>
      .invalidMatrix i j
        (if isFinite (m.cell i j) then .negative (m.cell i j) else .nonFinite (m.cell i j))
  | agreement i j =>
      .invalidMatrix i j
        (.asymmetric (m.ids.getD i default) (m.ids.getD j default) (m.cell i j) (m.cell j i))

/-! ### The questions in order -/

/-- The questions about a pair. -/
def ofPair (i j : Nat) : List Check := [entry i j, entry j i, agreement i j]

/-- The questions about the pairs that begin with a block, and about the block itself. -/
def ofRow (n i : Nat) : List Check :=
  diagonal i :: (List.range' (i + 1) (n - (i + 1))).flatMap (ofPair i)

/-- All questions about a matrix. -/
def all (n : Nat) : List Check := (List.range n).flatMap (ofRow n)

theorem mem_all {n : Nat} {c : Check} : c ∈ all n ↔ c.IsAsked n := by
  simp only [all, ofRow, ofPair, List.mem_flatMap, List.mem_range, List.mem_cons, List.mem_range'_1,
    List.not_mem_nil, or_false]
  constructor
  · rintro ⟨i, hi, rfl | ⟨j, hj, rfl | rfl | rfl⟩⟩ <;> simp only [IsAsked] <;> omega
  · intro h
    cases c with
    | diagonal i => exact ⟨i, h, .inl rfl⟩
    | entry i j =>
        obtain ⟨hi, hj, hne⟩ := h
        rcases Nat.lt_or_gt_of_ne hne with hij | hji
        · exact ⟨i, hi, .inr ⟨j, by omega, .inl rfl⟩⟩
        · exact ⟨j, hj, .inr ⟨i, by omega, .inr (.inl rfl)⟩⟩
    | agreement i j =>
        obtain ⟨hij, hj⟩ := h
        exact ⟨i, by omega, .inr ⟨j, by omega, .inr (.inr rfl)⟩⟩

/-- The turns of the questions about a pair. -/
theorem turn_of_mem_ofPair {i j : Nat} (hij : i < j) {c : Check} (hc : c ∈ ofPair i j) :
    ∃ k, c.turn = (i, j, k) := by
  simp only [ofPair, List.mem_cons, List.not_mem_nil, or_false] at hc
  rcases hc with rfl | rfl | rfl
  · exact ⟨0, if_pos hij⟩
  · exact ⟨1, if_neg (Nat.lt_asymm hij)⟩
  · exact ⟨2, rfl⟩

theorem pairwise_ofPair {i j : Nat} (hij : i < j) : (ofPair i j).Pairwise Before := by
  simp [ofPair, Before, turn, hij, Nat.lt_asymm hij, Prod.lex_def]

theorem turn_of_mem_ofRow {n i : Nat} {c : Check} (hc : c ∈ ofRow n i) : ∃ j k, c.turn = (i, j, k) := by
  rcases List.mem_cons.mp hc with rfl | hc
  · exact ⟨i, 0, rfl⟩
  · obtain ⟨j, hj, hc⟩ := List.mem_flatMap.mp hc
    rw [List.mem_range'_1] at hj
    exact ⟨j, turn_of_mem_ofPair (by omega) hc⟩

theorem pairwise_ofRow (n i : Nat) : (ofRow n i).Pairwise Before := by
  rw [ofRow, List.pairwise_cons, List.pairwise_flatMap]
  refine ⟨fun c hc => ?_, fun j hj => ?_, ?_⟩
  · obtain ⟨j, hj, hc⟩ := List.mem_flatMap.mp hc
    rw [List.mem_range'_1] at hj
    obtain ⟨k, hturn⟩ := turn_of_mem_ofPair (by omega) hc
    rw [Before, hturn]
    exact .right _ (.left _ _ (by omega))
  · rw [List.mem_range'_1] at hj
    exact pairwise_ofPair (by omega)
  · refine (List.pairwise_lt_range' 1).imp_of_mem fun {j l} hj hl hlt c hc d hd => ?_
    rw [List.mem_range'_1] at hj hl
    obtain ⟨k, hturn⟩ := turn_of_mem_ofPair (by omega) hc
    obtain ⟨k', hturn'⟩ := turn_of_mem_ofPair (by omega) hd
    rw [Before, hturn, hturn']
    exact .right _ (.left _ _ hlt)

/-- **The list is in the order** in which the questions are asked. -/
theorem pairwise_all (n : Nat) : (all n).Pairwise Before := by
  rw [all, List.pairwise_flatMap]
  refine ⟨fun i _ => pairwise_ofRow n i, List.pairwise_lt_range.imp fun {i k} hlt c hc d hd => ?_⟩
  obtain ⟨j, l, hturn⟩ := turn_of_mem_ofRow hc
  obtain ⟨j', l', hturn'⟩ := turn_of_mem_ofRow hd
  rw [Before, hturn, hturn']
  exact .left _ _ hlt

end Check

namespace ScoreMatrix

variable {m : ScoreMatrix Float}

/-! ### The first answer that is no -/

/-- The fault of the first question of a list that is answered with no. -/
def firstFault? (m : ScoreMatrix Float) (checks : List Check) : Option (Fault Float) :=
  (checks.find? fun c => !decide (c.Passes m)).map (Check.fault m)

theorem firstFault?_append (checks others : List Check) :
    m.firstFault? (checks ++ others) = (m.firstFault? checks).or (m.firstFault? others) := by
  rw [firstFault?, List.find?_append, Option.map_or]
  rfl

theorem firstFault?_cons (c : Check) (checks : List Check) :
    m.firstFault? (c :: checks) = if c.Passes m then m.firstFault? checks else some (c.fault m) := by
  by_cases hpasses : c.Passes m <;> simp [firstFault?, hpasses]

theorem firstFault?_flatMap {β : Type} (f : β → List Check) (xs : List β) :
    m.firstFault? (xs.flatMap f) = xs.findSome? fun x => m.firstFault? (f x) := by
  rw [firstFault?, List.find?_flatMap, List.map_findSome?]
  rfl

theorem firstFault?_entry (i j : Nat) :
    m.firstFault? [.entry i j] = entryDefect? i j (m.cell i j) := by
  have hpasses : (Check.entry i j).Passes m ↔ entryDefect? i j (m.cell i j) = none :=
    entryDefect?_eq_none_iff.symm
  rw [firstFault?_cons, Check.fault]
  by_cases hnone : entryDefect? i j (m.cell i j) = none
  · rw [if_pos (hpasses.mpr hnone), hnone]
    rfl
  · rw [if_neg (mt hpasses.mp hnone)]
    unfold entryDefect? at hnone ⊢
    cases hfinite : isFinite (m.cell i j) <;> cases hlt : lt (m.cell i j) zero <;> simp_all

section

variable (hshape : m.WellShaped) {i j : Nat}

include hshape

theorem diagonalDefect?_eq (hi : i < m.size) :
    m.diagonalDefect? i = m.firstFault? [.diagonal i] := by
  rw [diagonalDefect?, cell?_eq_some_cell hshape hi hi, firstFault?_cons]
  rfl

/-- Whether the entries of a pair agree is asked of entries that can be distances. -/
theorem pairDefect?_eq (hij : i < j) (hj : j < m.size) :
    m.pairDefect? i j = m.firstFault? (Check.ofPair i j) := by
  have hsplit : Check.ofPair i j = [.entry i j] ++ ([.entry j i] ++ [.agreement i j]) := rfl
  have hi : i < m.size := hij.trans hj
  rw [pairDefect?, cell?_eq_some_cell hshape hi hj, cell?_eq_some_cell hshape hj hi, hsplit,
    firstFault?_append, firstFault?_append, firstFault?_entry, firstFault?_entry]
  dsimp only
  cases hupper : entryDefect? i j (m.cell i j) with
  | some fault => rfl
  | none =>
      cases hlower : entryDefect? j i (m.cell j i) with
      | some fault => rfl
      | none =>
          rw [entryDefect?_eq_none_iff] at hupper hlower
          rw [Option.none_or, Option.none_or, firstFault?_cons,
            isAsymmetric_eq_not_le (inRange_of_lt_zero hupper.1 hupper.2)
              (inRange_of_lt_zero hlower.1 hlower.2)]
          cases hagree : le (magnitude (m.cell i j - m.cell j i))
              (slack * maximum one (maximum (m.cell i j) (m.cell j i))) with
          | true => exact (if_pos (show (Check.agreement i j).Passes m from hagree)).symm
          | false =>
              have hfails : ¬(Check.agreement i j).Passes m := by
                intro hpasses
                exact Bool.false_ne_true (hagree.symm.trans hpasses)
              exact (if_neg hfails).symm

theorem rowDefect?_eq (hi : i < m.size) :
    m.rowDefect? i = m.firstFault? (Check.ofRow m.size i) := by
  have hsplit : Check.ofRow m.size i =
      [.diagonal i] ++ (List.range' (i + 1) (m.size - (i + 1))).flatMap (Check.ofPair i) := rfl
  rw [rowDefect?, hsplit, firstFault?_append, firstFault?_flatMap, diagonalDefect?_eq hshape hi]
  refine congrArg _ (findSome?_congr fun j hj => ?_)
  rw [List.mem_range'_1] at hj
  exact pairDefect?_eq hshape (by omega) (by omega)

/-- **The defect of a matrix** is the fault of the first question that is answered with no. -/
theorem defect?_eq_firstFault? : m.defect? = m.firstFault? (Check.all m.size) := by
  rw [defect?, Check.all, firstFault?_flatMap]
  exact findSome?_congr fun i hi => rowDefect?_eq hshape (List.mem_range.mp hi)

/-- **A matrix is valid** if every question is answered with yes. -/
theorem validate_eq_ok_iff_passes :
    m.validate = .ok () ↔ ∀ c : Check, c.IsAsked m.size → c.Passes m := by
  rw [validate_eq_ok_iff, defect?_eq_firstFault? hshape, firstFault?, Option.map_eq_none_iff,
    List.find?_eq_none]
  simp [Check.mem_all]

/-- **What is said of any other matrix** is the fault of the question before which all are answered
with yes. -/
theorem validate_eq_error_iff {fault : Fault Float} :
    m.validate = .error fault ↔ ∃ c : Check, c.IsAsked m.size ∧ ¬c.Passes m ∧
      (∀ d : Check, d.IsAsked m.size → d.Before c → d.Passes m) ∧ fault = c.fault m := by
  have hdefect : m.validate = .error fault ↔ m.firstFault? (Check.all m.size) = some fault := by
    rw [← defect?_eq_firstFault? hshape, validate]
    cases m.defect? <;> simp
  rw [hdefect, firstFault?, Option.map_eq_some_iff]
  have hsorted := Check.pairwise_all m.size
  constructor
  · rintro ⟨c, hfind, rfl⟩
    have hfails : ¬c.Passes m := by simpa using List.find?_some hfind
    refine ⟨c, Check.mem_all.mp (List.mem_of_find?_eq_some hfind), hfails, fun d hd hbefore => ?_, rfl⟩
    simpa using eq_false_of_before_find? hsorted hfind (Check.mem_all.mpr hd) hbefore
  · rintro ⟨c, hc, hfails, hbefore, rfl⟩
    have hmem := Check.mem_all.mpr hc
    cases hfind : (Check.all m.size).find? fun c => !decide (c.Passes m) with
    | none => exact absurd (by simpa using List.find?_eq_none.mp hfind c hmem) hfails
    | some d =>
        have hd := List.mem_of_find?_eq_some hfind
        have hfails' : ¬d.Passes m := by simpa using List.find?_some hfind
        have hone := eq_or_before_of_pairwise hsorted hd hmem
        rcases hone with rfl | hlt | hgt
        · exact ⟨d, rfl, rfl⟩
        · exact absurd (hbefore d (Check.mem_all.mp hd) hlt) hfails'
        · have hpasses := eq_false_of_before_find? hsorted hfind hmem hgt
          exact absurd (by simpa using hpasses) hfails

end

/-! ### Cells that are distances -/

/-- What the cells of a distance matrix are like, as doubles. -/
structure AreDistances (n : Nat) (d : Nat → Nat → Float) : Prop where
  diagonal : ∀ i < n, eq (d i i) zero = true
  entry : ∀ i < n, ∀ j < n, i ≠ j → isFinite (d i j) = true ∧ lt (d i j) zero = false
  agreement : ∀ i j, i < j → j < n →
    le (magnitude (d i j - d j i)) (slack * maximum one (maximum (d i j) (d j i))) = true

/-- **Distances are accepted**, and nothing else is. -/
theorem validate_eq_ok_iff_areDistances (hshape : m.WellShaped) :
    m.validate = .ok () ↔ AreDistances m.size m.cell := by
  rw [validate_eq_ok_iff_passes hshape]
  constructor
  · intro h
    exact ⟨fun i hi => h (.diagonal i) hi, fun i hi j hj hne => h (.entry i j) ⟨hi, hj, hne⟩,
      fun i j hij hj => h (.agreement i j) ⟨hij, hj⟩⟩
  · intro h c hc
    cases c with
    | diagonal i => exact h.diagonal i hc
    | entry i j => exact h.entry i hc.1 j hc.2.1 hc.2.2
    | agreement i j => exact h.agreement i j hc.1 hc.2

namespace AreDistances

variable {n k : Nat} {d : Nat → Nat → Float}

/-- The two cells of a pair agree whichever is taken first. -/
theorem agreement_of_ne (h : AreDistances n d) {i j : Nat} (hi : i < n) (hj : j < n) (hne : i ≠ j) :
    le (magnitude (d i j - d j i)) (slack * maximum one (maximum (d i j) (d j i))) = true := by
  rcases Nat.lt_or_gt_of_ne hne with hij | hji
  · exact h.agreement i j hij hj
  · have hupper := inRange_of_lt_zero (h.entry i hi j hj hne).1 (h.entry i hi j hj hne).2
    have hlower := inRange_of_lt_zero (h.entry j hj i hi hne.symm).1 (h.entry j hj i hi hne.symm).2
    have hagree := isAsymmetric_eq_not_le hlower hupper
    rw [h.agreement j i hji hi, ← isAsymmetric_comm_of_inRange hupper hlower,
      isAsymmetric_eq_not_le hupper hlower] at hagree
    simpa using hagree

theorem swap (h : AreDistances n d) : AreDistances n fun i j => d j i where
  diagonal := h.diagonal
  entry i hi j hj hne := h.entry j hj i hi hne.symm
  agreement _ _ hij hj := h.agreement_of_ne hj (hij.trans hj) hij.ne'

/-- Different blocks, wherever they are put, keep their distances. -/
theorem comp {p : Nat → Nat} (h : AreDistances n d) (hlt : ∀ i < k, p i < n)
    (hp : ∀ i < k, ∀ j < k, p i = p j → i = j) : AreDistances k fun i j => d (p i) (p j) where
  diagonal i hi := h.diagonal (p i) (hlt i hi)
  entry i hi j hj hne := h.entry _ (hlt i hi) _ (hlt j hj) fun heq => hne (hp i hi j hj heq)
  agreement i j hij hj :=
    h.agreement_of_ne (hlt i (hij.trans hj)) (hlt j hj) fun heq => hij.ne (hp i (hij.trans hj) j hj heq)

theorem congr {d' : Nat → Nat → Float} (heq : ∀ i < n, ∀ j < n, d i j = d' i j) :
    AreDistances n d ↔ AreDistances n d' := by
  have hhalf {d d' : Nat → Nat → Float} (heq : ∀ i < n, ∀ j < n, d i j = d' i j)
      (h : AreDistances n d) : AreDistances n d' := by
    refine ⟨fun i hi => ?_, fun i hi j hj hne => ?_, fun i j hij hj => ?_⟩
    · rw [← heq i hi i hi]
      exact h.diagonal i hi
    · rw [← heq i hi j hj]
      exact h.entry i hi j hj hne
    · rw [← heq i (hij.trans hj) j hj, ← heq j hj i (hij.trans hj)]
      exact h.agreement i j hij hj
  exact ⟨hhalf heq, hhalf fun i hi j hj => (heq i hi j hj).symm⟩

end AreDistances

/-! ### Transposing and choosing blocks -/

/-- **A matrix made of rows** is valid if the values of the rows are distances. -/
theorem validate_of_ofRows {ids : List BlockId} {rows : List (List Float)} (h : ofRows ids rows = .ok m) :
    m.validate = .ok () ↔ AreDistances ids.length fun i j => (rows.getD i []).getD j zero := by
  have hsize : m.size = ids.length := by
    obtain ⟨-, -, rfl⟩ := ofRows_eq_ok_iff.mp h
    rfl
  rw [validate_eq_ok_iff_areDistances (wellShaped_of_ofRows h), hsize]
  exact AreDistances.congr fun i _ j hj => cell_of_ofRows h hj i

theorem validate_tabulate_eq_ok_iff (ids : List BlockId) (d : Nat → Nat → Float) :
    (tabulate ids d).validate = .ok () ↔ AreDistances ids.length d := by
  rw [validate_eq_ok_iff_areDistances (wellShaped_tabulate ids d)]
  exact AreDistances.congr fun i hi j hj => cell_tabulate d hi hj

theorem validate_transpose (hshape : m.WellShaped) :
    m.transpose.validate = .ok () ↔ m.validate = .ok () := by
  rw [transpose, validate_tabulate_eq_ok_iff, validate_eq_ok_iff_areDistances hshape]
  exact ⟨AreDistances.swap, AreDistances.swap⟩

theorem validate_select_iff (places : List Nat) :
    (m.select places).validate = .ok () ↔
      AreDistances places.length fun i j => m.cell (places.getD i 0) (places.getD j 0) := by
  rw [select, validate_tabulate_eq_ok_iff, List.length_map]

/-- **Leaving blocks out** and putting the others in any order keeps a matrix valid. -/
theorem validate_select (hshape : m.WellShaped) {places : List Nat} (hplaces : places.Nodup)
    (hlt : ∀ i ∈ places, i < m.size) (h : m.validate = .ok ()) :
    (m.select places).validate = .ok () := by
  rw [validate_select_iff]
  rw [validate_eq_ok_iff_areDistances hshape] at h
  have hget {i : Nat} (hi : i < places.length) : places.getD i 0 = places[i] := by simp [hi]
  refine h.comp (fun i hi => ?_) fun i hi j hj heq => ?_
  · rw [hget hi]
    exact hlt _ (List.getElem_mem hi)
  · rw [hget hi, hget hj] at heq
    exact (hplaces.getElem_inj_iff).mp heq

/-- **The order of the blocks** does not matter. -/
theorem validate_select_perm (hshape : m.WellShaped) {places : List Nat}
    (hplaces : places.Perm (List.range m.size)) :
    (m.select places).validate = .ok () ↔ m.validate = .ok () := by
  have hmem {i : Nat} : i ∈ places ↔ i < m.size := hplaces.mem_iff.trans List.mem_range
  have hlength : places.length = m.size := by rw [hplaces.length_eq, List.length_range]
  refine ⟨fun h => ?_, validate_select hshape (hplaces.nodup_iff.mpr List.nodup_range) fun i => hmem.mp⟩
  rw [validate_select_iff, hlength] at h
  rw [validate_eq_ok_iff_areDistances hshape]
  -- each block is found back at the place where it was put
  have hback {i : Nat} (hi : i < m.size) : places.getD (places.idxOf i) 0 = i := by
    rw [List.getD_eq_getElem _ _ (List.idxOf_lt_length_of_mem (hmem.mpr hi)), List.getElem_idxOf]
  refine (AreDistances.congr fun i hi j hj => ?_).mp (h.comp (p := places.idxOf) (fun i hi => ?_)
    fun i hi j hj heq => ?_)
  · rw [hback hi, hback hj]
  · rw [← hlength]
    exact List.idxOf_lt_length_of_mem (hmem.mpr hi)
  · rw [← hback hi, heq, hback hj]

end ScoreMatrix

/-- **Nothing is merged** where a matrix is not valid: the fault is passed on. -/
theorem Dendrogram.ofMatrix_eq_error_iff {α : Type} [Scalar α] {m : ScoreMatrix α} (linkage : Linkage)
    {fault : Fault α} : ofMatrix linkage m = .error fault ↔ m.validate = .error fault := by
  cases hvalidate : m.validate with
  | ok _ => simp [ofMatrix_of_valid linkage hvalidate]
  | error other =>
      have htree : ofMatrix linkage m = .error other := by
        rw [ofMatrix, hvalidate]
        rfl
      rw [htree, Except.error.injEq, Except.error.injEq]

namespace ScoreMatrix

/-- **Distance matrices are told from others by their cells alone.** A square matrix of any doubles is
accepted if its cells are distances; otherwise the first question that is answered with no says why.
What is accepted does not depend on the order of the blocks, nor on which of two places is the row, and
blocks may be left out. Clustering merges nothing in any other matrix, and says what validity says. -/
theorem validate_of_wellShaped (m : ScoreMatrix Float) (hshape : m.WellShaped) :
    (m.validate = .ok () ↔ AreDistances m.size m.cell) ∧
    (∀ fault, m.validate = .error fault ↔ ∃ c : Check, c.IsAsked m.size ∧ ¬c.Passes m ∧
      (∀ d : Check, d.IsAsked m.size → d.Before c → d.Passes m) ∧ fault = c.fault m) ∧
    (m.transpose.validate = .ok () ↔ m.validate = .ok ()) ∧
    (∀ places : List Nat, places.Perm (List.range m.size) →
      ((m.select places).validate = .ok () ↔ m.validate = .ok ())) ∧
    (∀ places : List Nat, places.Nodup → (∀ i ∈ places, i < m.size) →
      m.validate = .ok () → (m.select places).validate = .ok ()) ∧
    ∀ linkage fault, Dendrogram.ofMatrix linkage m = .error fault ↔ m.validate = .error fault :=
  ⟨validate_eq_ok_iff_areDistances hshape, fun _ => validate_eq_error_iff hshape,
    validate_transpose hshape, fun _ => validate_select_perm hshape, fun _ => validate_select hshape,
    fun linkage _ => Dendrogram.ofMatrix_eq_error_iff linkage⟩

/-- Three blocks with a cell that is not a number, and further down one that is negative. -/
def spoiltBlocks : ScoreMatrix Float :=
  ⟨threeIds, #[0, 1, 2, 1, 0, 0 / 0, 2, -1, 0]⟩

/-- The cell that is not a number comes first, in the order of the questions. -/
theorem spoiltBlocks_refused :
    ofRows threeIds [[0, 1, 2], [1, 0, 0 / 0], [2, -1, 0]] = .ok spoiltBlocks ∧
    (∀ linkage, Dendrogram.ofMatrix linkage spoiltBlocks =
      .error (.invalidMatrix 1 2 (.nonFinite (0 / 0)))) ∧
    spoiltBlocks.transpose.validate ≠ .ok () ∧ (fourBlocks.select [3, 1]).validate = .ok () := by
  have hrows : ofRows threeIds [[0, 1, 2], [1, 0, 0 / 0], [2, -1, 0]] = .ok spoiltBlocks := rfl
  obtain ⟨-, hrefused, htranspose, -, -, hlinkage⟩ :=
    validate_of_wellShaped spoiltBlocks (wellShaped_of_ofRows hrows)
  obtain ⟨-, -, -, -, hselect, -⟩ := validate_of_wellShaped fourBlocks (by unfold WellShaped; decide)
  have hfirst : ∀ d ∈ Check.all 3, d.Before (.entry 1 2) → d.Passes spoiltBlocks := by
    unfold Check.Before
    decide +kernel
  have hfault : spoiltBlocks.validate = .error (.invalidMatrix 1 2 (.nonFinite (0 / 0))) :=
    (hrefused _).mpr ⟨.entry 1 2, by unfold Check.IsAsked; decide, by decide +kernel,
      fun d hd => hfirst d (Check.mem_all.mpr hd), by rfl⟩
  refine ⟨hrows, fun linkage => (hlinkage linkage _).mpr hfault, fun hvalid => ?_,
    hselect _ (by decide) (by decide) fourBlocks_valid⟩
  rw [htranspose, hfault] at hvalid
  cases hvalid

end ScoreMatrix

end BlockAffinity
