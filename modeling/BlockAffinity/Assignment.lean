import BlockAffinity.Roster

/-!
# BlockAffinity.Assignment

**Flat clusters**: a label for each block. Grouping lists the labels in ascending order, each with
its members in the order in which they are listed.
-/

namespace BlockAffinity

/-- Adds a label to an ascending list of different labels. -/
def insertLabel (label : Nat) : List Nat → List Nat
  | [] => [label]
  | first :: rest =>
      if label < first then label :: first :: rest
      else if label = first then first :: rest
      else first :: insertLabel label rest

/-- The different labels of a list in ascending order. -/
def labelSet (labels : List Nat) : List Nat := labels.foldr insertLabel []

@[simp] theorem mem_insertLabel {label other : Nat} {labels : List Nat} :
    other ∈ insertLabel label labels ↔ other = label ∨ other ∈ labels := by
  induction labels with
  | nil => simp [insertLabel]
  | cons first rest ih =>
      by_cases hlt : label < first
      · simp [insertLabel, hlt]
      · by_cases heq : label = first
        · subst heq
          simp [insertLabel]
        · simp only [insertLabel, if_neg hlt, if_neg heq, List.mem_cons, ih]
          constructor
          · rintro (h | h | h) <;> simp [h]
          · rintro (h | h | h) <;> simp [h]

@[simp] theorem mem_labelSet {label : Nat} {labels : List Nat} :
    label ∈ labelSet labels ↔ label ∈ labels := by
  induction labels with
  | nil => simp [labelSet]
  | cons first rest ih =>
      have hset : labelSet (first :: rest) = insertLabel first (labelSet rest) := rfl
      rw [hset, mem_insertLabel, ih, List.mem_cons]

theorem pairwise_insertLabel {label : Nat} {labels : List Nat} (h : labels.Pairwise (· < ·)) :
    (insertLabel label labels).Pairwise (· < ·) := by
  induction labels with
  | nil => simp [insertLabel]
  | cons first rest ih =>
      rw [List.pairwise_cons] at h
      by_cases hlt : label < first
      · simp only [insertLabel, if_pos hlt]
        refine List.pairwise_cons.2 ⟨fun b hb => ?_, List.pairwise_cons.2 h⟩
        rcases List.mem_cons.1 hb with rfl | hb
        · exact hlt
        · exact Nat.lt_trans hlt (h.1 b hb)
      · by_cases heq : label = first
        · simp only [insertLabel, if_neg hlt, if_pos heq]
          exact List.pairwise_cons.2 h
        · simp only [insertLabel, if_neg hlt, if_neg heq]
          refine List.pairwise_cons.2 ⟨fun b hb => ?_, ih h.2⟩
          rcases mem_insertLabel.1 hb with rfl | hb
          · omega
          · exact h.1 b hb

/-- The labels come out in ascending order, each once. -/
theorem pairwise_labelSet (labels : List Nat) : (labelSet labels).Pairwise (· < ·) := by
  induction labels with
  | nil => simp [labelSet]
  | cons first rest ih => exact pairwise_insertLabel ih

/-- The members under each label. -/
def groupByLabel {β : Type} (entries : List (Nat × β)) : List (Nat × List β) :=
  (labelSet (entries.map Prod.fst)).map fun label =>
    (label, (entries.filter fun entry => entry.1 == label).map Prod.snd)

/-- A label for each block. -/
abbrev Assignment := Roster Nat

namespace Assignment

/-- Labels for blocks in order; the shorter of the two lists decides how many there are. -/
def ofLabels (ids : List BlockId) (labels : List Nat) : Assignment := .ofList (ids.zip labels)

/-- The clusters in label order, members in block order. -/
def clusters (a : Assignment) : List (Nat × List BlockId) :=
  groupByLabel (a.entries.map fun (id, label) => (label, id))

/-- Number of different labels. -/
def clusterCount (a : Assignment) : Nat := a.clusters.length

end Assignment

/-- Numbers classes from 1 on in the order in which they first appear, after those in `seen`. -/
def numberClasses (seen : List Nat) : List Nat → List Nat
  | [] => []
  | c :: rest =>
      match seen.findIdx? (· == c) with
      | some i => (i + 1) :: numberClasses seen rest
      | none => (seen.length + 1) :: numberClasses (seen ++ [c]) rest

end BlockAffinity
