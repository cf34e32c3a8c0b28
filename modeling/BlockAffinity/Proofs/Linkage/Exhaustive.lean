import BlockAffinity.Proofs.Linkage.Neighbours
import Mathlib.Data.Finset.Max

/-!
# BlockAffinity.Proofs.Linkage.Exhaustive

**Agglomeration without slots and without remembered neighbours.** `Exhaustive` is the plain
procedure: a list of clusters with their blocks, and at each step a look at every pair of them. It
merges the pair that is least by distance, then by the first block of the one cluster, then by the
first block of the other, and it computes new distances by the same formulas.

As long as distances can be compared, it makes the same merges as the agglomeration in slots
(`Mirrors.merges_eq`): the slot of a cluster is its first block, so the order of slots is the order
of first blocks.
-/

namespace BlockAffinity

open Scalar OrderedScalar

/-! ### The plain procedure -/

/-- A cluster with its blocks. -/
structure Group where
  id : Nat
  blocks : Finset Nat
  deriving DecidableEq

namespace Group

/-- The first block of a cluster. -/
def first (g : Group) : Nat := g.blocks.min.untopD 0

/-- Number of blocks. -/
def size (g : Group) : Nat := g.blocks.card

theorem first_eq {g : Group} {i : Nat} (hmem : i ∈ g.blocks) (hle : ∀ x ∈ g.blocks, i ≤ x) :
    g.first = i := by
  have hmin : g.blocks.min = WithTop.some i :=
    le_antisymm (Finset.min_le hmem) (Finset.le_min fun x hx => WithTop.coe_le_coe.mpr (hle x hx))
  rw [first, hmin, WithTop.untopD_coe]

end Group

/-- Clusters with the distances between them and the sums of distances between their blocks. -/
structure Exhaustive (α : Type) where
  groups : List Group
  distance : Group → Group → α
  sum : Group → Group → α

namespace Exhaustive

variable {α : Type} [Scalar α]

/-- Every block a cluster of its own. -/
def start (m : ScoreMatrix α) : Exhaustive α where
  groups := (List.range m.size).map fun i => ⟨i, {i}⟩
  distance x y := m.cell (min x.first y.first) (max x.first y.first)
  sum x y := m.cell (min x.first y.first) (max x.first y.first)

/-- All pairs of clusters, the one with the smaller first block first. -/
def pairs (e : Exhaustive α) : List (Group × Group) :=
  e.groups.flatMap fun x => (e.groups.filter fun y => x.first < y.first).map fun y => (x, y)

/-- The lexicographic order by distance, first block of the one and first block of the other. -/
def precedes (e : Exhaustive α) (p q : Group × Group) : Bool :=
  lt (e.distance p.1 p.2) (e.distance q.1 q.2) ||
    eq (e.distance p.1 p.2) (e.distance q.1 q.2) &&
      (p.1.first < q.1.first || p.1.first == q.1.first && p.2.first < q.2.first)

/-- The pair that precedes all others. -/
def closest? (e : Exhaustive α) : Option (Group × Group) :=
  e.pairs.find? fun p => e.pairs.all fun q => q == p || e.precedes p q

/-- The merge of two clusters as it is recorded. -/
def record (e : Exhaustive α) (x y : Group) : Merge α where
  left := min x.id y.id
  right := max x.id y.id
  distance := e.distance x y
  size := x.size + y.size

/-- The sum of the distances between the blocks of `z` and those of `x` and `y`. -/
def joinedSum (e : Exhaustive α) (x y z : Group) : α := e.sum z x + e.sum z y

/-- The distance from `z` to the union of `x` and `y`. -/
def joinedDistance (linkage : Linkage) (e : Exhaustive α) (x y z : Group) : α :=
  match linkage with
  | .average => e.joinedSum x y z / ofNat (z.size * (x.size + y.size))
  | .ward =>
      Clusters.wardDistance (e.distance z x) (e.distance z y) (e.distance x y) x.size y.size z.size

/-- Values of pairs, where the pairs of `new` have the values of a function. -/
def extend (new : Group) (f : Group → α) (old : Group → Group → α) (z w : Group) : α :=
  if z = new then f w else if w = new then f z else old z w

/-- Puts the union of `x` and `y`, numbered `newId`, in their place. -/
def join (linkage : Linkage) (e : Exhaustive α) (x y : Group) (newId : Nat) : Exhaustive α :=
  let new : Group := ⟨newId, x.blocks ∪ y.blocks⟩
  { groups := new :: e.groups.filter fun z => z ≠ x ∧ z ≠ y
    distance := extend new (e.joinedDistance linkage x y) e.distance
    sum := extend new (e.joinedSum x y) e.sum }

theorem distance_join (linkage : Linkage) (e : Exhaustive α) (x y : Group) (newId : Nat) :
    (e.join linkage x y newId).distance =
      extend ⟨newId, x.blocks ∪ y.blocks⟩ (e.joinedDistance linkage x y) e.distance := rfl

theorem sum_join (linkage : Linkage) (e : Exhaustive α) (x y : Group) (newId : Nat) :
    (e.join linkage x y newId).sum =
      extend ⟨newId, x.blocks ∪ y.blocks⟩ (e.joinedSum x y) e.sum := rfl

/-- At most `steps` merges, the first of which creates the cluster numbered `newId`. -/
def merges (linkage : Linkage) : (steps newId : Nat) → Exhaustive α → List (Merge α)
  | 0, _, _ => []
  | steps + 1, newId, e =>
      match e.closest? with
      | none => []
      | some (x, y) => e.record x y :: merges linkage steps (newId + 1) (e.join linkage x y newId)

/-- The dendrogram of a matrix. -/
def dendrogram (linkage : Linkage) (m : ScoreMatrix α) : Dendrogram α :=
  ⟨m.size, merges linkage (m.size - 1) m.size (start m)⟩

omit [Scalar α] in
theorem mem_pairs {e : Exhaustive α} {x y : Group} :
    (x, y) ∈ e.pairs ↔ x ∈ e.groups ∧ y ∈ e.groups ∧ x.first < y.first := by
  simp only [pairs, List.mem_flatMap, List.mem_map, List.mem_filter, Prod.mk.injEq,
    decide_eq_true_eq]
  constructor
  · intro hexists
    obtain ⟨z, hz, w, ⟨hw, hzw⟩, rfl, rfl⟩ := hexists
    exact ⟨hz, hw, hzw⟩
  · intro hboth
    obtain ⟨hx, hy, hxy⟩ := hboth
    exact ⟨x, hx, y, ⟨hy, hxy⟩, rfl, rfl⟩

theorem precedes_iff {e : Exhaustive α} {p q : Group × Group} :
    e.precedes p q = true ↔ lt (e.distance p.1 p.2) (e.distance q.1 q.2) = true ∨
      eq (e.distance p.1 p.2) (e.distance q.1 q.2) = true ∧
        (p.1.first < q.1.first ∨ p.1.first = q.1.first ∧ p.2.first < q.2.first) := by
  simp [precedes]

/-- Of two different pairs at most one precedes the other. -/
theorem precedes_asymm [OrderedScalar α] {e : Exhaustive α} {p q : Group × Group}
    (hp : isNaN (e.distance p.1 p.2) = false) (hq : isNaN (e.distance q.1 q.2) = false)
    (hpq : e.precedes p q = true) : e.precedes q p = false := by
  refine Bool.eq_false_iff.mpr fun hqp => ?_
  rcases precedes_iff.mp hpq with hlt | ⟨heq, hfirst⟩
  · rcases precedes_iff.mp hqp with hlt' | ⟨heq', -⟩
    · rw [lt_asymm hlt] at hlt'
      exact absurd hlt' (by simp)
    · rw [((eq_iff hq hp).mp heq').2] at hlt
      exact absurd hlt (by simp)
  · rcases precedes_iff.mp hqp with hlt' | ⟨-, hfirst'⟩
    · rw [((eq_iff hp hq).mp heq).2] at hlt'
      exact absurd hlt' (by simp)
    · omega

end Exhaustive

/-! ### The procedure in slots follows the plain one -/

variable {α : Type}

namespace Clusters

/-- The cluster in a slot with its blocks. -/
def groupAt (s : Clusters α) (members : Nat → Finset Nat) (i : Nat) : Group :=
  ⟨s.idAt i, members i⟩

variable {s : Clusters α} {n : Nat} {members : Nat → Finset Nat}

theorem Holds.first_groupAt (h : s.Holds n members) {i : Nat} (hi : s.isActive i = true) :
    (s.groupAt members i).first = i :=
  Group.first_eq (h.first_mem hi) (h.first_le hi)

theorem Holds.groupAt_inj (h : s.Holds n members) {i j : Nat} (hi : s.isActive i = true)
    (hj : s.isActive j = true) (heq : s.groupAt members i = s.groupAt members j) : i = j := by
  rw [← h.first_groupAt hi, heq, h.first_groupAt hj]

theorem Holds.size_groupAt (h : s.Holds n members) {i : Nat} (hi : s.isActive i = true) :
    (s.groupAt members i).size = s.sizeAt i :=
  (h.sizeAt_eq hi).symm

end Clusters

/-- The plain procedure has the clusters that are in the slots, with the same distances. Sums of
distances are kept up for average linkage only. -/
structure Mirrors [Scalar α] (linkage : Linkage) (e : Exhaustive α) (s : Clusters α)
    (members : Nat → Finset Nat) : Prop where
  groups : ∀ {g}, g ∈ e.groups ↔ ∃ i, s.isActive i = true ∧ g = s.groupAt members i
  distance : ∀ {i j}, s.isActive i = true → s.isActive j = true → i ≠ j →
    e.distance (s.groupAt members i) (s.groupAt members j) = s.distances.get i j
  sum : linkage = .average → ∀ {i j}, s.isActive i = true → s.isActive j = true → i ≠ j →
    e.sum (s.groupAt members i) (s.groupAt members j) = s.sums.get i j

namespace Mirrors

variable [Scalar α] {linkage : Linkage} {e : Exhaustive α} {s : Clusters α} {n a b newId : Nat}
  {members : Nat → Finset Nat}

theorem start (linkage : Linkage) (m : ScoreMatrix α) :
    Mirrors linkage (.start m) (.singletons m) fun i => {i} := by
  have hgroup : ∀ {i}, i < m.size →
      (Clusters.singletons m).groupAt (fun i => {i}) i = ⟨i, {i}⟩ := fun hi => by
    rw [Clusters.groupAt, Clusters.idAt_singletons m hi]
  have hfirst : ∀ i, Group.first ⟨i, {i}⟩ = i := fun i => Group.first_eq (by simp) (by simp)
  have hget : ∀ {i j}, (Clusters.singletons m).isActive i = true →
      (Clusters.singletons m).isActive j = true → i ≠ j →
      m.cell (min (Group.first ((Clusters.singletons m).groupAt (fun i => {i}) i))
          (Group.first ((Clusters.singletons m).groupAt (fun i => {i}) j)))
        (max (Group.first ((Clusters.singletons m).groupAt (fun i => {i}) i))
          (Group.first ((Clusters.singletons m).groupAt (fun i => {i}) j))) = (SquareTable.ofPairs m.size m.cell).get i j := by
    intro i j hi hj hij
    have hi := (Clusters.isActive_singletons m i).mp hi
    have hj := (Clusters.isActive_singletons m j).mp hj
    rw [hgroup hi, hgroup hj, hfirst, hfirst, SquareTable.get_ofPairs hi hj hij]
  refine ⟨fun {g} => ?_, hget, fun _ => hget⟩
  simp only [Exhaustive.start, List.mem_map, List.mem_range, Clusters.isActive_singletons]
  constructor
  · intro hexists
    obtain ⟨i, hi, rfl⟩ := hexists
    exact ⟨i, hi, (hgroup hi).symm⟩
  · intro hexists
    obtain ⟨i, hi, rfl⟩ := hexists
    exact ⟨i, hi, (hgroup hi).symm⟩

theorem mem_pairs (h : Mirrors linkage e s members) (hholds : s.Holds n members)
    {p : Group × Group} :
    p ∈ e.pairs ↔ ∃ i j, s.isActive i = true ∧ s.isActive j = true ∧ i < j ∧
      p = (s.groupAt members i, s.groupAt members j) := by
  obtain ⟨x, y⟩ := p
  rw [Exhaustive.mem_pairs, h.groups, h.groups]
  constructor
  · intro hexists
    obtain ⟨⟨i, hi, rfl⟩, ⟨j, hj, rfl⟩, hij⟩ := hexists
    rw [hholds.first_groupAt hi, hholds.first_groupAt hj] at hij
    exact ⟨i, j, hi, hj, hij, rfl⟩
  · intro hexists
    obtain ⟨i, j, hi, hj, hij, heq⟩ := hexists
    obtain ⟨rfl, rfl⟩ := Prod.mk.inj heq
    refine ⟨⟨i, hi, rfl⟩, ⟨j, hj, rfl⟩, ?_⟩
    rwa [hholds.first_groupAt hi, hholds.first_groupAt hj]

theorem isNaN_distance (h : Mirrors linkage e s members) (hholds : s.Holds n members)
    (hs : s.Comparable) {p : Group × Group} (hp : p ∈ e.pairs) :
    isNaN (e.distance p.1 p.2) = false := by
  obtain ⟨i, j, hi, hj, hij, rfl⟩ := (h.mem_pairs hholds).mp hp
  rw [h.distance hi hj hij.ne]
  exact hs hi hj hij.ne

/-- **A look at all pairs finds the pair in the closest slots.** -/
theorem closest?_eq [OrderedScalar α] (h : Mirrors linkage e s members)
    (hholds : s.Holds n members) (hs : s.Comparable) {i j : Nat} (hclosest : s.IsClosest i j) :
    e.closest? = some (s.groupAt members i, s.groupAt members j) := by
  obtain ⟨hi, hj, hij, hbefore, hleast⟩ := hclosest
  have hmem : (s.groupAt members i, s.groupAt members j) ∈ e.pairs :=
    (h.mem_pairs hholds).mpr ⟨i, j, hi, hj, hij, rfl⟩
  -- pairs in lower slots are farther apart, all others come later in the order of slots
  have hfirst : ∀ q ∈ e.pairs, q = (s.groupAt members i, s.groupAt members j) ∨
      e.precedes (s.groupAt members i, s.groupAt members j) q = true := by
    intro q hq
    obtain ⟨k, l, hk, hl, hkl, rfl⟩ := (h.mem_pairs hholds).mp hq
    rw [Exhaustive.precedes_iff]
    dsimp only
    rw [h.distance hi hj hij.ne, h.distance hk hl hkl.ne, hholds.first_groupAt hi,
      hholds.first_groupAt hj, hholds.first_groupAt hk, hholds.first_groupAt hl]
    by_cases hlower : k < i ∨ k = i ∧ l < j
    · exact Or.inr (Or.inl (hbefore k l hk hl hkl hlower))
    · by_cases hsame : k = i ∧ l = j
      · obtain ⟨rfl, rfl⟩ := hsame
        exact Or.inl rfl
      · cases hlt : lt (s.distances.get i j) (s.distances.get k l) with
        | true => exact Or.inr (Or.inl rfl)
        | false =>
            refine Or.inr (Or.inr ⟨?_, by omega⟩)
            exact (eq_iff (hs hi hj hij.ne) (hs hk hl hkl.ne)).mpr ⟨hlt, hleast k l hk hl hkl⟩
  cases hfind : e.closest? with
  | none =>
      have hnot := List.find?_eq_none.mp hfind _ hmem
      refine absurd (List.all_eq_true.mpr fun q hq => ?_) hnot
      simpa using hfirst q hq
  | some p =>
      have hall := List.find?_some hfind
      have hp := List.mem_of_find?_eq_some hfind
      rcases hfirst p hp with rfl | hprecedes
      · rfl
      · -- of two different pairs only one can come before the other
        have hback := List.all_eq_true.mp hall _ hmem
        rw [Exhaustive.precedes_asymm (h.isNaN_distance hholds hs hmem)
          (h.isNaN_distance hholds hs hp) hprecedes, Bool.or_false, beq_iff_eq] at hback
        rw [hback]

theorem record_eq (h : Mirrors linkage e s members) (hholds : s.Holds n members)
    (ha : s.isActive a = true) (hb : s.isActive b = true) (hab : a ≠ b) :
    e.record (s.groupAt members a) (s.groupAt members b) = s.mergeRecord a b := by
  simp only [Exhaustive.record, Clusters.mergeRecord, h.distance ha hb hab,
    hholds.size_groupAt ha, hholds.size_groupAt hb]
  rfl

theorem joinedDistance_eq (h : Mirrors linkage e s members) (hholds : s.Holds n members)
    (ha : s.isActive a = true) (hb : s.isActive b = true) (hab : a ≠ b) {k : Nat}
    (hk : s.isActive k = true) (hka : k ≠ a) (hkb : k ≠ b) :
    e.joinedDistance linkage (s.groupAt members a) (s.groupAt members b) (s.groupAt members k) =
      s.joinedDistance linkage a b k := by
  cases linkage with
  | average =>
      simp only [Exhaustive.joinedDistance, Exhaustive.joinedSum, Clusters.joinedDistance,
        Clusters.joinedSum, h.sum rfl hk ha hka, h.sum rfl hk hb hkb, hholds.size_groupAt ha,
        hholds.size_groupAt hb, hholds.size_groupAt hk]
  | ward =>
      simp only [Exhaustive.joinedDistance, Clusters.joinedDistance, h.distance hk ha hka,
        h.distance hk hb hkb, h.distance ha hb hab, hholds.size_groupAt ha,
        hholds.size_groupAt hb, hholds.size_groupAt hk]

/-- The cluster in a slot after a join: the new one, or the old one of another slot. -/
theorem groupAt_join (ha : s.isActive a = true) (hb : s.isActive b = true) {i : Nat}
    (hib : i ≠ b) :
    (s.join linkage a b newId).groupAt (Clusters.joinBlocks members a b) i =
      if i = a then ⟨newId, members a ∪ members b⟩ else s.groupAt members i := by
  rw [Clusters.groupAt, Clusters.idAt_join ha hb hib]
  by_cases hia : i = a
  · rw [if_pos hia, if_pos hia, hia, Clusters.joinBlocks_left]
  · rw [if_neg hia, if_neg hia, Clusters.joinBlocks_other members hia hib, Clusters.groupAt]

/-- What `extend` gives for two slots after a join. -/
theorem extend_groupAt (hholds : s.Holds n members) (ha : s.isActive a = true)
    (hb : s.isActive b = true) (f : Group → α) (old : Group → Group → α) {i j : Nat}
    (hi : s.isActive i = true) (hj : s.isActive j = true) (hib : i ≠ b) (hjb : j ≠ b)
    (hij : i ≠ j) :
    Exhaustive.extend ⟨newId, members a ∪ members b⟩ f old
        ((s.join linkage a b newId).groupAt (Clusters.joinBlocks members a b) i)
        ((s.join linkage a b newId).groupAt (Clusters.joinBlocks members a b) j) =
      if i = a then f (s.groupAt members j)
      else if j = a then f (s.groupAt members i)
      else old (s.groupAt members i) (s.groupAt members j) := by
  -- the new cluster has the block `a`, no cluster in another slot has it
  have hnew : ∀ {k}, s.isActive k = true → k ≠ a →
      s.groupAt members k ≠ ⟨newId, members a ∪ members b⟩ := by
    intro k hk hka heq
    have hmem : a ∈ members k := by
      rw [show members k = members a ∪ members b from congrArg Group.blocks heq]
      exact Finset.mem_union_left _ (hholds.first_mem ha)
    exact Finset.disjoint_left.mp (hholds.disjoint hk ha hka) hmem (hholds.first_mem ha)
  rw [groupAt_join ha hb hib, groupAt_join ha hb hjb, Exhaustive.extend]
  by_cases hia : i = a
  · have hja : j ≠ a := fun hja => hij (hia.trans hja.symm)
    rw [if_pos hia, if_pos rfl, if_neg hja, if_pos hia]
  · rw [if_neg hia, if_neg (hnew hi hia), if_neg hia]
    by_cases hja : j = a
    · rw [if_pos hja, if_pos rfl, if_pos hja]
    · rw [if_neg hja, if_neg (hnew hj hja), if_neg hja]

/-- The clusters after a join are those in the slots after it. -/
theorem mem_groups_join (h : Mirrors linkage e s members) (newId : Nat) (hholds : s.Holds n members)
    (ha : s.isActive a = true) (hb : s.isActive b = true) (hab : a ≠ b) {g : Group} :
    g ∈ (e.join linkage (s.groupAt members a) (s.groupAt members b) newId).groups ↔
      ∃ i, (s.join linkage a b newId).isActive i = true ∧
        g = (s.join linkage a b newId).groupAt (Clusters.joinBlocks members a b) i := by
  simp only [Exhaustive.join, List.mem_cons, List.mem_filter, decide_eq_true_eq, h.groups]
  constructor
  · intro hcases
    rcases hcases with rfl | ⟨⟨i, hi, rfl⟩, hga, hgb⟩
    · refine ⟨a, (Clusters.isActive_join ha hb).mpr ⟨ha, hab⟩, ?_⟩
      rw [groupAt_join ha hb hab, if_pos rfl]
      rfl
    · have hia : i ≠ a := fun heq => hga (by rw [heq])
      have hib : i ≠ b := fun heq => hgb (by rw [heq])
      refine ⟨i, (Clusters.isActive_join ha hb).mpr ⟨hi, hib⟩, ?_⟩
      rw [groupAt_join ha hb hib, if_neg hia]
  · intro hexists
    obtain ⟨i, hactive, rfl⟩ := hexists
    obtain ⟨hi, hib⟩ := (Clusters.isActive_join ha hb).mp hactive
    rw [groupAt_join ha hb hib]
    by_cases hia : i = a
    · rw [if_pos hia]
      exact Or.inl rfl
    · rw [if_neg hia]
      exact Or.inr ⟨⟨i, hi, rfl⟩, fun heq => hia (hholds.groupAt_inj hi ha heq),
        fun heq => hib (hholds.groupAt_inj hi hb heq)⟩

/-- **Both procedures stay together** when they merge the same clusters. -/
theorem join (h : Mirrors linkage e s members) (newId : Nat) (hholds : s.Holds n members)
    (hshaped : s.Shaped n) (ha : s.isActive a = true) (hb : s.isActive b = true) (hab : a < b) :
    Mirrors linkage (e.join linkage (s.groupAt members a) (s.groupAt members b) newId)
      (s.join linkage a b newId) (Clusters.joinBlocks members a b) where
  groups := h.mem_groups_join newId hholds ha hb hab.ne
  distance := by
    intro i j hactive hactive' hij
    obtain ⟨hi, hib⟩ := (Clusters.isActive_join ha hb).mp hactive
    obtain ⟨hj, hjb⟩ := (Clusters.isActive_join ha hb).mp hactive'
    rw [Clusters.distance_join hshaped ha hb hi hj hib hjb hij, Exhaustive.distance_join]
    refine (extend_groupAt hholds ha hb _ _ hi hj hib hjb hij).trans ?_
    exact Clusters.newRow_congr hi hj hib hjb hij
      (fun k hk hka hkb => h.joinedDistance_eq hholds ha hb hab.ne hk hka hkb)
      (h.distance hi hj hij)
  sum := by
    intro heq i j hactive hactive' hij
    subst heq
    obtain ⟨hi, hib⟩ := (Clusters.isActive_join ha hb).mp hactive
    obtain ⟨hj, hjb⟩ := (Clusters.isActive_join ha hb).mp hactive'
    rw [Clusters.sum_join_average hshaped ha hb hi hj hib hjb hij, Exhaustive.sum_join]
    have hjoined : ∀ k, s.isActive k = true → k ≠ a → k ≠ b →
        e.joinedSum (s.groupAt members a) (s.groupAt members b) (s.groupAt members k) =
          s.joinedSum a b k := by
      intro k hk hka hkb
      rw [Exhaustive.joinedSum, Clusters.joinedSum, h.sum rfl hk ha hka, h.sum rfl hk hb hkb]
    refine (extend_groupAt hholds ha hb _ _ hi hj hib hjb hij).trans ?_
    exact Clusters.newRow_congr hi hj hib hjb hij hjoined (h.sum rfl hi hj hij)

/-- **Both procedures make the same merges** from corresponding states on. -/
theorem merges_eq [OrderedScalar α] {m : ScoreMatrix α} {merges : List (Merge α)}
    {s : Agglomeration α} (h : Mirrors linkage e s.clusters members)
    (hrun : Agglomeration.Run linkage m merges members s)
    (hcomparable : ∀ merges members s, Agglomeration.Run linkage m merges members s →
      s.clusters.Comparable)
    {steps : Nat} (hsteps : merges.length + steps = m.size - 1) :
    Agglomeration.mergesFrom linkage steps (m.size + merges.length) s =
      e.merges linkage steps (m.size + merges.length) := by
  induction steps generalizing merges members s e with
  | zero => rfl
  | succ steps ih =>
      have htwo : 1 < s.clusters.active.length := by
        have := hrun.active_length
        omega
      have hsound := hrun.sound
      obtain ⟨a, near, hpair⟩ := hsound.closestPair?_isSome htwo
      obtain ⟨ha, hb, hab⟩ := hsound.closestPair?_active hpair
      have hs : s.clusters.Comparable := hcomparable _ _ _ hrun
      have hfresh : s.Fresh := hrun.fresh hcomparable
      have hclosest := h.closest?_eq hsound.holds hs (hfresh.isClosest hsound.anchored hs hpair)
      have hnext := ih (h.join (m.size + merges.length) hsound.holds hsound.shaped ha hb hab)
        (hrun.merge hpair) (by rw [List.length_append, List.length_singleton]; omega)
      rw [List.length_append, List.length_singleton, ← Nat.add_assoc] at hnext
      simp only [Agglomeration.mergesFrom, Exhaustive.merges, hpair, hclosest]
      rw [h.record_eq hsound.holds ha hb hab.ne, hnext]

end Mirrors

/-- Where distances can be compared, a dendrogram lists the merges of the plain procedure. -/
theorem Dendrogram.ofMatrix_eq_dendrogram [Scalar α] [OrderedScalar α] {linkage : Linkage}
    {m : ScoreMatrix α} (hvalid : m.validate = .ok ())
    (hcomparable : ∀ merges members s, Agglomeration.Run linkage m merges members s →
      s.clusters.Comparable) :
    ofMatrix linkage m = .ok (Exhaustive.dendrogram linkage m) := by
  rw [ofMatrix_of_valid linkage hvalid, Exhaustive.dendrogram]
  have hsteps : ([] : List (Merge α)).length + (m.size - 1) = m.size - 1 := by simp
  have hmerges := (Mirrors.start linkage m).merges_eq .start hcomparable hsteps
  rw [List.length_nil, Nat.add_zero] at hmerges
  rw [hmerges]

end BlockAffinity
