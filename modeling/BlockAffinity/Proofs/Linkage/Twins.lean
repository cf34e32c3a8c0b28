import Mathlib
import BlockAffinity.Proofs.Linkage.Between
import BlockAffinity.Proofs.Linkage.Cut

/-!
# BlockAffinity.Proofs.Linkage.Twins

**Twins are joined at their distance.** Twins are two blocks that have no closer block than each other
and are as far from every third block (`ScoreMatrix.Twins`). In exact arithmetic, with either linkage, a
cut gives them the same label exactly if its threshold reaches their distance
(`Dendrogram.labels_eq_iff_of_twins`).

* Both linkages mix the distances of the two clusters that are merged (`Mixes`): average linkage the
  distances themselves, Ward linkage their squares (`Linkage.scale`). So a new cluster does not come
  closer to another one than a bound that both parts keep, and it is at the bound only if both parts
  are.
* The clusters of the two blocks stay twins of each other as long as others are merged, and also if
  one of them grows (`Clusters.Twins.join`), since what is merged into it is as close to the other.
* As long as they are apart, the closest pair is not farther apart than they are. So no merge above
  their distance comes before theirs.
-/

namespace BlockAffinity

open Scalar ExactField

/-! ### Mixed distances -/

section field

variable {K : Type} [Field K] [LinearOrder K] [IsStrictOrderedRing K] {p q r x y z w c : K}

/-- `x` is mixed of `y` and `z`, with some of `w` taken away. The weights add up to one. -/
structure Mixes (p q r x y z w : K) : Prop where
  left : 0 < p
  right : 0 < q
  away : 0 ≤ r
  total : 0 < p + q - r
  eq : x * (p + q - r) = p * y + q * z - r * w

omit [IsStrictOrderedRing K] in
/-- How far `x` is above `c`, from how far the others are. -/
theorem Mixes.excess (h : Mixes p q r x y z w) (c : K) :
    (x - c) * (p + q - r) = p * (y - c) + q * (z - c) + r * (c - w) := by
  rw [sub_mul, h.eq]
  ring

theorem Mixes.le (h : Mixes p q r x y z w) (hy : c ≤ y) (hz : c ≤ z) (hw : w ≤ c) : c ≤ x := by
  have hy := mul_nonneg h.left.le (sub_nonneg.mpr hy)
  have hz := mul_nonneg h.right.le (sub_nonneg.mpr hz)
  have hw := mul_nonneg h.away (sub_nonneg.mpr hw)
  have habove : 0 ≤ (x - c) * (p + q - r) := by
    rw [h.excess]
    positivity
  exact sub_nonneg.mp (nonneg_of_mul_nonneg_left habove h.total)

/-- What is mixed of nothing below a bound is at the bound only if all of it is. -/
theorem Mixes.eq_of_eq (h : Mixes p q r x y z w) (hx : x = c) (hy : c ≤ y) (hz : c ≤ z) (hw : w ≤ c) :
    y = c ∧ z = c ∧ (0 < r → w = c) := by
  have hy' := mul_nonneg h.left.le (sub_nonneg.mpr hy)
  have hz' := mul_nonneg h.right.le (sub_nonneg.mpr hz)
  have hw' := mul_nonneg h.away (sub_nonneg.mpr hw)
  have hzero : p * (y - c) + q * (z - c) + r * (c - w) = 0 := by
    rw [← h.excess, hx, sub_self, zero_mul]
  have heq {a b : K} (ha : 0 < a) (hab : a * b = 0) : b = 0 :=
    (mul_eq_zero.mp hab).resolve_left ha.ne'
  refine ⟨sub_eq_zero.mp (heq h.left ?_), sub_eq_zero.mp (heq h.right ?_), fun hr =>
    (sub_eq_zero.mp (heq hr ?_)).symm⟩ <;> linarith

theorem Mixes.ge (h : Mixes p q r x y z w) (hy : y ≤ c) (hz : z ≤ c) (hw : 0 < r → w = c) :
    x ≤ c := by
  have hy' := mul_nonneg h.left.le (sub_nonneg.mpr hy)
  have hz' := mul_nonneg h.right.le (sub_nonneg.mpr hz)
  have hw' : r * (c - w) = 0 := by
    rcases h.away.eq_or_lt with hr | hr
    · rw [← hr, zero_mul]
    · rw [hw hr, sub_self, mul_zero]
  have hbelow : 0 ≤ (c - x) * (p + q - r) := by
    have := h.excess c
    linarith
  exact sub_nonneg.mp (nonneg_of_mul_nonneg_left hbelow h.total)

end field

/-- What a linkage mixes: distances, or their squares. -/
def Linkage.scale {K : Type} [ExactField K] (linkage : Linkage) (x : K) : K :=
  match linkage with
  | average => x
  | ward => x * x

section scale

variable {K : Type} [ExactField K] {linkage : Linkage} {x y : K}

theorem Linkage.scale_le_scale_iff (hx : 0 ≤ x) (hy : 0 ≤ y) :
    linkage.scale x ≤ linkage.scale y ↔ x ≤ y := by
  cases linkage with
  | average => exact Iff.rfl
  | ward => exact (mul_self_le_mul_self_iff hx hy).symm

theorem Linkage.scale_eq_scale_iff (hx : 0 ≤ x) (hy : 0 ≤ y) :
    linkage.scale x = linkage.scale y ↔ x = y := by
  simp only [le_antisymm_iff, scale_le_scale_iff hx hy, scale_le_scale_iff hy hx]

end scale

namespace Clusters

variable {K : Type} [ExactField K] {s : Clusters K} {n a b k newId : Nat} {linkage : Linkage}
  {members : Nat → Finset Nat} {bound c : K}

section mixed

variable (h : s.Apart linkage bound) (hholds : s.Holds n members) (hshaped : s.Shaped n)
  (hroots : linkage = .ward → ExactRoots K) (hclosest : s.IsClosest a b)
  (hpos : 0 ≤ s.distances.get a b) (hk : k ∈ s.others a b)
include h hholds hshaped hroots hclosest hpos hk

/-- **A linkage mixes** the distances to the two clusters, and Ward linkage takes their own distance
away. -/
theorem Apart.mixes : ∃ p q r : K, Mixes p q r (linkage.scale (s.joinedDistance linkage a b k))
    (linkage.scale (s.distances.get k a)) (linkage.scale (s.distances.get k b))
    (linkage.scale (s.distances.get a b)) ∧ (0 < r ↔ linkage = .ward) := by
  obtain ⟨hactive, hka, hkb⟩ := mem_others.mp hk
  have hi : (0 : K) < ofNat (s.sizeAt a) := ofNat_pos (hholds.size_pos hclosest.left)
  have hj : (0 : K) < ofNat (s.sizeAt b) := ofNat_pos (hholds.size_pos hclosest.right)
  have hn : (0 : K) < ofNat (s.sizeAt k) := ofNat_pos (hholds.size_pos hactive)
  cases linkage with
  | average =>
      refine ⟨ofNat (s.sizeAt a), ofNat (s.sizeAt b), 0, ⟨hi, hj, le_rfl, ?_, ?_⟩, by simp⟩
      · rw [sub_zero]
        exact add_pos hi hj
      · simp only [Linkage.scale]
        rw [joinedDistance, joinedSum, h.sum_eq rfl k a hactive hclosest.left hka,
          h.sum_eq rfl k b hactive hclosest.right hkb, ofNat_mul, ofNat_add]
        field_simp
        ring
  | ward =>
      have hsquare := hclosest.le_wardSquared hshaped hholds hpos hk
      obtain ⟨-, hroot⟩ := hroots rfl _ ((mul_self_nonneg _).trans hsquare)
      refine ⟨ofNat (s.sizeAt a) + ofNat (s.sizeAt k), ofNat (s.sizeAt b) + ofNat (s.sizeAt k),
        ofNat (s.sizeAt k), ⟨add_pos hi hn, add_pos hj hn, hn.le, ?_, ?_⟩, by simp [hn]⟩
      · linarith
      · simp only [Linkage.scale]
        rw [joinedDistance, wardDistance_eq, maximum_eq_of_le hsquare]
        show root _ * root _ * _ = _
        rw [hroot, wardSquared]
        field_simp
        ring

theorem Apart.le_joined_of_le (hc : 0 ≤ c) (hkc : ∀ i, i = a ∨ i = b → c ≤ s.distances.get k i)
    (habc : s.distances.get a b ≤ c) : c ≤ s.joinedDistance linkage a b k := by
  obtain ⟨p, q, r, hmixes, -⟩ := h.mixes hholds hshaped hroots hclosest hpos hk
  have hjoined := hpos.trans (h.le_joinedDistance hholds hshaped hroots hclosest hpos hk)
  have hka := hkc a (.inl rfl)
  have hkb := hkc b (.inr rfl)
  rw [← linkage.scale_le_scale_iff hc hjoined]
  exact hmixes.le ((linkage.scale_le_scale_iff hc (hc.trans hka)).mpr hka)
    ((linkage.scale_le_scale_iff hc (hc.trans hkb)).mpr hkb)
    ((linkage.scale_le_scale_iff hpos hc).mpr habc)

theorem Apart.eq_of_joined_eq (hc : 0 ≤ c) (hkc : ∀ i, i = a ∨ i = b → c ≤ s.distances.get k i)
    (habc : s.distances.get a b ≤ c) (heq : s.joinedDistance linkage a b k = c) :
    (∀ i, i = a ∨ i = b → s.distances.get k i = c) ∧
      (linkage = .ward → s.distances.get a b = c) := by
  obtain ⟨p, q, r, hmixes, hward⟩ := h.mixes hholds hshaped hroots hclosest hpos hk
  have hka := hkc a (.inl rfl)
  have hkb := hkc b (.inr rfl)
  obtain ⟨hy, hz, hw⟩ := hmixes.eq_of_eq (congrArg linkage.scale heq)
    ((linkage.scale_le_scale_iff hc (hc.trans hka)).mpr hka)
    ((linkage.scale_le_scale_iff hc (hc.trans hkb)).mpr hkb)
    ((linkage.scale_le_scale_iff hpos hc).mpr habc)
  refine ⟨?_, fun hlinkage => (linkage.scale_eq_scale_iff hpos hc).mp (hw (hward.mpr hlinkage))⟩
  rintro i (rfl | rfl)
  · exact (linkage.scale_eq_scale_iff (hc.trans hka) hc).mp hy
  · exact (linkage.scale_eq_scale_iff (hc.trans hkb) hc).mp hz

theorem Apart.joined_le_of_le (hkc : ∀ i, i = a ∨ i = b → s.distances.get k i ≤ c)
    (habc : linkage = .ward → s.distances.get a b = c) : s.joinedDistance linkage a b k ≤ c := by
  obtain ⟨p, q, r, hmixes, hward⟩ := h.mixes hholds hshaped hroots hclosest hpos hk
  obtain ⟨hactive, hka, hkb⟩ := mem_others.mp hk
  have hjoined := hpos.trans (h.le_joinedDistance hholds hshaped hroots hclosest hpos hk)
  have hka := hpos.trans (hclosest.le hshaped hactive hclosest.left hka)
  have hkb := hpos.trans (hclosest.le hshaped hactive hclosest.right hkb)
  have hc : 0 ≤ c := hka.trans (hkc a (.inl rfl))
  rw [← linkage.scale_le_scale_iff hjoined hc]
  exact hmixes.ge ((linkage.scale_le_scale_iff hka hc).mpr (hkc a (.inl rfl)))
    ((linkage.scale_le_scale_iff hkb hc).mpr (hkc b (.inr rfl)))
    fun hr => congrArg linkage.scale (habc (hward.mp hr))

end mixed

/-! ### Slots -/

/-- Two slots at distance `c` that have no closer slot than each other, and as far from each of them
are the same slots, which are not farther from one another. -/
structure Twins (s : Clusters K) (c : K) (p r : Nat) : Prop where
  left : s.isActive p = true
  right : s.isActive r = true
  ne : p ≠ r
  distance_eq : s.distances.get p r = c
  le_left : ∀ l, s.isActive l = true → l ≠ p → c ≤ s.distances.get p l
  le_right : ∀ l, s.isActive l = true → l ≠ r → c ≤ s.distances.get r l
  near_iff : ∀ l, s.isActive l = true → l ≠ p → l ≠ r →
    (s.distances.get p l = c ↔ s.distances.get r l = c)
  near : ∀ k l, s.isActive k = true → s.isActive l = true → k ≠ l → k ≠ p → l ≠ p → k ≠ r → l ≠ r →
    s.distances.get p k = c → s.distances.get p l = c → s.distances.get k l ≤ c

variable {p r : Nat}

theorem Twins.symm (h : s.Twins c p r) (hshaped : s.Shaped n) : s.Twins c r p where
  left := h.right
  right := h.left
  ne := h.ne.symm
  distance_eq := by rw [hshaped.distance_comm h.right h.left, h.distance_eq]
  le_left := h.le_right
  le_right := h.le_left
  near_iff l hl hlr hlp := (h.near_iff l hl hlp hlr).symm
  near k l hk hl hkl hkr hlr hkp hlp hk' hl' :=
    h.near k l hk hl hkl hkp hlp hkr hlr ((h.near_iff k hk hkp hkr).mpr hk')
      ((h.near_iff l hl hlp hlr).mpr hl')

/-- The closest pair is not farther apart than twins. -/
theorem Twins.closest_le (h : s.Twins c p r) (hshaped : s.Shaped n) (hclosest : s.IsClosest a b) :
    s.distances.get a b ≤ c :=
  (hclosest.le hshaped h.left h.right h.ne).trans_eq h.distance_eq

/-- Either slot of the closest pair is in use, and so is the other one, at the distance of the pair. -/
theorem IsClosest.exists_partner (h : s.IsClosest a b) (hshaped : s.Shaped n) (hp : p = a ∨ p = b) :
    ∃ x, s.isActive x = true ∧ x ≠ p ∧ s.distances.get p x = s.distances.get a b ∧
      ∀ i, (i = a ∨ i = b) ↔ (i = p ∨ i = x) := by
  rcases hp with rfl | rfl
  · exact ⟨b, h.right, h.ordered.ne', rfl, fun i => Iff.rfl⟩
  · exact ⟨a, h.left, h.ordered.ne, hshaped.distance_comm h.right h.left, fun i => or_comm⟩

theorem IsClosest.isActive_of_eq (h : s.IsClosest a b) (hp : p = a ∨ p = b) : s.isActive p = true := by
  rcases hp with rfl | rfl
  · exact h.left
  · exact h.right

/-- The closest pair is as far apart as twins if it has one of them. -/
theorem Twins.closest_eq (h : s.Twins c p r) (hshaped : s.Shaped n) (hclosest : s.IsClosest a b)
    (hp : p = a ∨ p = b) : s.distances.get a b = c := by
  obtain ⟨x, hx, hxp, hpx, -⟩ := hclosest.exists_partner hshaped hp
  exact le_antisymm (h.closest_le hshaped hclosest) (hpx ▸ h.le_left x hx hxp)

/-- What was in either of two slots that are merged is in the first one. -/
theorem ite_eq_of_merged {i : Nat} (h : i = a ∨ i = b) : (if i = b then a else i) = a := by
  split_ifs with hib
  · rfl
  · exact h.resolve_right hib

section join

theorem distance_join_left (hshaped : s.Shaped n) (hclosest : s.IsClosest a b) (hk : k ∈ s.others a b) :
    (s.join linkage a b newId).distances.get a k = s.joinedDistance linkage a b k := by
  obtain ⟨hactive, hka, hkb⟩ := mem_others.mp hk
  rw [distance_join hshaped hclosest.left hclosest.right hclosest.left hactive hclosest.ordered.ne hkb
    hka.symm, if_pos rfl]

theorem distance_join_right (hshaped : s.Shaped n) (hclosest : s.IsClosest a b) (hk : k ∈ s.others a b) :
    (s.join linkage a b newId).distances.get k a = s.joinedDistance linkage a b k := by
  obtain ⟨hactive, hka, hkb⟩ := mem_others.mp hk
  rw [distance_join hshaped hclosest.left hclosest.right hactive hclosest.left hkb hclosest.ordered.ne
    hka, if_neg hka, if_pos rfl]

theorem distance_join_others (hshaped : s.Shaped n) (hclosest : s.IsClosest a b) {l : Nat}
    (hk : k ∈ s.others a b) (hl : l ∈ s.others a b) (hkl : k ≠ l) :
    (s.join linkage a b newId).distances.get k l = s.distances.get k l := by
  obtain ⟨hkactive, hka, hkb⟩ := mem_others.mp hk
  obtain ⟨hlactive, hla, hlb⟩ := mem_others.mp hl
  exact distance_join_other hshaped hclosest.left hclosest.right hkactive hlactive hkb hlb hkl hka hla

theorem mem_others_of_isActive_join (hclosest : s.IsClosest a b)
    (hk : (s.join linkage a b newId).isActive k = true) (hka : k ≠ a) : k ∈ s.others a b := by
  obtain ⟨hactive, hkb⟩ := (isActive_join hclosest.left hclosest.right).mp hk
  exact mem_others.mpr ⟨hactive, hka, hkb⟩

variable (h : s.Twins c p r) (hapart : s.Apart linkage bound) (hholds : s.Holds n members)
  (hshaped : s.Shaped n) (hroots : linkage = .ward → ExactRoots K) (hclosest : s.IsClosest a b)
  (hpos : 0 ≤ s.distances.get a b)
include h hapart hholds hshaped hroots hclosest hpos

/-- **A cluster that grows** is at the distance of the twins from the same clusters as before. -/
theorem Twins.grown_eq_iff (hp : p = a ∨ p = b) (hra : r ≠ a) (hrb : r ≠ b) (hk : k ∈ s.others a b) :
    s.joinedDistance linkage a b k = c ↔ s.distances.get p k = c := by
  obtain ⟨hactive, hka, hkb⟩ := mem_others.mp hk
  obtain ⟨x, hx, hxp, hpx, hparts⟩ := hclosest.exists_partner hshaped hp
  have hrx : r ≠ x := fun heq => ((hparts r).mpr (.inr heq)).elim hra hrb
  -- the pair is as far apart as the twins, so nothing is closer than they are
  have habc := h.closest_eq hshaped hclosest hp
  have hc : 0 ≤ c := habc ▸ hpos
  have hfar (i : Nat) (hi : i = a ∨ i = b) : c ≤ s.distances.get k i := by
    rw [← habc]
    exact hclosest.le hshaped hactive (hclosest.isActive_of_eq hi) (by omega)
  constructor
  · intro heq
    rw [hshaped.distance_comm (hclosest.isActive_of_eq hp) hactive]
    exact (hapart.eq_of_joined_eq hholds hshaped hroots hclosest hpos hk hc hfar habc.le heq).1 p hp
  · intro hpk
    have hkx : s.distances.get k x ≤ c := by
      by_cases hkr : k = r
      · exact hkr ▸ ((h.near_iff x hx hxp hrx.symm).mp (hpx.trans habc)).le
      · have hkx : k ≠ x := fun heq => ((hparts k).mpr (.inr heq)).elim hka hkb
        exact h.near k x hactive hx hkx (by omega) hxp hkr hrx.symm hpk (hpx.trans habc)
    refine le_antisymm (hapart.joined_le_of_le hholds hshaped hroots hclosest hpos hk (fun i hi => ?_) fun _ => habc)
      (hapart.le_joined_of_le hholds hshaped hroots hclosest hpos hk hc hfar habc.le)
    rcases (hparts i).mp hi with rfl | rfl
    · rw [hshaped.distance_comm hactive (hclosest.isActive_of_eq hp), hpk]
    · exact hkx

/-- **A cluster that grows keeps its twin.** What is merged into it is as close to it as the twin, so
it is as close to the twin. -/
theorem Twins.join_grown (hp : p = a ∨ p = b) (hra : r ≠ a) (hrb : r ≠ b) :
    (s.join linkage a b newId).Twins c a r := by
  have ha := hclosest.left
  have hb := hclosest.right
  have hleft : (s.join linkage a b newId).isActive a = true :=
    (isActive_join ha hb).mpr ⟨ha, hclosest.ordered.ne⟩
  have hright : (s.join linkage a b newId).isActive r = true :=
    (isActive_join ha hb).mpr ⟨h.right, hrb⟩
  have hjoin : (s.join linkage a b newId).Apart linkage (s.distances.get a b) :=
    hapart.join hholds hshaped hroots hclosest hpos
  have hleast := h.closest_eq hshaped hclosest hp ▸ hjoin.bound_le
  have hother {l : Nat} (hl : (s.join linkage a b newId).isActive l = true) (hla : l ≠ a) :
      l ∈ s.others a b := mem_others_of_isActive_join hclosest hl hla
  have hgrown {l : Nat} (hl : (s.join linkage a b newId).isActive l = true) (hla : l ≠ a) :
      (s.join linkage a b newId).distances.get a l = c ↔ s.distances.get p l = c := by
    rw [distance_join_left hshaped hclosest (hother hl hla)]
    exact h.grown_eq_iff hapart hholds hshaped hroots hclosest hpos hp hra hrb (hother hl hla)
  refine ⟨hleft, hright, hra.symm, (hgrown hright hra).mpr h.distance_eq,
    fun l hl hla => hleast a l hleft hl hla.symm, fun l hl hlr => hleast r l hright hl hlr.symm, ?_, ?_⟩
  · -- near_iff
    intro l hl hla hlr
    obtain ⟨hlactive, -, hlb⟩ := mem_others.mp (hother hl hla)
    rw [hgrown hl hla, distance_join_others hshaped hclosest (hother hright hra) (hother hl hla) hlr.symm]
    exact h.near_iff l hlactive (by omega) hlr
  · -- near
    intro k l hk hl hkl hka hla hkr hlr hak hal
    obtain ⟨hkactive, -, hkb⟩ := mem_others.mp (hother hk hka)
    obtain ⟨hlactive, -, hlb⟩ := mem_others.mp (hother hl hla)
    rw [distance_join_others hshaped hclosest (hother hk hka) (hother hl hla) hkl]
    exact h.near k l hkactive hlactive hkl (by omega) (by omega) hkr hlr ((hgrown hk hka).mp hak)
      ((hgrown hl hla).mp hal)

section others

variable (hp : p ∈ s.others a b)
include hp

omit hapart hholds hshaped hroots hpos in
/-- Neither part of a new cluster is closer to one of the twins than they are to each other. -/
theorem Twins.le_parts (i : Nat) (hi : i = a ∨ i = b) : c ≤ s.distances.get p i := by
  obtain ⟨-, hpa, hpb⟩ := mem_others.mp hp
  exact h.le_left i (hclosest.isActive_of_eq hi) (by omega)

/-- No new cluster comes closer to one of the twins than they are to each other. -/
theorem Twins.le_joined : c ≤ s.joinedDistance linkage a b p :=
  have hle := h.closest_le hshaped hclosest
  hapart.le_joined_of_le hholds hshaped hroots hclosest hpos hp (hpos.trans hle) (h.le_parts hclosest hp) hle

/-- It is as close only if both its parts are. -/
theorem Twins.of_joined_eq (heq : s.joinedDistance linkage a b p = c) :
    (∀ i, i = a ∨ i = b → s.distances.get p i = c) ∧
      (linkage = .ward → s.distances.get a b = c) :=
  have hle := h.closest_le hshaped hclosest
  hapart.eq_of_joined_eq hholds hshaped hroots hclosest hpos hp (hpos.trans hle) (h.le_parts hclosest hp) hle heq

/-- Then it is not farther from what else is as close. -/
theorem Twins.joined_le (heq : s.joinedDistance linkage a b p = c) (hk : k ∈ s.others a b)
    (hkp : k ≠ p) (hkr : k ≠ r) (hra : r ≠ a) (hrb : r ≠ b) (hpk : s.distances.get p k = c) :
    s.joinedDistance linkage a b k ≤ c := by
  obtain ⟨hactive, hka, hkb⟩ := mem_others.mp hk
  obtain ⟨-, hpa, hpb⟩ := mem_others.mp hp
  obtain ⟨hparts, hward⟩ := h.of_joined_eq hapart hholds hshaped hroots hclosest hpos hp heq
  refine hapart.joined_le_of_le hholds hshaped hroots hclosest hpos hk (fun i hi => ?_) hward
  exact h.near k i hactive (hclosest.isActive_of_eq hi) (by omega) hkp (by omega) hkr (by omega) hpk
    (hparts i hi)

/-- The other twin is as close to it, too. -/
theorem Twins.joined_eq_of_eq (heq : s.joinedDistance linkage a b p = c) (hr : r ∈ s.others a b) :
    s.joinedDistance linkage a b r = c := by
  obtain ⟨-, hra, hrb⟩ := mem_others.mp hr
  obtain ⟨-, hpa, hpb⟩ := mem_others.mp hp
  obtain ⟨hparts, hward⟩ := h.of_joined_eq hapart hholds hshaped hroots hclosest hpos hp heq
  refine le_antisymm (hapart.joined_le_of_le hholds hshaped hroots hclosest hpos hr (fun i hi => ?_) hward)
    ((h.symm hshaped).le_joined hapart hholds hshaped hroots hclosest hpos hr)
  exact ((h.near_iff i (hclosest.isActive_of_eq hi) (by omega) (by omega)).mp (hparts i hi)).le

/-- No slot comes closer to a twin when others are merged. -/
theorem Twins.le_join {l : Nat} (hl : (s.join linkage a b newId).isActive l = true) (hlp : l ≠ p) :
    c ≤ (s.join linkage a b newId).distances.get p l := by
  by_cases hla : l = a
  · subst hla
    rw [distance_join_right hshaped hclosest hp]
    exact h.le_joined hapart hholds hshaped hroots hclosest hpos hp
  · have hl := mem_others_of_isActive_join hclosest hl hla
    rw [distance_join_others hshaped hclosest hp hl hlp.symm]
    exact h.le_left l (mem_others.mp hl).1 hlp

end others

/-- **Twins stay twins** when two other slots are merged. -/
theorem Twins.join_others (hp : p ∈ s.others a b) (hr : r ∈ s.others a b) :
    (s.join linkage a b newId).Twins c p r := by
  obtain ⟨hpactive, hpa, hpb⟩ := mem_others.mp hp
  obtain ⟨hractive, hra, hrb⟩ := mem_others.mp hr
  have hjoined {k : Nat} (hk : s.isActive k = true ∧ k ≠ b) :
      (s.join linkage a b newId).isActive k = true :=
    (isActive_join hclosest.left hclosest.right).mpr hk
  have hother {k : Nat} (hk : (s.join linkage a b newId).isActive k = true) (hka : k ≠ a) :
      k ∈ s.others a b := mem_others_of_isActive_join hclosest hk hka
  have hdistance {k : Nat} (hk : k ∈ s.others a b) :
      (s.join linkage a b newId).distances.get k a = s.joinedDistance linkage a b k :=
    distance_join_right hshaped hclosest hk
  have hkept {k l : Nat} (hk : k ∈ s.others a b) (hl : l ∈ s.others a b) (hkl : k ≠ l) :
      (s.join linkage a b newId).distances.get k l = s.distances.get k l :=
    distance_join_others hshaped hclosest hk hl hkl
  have hnew {k : Nat} (hk : k ∈ s.others a b) (hkp : k ≠ p) (hkr : k ≠ r)
      (hpa' : (s.join linkage a b newId).distances.get p a = c)
      (hpk : (s.join linkage a b newId).distances.get p k = c) :
      (s.join linkage a b newId).distances.get k a ≤ c := by
    rw [hkept hp hk hkp.symm] at hpk
    rw [hdistance hk]
    exact h.joined_le hapart hholds hshaped hroots hclosest hpos hp (hdistance hp ▸ hpa') hk hkp hkr hra hrb
      hpk
  refine ⟨hjoined ⟨hpactive, hpb⟩, hjoined ⟨hractive, hrb⟩, h.ne,
    ?_, fun l hl hlp => h.le_join hapart hholds hshaped hroots hclosest hpos hp hl hlp,
    fun l hl hlr => (h.symm hshaped).le_join hapart hholds hshaped hroots hclosest hpos hr hl hlr, ?_, ?_⟩
  · -- distance_eq
    rw [hkept hp hr h.ne, h.distance_eq]
  · -- near_iff
    intro l hl hlp hlr
    by_cases hla : l = a
    · subst hla
      rw [hdistance hp, hdistance hr]
      exact ⟨fun heq => h.joined_eq_of_eq hapart hholds hshaped hroots hclosest hpos hp heq hr,
        fun heq => (h.symm hshaped).joined_eq_of_eq hapart hholds hshaped hroots hclosest hpos hr heq hp⟩
    · have hl := hother hl hla
      rw [hkept hp hl hlp.symm, hkept hr hl hlr.symm]
      exact h.near_iff l (mem_others.mp hl).1 hlp hlr
  · -- near
    intro k l hk hl hkl hkp hlp hkr hlr hpk hpl
    by_cases hka : k = a
    · subst hka
      rw [(hshaped.join hclosest.left hclosest.right).distance_comm hk hl]
      exact hnew (hother hl hkl.symm) hlp hlr hpk hpl
    · have hk := hother hk hka
      by_cases hla : l = a
      · subst hla
        exact hnew hk hkp hkr hpl hpk
      · have hl := hother hl hla
        rw [hkept hp hk hkp.symm] at hpk
        rw [hkept hp hl hlp.symm] at hpl
        rw [hkept hk hl hkl]
        exact h.near k l (mem_others.mp hk).1 (mem_others.mp hl).1 hkl hkp hlp hkr hlr hpk hpl

/-- **Twins stay twins until they are merged.** -/
theorem Twins.join (hother : ¬((p = a ∨ p = b) ∧ (r = a ∨ r = b))) :
    (s.join linkage a b newId).Twins c (if p = b then a else p) (if r = b then a else r) := by
  have hmem {i : Nat} (hi : s.isActive i = true) (h : ¬(i = a ∨ i = b)) : i ∈ s.others a b :=
    mem_others.mpr ⟨hi, fun hia => h (.inl hia), fun hib => h (.inr hib)⟩
  have hstay {i : Nat} (h : ¬(i = a ∨ i = b)) : (if i = b then a else i) = i :=
    if_neg fun hib => h (.inr hib)
  by_cases hp : p = a ∨ p = b
  · have hr : ¬(r = a ∨ r = b) := fun hr => hother ⟨hp, hr⟩
    rw [ite_eq_of_merged hp, hstay hr]
    exact h.join_grown hapart hholds hshaped hroots hclosest hpos hp (fun hra => hr (.inl hra))
      fun hrb => hr (.inr hrb)
  · by_cases hr : r = a ∨ r = b
    · rw [ite_eq_of_merged hr, hstay hp]
      exact ((h.symm hshaped).join_grown hapart hholds hshaped hroots hclosest hpos hr
        (fun hpa => hp (.inl hpa)) fun hpb => hp (.inr hpb)).symm
          (hshaped.join hclosest.left hclosest.right)
    · rw [hstay hp, hstay hr]
      exact h.join_others hapart hholds hshaped hroots hclosest hpos (hmem h.left hp) (hmem h.right hr)

end join

end Clusters

/-! ### Blocks -/

/-- Two blocks at distance `c` that have no closer block than each other and are as far from every
third block. Blocks at this distance from them are not farther from one another. -/
structure ScoreMatrix.Twins {K : Type} [ExactField K] (m : ScoreMatrix K) (c : K) (x y : Nat) :
    Prop where
  left : x < m.size
  right : y < m.size
  ne : x ≠ y
  distance_eq : m.pairDistance x y = c
  le_distance : ∀ z, z < m.size → z ≠ x → c ≤ m.pairDistance x z
  distance_comm : ∀ z, z < m.size → z ≠ x → z ≠ y → m.pairDistance x z = m.pairDistance y z
  near : ∀ z w, z < m.size → w < m.size → z ≠ w → z ≠ x → w ≠ x → z ≠ y → w ≠ y →
    m.pairDistance x z = c → m.pairDistance x w = c → m.pairDistance z w ≤ c

section run

variable {K : Type} [ExactField K] {linkage : Linkage} {m : ScoreMatrix K} {c : K} {x y : Nat}

/-- At the start twins are in twin slots. -/
theorem ScoreMatrix.Twins.singletons (h : m.Twins c x y) : (Clusters.singletons m).Twins c x y := by
  have hactive {i : Nat} : (Clusters.singletons m).isActive i = true ↔ i < m.size :=
    Clusters.isActive_singletons m i
  have hdistance {i j : Nat} (hi : i < m.size) (hj : j < m.size) (hij : i ≠ j) :
      (Clusters.singletons m).distances.get i j = m.pairDistance i j :=
    Clusters.distance_singletons m hi hj hij
  refine ⟨hactive.mpr h.left, hactive.mpr h.right, h.ne, ?_, fun l hl hlx => ?_, fun l hl hly => ?_,
    fun l hl hlx hly => ?_, fun k l hk hl hkl hkx hlx hky hly hxk hxl => ?_⟩
  · rw [hdistance h.left h.right h.ne, h.distance_eq]
  · rw [hdistance h.left (hactive.mp hl) hlx.symm]
    exact h.le_distance l (hactive.mp hl) hlx
  · have hl := hactive.mp hl
    rw [hdistance h.right hl hly.symm]
    by_cases hlx : l = x
    · subst hlx
      rw [m.pairDistance_comm, h.distance_eq]
    · rw [← h.distance_comm l hl hlx hly]
      exact h.le_distance l hl hlx
  · have hl := hactive.mp hl
    rw [hdistance h.left hl hlx.symm, hdistance h.right hl hly.symm, h.distance_comm l hl hlx hly]
  · have hk := hactive.mp hk
    have hl := hactive.mp hl
    rw [hdistance h.left hk hkx.symm] at hxk
    rw [hdistance h.left hl hlx.symm] at hxl
    rw [hdistance hk hl hkl]
    exact h.near k l hk hl hkl hkx hlx hky hly hxk hxl

namespace Agglomeration

variable {merges : List (Merge K)} {members : Nat → Finset Nat} {s : Agglomeration K}

/-- **Along a run** twins are in twin slots until a merge at their distance has joined them. -/
theorem Run.twins (h : Run linkage m merges members s) (hvalid : m.validate = .ok ())
    (hroots : linkage = .ward → ExactRoots K) (htwins : m.Twins c x y) :
    (∃ p r, x ∈ members p ∧ y ∈ members r ∧ s.clusters.Twins c p r) ∨
      (∃ i, s.clusters.isActive i = true ∧ x ∈ members i ∧ y ∈ members i) ∧
        ∃ merge ∈ merges, merge.distance = c := by
  induction h with
  | start =>
      exact .inl ⟨x, y, Finset.mem_singleton_self x, Finset.mem_singleton_self y, htwins.singletons⟩
  | @merge merges members s a near hrun hpair ih =>
      have hclosest := hrun.isClosest hpair
      have ha := hclosest.left
      have hb := hclosest.right
      have hab := hclosest.ordered.ne
      obtain ⟨bound, hbound, hapart, -, -⟩ := hrun.apart hvalid hroots
      have hpos := hbound.trans (hapart.bound_le a near.slot ha hb hab)
      have hmoved {i z : Nat} (hi : s.clusters.isActive i = true) (hz : z ∈ members i) :
          z ∈ Clusters.joinBlocks members a near.slot (if i = near.slot then a else i) := by
        refine (Clusters.mem_joinBlocks_iff ha hb ?_ ?_).mpr ⟨i, hi, hz, rfl⟩ <;> split <;> assumption
      rcases ih with ⟨p, r, hx, hy, hslots⟩ | ⟨⟨i, hi, hx, hy⟩, merge, hmerge, hdistance⟩
      · by_cases hboth : (p = a ∨ p = near.slot) ∧ (r = a ∨ r = near.slot)
        · -- the twins themselves are merged
          have hx := hmoved hslots.left hx
          have hy := hmoved hslots.right hy
          rw [Clusters.ite_eq_of_merged hboth.1] at hx
          rw [Clusters.ite_eq_of_merged hboth.2] at hy
          refine .inr ⟨⟨a, (Clusters.isActive_join ha hb).mpr ⟨ha, hab⟩, hx, hy⟩, _,
            List.mem_append_right _ (List.mem_singleton_self _), ?_⟩
          exact hslots.closest_eq hrun.sound.shaped hclosest hboth.1
        · exact .inl ⟨_, _, hmoved hslots.left hx, hmoved hslots.right hy,
            hslots.join hapart hrun.sound.holds hrun.sound.shaped hroots hclosest hpos hboth⟩
      · obtain ⟨j, hj, hsubset⟩ := Clusters.exists_slot_join ha hb hab hi
        exact .inr ⟨⟨j, hj, hsubset hx, hsubset hy⟩, merge, List.mem_append_left _ hmerge, hdistance⟩

/-- A run that has been prolonged by a merge has merged its closest pair. -/
theorem Run.closestPair?_of_concat {next : Merge K} (h : Run linkage m merges members s)
    {members' : Nat → Finset Nat} {s' : Agglomeration K}
    (hnext : Run linkage m (merges ++ [next]) members' s') :
    ∃ a near, s.closestPair? = some (a, near) ∧
      next.distance = s.clusters.distances.get a near.slot := by
  generalize hlonger : merges ++ [next] = longer at hnext
  cases hnext with
  | start => simp at hlonger
  | merge hrun hpair =>
      obtain ⟨rfl, heq⟩ := List.append_inj' hlonger rfl
      obtain ⟨-, -, rfl⟩ := h.unique hrun rfl
      exact ⟨_, _, hpair, by rw [List.singleton_inj.mp heq]; rfl⟩

end Agglomeration

/-- **Where a cut stops**, all clusters that are left are farther apart than the threshold. -/
theorem Dendrogram.lt_closest {tree : Dendrogram K} (htree : ofMatrix linkage m = .ok tree)
    {threshold : K} {members : Nat → Finset Nat} {s : Agglomeration K}
    (hrun : Agglomeration.Run linkage m (tree.appliedMerges threshold) members s)
    (htwo : 1 < s.clusters.active.length) :
    ∃ a near, s.closestPair? = some (a, near) ∧
      threshold < s.clusters.distances.get a near.slot := by
  obtain ⟨-, hcount, _, _, hfull⟩ := run_of_ofMatrix htree
  have hsplit : tree.appliedMerges threshold ++
      tree.merges.dropWhile (fun merge => !lt threshold merge.distance) = tree.merges :=
    List.takeWhile_append_dropWhile
  cases hrest : tree.merges.dropWhile fun merge => !lt threshold merge.distance with
  | nil =>
      -- all merges leave one cluster only
      have hactive := hrun.active_length
      rw [hrest, List.append_nil] at hsplit
      rw [hsplit, hcount] at hactive
      omega
  | cons next rest =>
      have habove : lt threshold next.distance = true := by
        have := List.head?_dropWhile_not (fun merge => !lt threshold merge.distance) tree.merges
        simpa [hrest] using this
      rw [hrest, List.append_cons] at hsplit
      obtain ⟨_, _, hnext⟩ := hfull.of_prefix ⟨rest, hsplit⟩
      obtain ⟨a, near, hpair, hdistance⟩ := hrun.closestPair?_of_concat hnext
      exact ⟨a, near, hpair, hdistance ▸ of_decide_eq_true habove⟩

/-- **Twins have the same label** exactly if the threshold reaches their distance. -/
theorem Dendrogram.labels_eq_iff_of_twins {tree : Dendrogram K} (hvalid : m.validate = .ok ())
    (hroots : linkage = .ward → ExactRoots K) (htree : ofMatrix linkage m = .ok tree) (threshold : K) :
    ∃ labels, tree.cut m.ids threshold = .ok (.ofLabels m.ids labels) ∧ labels.length = m.size ∧
      ∀ c x y, m.Twins c x y → (labels[x]? = labels[y]? ↔ c ≤ threshold) := by
  obtain ⟨members, s, labels, hrun, hcut, hlength, hlabels⟩ :=
    exists_labels_of_ofMatrix htree (show isNaN threshold = false from rfl)
  refine ⟨labels, hcut, hlength, fun c x y htwins => ?_⟩
  rw [hlabels x y htwins.left htwins.right]
  rcases hrun.twins hvalid hroots htwins with
    ⟨p, r, hx, hy, hslots⟩ | ⟨htogether, merge, hmerge, hdistance⟩
  · -- apart: they are closer to each other than the threshold allows
    have htwo : 1 < s.clusters.active.length := by
      rw [← List.toFinset_card_of_nodup s.clusters.nodup_active, Finset.one_lt_card]
      exact ⟨p, by simp [hslots.left], r, by simp [hslots.right], hslots.ne⟩
    obtain ⟨a, near, hpair, habove⟩ := lt_closest htree hrun htwo
    have hle := hslots.closest_le hrun.sound.shaped (hrun.isClosest hpair)
    refine ⟨fun htogether => ?_, fun hreached => absurd (hle.trans hreached) habove.not_ge⟩
    obtain ⟨i, hi, hxi, hyi⟩ := htogether
    have hholds := hrun.sound.holds
    exact absurd ((hholds.slot_unique hslots.left hi hx hxi).trans
      (hholds.slot_unique hi hslots.right hyi hy)) hslots.ne
  · -- together: the merge that has joined them is below the threshold
    refine ⟨fun _ => ?_, fun _ => htogether⟩
    have hbelow := List.mem_takeWhile_imp hmerge
    rw [hdistance, Bool.not_eq_true'] at hbelow
    exact not_lt.mp (of_decide_eq_false hbelow)

end run

end BlockAffinity
