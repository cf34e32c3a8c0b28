import BlockAffinity.Proofs.Number.Order
import Mathlib

/-!
# BlockAffinity.Proofs.Number.Double

**Doubles are ordered scalars.** A double that is not a NaN has a `rank`: its sign class, then its
exponent and its mantissa. Comparing two doubles compares their ranks (`compare_eq`), so what is
true of a linear order carries over.
-/

namespace BlockAffinity.Double

open Float.Model Float.Model.UnpackedFloat

/-- The place of a double in the order of doubles. Both zeros have the same place. -/
def rank : UnpackedFloat → ℤ ×ₗ ℤ ×ₗ ℤ
  | .infinity .negative => toLex (-2, toLex (0, 0))
  | .finite .negative mantissa exponent _ => toLex (-1, toLex (-exponent, -mantissa))
  | .zero _ => toLex (0, toLex (0, 0))
  | .notANumber => toLex (0, toLex (0, 0))
  | .finite .positive mantissa exponent _ => toLex (1, toLex (exponent, mantissa))
  | .infinity .positive => toLex (2, toLex (0, 0))

theorem compare_toLex (k e f p q : ℤ) :
    compare (toLex (k, toLex (e, p))) (toLex (k, toLex (f, q))) =
      (compare e f).then (compare p q) := by
  rw [Prod.Lex.compare_def]
  simp [compareLex, compareOn, Prod.Lex.compare_def]

theorem compare_neg (e f : ℤ) : compare (-e) (-f) = (compare e f).swap := by
  rw [← cmp_eq_compare, ← cmp_eq_compare, cmp_swap]
  simp only [cmp, cmpUsing, Int.neg_lt_neg_iff]

theorem compare_natCast (m k : Nat) : compare (m : ℤ) (k : ℤ) = compare m k := by
  rw [← cmp_eq_compare, ← cmp_eq_compare]
  simp only [cmp, cmpUsing, Int.ofNat_lt]

/-- Doubles compare as their ranks do. -/
theorem compare_eq {x y : UnpackedFloat} (hx : x.isNaN = false) (hy : y.isNaN = false) :
    x.compare y = some (compare (rank x) (rank y)) := by
  rcases x with ⟨⟨⟩⟩ | _ | _ | ⟨⟨⟩, m, e, h⟩ <;> rcases y with ⟨⟨⟩⟩ | _ | _ | ⟨⟨⟩, k, f, g⟩ <;>
    first | contradiction | skip
  -- only two finite doubles of one sign need more than their sign classes
  all_goals simp only [UnpackedFloat.compare, rank, compare_toLex]
  all_goals try rfl
  · rw [compare_neg, compare_neg, compare_natCast, Ordering.swap_then]
  · rw [compare_natCast]

theorem isNaN_of_compare {x y : UnpackedFloat} {o : Ordering} (h : x.compare y = some o) :
    x.isNaN = false ∧ y.isNaN = false := by
  rcases x with ⟨⟨⟩⟩ | _ | _ | ⟨⟨⟩, m, e, _⟩ <;> rcases y with ⟨⟨⟩⟩ | _ | _ | ⟨⟨⟩, k, f, _⟩ <;>
    first | contradiction | exact ⟨rfl, rfl⟩

theorem compare_eq_some_iff {x y : UnpackedFloat} {o : Ordering} :
    x.compare y = some o ↔
      x.isNaN = false ∧ y.isNaN = false ∧ compare (rank x) (rank y) = o := by
  constructor
  · intro h
    obtain ⟨hx, hy⟩ := isNaN_of_compare h
    rw [compare_eq hx hy, Option.some.injEq] at h
    exact ⟨hx, hy, h⟩
  · intro hboth
    obtain ⟨hx, hy, rfl⟩ := hboth
    exact compare_eq hx hy

/-- A double without its encoding. -/
def unpacked (x : Float) : UnpackedFloat := x.toModel.unpack

@[simp] theorem isNaN_eq (x : Float) : Scalar.isNaN x = (unpacked x).isNaN := rfl

theorem lt_eq (x y : Float) : Scalar.lt x y = (unpacked x).lt (unpacked y) := by
  rw [Bool.eq_iff_iff]
  simp only [Scalar.lt, decide_eq_true_eq]
  exact decide_eq_true_iff

theorem le_eq (x y : Float) : Scalar.le x y = (unpacked x).le (unpacked y) := by
  rw [Bool.eq_iff_iff]
  simp only [Scalar.le, decide_eq_true_eq]
  exact decide_eq_true_iff

theorem eq_eq (x y : Float) : Scalar.eq x y = (unpacked x).beq (unpacked y) := rfl

theorem lt_iff {x y : Float} : Scalar.lt x y = true ↔
    (unpacked x).isNaN = false ∧ (unpacked y).isNaN = false ∧
      rank (unpacked x) < rank (unpacked y) := by
  rw [lt_eq, UnpackedFloat.lt, beq_iff_eq, compare_eq_some_iff, compare_lt_iff_lt]

theorem lt_eq_false_iff {x y : Float} (hx : (unpacked x).isNaN = false)
    (hy : (unpacked y).isNaN = false) :
    Scalar.lt x y = false ↔ rank (unpacked y) ≤ rank (unpacked x) := by
  rw [← Bool.not_eq_true, lt_iff, ← not_lt]
  simp [hx, hy]

/-- Comparisons of doubles are those of a total preorder on all doubles but NaN. -/
instance : OrderedScalar Float where
  number_of_lt h := ⟨(lt_iff.mp h).1, (lt_iff.mp h).2.1⟩
  lt_asymm := by
    intro x y h
    obtain ⟨hx, hy, hlt⟩ := lt_iff.mp h
    exact (lt_eq_false_iff hy hx).mpr hlt.le
  lt_cotrans := by
    intro x y z hy h
    obtain ⟨hx, hz, hlt⟩ := lt_iff.mp h
    rcases lt_or_ge (rank (unpacked x)) (rank (unpacked y)) with hxy | hyx
    · exact Or.inl (lt_iff.mpr ⟨hx, hy, hxy⟩)
    · exact Or.inr (lt_iff.mpr ⟨hy, hz, hyx.trans_lt hlt⟩)
  eq_iff := by
    intro x y hx hy
    rw [eq_eq, UnpackedFloat.beq, beq_iff_eq, compare_eq_some_iff, compare_eq_iff_eq,
      lt_eq_false_iff hx hy, lt_eq_false_iff hy hx]
    exact ⟨fun h => ⟨h.2.2.ge, h.2.2.le⟩, fun h => ⟨hx, hy, le_antisymm h.2 h.1⟩⟩
  le_iff := by
    intro x y
    have hrank : (compare (rank (unpacked x)) (rank (unpacked y))).isLE = true ↔
        rank (unpacked x) ≤ rank (unpacked y) := by
      rw [Ordering.isLE_iff_ne_gt, ← compare_le_iff_le]
    rw [le_eq, UnpackedFloat.le, Option.any_eq_true]
    constructor
    · intro hexists
      obtain ⟨o, ho, hle⟩ := hexists
      obtain ⟨hx, hy, rfl⟩ := compare_eq_some_iff.mp ho
      exact ⟨hx, hy, (lt_eq_false_iff hy hx).mpr (hrank.mp hle)⟩
    · intro hboth
      obtain ⟨hx, hy, hle⟩ := hboth
      exact ⟨_, compare_eq hx hy, hrank.mpr ((lt_eq_false_iff hy hx).mp hle)⟩

end BlockAffinity.Double
