import Mathlib
import BlockAffinity.Proofs.Number.Order

/-!
# BlockAffinity.Proofs.Number.Exact

**Scalars without rounding.** An exact field is an ordered field with functions that stand for the
square root and the binary logarithm; it is a scalar system with no NaN and no infinity. The
rationals are one, which is enough where nothing but sums and quotients is computed, and so are the
reals, where square roots are exact as well (`ExactRoots`).
-/

namespace BlockAffinity

/-- An ordered field with a square root and a binary logarithm, of which nothing is assumed. -/
class ExactField (K : Type) extends Field K, LinearOrder K, IsStrictOrderedRing K where
  root : K → K
  binaryLog : K → K

namespace ExactField

/-- Exact arithmetic as a scalar system. -/
instance {K : Type} [ExactField K] : Scalar K where
  zero := 0
  one := 1
  half := 1 / 2
  slack := 1 / 10 ^ 12
  sumStart := 0
  ofNat n := n
  lt a b := decide (a < b)
  le a b := decide (a ≤ b)
  eq a b := decide (a = b)
  minimum := min
  maximum := max
  magnitude a := max a (-a)
  sqrt := root
  log2 := binaryLog
  isFinite _ := true
  isNaN _ := false

/-- Rationals. The root is exact on squares, the logarithm is its integer part. -/
instance : ExactField ℚ where
  root := Rat.sqrt
  binaryLog x := Int.log 2 x

/-- Reals. -/
noncomputable instance : ExactField ℝ where
  root := Real.sqrt
  binaryLog := Real.logb 2

/-- The root of a number that is not negative is one. -/
def ExactRoots (K : Type) [ExactField K] : Prop :=
  ∀ x : K, 0 ≤ x → 0 ≤ root x ∧ root x * root x = x

theorem exactRoots_real : ExactRoots ℝ := fun x hx =>
  ⟨Real.sqrt_nonneg x, Real.mul_self_sqrt hx⟩

instance {K : Type} [ExactField K] : OrderedScalar K where
  number_of_lt _ := ⟨rfl, rfl⟩
  lt_asymm := by
    intro a b h
    exact decide_eq_false (lt_asymm (of_decide_eq_true h))
  lt_cotrans := by
    intro a b c _ h
    rcases lt_or_ge a b with hab | hba
    · exact Or.inl (decide_eq_true hab)
    · exact Or.inr (decide_eq_true (hba.trans_lt (of_decide_eq_true h)))
  eq_iff := by
    intro a b _ _
    simp only [Scalar.eq, Scalar.lt, decide_eq_true_eq, decide_eq_false_iff_not, not_lt]
    exact ⟨fun h => ⟨h.ge, h.le⟩, fun h => le_antisymm h.2 h.1⟩
  le_iff := by
    intro a b
    simp only [Scalar.le, Scalar.lt, Scalar.isNaN, decide_eq_true_eq, decide_eq_false_iff_not,
      not_lt, true_and]

end ExactField

end BlockAffinity
