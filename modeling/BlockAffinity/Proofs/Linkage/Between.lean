import Mathlib
import BlockAffinity.Proofs.Linkage.WardForm

/-!
# BlockAffinity.Proofs.Linkage.Between

**The distance of two clusters is a function of their blocks**, in exact arithmetic and for both
linkages (`Linkage.between`): the mean distance, or the root of the closed form of Ward linkage. No
order of slots, numbers of clusters or earlier merges enters into it, so what is true of this function
is true of every state of a run (`Run.distances_eq_between`).

A valid matrix that is exactly symmetric has no entry that the upper triangle does not tell
(`ScoreMatrix.pairDistance_eq_cell`).
-/

namespace BlockAffinity

open Scalar ExactField

/-! ### Exact matrices -/

namespace ScoreMatrix

/-- Each entry is equal to the one on the other side of the diagonal. -/
def IsSymmetric {α : Type} [Scalar α] (m : ScoreMatrix α) : Prop :=
  ∀ i j, i < m.size → j < m.size → m.cell i j = m.cell j i

variable {K : Type} [ExactField K] {m : ScoreMatrix K}

theorem pairDistance_eq_cell (hsymm : m.IsSymmetric) {x y : Nat} (hx : x < m.size)
    (hy : y < m.size) : m.pairDistance x y = m.cell x y := by
  rcases Nat.le_total x y with hle | hle
  · rw [pairDistance, Nat.min_eq_left hle, Nat.max_eq_right hle]
  · rw [pairDistance, Nat.min_eq_right hle, Nat.max_eq_left hle, hsymm y x hy hx]

end ScoreMatrix

/-! ### Distances of clusters -/

/-- The distance of two clusters, from the distances of blocks. -/
def Linkage.between {K : Type} [ExactField K] (linkage : Linkage) (d : Nat → Nat → K)
    (A B : Finset Nat) : K :=
  match linkage with
  | average => crossSum d A B / (A.card * B.card)
  | ward => root (wardForm (fun x y => d x y ^ 2) A B)

section between

variable {K : Type} [ExactField K] {linkage : Linkage} {d e : Nat → Nat → K} {A B : Finset Nat}

/-- Only the pairs of different blocks of the two clusters count. -/
theorem Linkage.between_congr (hAB : Disjoint A B)
    (h : ∀ x ∈ A ∪ B, ∀ y ∈ A ∪ B, x ≠ y → d x y = e x y) :
    linkage.between d A B = linkage.between e A B := by
  cases linkage with
  | average =>
      have hcross : crossSum d A B = crossSum e A B := by
        refine Finset.sum_congr rfl fun x hx => Finset.sum_congr rfl fun y hy => ?_
        exact h x (Finset.mem_union_left _ hx) y (Finset.mem_union_right _ hy)
          fun heq => Finset.disjoint_left.mp hAB hx (heq ▸ hy)
      rw [between, between, hcross]
  | ward =>
      rw [between, between, wardForm_congr hAB fun x hx y hy hxy => by rw [h x hx y hy hxy]]

/-! ### Clusters moved by an injective map -/

variable {p : Nat → Nat}

theorem crossSum_image (hp : Function.Injective p) (f : Nat → Nat → K) (A B : Finset Nat) :
    crossSum f (A.image p) (B.image p) = crossSum (fun x y => f (p x) (p y)) A B := by
  rw [crossSum, Finset.sum_image hp.injOn]
  exact Finset.sum_congr rfl fun x _ => Finset.sum_image hp.injOn

/-- Which of two blocks has the smaller number does not matter, though `innerSum` asks for it. -/
theorem innerSum_image (hp : Function.Injective p) {f : Nat → Nat → K} (hf : ∀ x y, f x y = f y x)
    (A : Finset Nat) : innerSum f (A.image p) = innerSum (fun x y => f (p x) (p y)) A := by
  -- without the diagonal both are half the sum over all pairs
  let g : Nat → Nat → K := fun x y => if x = y then 0 else f x y
  have hoff (h k : Nat → Nat → K) (heq : ∀ x y, x ≠ y → h x y = k x y) (S : Finset Nat) :
      innerSum h S = innerSum k S := by
    refine Finset.sum_congr rfl fun x _ => Finset.sum_congr rfl fun y hy => ?_
    exact heq x y (Finset.mem_filter.mp hy).2.ne
  have hg : ∀ x y, g x y = g y x := by
    intro x y
    simp only [g, eq_comm (a := x), hf x y]
  have hdouble : 2 * innerSum g (A.image p) = 2 * innerSum (fun x y => g (p x) (p y)) A := by
    rw [← crossSum_self hg (fun x => if_pos rfl), ← crossSum_self (fun x y => hg _ _)
      (fun x => if_pos rfl), crossSum_image hp]
  have hhalf := mul_left_cancel₀ two_ne_zero hdouble
  rw [hoff f g fun x y hxy => (if_neg hxy).symm, hhalf]
  exact hoff _ _ (fun x y hxy => if_neg (hp.ne hxy)) A

theorem Linkage.between_image (hp : Function.Injective p) (hd : ∀ x y, d x y = d y x)
    (A B : Finset Nat) : linkage.between d (A.image p) (B.image p) =
      linkage.between (fun x y => d (p x) (p y)) A B := by
  have hcard (S : Finset Nat) : (S.image p).card = S.card := Finset.card_image_of_injective S hp
  cases linkage with
  | average => rw [between, between, crossSum_image hp, hcard, hcard]
  | ward =>
      have hsq : ∀ x y, d x y ^ 2 = d y x ^ 2 := fun x y => by rw [hd]
      rw [between, between, wardForm, wardForm, crossSum_image hp, innerSum_image hp hsq,
        innerSum_image hp hsq, hcard, hcard]

end between

/-! ### Along a run -/

namespace Agglomeration

variable {K : Type} [ExactField K] {linkage : Linkage} {m : ScoreMatrix K} {merges : List (Merge K)}
  {members : Nat → Finset Nat} {s : Agglomeration K}

/-- **Along a run** the distances of slots are those between their blocks. -/
theorem Run.distances_eq_between (hroots : linkage = .ward → ExactRoots K)
    (hvalid : m.validate = .ok ()) (h : Run linkage m merges members s) :
    s.clusters.Relates members s.clusters.distances fun A B distance =>
      distance = linkage.between m.pairDistance A B := by
  cases linkage with
  | average => exact h.distances_eq_mean hvalid
  | ward =>
      intro i j hi hj hij
      have hnonneg := h.distances_nonneg hroots hvalid i j hi hj hij
      have hform := h.distances_eq_wardForm (hroots rfl) hvalid i j hi hj hij
      obtain ⟨hpos, hroot⟩ := hroots rfl _ ((sq_nonneg _).trans_eq hform)
      refine (mul_self_inj hnonneg hpos).mp ?_
      rw [hroot, ← hform, sq]

end Agglomeration

end BlockAffinity
