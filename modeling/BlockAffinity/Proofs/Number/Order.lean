import BlockAffinity.Scalar
import Mathlib.Data.List.Induction

/-!
# BlockAffinity.Proofs.Number.Order

**Scalars whose comparisons order them.** `OrderedScalar` says that `lt`, `le` and `eq` are the
comparisons of one total preorder on all values that are not NaN, and that nothing holds of a NaN.
Doubles are such scalars, and so are exact numbers.

`firstLeast` is the choice that every search for a closest cluster makes: of the elements with the
least key the first one. Which element that is, is said by splitting the list there
(`firstLeast_split`).
-/

namespace BlockAffinity

open Scalar

/-- Scalars whose comparisons are those of a total preorder on the values other than NaN. -/
class OrderedScalar (α : Type) [Scalar α] : Prop where
  /-- Nothing is smaller or larger than a NaN. -/
  number_of_lt : ∀ {a b : α}, lt a b = true → isNaN a = false ∧ isNaN b = false
  lt_asymm : ∀ {a b : α}, lt a b = true → lt b a = false
  /-- A number cannot lie both at or below the lower and at or above the upper of two values. -/
  lt_cotrans : ∀ {a b c : α}, isNaN b = false → lt a c = true → lt a b = true ∨ lt b c = true
  eq_iff : ∀ {a b : α}, isNaN a = false → isNaN b = false →
    (eq a b = true ↔ lt a b = false ∧ lt b a = false)
  le_iff : ∀ {a b : α}, le a b = true ↔ isNaN a = false ∧ isNaN b = false ∧ lt b a = false

namespace OrderedScalar

variable {α : Type} [Scalar α] [OrderedScalar α] {a b c : α}

theorem lt_irrefl (a : α) : lt a a = false := by
  cases h : lt a a with
  | false => rfl
  | true => rw [← h, lt_asymm h]

theorem lt_trans (hab : lt a b = true) (hbc : lt b c = true) : lt a c = true := by
  rcases lt_cotrans (number_of_lt hbc).2 hab with h | h
  · exact h
  · rw [lt_asymm hbc] at h
    exact absurd h (by simp)

/-- From `a < b` and `b ≤ c` to `a < c`. -/
theorem lt_of_lt_of_not_lt (hc : isNaN c = false) (hab : lt a b = true) (hcb : lt c b = false) :
    lt a c = true := by
  rcases lt_cotrans hc hab with h | h
  · exact h
  · rw [hcb] at h
    exact absurd h (by simp)

/-- From `a ≤ b` and `b < c` to `a < c`. -/
theorem lt_of_not_lt_of_lt (ha : isNaN a = false) (hba : lt b a = false) (hbc : lt b c = true) :
    lt a c = true := by
  rcases lt_cotrans ha hbc with h | h
  · rw [hba] at h
    exact absurd h (by simp)
  · exact h

/-- From `c ≤ b` and `b ≤ a` to `c ≤ a`. -/
theorem not_lt_trans (hb : isNaN b = false) (hab : lt a b = false) (hbc : lt b c = false) :
    lt a c = false := by
  cases hac : lt a c with
  | false => rfl
  | true =>
      rcases lt_cotrans hb hac with h | h
      · rw [← h, hab]
      · rw [← h, hbc]

theorem lt_of_le_of_lt (hab : le a b = true) (hbc : lt b c = true) : lt a c = true := by
  obtain ⟨ha, -, hba⟩ := le_iff.mp hab
  exact lt_of_not_lt_of_lt ha hba hbc

end OrderedScalar

/-! ### The first of the least -/

variable {α ι : Type} [Scalar α]

/-- The nearer of the best so far and the next element, the best so far on a tie. -/
def lesserOf (key : ι → α) (best : Option ι) (x : ι) : Option ι :=
  match best with
  | none => some x
  | some y => if lt (key x) (key y) then some x else some y

/-- The first of the elements with the least key. -/
def firstLeast (key : ι → α) (xs : List ι) : Option ι := xs.foldl (lesserOf key) none

theorem firstLeast_concat (key : ι → α) (xs : List ι) (z : ι) :
    firstLeast key (xs ++ [z]) = lesserOf key (firstLeast key xs) z := by
  simp [firstLeast]

/-- Whatever the comparisons say, one of the elements is chosen. -/
theorem firstLeast_cases (key : ι → α) (xs : List ι) :
    (firstLeast key xs = none ∧ xs = []) ∨ ∃ x ∈ xs, firstLeast key xs = some x := by
  induction xs using List.reverseRecOn with
  | nil => exact Or.inl ⟨rfl, rfl⟩
  | append_singleton xs z ih =>
      refine Or.inr ?_
      rw [firstLeast_concat]
      rcases ih with ⟨hnone, -⟩ | ⟨y, hy, hsome⟩
      · exact ⟨z, by simp, by rw [hnone, lesserOf]⟩
      · rw [hsome, lesserOf]
        split
        · exact ⟨z, by simp, rfl⟩
        · exact ⟨y, by simp [hy], rfl⟩

theorem firstLeast_eq_none_iff {key : ι → α} {xs : List ι} :
    firstLeast key xs = none ↔ xs = [] := by
  rcases firstLeast_cases key xs with ⟨hnone, hnil⟩ | ⟨x, hx, hsome⟩
  · exact ⟨fun _ => hnil, fun _ => hnone⟩
  · simp [hsome, List.ne_nil_of_mem hx]

theorem mem_of_firstLeast {key : ι → α} {xs : List ι} {x : ι} (h : firstLeast key xs = some x) :
    x ∈ xs := by
  rcases firstLeast_cases key xs with ⟨hnone, -⟩ | ⟨y, hy, hsome⟩
  · rw [hnone] at h
    exact absurd h (by simp)
  · rw [hsome] at h
    exact Option.some.inj h ▸ hy

open OrderedScalar in
/-- Everything before the chosen element is larger, and nothing after it is smaller. -/
theorem firstLeast_split [OrderedScalar α] {key : ι → α} {xs : List ι} {x : ι}
    (hkey : ∀ y ∈ xs, isNaN (key y) = false) (h : firstLeast key xs = some x) :
    ∃ before after, xs = before ++ x :: after ∧
      (∀ y ∈ before, lt (key x) (key y) = true) ∧ ∀ y ∈ after, lt (key y) (key x) = false := by
  induction xs using List.reverseRecOn generalizing x with
  | nil => simp [firstLeast] at h
  | append_singleton xs z ih =>
      rw [firstLeast_concat] at h
      have hxs : ∀ y ∈ xs, isNaN (key y) = false := fun y hy => hkey y (by simp [hy])
      rcases firstLeast_cases key xs with ⟨hnone, rfl⟩ | ⟨y, -, hsome⟩
      · rw [hnone, lesserOf, Option.some.injEq] at h
        subst h
        exact ⟨[], [], by simp⟩
      · obtain ⟨before, after, rfl, hbefore, hafter⟩ := ih hxs hsome
        rw [hsome, lesserOf] at h
        by_cases hlt : lt (key z) (key y) = true
        · rw [if_pos hlt, Option.some.injEq] at h
          subst h
          -- the new element is less than the least one so far, and so less than all
          refine ⟨before ++ y :: after, [], by simp, ?_, by simp⟩
          intro w hw
          rcases List.mem_append.mp hw with hw | hw
          · exact lt_trans hlt (hbefore w hw)
          · rcases List.mem_cons.mp hw with rfl | hw'
            · exact hlt
            · exact lt_of_lt_of_not_lt (hxs w (by simp [hw'])) hlt (hafter w hw')
        · rw [if_neg hlt, Option.some.injEq] at h
          subst h
          -- the least one so far stays, also on a tie
          refine ⟨before, after ++ [z], by simp, hbefore, ?_⟩
          intro w hw
          rcases List.mem_append.mp hw with hw | hw
          · exact hafter w hw
          · rw [List.mem_singleton.mp hw]
            simpa using hlt

end BlockAffinity
