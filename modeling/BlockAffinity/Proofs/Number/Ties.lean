import BlockAffinity.Proofs.Number.Counting
import BlockAffinity.Proofs.Number.NeutralZero

/-!
# BlockAffinity.Proofs.Number.Ties

**Minima that do not depend on the order.** A minimum prefers numbers to NaN and lesser numbers to
greater ones, and keeps the first of two values that tie (`Tied`). So the minimum of a list is one of
its members than which none is better (`IsMinimum`), and lists with the same members have minima that
tie (`IsMinimum.tied`). With doubles these may still be zeros of different sign, but nothing else
(`SignedZeros`).
-/

namespace BlockAffinity

open Scalar OrderedScalar

/-- Neither value is better as a minimum: both are NaN, or both are numbers and neither is less. -/
def Tied {α : Type} [Scalar α] (a b : α) : Prop :=
  isNaN a = isNaN b ∧ lt a b = false ∧ lt b a = false

/-- Scalars in which values that tie are equal, unless they are zeros; what kind of zero is subtracted
from makes no difference. -/
class SignedZeros (α : Type) [Scalar α] : Prop extends OrderedScalar α where
  minimum_eq : ∀ a b : α, minimum a b = if isNaN a then b else if lt b a then b else a
  maximum_eq : ∀ a b : α, maximum a b = if isNaN a then b else if lt a b then b else a
  eq_of_tied : ∀ {a b : α}, Tied a b → a = b ∨ (eq a zero = true ∧ eq b zero = true)
  sub_of_zeros : ∀ {a b c : α}, eq a zero = true → eq b zero = true → eq c zero = false →
    a - c = b - c

/-! ### The least of a list -/

section least

variable {α : Type} [Scalar α] {xs ys : List α} {a b c : α}

/-- The minimum of a list, taken from the first element to the last. -/
def leastOf (xs : List α) : Option α :=
  xs.foldl (fun least x => some (match least with
    | none => x
    | some value => minimum value x)) none

/-- A member of a list than which no other member is better. -/
def IsMinimum (xs : List α) (b : α) : Prop :=
  b ∈ xs ∧ ∀ x ∈ xs, lt x b = false ∧ (isNaN b = true → isNaN x = true)

theorem leastOf_concat (xs : List α) (x : α) :
    leastOf (xs ++ [x]) = some (match leastOf xs with
      | none => x
      | some value => minimum value x) := by
  rw [leastOf, List.foldl_append]
  rfl

theorem leastOf_eq_none_iff : leastOf xs = none ↔ xs = [] := by
  induction xs using List.reverseRecOn with
  | nil => exact iff_of_true rfl rfl
  | append_singleton xs x => simp [leastOf_concat]

theorem lt_of_isNaN [OrderedScalar α] (ha : isNaN a = true) (b : α) : lt a b = false := by
  cases hlt : lt a b with
  | false => rfl
  | true =>
      rw [(number_of_lt hlt).1] at ha
      exact absurd ha Bool.false_ne_true

variable [SignedZeros α]

theorem isMinimum_singleton (x : α) : IsMinimum [x] x :=
  ⟨List.mem_singleton_self x, fun y hy => by
    rw [List.mem_singleton.mp hy]
    exact ⟨lt_irrefl x, id⟩⟩

theorem IsMinimum.concat (h : IsMinimum xs b) (x : α) : IsMinimum (xs ++ [x]) (minimum b x) := by
  obtain ⟨hb, hleast⟩ := h
  have hlast : x ∈ xs ++ [x] := List.mem_append_right _ (List.mem_singleton_self x)
  rw [SignedZeros.minimum_eq]
  split
  · -- nothing but NaN so far
    rename_i hnan
    refine ⟨hlast, fun y hy => ?_⟩
    rcases List.mem_append.mp hy with hy | hy
    · have hy := (hleast y hy).2 hnan
      exact ⟨lt_of_isNaN hy x, fun _ => hy⟩
    · rw [List.mem_singleton.mp hy]
      exact ⟨lt_irrefl x, id⟩
  · rename_i hnumber
    split
    · rename_i hlt
      refine ⟨hlast, fun y hy => ⟨?_, fun hx => ?_⟩⟩
      · rcases List.mem_append.mp hy with hy | hy
        · cases hyx : lt y x with
          | false => rfl
          | true => rw [← lt_trans hyx hlt, (hleast y hy).1]
        · rw [List.mem_singleton.mp hy]
          exact lt_irrefl x
      · rw [(number_of_lt hlt).1] at hx
        exact absurd hx Bool.false_ne_true
    · rename_i hnot
      refine ⟨List.mem_append_left _ hb, fun y hy => ?_⟩
      rcases List.mem_append.mp hy with hy | hy
      · exact hleast y hy
      · rw [List.mem_singleton.mp hy]
        exact ⟨eq_false_of_ne_true hnot, fun hnan => absurd hnan hnumber⟩

/-- **The minimum of a list** is a member than which none is better. -/
theorem isMinimum_of_leastOf (h : leastOf xs = some b) : IsMinimum xs b := by
  induction xs using List.reverseRecOn generalizing b with
  | nil => cases h
  | append_singleton xs x ih =>
      rw [leastOf_concat] at h
      obtain rfl := Option.some.inj h
      cases hleast : leastOf xs with
      | none =>
          rw [leastOf_eq_none_iff.mp hleast]
          exact isMinimum_singleton x
      | some value => exact (ih hleast).concat x

omit [SignedZeros α] in
/-- **Lists with the same members** have minima that tie. -/
theorem IsMinimum.tied (hb : IsMinimum xs b) (hc : IsMinimum ys c) (h : ∀ x, x ∈ xs ↔ x ∈ ys) :
    Tied b c := by
  obtain ⟨hbc, hnan⟩ := hc.2 b ((h b).mp hb.1)
  obtain ⟨hcb, hnan'⟩ := hb.2 c ((h c).mpr hc.1)
  exact ⟨Bool.eq_iff_iff.mpr ⟨hnan', hnan⟩, hbc, hcb⟩

end least

theorem Tied.symm {α : Type} [Scalar α] {a b : α} (h : Tied a b) : Tied b a :=
  ⟨h.1.symm, h.2.2, h.2.1⟩

/-- What is less than one of two values that tie is less than the other. -/
theorem Tied.lt_eq {α : Type} [Scalar α] [OrderedScalar α] {b c : α} (h : Tied b c) (a : α) :
    lt a b = lt a c := by
  have hlt {b c : α} (h : Tied b c) (hab : lt a b = true) : lt a c = true :=
    lt_of_lt_of_not_lt (h.1.symm.trans (number_of_lt hab).2) hab h.2.2
  exact Bool.eq_iff_iff.mpr ⟨hlt h, hlt h.symm⟩

/-! ### Doubles -/

namespace Double

open Float.Model Float.Model.UnpackedFloat

theorem eq_zero_iff {x : Float} : Scalar.eq x Scalar.zero = true ↔ ∃ s, unpacked x = .zero s := by
  have hzero : unpacked (Scalar.zero : Float) = .zero .positive := by rfl
  rw [eq_eq, hzero]
  rcases unpacked x with ⟨⟨⟩⟩ | _ | s | ⟨⟨⟩, m, e, hm⟩ <;> simp [UnpackedFloat.beq, UnpackedFloat.compare]

theorem unpacked_sub (x y : Float) : unpacked (x - y) =
    (Float.Model.pack (UnpackedFloat.sub .binary64 (unpacked x) (unpacked y))).unpack :=
  rfl

instance : SignedZeros Float where
  minimum_eq a b := by
    show (if a.isNaN then b else if b < a then b else a) =
      if a.isNaN then b else if decide (b < a) then b else a
    simp only [decide_eq_true_eq]
  maximum_eq a b := by
    show (if a.isNaN then b else if a < b then b else a) =
      if a.isNaN then b else if decide (a < b) then b else a
    simp only [decide_eq_true_eq]
  eq_of_tied := by
    intro a b h
    obtain ⟨hnan, hab, hba⟩ := h
    cases ha : (unpacked a).isNaN with
    | true =>
        have hb : (unpacked b).isNaN = true := hnan.symm.trans ha
        refine .inl (ext_unpacked ?_)
        cases hua : unpacked a <;> cases hub : unpacked b <;> simp_all [UnpackedFloat.isNaN]
    | false =>
        have hb : (unpacked b).isNaN = false := hnan.symm.trans ha
        rcases alike_of_rank ha hb (le_antisymm ((lt_eq_false_iff hb ha).mp hba)
          ((lt_eq_false_iff ha hb).mp hab)) with heq | ⟨s, t, hs, ht⟩
        · exact .inl (ext_unpacked heq)
        · exact .inr ⟨eq_zero_iff.mpr ⟨s, hs⟩, eq_zero_iff.mpr ⟨t, ht⟩⟩
  sub_of_zeros := by
    intro a b c ha hb hc
    obtain ⟨s, hs⟩ := eq_zero_iff.mp ha
    obtain ⟨t, ht⟩ := eq_zero_iff.mp hb
    refine ext_unpacked ?_
    rw [unpacked_sub, unpacked_sub, hs, ht]
    cases huc : unpacked c with
    | zero u => rw [eq_zero_iff.mpr ⟨u, huc⟩] at hc; cases hc
    | notANumber => rfl
    | infinity u => rfl
    | finite u m e hm => rfl

end Double

/-! ### Exact numbers -/

instance {K : Type} [ExactField K] : SignedZeros K where
  minimum_eq a b := by
    show min a b = if (false : Bool) then b else if decide (b < a) then b else a
    simp only [decide_eq_true_eq, min_comm a b, min_def_lt, Bool.false_eq_true, if_false]
  maximum_eq a b := by
    show max a b = if (false : Bool) then b else if decide (a < b) then b else a
    simp only [decide_eq_true_eq, max_def_lt, Bool.false_eq_true, if_false]
  eq_of_tied := by
    intro a b h
    exact .inl (le_antisymm (not_lt.mp (of_decide_eq_false h.2.2))
      (not_lt.mp (of_decide_eq_false h.2.1)))
  sub_of_zeros := by
    intro a b c ha hb _
    rw [of_decide_eq_true ha, of_decide_eq_true hb]

end BlockAffinity
