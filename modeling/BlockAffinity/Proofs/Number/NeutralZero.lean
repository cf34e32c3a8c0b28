import BlockAffinity.Proofs.Number.Exact
import BlockAffinity.Proofs.Number.Rational

/-!
# BlockAffinity.Proofs.Number.NeutralZero

**Sums in which zeros do not count.** What is added up here is not negative, and two values count as
the same if they are equal up to the sign of zero (`Same`). `NeutralZero` says that equal values are
added to equal sums, that adding zero changes nothing and that the minimum is one of its arguments;
doubles obey these laws, also where a sum overflows, and so do exact numbers.

* `same_minimum_comm`, `same_minimum_zero`: the minimum is symmetric, and zero against zero.
* `same_sum_filter`: terms that are zero may be left out of a sum.
-/

namespace BlockAffinity

open Scalar OrderedScalar

/-- Two values that are not negative and equal, where zeros of both signs count as equal. -/
def Same {α : Type} [Scalar α] (a b : α) : Prop := le zero a = true ∧ le zero b = true ∧ eq a b = true

/-- Scalars in which zero is neutral, up to its sign. -/
class NeutralZero (α : Type) [Scalar α] : Prop extends OrderedScalar α where
  same_start : Same (sumStart : α) zero
  minimum_eq : ∀ {a : α}, isNaN a = false → ∀ b, minimum a b = if lt b a then b else a
  same_add : ∀ {a a' b b' : α}, Same a a' → Same b b' → Same (a + b) (a' + b')
  same_add_zero : ∀ {a : α}, le zero a = true → Same (a + zero) a

section laws

variable {α ι : Type} [Scalar α] [NeutralZero α] {a b c : α}

theorem Same.refl (h : le zero a = true) : Same a a := by
  have ha : isNaN a = false := (le_iff.mp h).2.1
  exact ⟨h, h, (eq_iff ha ha).mpr ⟨lt_irrefl a, lt_irrefl a⟩⟩

theorem Same.symm (h : Same a b) : Same b a := by
  obtain ⟨ha, hb, heq⟩ := h
  have hna : isNaN a = false := (le_iff.mp ha).2.1
  have hnb : isNaN b = false := (le_iff.mp hb).2.1
  exact ⟨hb, ha, (eq_iff hnb hna).mpr ((eq_iff hna hnb).mp heq).symm⟩

theorem Same.trans (h : Same a b) (h' : Same b c) : Same a c := by
  obtain ⟨ha, hb, heq⟩ := h
  obtain ⟨-, hc, heq'⟩ := h'
  have hna : isNaN a = false := (le_iff.mp ha).2.1
  have hnb : isNaN b = false := (le_iff.mp hb).2.1
  have hnc : isNaN c = false := (le_iff.mp hc).2.1
  obtain ⟨hab, hba⟩ := (eq_iff hna hnb).mp heq
  obtain ⟨hbc, hcb⟩ := (eq_iff hnb hnc).mp heq'
  exact ⟨ha, hc, (eq_iff hna hnc).mpr ⟨not_lt_trans hnb hab hbc, not_lt_trans hnb hcb hba⟩⟩

theorem zero_le_zero : le (zero : α) zero = true := NeutralZero.same_start.2.1

/-- Adding zero of either sign. -/
theorem same_add_of_zero (h : Same a c) (hb : Same b zero) : Same (a + b) c :=
  ((NeutralZero.same_add h hb).trans (NeutralZero.same_add_zero h.2.1))

theorem same_minimum_comm (ha : le zero a = true) (hb : le zero b = true) :
    Same (minimum a b) (minimum b a) := by
  have hna : isNaN a = false := (le_iff.mp ha).2.1
  have hnb : isNaN b = false := (le_iff.mp hb).2.1
  rw [NeutralZero.minimum_eq hna, NeutralZero.minimum_eq hnb]
  cases hba : lt b a with
  | true =>
      rw [lt_asymm hba]
      exact .refl hb
  | false =>
      cases hab : lt a b with
      | true => exact .refl ha
      | false => exact ⟨ha, hb, (eq_iff hna hnb).mpr ⟨hab, hba⟩⟩

theorem same_minimum_zero (ha : le zero a = true) : Same (minimum a zero) zero := by
  have hna : isNaN a = false := (le_iff.mp ha).2.1
  rw [NeutralZero.minimum_eq hna]
  cases hlt : lt zero a with
  | true => exact .refl zero_le_zero
  | false =>
      have hnz : isNaN (zero : α) = false := (le_iff.mp ha).1
      exact ⟨ha, zero_le_zero, (eq_iff hna hnz).mpr ⟨(le_iff.mp ha).2.2, hlt⟩⟩

/-! ### Sums -/

theorem same_foldl_filter {f g : ι → α} {keep : ι → Bool} {xs : List ι}
    (hkeep : ∀ x ∈ xs, keep x = true → Same (f x) (g x))
    (hskip : ∀ x ∈ xs, keep x = false → Same (f x) zero) {start start' : α}
    (hstart : Same start start') :
    Same ((xs.map f).foldl (· + ·) start) (((xs.filter keep).map g).foldl (· + ·) start') := by
  induction xs generalizing start start' with
  | nil => exact hstart
  | cons x xs ih =>
      rw [List.forall_mem_cons] at hkeep hskip
      cases hx : keep x with
      | true =>
          simp only [List.map_cons, List.filter_cons, hx, if_true, List.foldl_cons]
          exact ih hkeep.2 hskip.2 (NeutralZero.same_add hstart (hkeep.1 hx))
      | false =>
          simp only [List.map_cons, List.filter_cons, hx, Bool.false_eq_true, if_false,
            List.foldl_cons]
          exact ih hkeep.2 hskip.2 (same_add_of_zero hstart (hskip.1 hx))

/-- **Terms that are zero may be left out of a sum**, and the others exchanged for equal ones. -/
theorem same_sum_filter {f g : ι → α} {keep : ι → Bool} {xs : List ι}
    (hkeep : ∀ x ∈ xs, keep x = true → Same (f x) (g x))
    (hskip : ∀ x ∈ xs, keep x = false → Same (f x) zero) :
    Same (sum (xs.map f)) (sum ((xs.filter keep).map g)) :=
  same_foldl_filter hkeep hskip (.refl NeutralZero.same_start.1)

theorem same_sum {f g : ι → α} {xs : List ι} (h : ∀ x ∈ xs, Same (f x) (g x)) :
    Same (sum (xs.map f)) (sum (xs.map g)) := by
  have hall : xs.filter (fun _ => true) = xs := List.filter_eq_self.mpr fun _ _ => rfl
  have hsum : Same (sum (xs.map f)) (sum ((xs.filter fun _ => true).map g)) :=
    same_sum_filter (fun x hx _ => h x hx) fun _ _ => nofun
  rwa [hall] at hsum

end laws

/-! ### Doubles -/

namespace Double

open Float.Model Float.Model.UnpackedFloat

/-- Equal up to the sign of zero. -/
def Alike (u v : UnpackedFloat) : Prop := u = v ∨ ∃ s t, u = .zero s ∧ v = .zero t

theorem alike_of_rank {u v : UnpackedFloat} (hu : u.isNaN = false) (hv : v.isNaN = false)
    (h : rank u = rank v) : Alike u v := by
  rcases u with ⟨⟨⟩⟩ | _ | s | ⟨⟨⟩, m, e, hm⟩ <;> rcases v with ⟨⟨⟩⟩ | _ | t | ⟨⟨⟩, k, f, hk⟩ <;>
    simp_all [rank, Alike, UnpackedFloat.isNaN]

theorem Alike.add (spec : Format) {u u' v v' : UnpackedFloat} (h : Alike u u') (h' : Alike v v') :
    Alike (UnpackedFloat.add spec u v) (UnpackedFloat.add spec u' v') := by
  have hzeros (s s' t t' : Sign) : Alike (UnpackedFloat.add spec (.zero s) (.zero t))
      (UnpackedFloat.add spec (.zero s') (.zero t')) := by
    cases s <;> cases s' <;> cases t <;> cases t' <;> exact .inr ⟨_, _, rfl, rfl⟩
  have hleft (s s' : Sign) (v : UnpackedFloat) :
      Alike (UnpackedFloat.add spec (.zero s) v) (UnpackedFloat.add spec (.zero s') v) := by
    cases v with
    | zero t => exact hzeros s s' t t
    | notANumber => exact .inl rfl
    | infinity t => exact .inl rfl
    | finite t m e hm => exact .inl rfl
  have hright (t t' : Sign) (u : UnpackedFloat) :
      Alike (UnpackedFloat.add spec u (.zero t)) (UnpackedFloat.add spec u (.zero t')) := by
    cases u with
    | zero s => exact hzeros s s t t'
    | notANumber => exact .inl rfl
    | infinity s => exact .inl rfl
    | finite s m e hm => exact .inl rfl
  rcases h with rfl | ⟨s, s', rfl, rfl⟩ <;> rcases h' with rfl | ⟨t, t', rfl, rfl⟩
  · exact .inl rfl
  · exact hright t t' u
  · exact hleft s s' v
  · exact hzeros s s' t t'

theorem Alike.pack {u v : UnpackedFloat} (h : Alike u v) :
    Alike (Float.Model.pack u).unpack (Float.Model.pack v).unpack := by
  rcases h with rfl | ⟨s, t, rfl, rfl⟩
  · exact .inl rfl
  · exact .inr ⟨s, t, by cases s <;> rfl, by cases t <;> rfl⟩

/-- A double survives unpacking and packing. -/
theorem unpack_pack_unpacked (x : Float) : (Float.Model.pack (unpacked x)).unpack = unpacked x := by
  cases hx : unpacked x with
  | notANumber => rfl
  | infinity s => cases s <;> rfl
  | zero s => cases s <;> rfl
  | finite s m e hm =>
      have hcanonical := canonical_unpacked x
      have hencodable := encodable_unpacked x
      rw [hx] at hcanonical hencodable
      exact unpack_pack_of_canonical rfl hcanonical hencodable

theorem zero_le_iff {x : Float} : Scalar.le Scalar.zero x = true ↔ IsDistance x := by
  rw [le_iff, isDistance_iff]
  exact ⟨fun h => h.2, fun h => ⟨rfl, h⟩⟩

theorem same_iff {x y : Float} :
    Same x y ↔ IsDistance x ∧ IsDistance y ∧ Alike (unpacked x) (unpacked y) := by
  rw [Same, zero_le_iff, zero_le_iff]
  refine and_congr_right fun hx => and_congr_right fun hy => ?_
  have hnx : (unpacked x).isNaN = false := (isDistance_iff.mp hx).1
  have hny : (unpacked y).isNaN = false := (isDistance_iff.mp hy).1
  have hrank : eq x y = true ↔ rank (unpacked x) = rank (unpacked y) := by
    rw [eq_iff hnx hny, lt_eq_false_iff hnx hny, lt_eq_false_iff hny hnx]
    exact ⟨fun h => le_antisymm h.2 h.1, fun h => ⟨h.ge, h.le⟩⟩
  rw [hrank]
  constructor
  · exact alike_of_rank hnx hny
  · intro halike
    rcases halike with heq | ⟨s, t, hs, ht⟩
    · rw [heq]
    · rw [hs, ht]
      rfl

theorem unpacked_add (x y : Float) : unpacked (x + y) =
    (Float.Model.pack (UnpackedFloat.add .binary64 (unpacked x) (unpacked y))).unpack :=
  rfl

theorem unpacked_add_zero (x : Float) : Alike (unpacked (x + Scalar.zero)) (unpacked x) := by
  have hzero : unpacked (Scalar.zero : Float) = .zero .positive := by rfl
  have hadd : Alike (UnpackedFloat.add .binary64 (unpacked x) (.zero .positive)) (unpacked x) := by
    cases unpacked x with
    | zero s => cases s <;> exact .inr ⟨_, _, rfl, rfl⟩
    | notANumber => exact .inl rfl
    | infinity s => exact .inl rfl
    | finite s m e hm => exact .inl rfl
  have hpacked := hadd.pack
  rwa [unpack_pack_unpacked, ← hzero, ← unpacked_add] at hpacked

instance : NeutralZero Float where
  same_start := same_iff.mpr ⟨trivial, trivial, .inr ⟨_, _, rfl, rfl⟩⟩
  minimum_eq := by
    intro a ha b
    have ha' : a.isNaN ≠ true := ne_true_of_eq_false ha
    show (if a.isNaN then b else if b < a then b else a) = if decide (b < a) then b else a
    simp only [if_neg ha', decide_eq_true_eq]
  same_add := by
    intro a a' b b' ha hb
    rw [same_iff] at ha hb ⊢
    exact ⟨ha.1.add hb.1, ha.2.1.add hb.2.1, (ha.2.2.add _ hb.2.2).pack⟩
  same_add_zero := by
    intro a ha
    rw [zero_le_iff] at ha
    exact same_iff.mpr ⟨ha.add isDistance_zero, ha, unpacked_add_zero a⟩

end Double

/-! ### Exact numbers -/

theorem ExactField.same_iff {K : Type} [ExactField K] {a b : K} : Same a b ↔ 0 ≤ a ∧ a = b := by
  simp only [Same, le, eq, zero, decide_eq_true_eq]
  constructor
  · intro h
    exact ⟨h.1, h.2.2⟩
  · rintro ⟨ha, rfl⟩
    exact ⟨ha, ha, rfl⟩

instance {K : Type} [ExactField K] : NeutralZero K where
  same_start := ExactField.same_iff.mpr ⟨le_rfl, rfl⟩
  minimum_eq := by
    intro a _ b
    show min a b = if decide (b < a) then b else a
    simp only [decide_eq_true_eq, min_comm a b, min_def_lt]
  same_add := by
    intro a a' b b' ha hb
    rw [ExactField.same_iff] at ha hb ⊢
    exact ⟨add_nonneg ha.1 hb.1, by rw [ha.2, hb.2]⟩
  same_add_zero := by
    intro a ha
    exact ExactField.same_iff.mpr ⟨(of_decide_eq_true ha).trans_eq (add_zero a).symm, add_zero a⟩

end BlockAffinity
