import BlockAffinity.Linkage.Forest
import Mathlib.Data.Finset.Card
import Mathlib.Data.Finset.Image

/-!
# BlockAffinity.Proofs.Linkage.Classes

**Forests as classes of numbers.** `rootOf` is the root of a number without any walk: two numbers
are in one class if they have the same root. A walk returns the root and leaves all roots as they
are (`find_spec`), and linking two roots joins their classes and no others (`rootOf_link_eq_iff`).
If the two roots differ, there is one class less (`card_classes_link`).
-/

namespace BlockAffinity.Forest

/-- The root of the class of `x`. -/
def rootOf (f : Forest) (x : Nat) : Nat :=
  if f.up x = x then x else f.rootOf (f.up x)
termination_by x
decreasing_by
  have hle := f.up_le x
  omega

variable {f : Forest} {x y z : Nat}

theorem rootOf_of_up_eq (h : f.up x = x) : f.rootOf x = x := by
  rw [rootOf, if_pos h]

theorem rootOf_of_up_ne (h : f.up x ≠ x) : f.rootOf x = f.rootOf (f.up x) := by
  rw [rootOf, if_neg h]

theorem rootOf_up (f : Forest) (x : Nat) : f.rootOf (f.up x) = f.rootOf x := by
  by_cases h : f.up x = x
  · rw [h]
  · exact (rootOf_of_up_ne h).symm

theorem up_lt (h : f.up x ≠ x) : f.up x < x := Nat.lt_of_le_of_ne (f.up_le x) h

/-- A root points to itself. -/
theorem up_rootOf (f : Forest) (x : Nat) : f.up (f.rootOf x) = f.rootOf x := by
  induction x using Nat.strongRecOn with
  | ind x ih =>
      by_cases h : f.up x = x
      · rw [rootOf_of_up_eq h, h]
      · rw [rootOf_of_up_ne h]
        exact ih _ (up_lt h)

theorem rootOf_rootOf (f : Forest) (x : Nat) : f.rootOf (f.rootOf x) = f.rootOf x :=
  rootOf_of_up_eq (f.up_rootOf x)

theorem rootOf_le (f : Forest) (x : Nat) : f.rootOf x ≤ x := by
  induction x using Nat.strongRecOn with
  | ind x ih =>
      by_cases h : f.up x = x
      · rw [rootOf_of_up_eq h]
      · rw [rootOf_of_up_ne h]
        exact (ih _ (up_lt h)).trans (f.up_le x)

theorem up_of_size_le (h : f.size ≤ x) : f.up x = x := by
  simp [up, Array.getD_eq_getD_getElem?, Array.getElem?_eq_none h]

theorem lt_size_of_up_ne (h : f.up x ≠ x) : x < f.size := by
  by_contra hge
  exact h (up_of_size_le (Nat.le_of_not_lt hge))

theorem up_redirect (hx : x < f.size) (h : y ≤ x) :
    (f.redirect x y h).up z = if z = x then y else f.up z := by
  have hx' : x < f.parent.size := hx
  simp only [up, redirect, Array.getD_eq_getD_getElem?]
  by_cases hz : z = x
  · subst hz
    simp [hx']
  · rw [if_neg hz, Array.getElem?_setIfInBounds_ne (Ne.symm hz)]

@[simp] theorem rootOf_discrete (n x : Nat) : (discrete n).rootOf x = x := by
  refine rootOf_of_up_eq ?_
  by_cases hx : x < n <;> simp [discrete, up, Array.getD_eq_getD_getElem?, hx]

/-! ### Walks -/

/-- A number that is not a root may point to any smaller number of its class. -/
theorem rootOf_redirect (hx : f.up x ≠ x) (hlt : y < x) (hroot : f.rootOf y = f.rootOf x)
    (z : Nat) : (f.redirect x y hlt.le).rootOf z = f.rootOf z := by
  have hsize := lt_size_of_up_ne hx
  induction z using Nat.strongRecOn with
  | ind z ih =>
      by_cases hz : z = x
      · subst hz
        have hup : (f.redirect z y hlt.le).up z = y := by rw [up_redirect hsize, if_pos rfl]
        rw [rootOf_of_up_ne (by rw [hup]; exact hlt.ne), hup, ih y hlt, hroot]
      · have hup : (f.redirect x y hlt.le).up z = f.up z := by rw [up_redirect hsize, if_neg hz]
        by_cases hself : f.up z = z
        · rw [rootOf_of_up_eq (hup.trans hself), rootOf_of_up_eq hself]
        · rw [rootOf_of_up_ne (by rwa [hup]), hup, ih _ (up_lt hself), rootOf_up]

/-- A walk ends at the root, keeps all roots, and keeps the size. -/
theorem find_spec (f : Forest) (x : Nat) :
    (f.find x).1 = f.rootOf x ∧ (f.find x).2.rootOf = f.rootOf ∧
      (f.find x).2.size = f.size := by
  fun_induction f.find x with
  | case1 f x h => exact ⟨(rootOf_of_up_eq h).symm, rfl, rfl⟩
  | case2 f x h next ih =>
      obtain ⟨hroot, hroots, hsize⟩ := ih
      have hlt : next < x := (f.up_le _).trans_lt (up_lt h)
      have hsame : f.rootOf next = f.rootOf x := (f.rootOf_up _).trans (f.rootOf_up x)
      have hkept : (f.redirect x next hlt.le).rootOf = f.rootOf :=
        funext (rootOf_redirect h hlt hsame)
      refine ⟨?_, hroots.trans hkept, hsize.trans (size_redirect f x next hlt.le)⟩
      rw [hroot, hkept, hsame]

/-! ### Links -/

section link

variable {a b : Nat}

/-- After linking two roots, the larger one has given its class to the smaller one. -/
theorem rootOf_link (ha : f.up a = a) (hb : f.up b = b) (halt : a < f.size) (hblt : b < f.size)
    (z : Nat) :
    (f.link a b).rootOf z = if f.rootOf z = max a b then min a b else f.rootOf z := by
  have hsize : max a b < f.size := max_lt halt hblt
  have hmax : f.up (max a b) = max a b := by
    rcases max_choice a b with h | h <;> rw [h] <;> assumption
  have hmin : f.up (min a b) = min a b := by
    rcases min_choice a b with h | h <;> rw [h] <;> assumption
  -- only the larger root points to something else than before
  have hup : ∀ w, (f.link a b).up w = if w = max a b then min a b else f.up w :=
    fun w => up_redirect hsize _
  have hminroot : (f.link a b).rootOf (min a b) = min a b := by
    refine rootOf_of_up_eq ?_
    rw [hup, hmin]
    split <;> rfl
  induction z using Nat.strongRecOn with
  | ind z ih =>
      by_cases hz : z = max a b
      · subst hz
        rw [rootOf_of_up_eq hmax, if_pos rfl, ← rootOf_up, hup, if_pos rfl, hminroot]
      · by_cases hself : f.up z = z
        · rw [rootOf_of_up_eq hself, if_neg hz, rootOf_of_up_eq]
          rw [hup, if_neg hz, hself]
        · rw [← rootOf_up, hup, if_neg hz, ih _ (up_lt hself), rootOf_up]

/-- **Linking joins two classes** and keeps all others apart. -/
theorem rootOf_link_eq_iff (ha : f.up a = a) (hb : f.up b = b) (halt : a < f.size)
    (hblt : b < f.size) :
    (f.link a b).rootOf x = (f.link a b).rootOf y ↔ f.rootOf x = f.rootOf y ∨
      ((f.rootOf x = a ∨ f.rootOf x = b) ∧ (f.rootOf y = a ∨ f.rootOf y = b)) := by
  rw [rootOf_link ha hb halt hblt, rootOf_link ha hb halt hblt]
  split <;> split <;> omega

/-- The roots of a forest. -/
def classes (f : Forest) : Finset Nat := (Finset.range f.size).image f.rootOf

/-- Joining classes does not make more of them. -/
theorem card_classes_le {f g : Forest} (hsize : g.size = f.size)
    (h : ∀ x y, f.rootOf x = f.rootOf y → g.rootOf x = g.rootOf y) :
    g.classes.card ≤ f.classes.card := by
  have himage : g.classes = f.classes.image g.rootOf := by
    rw [classes, classes, Finset.image_image, hsize]
    refine Finset.image_congr fun x _ => ?_
    exact h x (f.rootOf x) (f.rootOf_rootOf x).symm
  rw [himage]
  exact Finset.card_image_le

theorem card_classes_discrete (n : Nat) : (discrete n).classes.card = n := by
  have himage : (discrete n).classes = Finset.range n := by
    ext x
    simp only [classes, Finset.mem_image, rootOf_discrete, exists_eq_right]
    simp [discrete, size]
  rw [himage, Finset.card_range]

/-- **Linking two different roots leaves one class less.** -/
theorem card_classes_link (ha : f.up a = a) (hb : f.up b = b) (halt : a < f.size)
    (hblt : b < f.size) (hab : a ≠ b) : (f.link a b).classes.card + 1 = f.classes.card := by
  have hroot : ∀ {r}, f.up r = r → r < f.size → r ∈ f.classes := fun hr hlt =>
    Finset.mem_image.mpr ⟨_, Finset.mem_range.mpr hlt, rootOf_of_up_eq hr⟩
  have hmax : max a b ∈ f.classes := by
    rcases max_choice a b with h | h <;> rw [h]
    · exact hroot ha halt
    · exact hroot hb hblt
  have hmin : min a b ∈ f.classes := by
    rcases min_choice a b with h | h <;> rw [h]
    · exact hroot ha halt
    · exact hroot hb hblt
  -- of the old roots only the larger of the two is lost
  have herase : (f.link a b).classes = f.classes.erase (max a b) := by
    ext r
    simp only [classes, link, size_redirect, Finset.mem_erase]
    constructor
    · intro hr
      obtain ⟨z, hz, rfl⟩ := Finset.mem_image.mp hr
      rw [show (f.redirect _ _ _).rootOf z = _ from rootOf_link ha hb halt hblt z]
      split
      · exact ⟨by omega, hmin⟩
      · rename_i hne
        exact ⟨hne, Finset.mem_image_of_mem _ hz⟩
    · intro hboth
      obtain ⟨hne, hr⟩ := hboth
      obtain ⟨z, hz, rfl⟩ := Finset.mem_image.mp hr
      refine Finset.mem_image.mpr ⟨z, hz, ?_⟩
      rw [show (f.redirect _ _ _).rootOf z = _ from rootOf_link ha hb halt hblt z, if_neg hne]
  rw [herase, Finset.card_erase_add_one hmax]

end link

end BlockAffinity.Forest
