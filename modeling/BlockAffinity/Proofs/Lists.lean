import Mathlib.Data.List.Forall2
import Mathlib.Data.List.Nodup
import Mathlib.Tactic.Common

/-!
# BlockAffinity.Proofs.Lists

**Facts about lists** that the library does not have, none of them about blocks or scores: what a search
finds, lists in order, lists that are put together from parts and split up again, and functions that may
fail along a list.
-/

namespace BlockAffinity

variable {β γ : Type}

/-! ### Searching -/

theorem findSome?_congr {f g : β → Option γ} {xs : List β} (h : ∀ x ∈ xs, f x = g x) :
    xs.findSome? f = xs.findSome? g := by
  induction xs with
  | nil => rfl
  | cons x xs ih =>
      rw [List.forall_mem_cons] at h
      rw [List.findSome?_cons, List.findSome?_cons, h.1, ih h.2]

/-- The first find in lists that are put together is the first find in one of them. -/
theorem findSome?_flatMap {δ : Type} (f : β → List γ) (g : γ → Option δ) (xs : List β) :
    (xs.flatMap f).findSome? g = xs.findSome? fun x => (f x).findSome? g := by
  induction xs with
  | nil => rfl
  | cons x xs ih =>
      rw [List.flatMap_cons, List.findSome?_append, ih, List.findSome?_cons]
      cases (f x).findSome? g <;> rfl

theorem lookup_eq_none {text : String} {entries : List (String × β)} (h : text ∉ entries.map Prod.fst) :
    entries.lookup text = none := by
  rw [List.lookup_eq_none_iff]
  intro entry hentry
  rw [bne_iff_ne]
  rintro rfl
  exact h (List.mem_map_of_mem hentry)

/-! ### Lists in order -/

/-- Of two members of a sorted list one comes first, unless they are the same. -/
theorem eq_or_before_of_pairwise {before : β → β → Prop} {xs : List β}
    (h : xs.Pairwise before) {x y : β} (hx : x ∈ xs) (hy : y ∈ xs) :
    x = y ∨ before x y ∨ before y x := by
  induction xs with
  | nil => exact absurd hx List.not_mem_nil
  | cons z xs ih =>
      rw [List.pairwise_cons] at h
      rcases List.mem_cons.mp hx with rfl | hx' <;> rcases List.mem_cons.mp hy with rfl | hy'
      · exact .inl rfl
      · exact .inr (.inl (h.1 y hy'))
      · exact .inr (.inr (h.1 x hx'))
      · exact ih h.2 hx' hy'

/-- What is found first in a sorted list comes before all else that could be found. -/
theorem eq_false_of_before_find? {before : β → β → Prop} [Std.Asymm before] {p : β → Bool}
    {xs : List β} {x y : β} (hxs : xs.Pairwise before) (h : xs.find? p = some x) (hy : y ∈ xs)
    (hbefore : before y x) : p y = false := by
  obtain ⟨-, front, rest, rfl, hfront⟩ := List.find?_eq_some_iff_append.mp h
  rw [List.pairwise_append, List.pairwise_cons] at hxs
  rcases List.mem_append.mp hy with hy | hy
  · simpa using hfront y hy
  · rcases List.mem_cons.mp hy with rfl | hy
    · exact absurd hbefore (asymm hbefore)
    · exact absurd hbefore (asymm (hxs.2.1.1 y hy))

/-! ### Lists put together from parts -/

/-- Rows of one length are found at the multiples of this length. -/
theorem getElem?_flatMap_const {n j : Nat} (hj : j < n) {row : β → List γ} {xs : List β}
    (hrow : ∀ x ∈ xs, (row x).length = n) (i : Nat) :
    (xs.flatMap row)[i * n + j]? = xs[i]?.bind fun x => (row x)[j]? := by
  induction xs generalizing i with
  | nil => simp
  | cons x xs ih =>
      obtain ⟨hlength, hrow⟩ := List.forall_mem_cons.mp hrow
      rw [List.flatMap_cons]
      cases i with
      | zero => simp [List.getElem?_append_left (hlength ▸ hj)]
      | succ i =>
          have hnext : (i + 1) * n + j - (row x).length = i * n + j := by
            rw [hlength, Nat.succ_mul]
            omega
          rw [List.getElem?_append_right (by rw [hlength, Nat.succ_mul]; omega), hnext, ih hrow]
          rfl

/-- Pieces of one length tell what they were made from. -/
theorem flatMap_injective {f : β → List γ} {size : Nat} (hsize : 0 < size)
    (hlength : ∀ b, (f b).length = size) (hf : Function.Injective f) :
    Function.Injective fun bs : List β => bs.flatMap f := by
  intro bs cs h
  induction bs generalizing cs with
  | nil =>
      cases cs with
      | nil => rfl
      | cons c cs =>
          have := congrArg List.length h
          simp [hlength] at this
          omega
  | cons b bs ih =>
      cases cs with
      | nil =>
          have := congrArg List.length h
          simp [hlength] at this
          omega
      | cons c cs =>
          obtain ⟨hfirst, hrest⟩ := List.append_inj (show f b ++ bs.flatMap f = f c ++ cs.flatMap f
            from h) (by rw [hlength, hlength])
          rw [hf hfirst, ih hrest]

/-- Elements that add nothing may be left out. -/
theorem flatMap_filter_of_nil {keep : β → Bool} {f : β → List γ} {xs : List β}
    (h : ∀ x ∈ xs, keep x = false → f x = []) : (xs.filter keep).flatMap f = xs.flatMap f := by
  induction xs with
  | nil => rfl
  | cons x xs ih =>
      rw [List.forall_mem_cons] at h
      cases hx : keep x with
      | true => rw [List.filter_cons_of_pos hx, List.flatMap_cons, List.flatMap_cons, ih h.2]
      | false =>
          rw [List.filter_cons_of_neg (by rw [hx]; exact Bool.false_ne_true), List.flatMap_cons,
            h.1 hx, List.nil_append, ih h.2]

/-- Exactly one element of a list has something to add. -/
theorem flatMap_eq_of_unique {xs : List β} {x : β} {f : β → List γ} (hnodup : xs.Nodup)
    (hmem : x ∈ xs) (hother : ∀ y ∈ xs, y ≠ x → f y = []) : xs.flatMap f = f x := by
  obtain ⟨before, after, rfl⟩ := List.mem_iff_append.mp hmem
  rw [List.nodup_append, List.nodup_cons] at hnodup
  obtain ⟨-, ⟨hafter, -⟩, hbefore⟩ := hnodup
  have hbefore : before.flatMap f = [] := List.flatMap_eq_nil_iff.mpr fun y hy =>
    hother y (List.mem_append_left _ hy) (hbefore y hy x List.mem_cons_self)
  have hafter : after.flatMap f = [] := List.flatMap_eq_nil_iff.mpr fun y hy =>
    hother y (List.mem_append_right _ (List.mem_cons_of_mem _ hy)) fun heq => hafter (heq ▸ hy)
  rw [List.flatMap_append, List.flatMap_cons, hbefore, hafter, List.nil_append, List.append_nil]

/-- Lists under different names repeat nothing together if none of them does. -/
theorem nodup_flatMap_of_key {κ : Type} {xs : List β} {f : β → List γ} (name : β → κ)
    (key : γ → κ) (hnames : (xs.map name).Nodup) (heach : ∀ x ∈ xs, (f x).Nodup)
    (hkey : ∀ x ∈ xs, ∀ y ∈ f x, key y = name x) : (xs.flatMap f).Nodup := by
  rw [List.nodup_flatMap]
  refine ⟨heach, (List.pairwise_map.mp hnames).imp_of_mem fun {x x'} hx hx' hne => ?_⟩
  exact List.disjoint_left.mpr fun y hy hy' => hne ((hkey x hx y hy).symm.trans (hkey x' hx' y hy'))

theorem nodup_eraseDups [BEq β] [LawfulBEq β] (xs : List β) : xs.eraseDups.Nodup := by
  cases xs with
  | nil => simp
  | cons x xs =>
      rw [List.eraseDups_cons, List.nodup_cons]
      exact ⟨by simp, nodup_eraseDups _⟩
termination_by xs.length
decreasing_by exact Nat.lt_succ_of_le (List.length_filter_le _ _)

/-! ### Splitting -/

/-- **What has been joined** is split into the pieces of its parts. -/
theorem splitOn_intercalate_eq_flatMap [DecidableEq β] {separator : β} {parts : List (List β)} (h : parts ≠ []) :
    ([separator].intercalate parts).splitOn separator =
      parts.flatMap fun part => part.splitOn separator := by
  induction parts with
  | nil => exact absurd rfl h
  | cons part parts ih =>
      cases parts with
      | nil => simp [List.intercalate]
      | cons next parts =>
          have hjoined : [separator].intercalate (part :: next :: parts) =
              part ++ separator :: [separator].intercalate (next :: parts) := by
            simp [List.intercalate]
          rw [hjoined, List.splitOn_append_cons_self, ih (List.cons_ne_nil _ _)]
          rfl

/-- Splitting makes one piece more than there are separators. -/
theorem length_splitOn [DecidableEq β] (separator : β) (xs : List β) :
    (xs.splitOn separator).length = xs.count separator + 1 := by
  induction xs with
  | nil => rfl
  | cons x xs ih =>
      rw [List.splitOn_cons_eq_if_modifyHead, List.count_cons]
      split
      · rw [List.length_cons, ih]
      · rw [List.length_modifyHead, ih]

/-! ### Functions that may fail -/

theorem exists_forall₂ {R : β → γ → Prop} {xs : List β} (h : ∀ x ∈ xs, ∃ y, R x y) :
    ∃ ys, List.Forall₂ R xs ys := by
  induction xs with
  | nil => exact ⟨[], .nil⟩
  | cons x xs ih =>
      obtain ⟨hx, hxs⟩ := List.forall_mem_cons.mp h
      obtain ⟨y, hy⟩ := hx
      obtain ⟨ys, hys⟩ := ih hxs
      exact ⟨y :: ys, .cons hy hys⟩

theorem exists_of_forall₂ {R : β → γ → Prop} {xs : List β} {ys : List γ} (h : List.Forall₂ R xs ys)
    {x : β} (hx : x ∈ xs) : ∃ y, R x y := by
  induction h with
  | nil => cases hx
  | cons hxy _ ih =>
      rcases List.mem_cons.mp hx with rfl | hx
      · exact ⟨_, hxy⟩
      · exact ih hx

/-- A partial function that is defined on each element is defined on the list. -/
theorem mapM_of_forall₂ {f : β → Option γ} {xs : List β} {ys : List γ}
    (h : List.Forall₂ (fun x y => f x = some y) xs ys) : xs.mapM f = some ys := by
  induction h with
  | nil => rfl
  | cons hx _ ih =>
      rw [List.mapM_cons, hx, ih]
      rfl

/-- A partial function that finds something for each element does so for the list. -/
theorem mapM_eq_some_map {f : β → Option γ} {g : β → γ} {xs : List β}
    (h : ∀ x ∈ xs, f x = some (g x)) : xs.mapM f = some (xs.map g) :=
  mapM_of_forall₂ (List.forall₂_map_right_iff.mpr (List.forall₂_same.mpr h))

/-- A partial step that finds something for each element does so along the list. -/
theorem foldlM_eq_some_foldl {f : γ → β → Option γ} {g : γ → β → γ} {xs : List β}
    (h : ∀ x ∈ xs, ∀ c, f c x = some (g c x)) (c : γ) : xs.foldlM f c = some (xs.foldl g c) := by
  induction xs generalizing c with
  | nil => rfl
  | cons x xs ih =>
      obtain ⟨hx, hxs⟩ := List.forall_mem_cons.mp h
      rw [List.foldlM_cons, hx]
      exact ih hxs _

end BlockAffinity
