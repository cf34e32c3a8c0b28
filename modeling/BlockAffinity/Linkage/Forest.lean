/-!
# BlockAffinity.Linkage.Forest

**Disjoint classes of numbers** as a forest. Every number points to a number that is not larger;
the one at the end of the chain, which points to itself, is the root of its class.

Walking up from a number shortens the way for the next walk: every second number on the way is
made to point to the one two steps up. This keeps the roots.
-/

namespace BlockAffinity

/-- A forest over the numbers below the size of `parent`. -/
structure Forest where
  parent : Array Nat
  descends : ∀ i (h : i < parent.size), parent[i] ≤ i

namespace Forest

/-- The forest in which each of `n` numbers is a root. -/
def discrete (n : Nat) : Forest := ⟨Array.range n, by simp⟩

/-- Number of numbers in the forest. -/
def size (f : Forest) : Nat := f.parent.size

/-- What a number points to; a number outside the forest points to itself. -/
def up (f : Forest) (x : Nat) : Nat := f.parent.getD x x

theorem up_le (f : Forest) (x : Nat) : f.up x ≤ x := by
  unfold up Array.getD
  split
  · exact f.descends x _
  · exact Nat.le_refl x

/-- Makes `x` point to a number that is not larger. -/
def redirect (f : Forest) (x y : Nat) (h : y ≤ x) : Forest where
  parent := f.parent.setIfInBounds x y
  descends := by
    intro i hi
    rw [Array.getElem_setIfInBounds]
    split
    · omega
    · exact f.descends i (by simpa using hi)

@[simp] theorem size_redirect (f : Forest) (x y : Nat) (h : y ≤ x) :
    (f.redirect x y h).size = f.size := by
  simp [redirect, size]

/-- The root of `x`, and the forest after the walk. -/
def find (f : Forest) (x : Nat) : Nat × Forest :=
  if f.up x = x then (x, f)
  else
    let next := f.up (f.up x)
    find (f.redirect x next (Nat.le_trans (f.up_le _) (f.up_le _))) next
termination_by x
decreasing_by
  have h1 := f.up_le x
  have h2 := f.up_le (f.up x)
  omega

/-- Joins the classes of two roots: the larger root points to the smaller one. -/
def link (f : Forest) (x y : Nat) : Forest := f.redirect (max x y) (min x y) (by omega)

end Forest

end BlockAffinity
