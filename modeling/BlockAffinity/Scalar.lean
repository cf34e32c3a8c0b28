/-!
# BlockAffinity.Scalar

The **number system** that the scores are computed in. The program runs on doubles; every
definition downstream is stated over this class, so that it can be read over exact numbers too.

Design points:

* Comparisons are Boolean and three in number, because on doubles neither of `lt`, `le` and `eq`
  is the negation or the union of the others.
* A sum starts from `sumStart`, the value that changes nothing when it is added: on doubles this
  is `-0.0`, so an empty sum is `-0.0` and a sum of one term is the term.
* `minimum` and `maximum` prefer a number over a NaN and the left one of two equal values.
-/

namespace BlockAffinity

/-- Numbers with the operations that scoring and clustering use. -/
class Scalar (α : Type) extends Add α, Sub α, Mul α, Div α, Neg α where
  zero : α
  one : α
  half : α
  /-- The error that comparisons forgive, `1e-12`. -/
  slack : α
  /-- What a sum starts from. -/
  sumStart : α
  ofNat : Nat → α
  lt : α → α → Bool
  le : α → α → Bool
  eq : α → α → Bool
  minimum : α → α → α
  maximum : α → α → α
  magnitude : α → α
  sqrt : α → α
  log2 : α → α
  isFinite : α → Bool
  isNaN : α → Bool

namespace Scalar

/-- Doubles. -/
instance : Scalar Float where
  zero := 0
  one := 1
  half := 0.5
  slack := 1e-12
  sumStart := -0.0
  ofNat := Float.ofNat
  lt a b := decide (a < b)
  le a b := decide (a ≤ b)
  eq a b := a == b
  minimum a b := if a.isNaN then b else if b < a then b else a
  maximum a b := if a.isNaN then b else if a < b then b else a
  magnitude := Float.abs
  sqrt := Float.sqrt
  log2 := Float.log2
  isFinite := Float.isFinite
  isNaN := Float.isNaN

variable {α : Type} [Scalar α]

/-- The sum of a list, from left to right. -/
def sum (xs : List α) : α := xs.foldl (· + ·) sumStart

/-- What is no number: zero divided by zero, a NaN on doubles. -/
def nan : α := zero / zero

/-- A value brought into the range from `low` to `high`; a NaN stays one. -/
def clamp (low high x : α) : α :=
  let raised := if lt x low then low else x
  if lt high raised then high else raised

@[simp] theorem sum_nil : sum ([] : List α) = sumStart := rfl

end Scalar

end BlockAffinity
