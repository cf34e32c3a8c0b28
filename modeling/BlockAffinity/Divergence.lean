import BlockAffinity.Profile

/-!
# BlockAffinity.Divergence

**Scores of pairs of blocks.** Two distributions are compared by the Jensen–Shannon divergence to
base 2, a distance, or by the overlap of their probabilities, a similarity. Two blocks are
compared role by role and the role scores are added up.

Design points:

* A role that only one of the blocks uses is compared with the empty distribution, which gives the
  divergence one half; a role that neither uses counts nothing.
* The divergence of a role is *guarded*: a value that is not finite counts as zero and is reported
  as degenerate, any other is brought into the range from 0 to 1.
* The overlap of a role that only one of the blocks uses is nothing.
-/

namespace BlockAffinity.Divergence

variable {α : Type} [Scalar α]

open Scalar

/-- The term of one token in a relative entropy: its probability `a` against the mean `m`. -/
def relativeTerm (a m : α) : α := if lt zero a then a * log2 (a / m) else zero

/-- The half of the divergence that the tokens of `p` contribute, added to `start`. -/
def halfFrom (start : α) (p q : Distribution α) : α :=
  p.entries.foldl
    (fun total entry =>
      total + half * relativeTerm entry.2 (half * (entry.2 + Distribution.probability q entry.1)))
    start

/-- The half of the divergence that the tokens of `q` contribute, added to `start`. The two
probabilities of a token are added in the order of the two distributions. -/
def otherHalfFrom (start : α) (p q : Distribution α) : α :=
  q.entries.foldl
    (fun total entry =>
      total + half * relativeTerm entry.2 (half * (Distribution.probability p entry.1 + entry.2)))
    start

/-- The Jensen–Shannon divergence of two distributions. -/
def jensenShannon (p q : Distribution α) : α := otherHalfFrom (halfFrom zero p q) p q

/-- A divergence as it counts. -/
def guard (value : α) : α := if isFinite value then clamp zero one value else zero

/-- Whether a divergence counts as zero because it is not finite. -/
def isDegenerate (value : α) : Bool := !isFinite value

/-- The divergences of two blocks in the roles that at least one of them uses, before the guard. -/
def roleDivergences (left right : Profile α) : List α :=
  (Role.all.filter fun role => !((left.get role).isEmpty && (right.get role).isEmpty)).map
    fun role => jensenShannon (left.get role) (right.get role)

/-- The divergence of two blocks. -/
def ofBlocks (left right : Profile α) : α := sum ((roleDivergences left right).map guard)

/-- In how many roles the divergence of two blocks is degenerate. -/
def degenerateCount (left right : Profile α) : Nat :=
  ((roleDivergences left right).filter isDegenerate).length

end BlockAffinity.Divergence

namespace BlockAffinity.Overlap

variable {α : Type} [Scalar α]

open Scalar

/-- The overlap with the tokens of `small`. -/
def within (small large : Distribution α) : α :=
  sum (small.entries.map fun entry => minimum entry.2 (Distribution.probability large entry.1))

/-- The common probability of two distributions. A token that one of them does not list adds
nothing, so the shorter list is gone through. -/
def ofDistributions (p q : Distribution α) : α :=
  if p.size ≤ q.size then within p q else within q p

/-- The overlap of two blocks, over the roles that both use. -/
def ofBlocks (left right : Profile α) : α :=
  sum ((Profile.roles left).filterMap fun role =>
    (Profile.get? right role).map (ofDistributions (left.get role)))

end BlockAffinity.Overlap
