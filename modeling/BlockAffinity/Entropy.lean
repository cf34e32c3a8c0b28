import BlockAffinity.Profile
import BlockAffinity.Statistics

/-!
# BlockAffinity.Entropy

**How much tokens tell.** A token of probability `p` contributes `-p · log2 p` bits to the entropy
of its distribution.

The filter keeps, within each distribution, the tokens whose contribution lies at least one
standard deviation above the mean contribution, and divides what is left by its sum. Each block is
filtered by itself; a block that keeps nothing is dropped.
-/

namespace BlockAffinity.Entropy

variable {α : Type} [Scalar α]

open Scalar

/-- The contribution of one probability to the entropy. -/
def ofProbability (p : α) : α := if lt zero p then -p * log2 p else zero

/-- The entropy of a distribution, in bits. -/
def ofDistribution (d : Distribution α) : α := sum (d.values.map ofProbability)

/-- A token with its probability and its contribution to the entropy. -/
structure Entry (α : Type) where
  block : BlockId
  role : Role
  token : Token
  probability : α
  entropy : α
  deriving Repr

/-- The entries of one block. -/
def entriesOf (block : BlockId) (profile : Profile α) : List (Entry α) :=
  profile.groups.flatMap fun (role, d) =>
    d.entries.map fun (token, p) => ⟨block, role, token, p, ofProbability p⟩

/-- The entries of all blocks, in block, role and token order. -/
def entries (profiles : Profiles α) : List (Entry α) :=
  profiles.entries.flatMap fun (block, profile) => entriesOf block profile

/-- The contribution from which on a token of the distribution is kept: the mean plus the standard
deviation. -/
def threshold? (d : Distribution α) : Option α := do
  let contributions := d.values.map ofProbability
  let center ← Statistics.mean contributions
  let spread ← Statistics.deviation contributions
  return center + spread

/-- Whether a token of this probability passes the threshold. -/
def passes (threshold p : α) : Bool := le threshold (ofProbability p + slack)

/-- The tokens of a distribution that pass its threshold, with their probabilities made to sum to
one again. -/
def filterDistribution (d : Distribution α) : Distribution α :=
  match threshold? d with
  | none => .empty
  | some threshold => .ofWeights (d.entries.filter fun entry => passes threshold entry.2)

/-- Filters each distribution of a block. -/
def filterProfile (profile : Profile α) : Profile α := profile.map filterDistribution

/-- Filters every block and drops the blocks that keep nothing. -/
def filterProfiles (profiles : Profiles α) : Profiles α :=
  profiles.filterMap fun _ profile =>
    let kept := filterProfile profile
    if Profile.isEmpty kept then none else some kept

end BlockAffinity.Entropy
