import BlockAffinity.Scalar
import BlockAffinity.TokenMap

/-!
# BlockAffinity.Distribution

**Distributions over tokens.** A distribution gives each token that it lists its probability. It
comes from counts or from weights by dividing through the total; the empty distribution stands for
a scope in which nothing was observed, and is what a vanishing total gives.
-/

namespace BlockAffinity

/-- Probabilities of tokens. -/
abbrev Distribution (α : Type) := TokenMap α

namespace Distribution

variable {α : Type} [Scalar α]

open Scalar

/-- The relative frequencies of counted tokens. Tokens that were counted zero times are left
out. -/
def ofCounts (counts : TokenMap Nat) : Distribution α :=
  let total := counts.values.foldr (· + ·) 0
  if total = 0 then .empty
  else (counts.filter fun count => 0 < count).map fun count => ofNat count / ofNat total

/-- Adds a weight to its token, unless it is not positive. -/
def addWeight (weights : TokenMap α) (token : Token) (weight : α) : TokenMap α :=
  if lt zero weight then weights.alter token fun old => old.getD zero + weight else weights

/-- The positive weights of a list, added up by token. -/
def accumulate (weights : List (Token × α)) : TokenMap α :=
  weights.foldl (fun m entry => addWeight m entry.1 entry.2) .empty

/-- The weights divided by their total; empty if the total is not a positive number. -/
def normalize (weights : TokenMap α) : Distribution α :=
  let total := sum weights.values
  if le total zero || !isFinite total then .empty else weights.map fun weight => weight / total

/-- The distribution proportional to a list of weights. -/
def ofWeights (weights : List (Token × α)) : Distribution α := normalize (accumulate weights)

/-- The probability of a token, zero for one that is not listed. -/
def probability (d : Distribution α) (token : Token) : α := (d.get? token).getD zero

/-- The sum of the probabilities. -/
def total (d : Distribution α) : α := sum d.values

end Distribution

end BlockAffinity
