import BlockAffinity.Assignment
import BlockAffinity.Profile

/-!
# BlockAffinity.Summary

**What a cluster is made of**: its blocks, and how many different tokens they use in each role.
-/

namespace BlockAffinity

/-- The description of one flat cluster. -/
structure ClusterSummary where
  label : Nat
  members : List BlockId
  /-- Number of different tokens by role. -/
  distinctTokens : PerRole Nat
  deriving Repr, DecidableEq

namespace ClusterSummary

variable {α : Type}

/-- The tokens that some of the blocks use in a role, repeated as often as they are listed. -/
def tokensOf (profiles : Profiles α) (role : Role) (members : List BlockId) : List Token :=
  members.flatMap fun id =>
    match profiles.get? id with
    | some profile => (profile.get role).tokens
    | none => []

/-- How many different tokens the blocks use in a role. Blocks without a profile use none. -/
def distinctCount (profiles : Profiles α) (role : Role) (members : List BlockId) : Nat :=
  (tokensOf profiles role members).eraseDups.length

/-- The description of the cluster with these members. -/
def ofMembers (profiles : Profiles α) (label : Nat) (members : List BlockId) : ClusterSummary where
  label := label
  members := members
  distinctTokens :=
    ⟨distinctCount profiles .instruction members, distinctCount profiles .leftOperand members,
      distinctCount profiles .rightOperand members⟩

/-- The descriptions of all clusters, in label order. -/
def ofAssignment (assignment : Assignment) (profiles : Profiles α) : List ClusterSummary :=
  (Assignment.clusters assignment).map fun (label, members) => ofMembers profiles label members

end ClusterSummary

end BlockAffinity
