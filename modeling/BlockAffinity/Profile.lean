import BlockAffinity.Distribution
import BlockAffinity.Roster

/-!
# BlockAffinity.Profile

**What is known of a block**: one distribution for each role. A role without observations has the
empty distribution, so an empty distribution and a missing one are the same thing. Profiles of
several blocks form a roster.
-/

namespace BlockAffinity

/-- The distributions of a block by role. -/
abbrev Profile (α : Type) := PerRole (Distribution α)

/-- The profiles of several blocks, in order of first appearance. -/
abbrev Profiles (α : Type) := Roster (Profile α)

namespace Profile

variable {α : Type}

/-- The profile without observations. -/
def empty : Profile α := .replicate .empty

/-- The distribution of a role, if anything was observed in that role. -/
def get? (p : Profile α) (role : Role) : Option (Distribution α) :=
  if (p.get role).isEmpty then none else some (p.get role)

/-- The roles in which something was observed, in table order. -/
def roles (p : Profile α) : List Role := Role.all.filter fun role => !(p.get role).isEmpty

/-- The distributions that are not empty, with their roles. -/
def groups (p : Profile α) : List (Role × Distribution α) :=
  p.roles.map fun role => (role, p.get role)

/-- Whether nothing was observed in the block. -/
def isEmpty (p : Profile α) : Bool := p.roles.isEmpty

end Profile

end BlockAffinity
