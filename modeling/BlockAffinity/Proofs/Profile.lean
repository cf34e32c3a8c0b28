import BlockAffinity.Profile

/-!
# BlockAffinity.Proofs.Profile

**What a profile holds.** A profile is not empty if something was observed in one of the roles, and it
gives the distributions that are not empty. Which roles these are, the tokens alone decide
(`Profile.roles_congr`).
-/

namespace BlockAffinity.Profile

variable {α : Type} {p q : Profile α}

theorem isEmpty_eq_false_iff : p.isEmpty = false ↔ ∃ role, (p.get role).isEmpty = false := by
  rw [isEmpty, List.isEmpty_eq_false_iff_exists_mem]
  simp [roles, Role.mem_all]

theorem get?_eq_some_iff {role : Role} {d : Distribution α} :
    p.get? role = some d ↔ p.get role = d ∧ d.isEmpty = false := by
  rw [get?, Option.ite_none_left_eq_some, Option.some.injEq, Bool.not_eq_true]
  constructor
  · rintro ⟨hempty, rfl⟩
    exact ⟨rfl, hempty⟩
  · rintro ⟨rfl, hempty⟩
    exact ⟨hempty, rfl⟩

theorem roles_congr (h : ∀ role, (p.get role).tokens = (q.get role).tokens) : p.roles = q.roles := by
  have hempty (m : TokenMap α) : m.isEmpty = m.tokens.isEmpty := by
    rw [TokenMap.isEmpty, TokenMap.tokens, List.isEmpty_map]
  rw [roles, roles]
  exact List.filter_congr fun role _ => by rw [hempty, hempty, h role]

theorem isEmpty_congr (h : ∀ role, (p.get role).tokens = (q.get role).tokens) :
    p.isEmpty = q.isEmpty := by
  rw [isEmpty, isEmpty, roles_congr h]

end BlockAffinity.Profile
