/-!
# BlockAffinity.Proofs.Except

**Stages that may fail.** What it takes for a sequence of stages to succeed or to fail, and for a
stage that is applied to each element of a list.
-/

namespace BlockAffinity

variable {ε β γ : Type}

theorem bind_eq_ok_iff {x : Except ε β} {f : β → Except ε γ} {c : γ} :
    (x >>= f) = .ok c ↔ ∃ b, x = .ok b ∧ f b = .ok c := by
  cases x with
  | error fault =>
      constructor
      · intro h
        cases h
      · rintro ⟨b, hb, -⟩
        cases hb
  | ok b =>
      constructor
      · exact fun h => ⟨b, rfl, h⟩
      · rintro ⟨_, hb, hc⟩
        cases hb
        exact hc

theorem bind_eq_error_iff {x : Except ε β} {f : β → Except ε γ} {fault : ε} :
    (x >>= f) = .error fault ↔ x = .error fault ∨ ∃ b, x = .ok b ∧ f b = .error fault := by
  cases x with
  | error found => simp [bind, Except.bind]
  | ok b => simp [bind, Except.bind]

theorem exists_of_map_eq_ok {x : Except ε β} {f : β → γ} {c : γ} (h : x.map f = .ok c) :
    ∃ b, x = .ok b ∧ f b = c := by
  cases x with
  | error fault => cases h
  | ok b => exact ⟨b, rfl, Except.ok.inj h⟩

theorem mapError_eq_ok_iff {ε' : Type} {x : Except ε β} {f : ε → ε'} {b : β} :
    x.mapError f = .ok b ↔ x = .ok b := by
  cases x with
  | error fault =>
      constructor <;>
      · intro h
        cases h
  | ok found =>
      constructor <;>
      · intro h
        cases h
        rfl

/-- **A stage succeeds on a list** if it succeeds on each element, with the results in order. -/
theorem mapM_eq_ok_iff {f : β → Except ε γ} {bs : List β} {cs : List γ} :
    bs.mapM f = .ok cs ↔ bs.map f = cs.map .ok := by
  induction bs generalizing cs with
  | nil => simp [pure, Except.pure, eq_comm]
  | cons b bs ih =>
      rw [List.mapM_cons, bind_eq_ok_iff, List.map_cons]
      constructor
      · rintro ⟨c, hc, h⟩
        obtain ⟨rest, hrest, h⟩ := bind_eq_ok_iff.mp h
        cases h
        rw [List.map_cons, hc, ih.mp hrest]
      · intro h
        cases cs with
        | nil => cases h
        | cons c rest =>
            rw [List.map_cons, List.cons.injEq] at h
            exact ⟨c, h.1, bind_eq_ok_iff.mpr ⟨rest, ih.mpr h.2, rfl⟩⟩

/-- **A stage fails on a list** with the fault of the first element on which it fails. -/
theorem mapM_eq_error_iff {f : β → Except ε γ} {bs : List β} {fault : ε} :
    bs.mapM f = .error fault ↔ ∃ before b after, bs = before ++ b :: after ∧
      (∀ x ∈ before, ∃ c, f x = .ok c) ∧ f b = .error fault := by
  induction bs with
  | nil => simp [pure, Except.pure]
  | cons first rest ih =>
      rw [List.mapM_cons, bind_eq_error_iff]
      constructor
      · intro h
        rcases h with hfirst | ⟨c, hfirst, h⟩
        · exact ⟨[], first, rest, rfl, by simp, hfirst⟩
        · rcases bind_eq_error_iff.mp h with hrest | ⟨cs, -, hnever⟩
          · obtain ⟨before, b, after, rfl, hbefore, hb⟩ := ih.mp hrest
            exact ⟨first :: before, b, after, rfl,
              List.forall_mem_cons.mpr ⟨⟨c, hfirst⟩, hbefore⟩, hb⟩
          · cases hnever
      · intro h
        obtain ⟨before, b, after, heq, hbefore, hb⟩ := h
        cases before with
        | nil =>
            obtain ⟨rfl, rfl⟩ := List.cons.inj heq
            exact .inl hb
        | cons _ before =>
            obtain ⟨rfl, rfl⟩ := List.cons.inj heq
            obtain ⟨⟨c, hc⟩, hbefore⟩ := List.forall_mem_cons.mp hbefore
            exact .inr ⟨c, hc, bind_eq_error_iff.mpr (.inl (ih.mpr ⟨before, b, after, rfl, hbefore, hb⟩))⟩

/-- A stage that succeeds on each element succeeds on the list. -/
theorem exists_mapM_eq_ok {f : β → Except ε γ} {bs : List β} (h : ∀ b ∈ bs, ∃ c, f b = .ok c) :
    ∃ cs, bs.mapM f = .ok cs := by
  induction bs with
  | nil => exact ⟨[], rfl⟩
  | cons b bs ih =>
      obtain ⟨c, hc⟩ := h b List.mem_cons_self
      obtain ⟨cs, hcs⟩ := ih fun b hb => h b (List.mem_cons_of_mem _ hb)
      refine ⟨c :: cs, ?_⟩
      rw [List.mapM_cons, hc, hcs]
      rfl

end BlockAffinity
