import BlockAffinity.Proofs.Json.Reading
import BlockAffinity.Proofs.Json.Numbers
import BlockAffinity.Proofs.Lists
import BlockAffinity.Report.Documents

/-!
# BlockAffinity.Proofs.Report.Documents

**Scores are read back from their document**, whatever the numbers are, as long as each of them is read
back as some number (`Rereads`): the ids, the count and the shape of the scores are the same, and each
value is replaced by what its text is read as (`Scores.Pointwise.read`).
-/

namespace BlockAffinity

open Json (Document)

variable {α : Type}

/-! ### Scores that differ in their values -/

/-- Matrices of the same blocks with values that are related one by one. -/
structure ScoreMatrix.Pointwise (R : α → α → Prop) (m m' : ScoreMatrix α) : Prop where
  ids : m'.ids = m.ids
  values : List.Forall₂ R m.values.toList m'.values.toList

/-- Scores of the same shape with values that are related one by one. -/
structure Scores.Pointwise (R : α → α → Prop) (s s' : Scores α) : Prop where
  distances : s.distances.Pointwise R s'.distances
  similarities : Option.Rel (ScoreMatrix.Pointwise R) s.similarities s'.similarities
  nonFinite : s'.nonFinite = s.nonFinite

/-- Where each value is related to some value, scores are related to some scores. -/
theorem ScoreMatrix.exists_pointwise {R : α → α → Prop} {m : ScoreMatrix α}
    (h : ∀ x ∈ m.values.toList, ∃ y, R x y) : ∃ m', m.Pointwise R m' := by
  obtain ⟨ys, hys⟩ := exists_forall₂ h
  exact ⟨⟨m.ids, ys.toArray⟩, rfl, hys⟩

/-- All values of scores. -/
def Scores.values (s : Scores α) : List α :=
  s.distances.values.toList ++ (s.similarities.elim [] fun m => m.values.toList)

/-- Values that are the same make the same scores. -/
theorem ScoreMatrix.Pointwise.eq {m m' : ScoreMatrix α} (h : m.Pointwise Eq m') : m' = m := by
  obtain ⟨ids, values⟩ := m
  obtain ⟨ids', values'⟩ := m'
  have hvalues := h.values
  rw [List.forall₂_eq_eq_eq] at hvalues
  obtain rfl : ids' = ids := h.ids
  obtain rfl : values = values' := Array.toList_inj.mp hvalues
  rfl

theorem Scores.Pointwise.eq {s s' : Scores α} (h : s.Pointwise Eq s') : s' = s := by
  obtain ⟨distances, similarities, nonFinite⟩ := s
  obtain ⟨distances', similarities', nonFinite'⟩ := s'
  obtain rfl : distances' = distances := h.distances.eq
  obtain rfl : nonFinite' = nonFinite := h.nonFinite
  have hrel := h.similarities
  dsimp only at hrel
  cases hrel with
  | none => rfl
  | some hm => rw [hm.eq]

theorem ScoreMatrix.Pointwise.imp {R S : α → α → Prop} {m m' : ScoreMatrix α}
    (h : m.Pointwise R m') (himp : ∀ x ∈ m.values.toList, ∀ y, R x y → S x y) :
    m.Pointwise S m' where
  ids := h.ids
  values := by
    have hvalues := h.values
    generalize m.values.toList = xs at hvalues himp
    generalize m'.values.toList = ys at hvalues
    induction hvalues with
    | nil => exact .nil
    | cons hxy _ ih =>
        rw [List.forall_mem_cons] at himp
        exact .cons (himp.1 _ hxy) (ih himp.2)

theorem Scores.Pointwise.imp {R S : α → α → Prop} {s s' : Scores α} (h : s.Pointwise R s')
    (himp : ∀ x ∈ s.values, ∀ y, R x y → S x y) : s.Pointwise S s' where
  distances := h.distances.imp fun x hx => himp x (List.mem_append_left _ hx)
  similarities := by
    have hrel := h.similarities
    rw [Scores.values] at himp
    generalize s.similarities = similarities at hrel himp
    generalize s'.similarities = similarities' at hrel
    cases hrel with
    | none => exact .none
    | some hm => exact .some (hm.imp fun x hx => himp x (List.mem_append_right _ hx))
  nonFinite := h.nonFinite

theorem Scores.exists_pointwise {R : α → α → Prop} {s : Scores α}
    (h : ∀ x ∈ s.values, ∃ y, R x y) : ∃ s', s.Pointwise R s' := by
  obtain ⟨distances, similarities, nonFinite⟩ := s
  rw [values, List.forall_mem_append] at h
  obtain ⟨distances', hdistances⟩ := ScoreMatrix.exists_pointwise h.1
  cases similarities with
  | none => exact ⟨⟨distances', none, nonFinite⟩, hdistances, .none, rfl⟩
  | some m =>
      obtain ⟨m', hm⟩ := ScoreMatrix.exists_pointwise h.2
      exact ⟨⟨distances', some m', nonFinite⟩, hdistances, .some hm, rfl⟩

/-! ### Reading -/

variable [ScalarText α]

/-- A number is read back from its document, as another number or as the same. -/
structure Rereads (x y : α) : Prop where
  plain : (numberDocument x).IsPlain
  read : (numberDocument x).scalar? = some y

theorem isPlain_ids (ids : List BlockId) : (Document.array (ids.map BlockId.document)).IsPlain := by
  refine .array fun element hmem => ?_
  obtain ⟨id, -, rfl⟩ := List.mem_map.mp hmem
  exact .string id.text

theorem list?_ids (ids : List BlockId) :
    (Document.array (ids.map BlockId.document)).list? Document.text? =
      some (ids.map BlockId.text) := by
  refine mapM_of_forall₂ ?_
  rw [List.forall₂_map_left_iff, List.forall₂_map_right_iff, List.forall₂_same]
  exact fun _ _ => rfl

theorem ofMembers_eq (members : List (String × Document)) : Document.ofMembers members =
    .object (members.map fun member => (some member.1, member.2)) := rfl

/-- A member of an object without repeated keys is found by its key. -/
theorem member?_of_mem {members : List (String × Document)} {name : String} {value : Document}
    (hnodup : (members.map Prod.fst).Nodup) (hmem : (name, value) ∈ members) :
    Document.member? (members.map fun member => (some member.1, member.2)) name =
      some (some value) := by
  have hfilter : ((members.map fun member => (some member.1, member.2)).filter
      fun member => member.1 == some name) = [(some name, value)] := by
    induction members with
    | nil => cases hmem
    | cons member members ih =>
        rw [List.map_cons, List.nodup_cons] at hnodup
        rcases List.mem_cons.mp hmem with rfl | hmem
        · have hrest : ∀ member ∈ members.map fun member => (some member.1, member.2),
              ¬(member.1 == some name) = true := by
            rintro _ hmember heq
            obtain ⟨other, hother, rfl⟩ := List.mem_map.mp hmember
            have hkey : other.1 = name := by simpa using heq
            exact hnodup.1 (hkey ▸ List.mem_map.mpr ⟨other, hother, rfl⟩)
          rw [List.map_cons, List.filter_cons_of_pos (by simp), List.filter_eq_nil_iff.mpr hrest]
        · have hne : member.1 ≠ name := by
            rintro rfl
            exact hnodup.1 (List.mem_map.mpr ⟨_, hmem, rfl⟩)
          rw [List.map_cons, List.filter_cons_of_neg (by simpa using hne)]
          exact ih hnodup.2 hmem
  rw [Document.member?, hfilter]

/-- **The fields of a record** are found in the object that is written for it. -/
theorem fields?_ofMembers (members : List (String × Document))
    (hnodup : (members.map Prod.fst).Nodup) :
    (Document.ofMembers members).fields? (members.map Prod.fst) =
      some (members.map fun member => some member.2) := by
  have hkeys : ((members.map fun member => (some member.1, member.2)).any
      fun member => member.1.isNone) = false := by
    simp
  rw [ofMembers_eq, Document.fields?, hkeys, if_neg Bool.false_ne_true]
  refine mapM_of_forall₂ ?_
  rw [List.forall₂_map_left_iff, List.forall₂_map_right_iff, List.forall₂_same]
  exact fun member hmem => member?_of_mem hnodup hmem

namespace ScoreMatrix

variable {m m' : ScoreMatrix α}

theorem Pointwise.isPlain (h : m.Pointwise Rereads m') : m.document.IsPlain := by
  have hvalues : (Document.array (m.values.toList.map numberDocument)).IsPlain := by
    refine .array fun element hmem => ?_
    obtain ⟨x, hx, rfl⟩ := List.mem_map.mp hmem
    obtain ⟨y, hread⟩ := exists_of_forall₂ h.values hx
    exact hread.plain
  refine .object fun member hmem => ?_
  rcases List.mem_pair.mp hmem with rfl | rfl
  · exact isPlain_ids m.ids
  · exact hvalues

/-- **A matrix** is read back. -/
theorem Pointwise.ofDocument? (h : m.Pointwise Rereads m') :
    ScoreMatrix.ofDocument? m.document = some m' := by
  have hvalues : (Document.array (m.values.toList.map numberDocument)).list? Document.scalar? =
      some m'.values.toList := by
    refine mapM_of_forall₂ ?_
    rw [List.forall₂_map_left_iff]
    exact h.values.imp fun _ _ hread => hread.read
  have hfields := fields?_ofMembers [
    ("block_ids", .array (m.ids.map BlockId.document)),
    ("values", .array (m.values.toList.map numberDocument))] (by simp)
  have hids : (m.ids.map BlockId.text).map BlockId.mk = m'.ids := by
    rw [h.ids, List.map_map]
    exact List.map_id _
  rw [ScoreMatrix.ofDocument?, document]
  show (Document.fields? ["block_ids", "values"] _).bind _ = _
  rw [show Document.fields? ["block_ids", "values"] _ = _ from hfields]
  show (Document.list? Document.text? _).bind _ = _
  rw [list?_ids]
  show (Document.list? Document.scalar? _).bind _ = _
  rw [hvalues, Option.bind_some, hids]
  rfl

end ScoreMatrix

namespace Scores

variable {s s' : Scores α}

theorem Pointwise.isPlain (h : s.Pointwise Rereads s') : s.document.IsPlain := by
  have hcount : (Document.ofNat s.nonFinite).IsPlain := by
    rw [Document.ofNat, Json.Number.digitText_eq]
    exact .number (Json.Number.isLexeme_chars (Json.Number.isProper_ofNat _))
  have hsimilarities : (Document.ofOption (s.similarities.map ScoreMatrix.document)).IsPlain := by
    have hrel := h.similarities
    generalize s.similarities = similarities at hrel ⊢
    generalize s'.similarities = kept at hrel
    cases hrel with
    | none => exact .null
    | some hm => exact hm.isPlain
  refine .object fun member hmem => ?_
  rcases List.mem_cons.mp hmem with rfl | hmem
  · exact h.distances.isPlain
  rcases List.mem_pair.mp hmem with rfl | rfl
  · exact hsimilarities
  · exact hcount

/-- What stands for missing scores is told from a matrix. -/
theorem nullable?_ofOption {m m' : Option (ScoreMatrix α)}
    (h : Option.Rel (ScoreMatrix.Pointwise Rereads) m m') :
    Document.nullable? ScoreMatrix.ofDocument? (.ofOption (m.map ScoreMatrix.document)) =
      some m' := by
  cases h with
  | none => rfl
  | @some m m' hm =>
      show (ScoreMatrix.ofDocument? m.document).map some = some (some m')
      rw [hm.ofDocument?]
      rfl

/-- **Scores** are read back from the document that is written for them. -/
theorem Pointwise.read (h : s.Pointwise Rereads s') (hcount : s.nonFinite ≤ Json.maxSignificand) :
    (Json.readDocument? s.document.compact).bind Scores.ofDocument? = some s' := by
  have hfields := fields?_ofMembers [
    ("distances", s.distances.document),
    ("similarities", .ofOption (s.similarities.map ScoreMatrix.document)),
    ("non_finite", .ofNat s.nonFinite)] (by simp)
  have hnat : (Document.ofNat s.nonFinite).nat? = some s'.nonFinite := by
    rw [h.nonFinite]
    show (Json.Number.ofLexeme? (Decimal.digitText s.nonFinite)).bind Json.Number.toNat? = _
    rw [Json.Number.digitText_eq, Json.Number.ofLexeme?_chars (Json.Number.isProper_ofNat _)]
    exact Json.Number.toNat?_ofNat hcount
  rw [Json.readDocument?_compact h.isPlain, Option.bind_some, Scores.ofDocument?]
  show (Document.fields? ["distances", "similarities", "non_finite"] s.document).bind _ = _
  rw [show Document.fields? ["distances", "similarities", "non_finite"] s.document = _ from hfields]
  show (ScoreMatrix.ofDocument? s.distances.document).bind _ = _
  rw [h.distances.ofDocument?]
  show (Document.nullable? ScoreMatrix.ofDocument? _).bind _ = _
  rw [nullable?_ofOption h.similarities]
  show ((Document.ofNat s.nonFinite).nat?).bind _ = _
  rw [hnat]
  rfl

end Scores

end BlockAffinity
