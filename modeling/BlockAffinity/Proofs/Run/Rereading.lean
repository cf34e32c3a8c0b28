import BlockAffinity.Proofs.Json.Doubles
import BlockAffinity.Proofs.Report.Documents
import BlockAffinity.Proofs.Run.History

/-!
# BlockAffinity.Proofs.Run.Rereading

**Scores that were saved are there again**: for any key and any disk, what is saved is found, the ids
and the count are the same, and each value is what its text is read as. The values themselves are kept
nearly: a double of many digits may come back as one of its neighbours (`ScoreCache.get_of_save_changed`),
but none is further off than sixteen roundings, and scores whose values are all short come back as they
were (`ScoreCache.get_of_save`).
-/

namespace BlockAffinity

open Scalar

/-! ### Scores of doubles -/

/-- A finite double is read back from its document. -/
theorem exists_rereads {x : Float} (hx : isFinite x = true) :
    ∃ y, Rereads x y ∧ Decimal.Kept x y := by
  obtain ⟨n, y, hn, hread, hkept⟩ := Decimal.exists_kept hx
  obtain ⟨hlexeme, hnumber⟩ := hn.read
  refine ⟨y, ⟨.number hlexeme, ?_⟩, hkept⟩
  show (Json.Number.ofLexeme? (Decimal.json.write x)).bind Json.Number.toFloat? = some y
  rw [hnumber]
  exact hread

theorem Scores.IsFinite.of_mem_values {s : Scores Float} (h : s.IsFinite) {x : Float}
    (hx : x ∈ s.values) : isFinite x = true := by
  rw [Scores.values, List.mem_append] at hx
  rcases hx with hx | hx
  · exact h.1 x (Array.mem_toList_iff.mp hx)
  · cases hm : s.similarities with
    | none => simp [hm] at hx
    | some m =>
        rw [hm] at hx
        exact h.2 m hm x (Array.mem_toList_iff.mp hx)

/-! ### The cache -/

namespace ScoreCache

variable {d t : Disk} {cache : ScoreCache} {key : String}

/-- A write that goes through is one on the disk. -/
theorem write_of_run {path : String} {contents : ByteArray}
    (h : (Storage.write path contents : StateM Disk _).run d = (.ok (), t)) :
    d.write path contents = .ok t := by
  have hchange : (Disk.change (fun d => d.write path contents)) d = (.ok (), t) := h
  rw [Disk.change] at hchange
  cases hwrite : d.write path contents with
  | error error =>
      rw [hwrite] at hchange
      cases hchange
  | ok changed =>
      rw [hwrite] at hchange
      cases hchange
      rfl

/-- Saving ends with writing the file for the key. -/
theorem exists_write_of_run_save {α : Type} [Scalar α] [ScalarText α] {scores : Scores α}
    (h : (cache.save key scores : Task α (StateM Disk) Unit).run.run d = (.ok (), t)) :
    ∃ u : Disk, u.write (cache.path key) scores.document.compact.toUTF8 = .ok t := by
  obtain ⟨there, u, -, h⟩ := Task.exists_of_run_bind h
  cases there with
  | true => exact ⟨u, write_of_run (Task.run_of_step h)⟩
  | false =>
      obtain ⟨_, made, -, hwrite⟩ := Task.exists_of_run_bind h
      exact ⟨made, write_of_run (Task.run_of_step hwrite)⟩

/-- **What is saved is found**, as what its document is read as. -/
theorem run_get_of_run_save {α : Type} [Scalar α] [ScalarText α] {scores : Scores α}
    (h : (cache.save key scores : Task α (StateM Disk) Unit).run.run d = (.ok (), t)) :
    (cache.get key : Task α (StateM Disk) _).run.run t =
      (.ok ((Json.readDocument? scores.document.compact).bind Scores.ofDocument?), t) := by
  obtain ⟨u, hwrite⟩ := exists_write_of_run_save h
  have hcontains : (Storage.contains (cache.path key) : StateM Disk Bool).run t = (true, t) :=
    congrArg (·, t) (Disk.contains_of_write hwrite)
  have hread : (Storage.read (cache.path key) : StateM Disk _).run t =
      (.ok scores.document.compact.toUTF8, t) :=
    congrArg (·, t) (Disk.read_of_write hwrite)
  have htext := Task.run_readText hread
  rw [Text.decodeUtf8_toUTF8] at htext
  rw [get, Task.run_bind_of_ok (Task.run_contains hcontains), if_pos rfl,
    Task.run_bind_of_ok (Task.run_step_of_ok htext)]
  rfl

/-- **Scores are read back nearly.** What was saved under a key is found under it: the same blocks, the
same count, and for each value the double that its text is read as. That one is near the value, and the
same if the value is written in few digits; so scores of such values are found as they were. -/
theorem get_of_save {scores : Scores Float} (hfinite : scores.IsFinite)
    (hcount : scores.nonFinite < 2 ^ 64)
    (hsave : (cache.save key scores : Task Float (StateM Disk) Unit).run.run d = (.ok (), t)) :
    ∃ kept, (cache.get key : Task Float (StateM Disk) _).run.run t = (.ok (some kept), t) ∧
      scores.Pointwise
        (fun x y => (numberDocument x).scalar? = some y ∧ Decimal.Kept x y) kept ∧
      ((∀ x ∈ scores.values, Decimal.IsShort x) → kept = scores) := by
  obtain ⟨kept, hkept⟩ := Scores.exists_pointwise fun x hx => exists_rereads (hfinite.of_mem_values hx)
  have hread : scores.Pointwise Rereads kept := hkept.imp fun _ _ _ h => h.1
  have hcount' : scores.nonFinite ≤ Json.maxSignificand := Nat.le_sub_one_of_lt hcount
  refine ⟨kept, ?_, hkept.imp fun _ _ _ h => ⟨h.1.read, h.2⟩, fun hshort => ?_⟩
  · rw [run_get_of_run_save hsave, hread.read hcount']
  · exact Scores.Pointwise.eq (hkept.imp fun x hx y h => (h.2.eq_of_isShort (hshort x hx)).symm)

/-- Two blocks whose names need escapes, with a distance of many digits and a short similarity. -/
def quotedBlocks : Scores Float where
  distances := ⟨[⟨"\"a\""⟩, ⟨"b\n"⟩], #[0, 0.9452706955539223, 0.9452706955539223, 0]⟩
  similarities := some ⟨[⟨"\"a\""⟩, ⟨"b\n"⟩], #[0, 0.25, 0.25, 0]⟩
  nonFinite := 1

theorem isFinite_quotedBlocks : quotedBlocks.IsFinite := by
  have hdistances : ∀ x ∈ quotedBlocks.distances.values, isFinite x = true := by decide +kernel
  have hsimilarities : ∀ m ∈ quotedBlocks.similarities, ∀ x ∈ m.values, isFinite x = true := by
    decide +kernel
  exact ⟨hdistances, hsimilarities⟩

/-- Saving them into a cache that is not there yet goes through. -/
theorem exists_save_quotedBlocks : ∃ t,
    (save ⟨"cache"⟩ (keyFor Run.oneBlock (Settings.standard : Settings Float)) quotedBlocks :
      Task Float (StateM Disk) Unit).run.run (Run.uncached Run.oneBlock) = (.ok (), t) := by
  have hstart : Run.besideCache.fileMap.Holds (Run.uncached Run.oneBlock) ⟨Run.oneBlock, none⟩ :=
    Disk.Layout.Holds.of_missing rfl rfl ⟨_, rfl⟩ rfl
  obtain ⟨t, ht, -⟩ := Run.besideCache.fileMap.run_save hstart (isKey_keyFor _ _) quotedBlocks
  exact ⟨t, ht⟩

/-- They are found again, with a distance that is near and a similarity that is the same. -/
theorem get_of_save_quotedBlocks :
    quotedBlocks.IsFinite ∧ quotedBlocks.nonFinite < 2 ^ 64 ∧
      ∃ t kept, (save ⟨"cache"⟩ (keyFor Run.oneBlock (Settings.standard : Settings Float)) quotedBlocks :
          Task Float (StateM Disk) Unit).run.run (Run.uncached Run.oneBlock) = (.ok (), t) ∧
        (get ⟨"cache"⟩ (keyFor Run.oneBlock (Settings.standard : Settings Float)) :
          Task Float (StateM Disk) _).run.run t = (.ok (some kept), t) ∧
        quotedBlocks.Pointwise
          (fun x y => (numberDocument x).scalar? = some y ∧ Decimal.Kept x y) kept := by
  obtain ⟨t, hsave⟩ := exists_save_quotedBlocks
  have hcount : quotedBlocks.nonFinite < 2 ^ 64 := by decide
  obtain ⟨kept, hget, hkept, -⟩ := get_of_save isFinite_quotedBlocks hcount hsave
  exact ⟨isFinite_quotedBlocks, hcount, t, kept, hsave, hget, hkept⟩

/-- **Not every double comes back**: their distance is written as `0.9452706955539223`, and the quotient
that is read for these digits, of two rounded numbers, is the next double above. -/
theorem get_of_save_changed :
    quotedBlocks.IsFinite ∧
      ∃ t, (save ⟨"cache"⟩ (keyFor Run.oneBlock (Settings.standard : Settings Float)) quotedBlocks :
          Task Float (StateM Disk) Unit).run.run (Run.uncached Run.oneBlock) = (.ok (), t) ∧
        (get ⟨"cache"⟩ (keyFor Run.oneBlock (Settings.standard : Settings Float)) :
          Task Float (StateM Disk) _).run.run t ≠ (.ok (some quotedBlocks), t) := by
  obtain ⟨t, hsave⟩ := exists_save_quotedBlocks
  refine ⟨isFinite_quotedBlocks, t, hsave, ?_⟩
  have hother : ¬Run.IsReadBack quotedBlocks := by decide +kernel
  rw [run_get_of_run_save hsave]
  intro hsame
  exact hother (Except.ok.inj (Prod.mk.inj hsame).1)

/-- Short values, and one that is not. -/
example : Decimal.IsShort 0.25 ∧ Decimal.IsShort 0.1 ∧ Decimal.IsShort (-12.5) ∧
    ¬Decimal.IsShort 0.9452706955539223 := by decide +kernel

end ScoreCache

end BlockAffinity
