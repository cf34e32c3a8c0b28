import BlockAffinity.Proofs.Run.Files
import Mathlib.Data.Set.Basic
import Mathlib.Order.Defs.Unbundled

/-!
# BlockAffinity.Proofs.Run.Frame

**Storages whose calls affect only what they name.** `FileFrame` asks of a storage only that a call
affects no file but the one that it names. What calls give is left open: each of them may fail at any
time, and what is read may be anything.

Over such a storage a program moves the state along a relation if each of its calls does
(`FileFrame.Along`). Two relations are of interest: equality, for programs that only look, and
agreement outside some places (`FileFrame.SameOutside`), for programs that write.
-/

namespace BlockAffinity

/-- A storage whose calls affect no file but the one that they name. -/
structure FileFrame (σ : Type) [Storage (StateM σ)] where
  /-- The states that the storage can be in. -/
  Holds : σ → Prop
  /-- Places of files; several paths may lead to one place. -/
  Place : Type
  place : String → Place
  file? : σ → Place → Option ByteArray
  /-- The directory that relative paths are taken from. -/
  current : String
  read {s : σ} (hs : Holds s) (path : String) : ((Storage.read path : StateM σ _).run s).2 = s
  contains {s : σ} (hs : Holds s) (path : String) :
    ((Storage.contains path : StateM σ _).run s).2 = s
  workingDirectory {s : σ} (hs : Holds s) :
    ((Storage.workingDirectory : StateM σ _).run s).2 = s
  eq_current {s : σ} (hs : Holds s) {found : String}
    (h : ((Storage.workingDirectory : StateM σ _).run s).1 = .ok found) : found = current
  write {s : σ} (hs : Holds s) (path : String) (contents : ByteArray) :
    Holds ((Storage.write path contents : StateM σ _).run s).2 ∧
      ∀ p ≠ place path, file? ((Storage.write path contents : StateM σ _).run s).2 p = file? s p
  removeFile {s : σ} (hs : Holds s) (path : String) :
    Holds ((Storage.removeFile path : StateM σ _).run s).2 ∧
      ∀ p ≠ place path, file? ((Storage.removeFile path : StateM σ _).run s).2 p = file? s p
  /-- New directories hold no files. -/
  makeDirectories {s : σ} (hs : Holds s) (path : String) :
    Holds ((Storage.makeDirectories path : StateM σ _).run s).2 ∧
      ∀ p, file? ((Storage.makeDirectories path : StateM σ _).run s).2 p = file? s p

namespace FileFrame

variable {σ : Type} [Storage (StateM σ)] (F : FileFrame σ)

/-- Two states have the same files outside some places. -/
def SameOutside (places : Set F.Place) (s t : σ) : Prop :=
  ∀ p ∉ places, F.file? t p = F.file? s p

instance (places : Set F.Place) : Std.Refl (F.SameOutside places) := ⟨fun _ _ _ => rfl⟩

instance (places : Set F.Place) : IsTrans σ (F.SameOutside places) :=
  ⟨fun _ _ _ hst htu p hp => (htu p hp).trans (hst p hp)⟩

/-- A program moves the state along a relation. -/
def Along {β : Type} (R : σ → σ → Prop) (program : StateM σ β) : Prop :=
  ∀ s, F.Holds s → F.Holds (program.run s).2 ∧ R s (program.run s).2

/-! ### Programs -/

variable {α β γ : Type} {F} {R : σ → σ → Prop}

/-- A program that leaves the state as it is moves it along equality. -/
theorem along_of_eq {program : StateM σ β} (h : ∀ s, F.Holds s → (program.run s).2 = s) :
    F.Along Eq program := by
  intro s hs
  rw [h s hs]
  exact ⟨hs, rfl⟩

theorem Along.of_eq [Std.Refl R] {program : StateM σ β} (h : F.Along Eq program) :
    F.Along R program := by
  intro s hs
  obtain ⟨hholds, heq⟩ := h s hs
  refine ⟨hholds, ?_⟩
  rw [← heq]
  exact Std.Refl.refl s

theorem Along.mono {S : σ → σ → Prop} {program : StateM σ β} (h : F.Along R program)
    (hle : ∀ s t, R s t → S s t) : F.Along S program :=
  fun s hs => ⟨(h s hs).1, hle _ _ (h s hs).2⟩

/-- What has changed lies in one of the places. -/
theorem Along.mem_of_changed {places : Set F.Place} {program : StateM σ β} {s : σ} {p : F.Place}
    (h : F.Along (F.SameOutside places) program) (hs : F.Holds s)
    (hp : F.file? (program.run s).2 p ≠ F.file? s p) : p ∈ places := by
  by_contra hnot
  exact hp ((h s hs).2 p hnot)

theorem along_pure [Std.Refl R] (value : β) : F.Along R (pure value : StateM σ β) :=
  fun s hs => ⟨hs, Std.Refl.refl s⟩

theorem Along.bind [IsTrans σ R] {program : StateM σ β} {next : β → StateM σ γ}
    (h : F.Along R program) (hnext : ∀ s, F.Holds s → F.Along R (next (program.run s).1)) :
    F.Along R (program >>= next) := by
  intro s hs
  obtain ⟨hholds, hmoved⟩ := h s hs
  obtain ⟨hholds', hmoved'⟩ := hnext s hs _ hholds
  rw [StateT.run_bind]
  exact ⟨hholds', IsTrans.trans _ _ _ hmoved hmoved'⟩

theorem along_ofResult [Std.Refl R] (result : Except (Failure α) β) :
    F.Along R (Task.ofResult result : Task α (StateM σ) β).run := along_pure result

section tasks

variable [Std.Refl R] [IsTrans σ R]

/-- **A task goes on** only from what its first part gives. -/
theorem Along.task_bind {task : Task α (StateM σ) β} {next : β → Task α (StateM σ) γ}
    (h : F.Along R task.run)
    (hnext : ∀ s value, F.Holds s → (task.run.run s).1 = .ok value → F.Along R (next value).run) :
    F.Along R (task >>= next).run := by
  rw [ExceptT.run_bind]
  refine h.bind fun s hs => ?_
  cases hresult : (task.run.run s).1 with
  | error failure => exact along_pure _
  | ok value => exact hnext s value hs hresult

theorem along_mapM {items : List β} {task : β → Task α (StateM σ) γ}
    (h : ∀ item ∈ items, F.Along R (task item).run) :
    F.Along R (items.mapM task : Task α (StateM σ) (List γ)).run := by
  induction items with
  | nil => exact along_pure _
  | cons item items ih =>
      obtain ⟨hitem, hitems⟩ := List.forall_mem_cons.mp h
      rw [List.mapM_cons]
      refine hitem.task_bind fun _ _ _ _ => ?_
      exact (ih hitems).task_bind fun _ _ _ _ => along_pure _

theorem Along.step {operation : StateM σ (Except FileError β)} (h : F.Along R operation)
    (activity : Activity) : F.Along R (Task.step activity operation : Task α (StateM σ) β).run :=
  h.bind fun _ _ => along_pure _

theorem Along.perform {operation : StateM σ (Except FileError β)} (h : F.Along R operation)
    (cause : FileError → Cause α) :
    F.Along R (Task.perform cause operation : Task α (StateM σ) β).run :=
  h.bind fun _ _ => along_pure _

theorem Along.lift {program : StateM σ β} (h : F.Along R program) :
    F.Along R (liftM program : Task α (StateM σ) β).run :=
  h.bind fun _ _ => along_pure _

theorem Along.attempt {task : Task α (StateM σ) β} (h : F.Along R task.run) :
    F.Along R task.attempt := by
  refine h.bind fun s _ => ?_
  cases (task.run.run s).1 <;> exact along_pure _

end tasks

end FileFrame

end BlockAffinity
