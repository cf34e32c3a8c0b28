import BlockAffinity.Run.Task

/-!
# BlockAffinity.Proofs.Run.Task

**Tasks step by step.** Over a storage that is a state, a task gives a result and the state
afterwards: a step hands both on, and a failure leaves out what follows.
-/

namespace BlockAffinity

/-- A stage that is told as part of an activity succeeds as it does by itself. -/
theorem during_mapError_eq_ok_iff {α β ε : Type} {activity : Activity} {stage : Except ε β}
    {cause : ε → Cause α} {value : β} :
    during activity (stage.mapError cause) = .ok value ↔ stage = .ok value := by
  cases stage with
  | error fault =>
      constructor <;>
      · intro h
        cases h
  | ok found =>
      constructor <;>
      · intro h
        cases h
        rfl

/-- What follows a stage can be done before or after it is told as part of an activity. -/
theorem during_mapError_map {α β γ ε : Type} (activity : Activity) (stage : Except ε β)
    (cause : ε → Cause α) (f : β → γ) :
    during activity ((stage.map f).mapError cause) =
      (during activity (stage.mapError cause)).map f := by
  cases stage with
  | error fault => rfl
  | ok found => rfl

namespace Task

variable {α β γ σ : Type} {s t : σ}

theorem run_bind_of_ok {task : Task α (StateM σ) β} {next : β → Task α (StateM σ) γ} {value : β}
    (h : task.run.run s = (.ok value, t)) : (task >>= next).run.run s = (next value).run.run t := by
  rw [ExceptT.run_bind, StateT.run_bind, h]
  rfl

theorem run_bind_of_error {task : Task α (StateM σ) β} {next : β → Task α (StateM σ) γ}
    {failure : Failure α} (h : task.run.run s = (.error failure, t)) :
    (task >>= next).run.run s = (.error failure, t) := by
  rw [ExceptT.run_bind, StateT.run_bind, h]
  rfl

/-- What went through went through step by step. -/
theorem exists_of_run_bind {task : Task α (StateM σ) β} {next : β → Task α (StateM σ) γ} {result : γ}
    (h : (task >>= next).run.run s = (.ok result, t)) :
    ∃ value u, task.run.run s = (.ok value, u) ∧ (next value).run.run u = (.ok result, t) := by
  obtain ⟨outcome, u, htask⟩ : ∃ outcome u, task.run.run s = (outcome, u) := ⟨_, _, rfl⟩
  cases outcome with
  | error failure =>
      rw [run_bind_of_error htask] at h
      cases h
  | ok value => exact ⟨value, u, htask, by rwa [run_bind_of_ok htask] at h⟩

/-- A result that needs no files leaves the storage alone. -/
@[simp] theorem run_ofResult (result : Except (Failure α) β) :
    (ofResult result : Task α (StateM σ) β).run.run s = (result, s) := rfl

@[simp] theorem run_lift (operation : StateM σ β) :
    (liftM operation : Task α (StateM σ) β).run.run s =
      (.ok (operation.run s).1, (operation.run s).2) := rfl

theorem run_step_of_ok {activity : Activity} {operation : StateM σ (Except FileError β)}
    {value : β} (h : operation.run s = (.ok value, t)) :
    (step activity operation : Task α (StateM σ) β).run.run s = (.ok value, t) := by
  show (during activity ((operation.run s).1.mapError Cause.file), (operation.run s).2) = _
  rw [h]
  rfl

theorem run_step_of_error {activity : Activity} {operation : StateM σ (Except FileError β)}
    {error : FileError} (h : operation.run s = (.error error, t)) :
    (step activity operation : Task α (StateM σ) β).run.run s =
      (.error ⟨[activity], .file error⟩, t) := by
  show (during activity ((operation.run s).1.mapError Cause.file), (operation.run s).2) = _
  rw [h]
  rfl

theorem run_of_step {activity : Activity} {operation : StateM σ (Except FileError β)} {value : β}
    (h : (step activity operation : Task α (StateM σ) β).run.run s = (.ok value, t)) :
    operation.run s = (.ok value, t) := by
  obtain ⟨outcome, u, hoperation⟩ : ∃ outcome u, operation.run s = (outcome, u) := ⟨_, _, rfl⟩
  cases outcome with
  | error error =>
      rw [run_step_of_error hoperation] at h
      cases h
  | ok found =>
      rw [run_step_of_ok hoperation] at h
      cases h
      exact hoperation

theorem run_contains [Storage (StateM σ)] {path : String} {found : Bool}
    (h : (Storage.contains path : StateM σ Bool).run s = (found, t)) :
    (contains path : Task α (StateM σ) Bool).run.run s = (.ok found, t) := by
  show (Except.ok ((Storage.contains path : StateM σ Bool).run s).1,
    ((Storage.contains path : StateM σ Bool).run s).2) = _
  rw [h]

/-- A file is text if its bytes are. -/
theorem run_readText [Storage (StateM σ)] {path : String} {contents : ByteArray}
    (h : (Storage.read path : StateM σ _).run s = (.ok contents, t)) :
    (Storage.readText path : StateM σ _).run s =
      ((Text.decodeUtf8 contents).mapError fun _ => .notText, t) := by
  rw [Storage.readText, StateT.run_bind, h]
  dsimp only [bind]
  cases Text.decodeUtf8 contents with
  | error fault => rfl
  | ok text => rfl

theorem run_attempt_of_ok {task : Task α (StateM σ) β} {value : β}
    (h : task.run.run s = (.ok value, t)) : task.attempt.run s = (some value, t) := by
  rw [attempt, StateT.run_bind, h]
  rfl

theorem run_attempt_of_error {task : Task α (StateM σ) β} {failure : Failure α}
    (h : task.run.run s = (.error failure, t)) : task.attempt.run s = (none, t) := by
  rw [attempt, StateT.run_bind, h]
  rfl

end Task

end BlockAffinity
