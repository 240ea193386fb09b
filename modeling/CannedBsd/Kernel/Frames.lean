import CannedBsd.Kernel.Process

/-!
# What closing leaves alone

Closing descriptors and directory handles reaches into open files, pipes and nodes and may wake
tasks. A view of the kernel that none of these changes touches is the same before and after, however
many descriptors are closed.

* `Aloof.fdCloseWhere`, `Aloof.dirCloseAll`, `Aloof.taskRelease`: such a view is the same after the loop.
-/

namespace CannedBsd

open CannedBsd.Lib

/-- A view of the kernel that does not depend on nodes, open files, pipes and wake-ups. -/
structure Aloof {β : Type} (view : Kernel → β) : Prop where
  vfs : ∀ k v, view { k with vfs := v } = view k
  files : ∀ k files, view { k with files := files } = view k
  pipes : ∀ k pipes, view { k with pipes := pipes } = view k
  trace : ∀ k trace, view { k with trace := trace } = view k
  wake : ∀ k, view (cbWakePipeTasks k) = view k

/-- A loop whose rounds keep something keeps it. -/
theorem foldl_keep {α σ β : Type} (view : σ → β) (f : σ → α → σ) (hf : ∀ s x, view (f s x) = view s)
    (xs : List α) (s : σ) : view (xs.foldl f s) = view s := by
  induction xs generalizing s with
  | nil => rfl
  | cons x xs ih =>
    rw [List.foldl_cons, ih]
    exact hf s x

namespace Aloof

variable {β : Type} {view : Kernel → β} {t : TaskId}

theorem releaseNode (h : Aloof view) (k : Kernel) (n : Option NodeId) : view (releaseNode k n) = view k := h.vfs k _

theorem retainNode (h : Aloof view) (k : Kernel) (n : Option NodeId) : view (retainNode k n) = view k := h.vfs k _

theorem pipeClose (h : Aloof view) (k : Kernel) (p : PipeId) (lower : Pipe → Pipe) :
    view (pipeClose k p lower) = view k := by
  have hlower : view (cbWakePipeTasks (k.setPipe p lower)) = view k := by
    rw [h.wake]
    exact h.pipes k _
  rw [CannedBsd.pipeClose]
  split
  · rfl
  · dsimp only
    split
    · rw [h.pipes]
      exact hlower
    · exact hlower

theorem lastClose (h : Aloof view) (k : Kernel) (object : FileObject) : view (lastClose k object) = view k := by
  cases object with
  | node n => exact h.releaseNode k _
  | pipeRead p => exact h.pipeClose k p _
  | pipeWrite p => exact h.pipeClose k p _
  | consoleInput => rfl
  | consoleOutput => rfl

theorem cbOpenFileRelease (h : Aloof view) (k : Kernel) (f : FileId) : view (cbOpenFileRelease k f) = view k := by
  rw [CannedBsd.cbOpenFileRelease]
  split
  · rfl
  split
  · exact h.files k _
  · rw [h.lastClose]
    exact (h.trace _ _).trans (h.files k _)

/-- Closing a descriptor, for a view that does not depend on the descriptors of the task. -/
theorem fdCloseSlot (h : Aloof view) (hs : ∀ k d entry, view (k.setSlot t d entry) = view k) (k : Kernel)
    (d : Fin cbMaxFds) : view (fdCloseSlot k t d) = view k := by
  rw [CannedBsd.fdCloseSlot]
  split
  · rfl
  · rw [h.cbOpenFileRelease]
    exact hs k d none

theorem fdInstallAt (h : Aloof view) (hs : ∀ k d entry, view (k.setSlot t d entry) = view k) (k : Kernel) (f : FileId)
    (d : Fin cbMaxFds) (retain : Bool) : view (fdInstallAt k t f d retain) = view k := by
  have hretain : ∀ k, view (if retain then cbOpenFileRetain k f else k) = view k := by
    intro k
    split
    · exact h.files k _
    · rfl
  rw [CannedBsd.fdInstallAt]
  refine (hs _ d _).trans ((hretain _).trans ?_)
  split
  · rfl
  · rw [h.cbOpenFileRelease]
    exact hs k d none

theorem fdCloseWhere (h : Aloof view) (hs : ∀ k d entry, view (k.setSlot t d entry) = view k) (p : FdEntry → Bool)
    (k : Kernel) : view (fdCloseWhere p k t) = view k := by
  rw [CannedBsd.fdCloseWhere]
  apply foldl_keep
  intro k d
  split
  · exact h.fdCloseSlot hs k d
  · rfl

/-- Closing the handles, for a view that does not depend on the handles of the task. -/
theorem dirCloseAll (h : Aloof view) (hd : ∀ k d handle, view (k.setDir t d handle) = view k) (k : Kernel) :
    view (dirCloseAll k t) = view k := by
  rw [CannedBsd.dirCloseAll]
  apply foldl_keep
  intro k d
  dsimp only
  split
  · rw [h.releaseNode]
    exact hd k d _
  · rfl

theorem taskRelease (h : Aloof view) (ht : ∀ k, view { k with tasks := k.tasks.free t } = view k) (k : Kernel) :
    view (taskRelease k t) = view k := by
  rw [CannedBsd.taskRelease]
  split
  · rfl
  · dsimp only
    rw [h.releaseNode, h.releaseNode, h.releaseNode, h.releaseNode]
    exact ht k

end Aloof

/-- The fields of the kernel outside tasks, open files, pipes and nodes. -/
theorem aloof_fatal : Aloof Kernel.fatal := ⟨fun _ _ => rfl, fun _ _ => rfl, fun _ _ => rfl, fun _ _ => rfl, fun _ => rfl⟩

theorem aloof_history : Aloof Kernel.history :=
  ⟨fun _ _ => rfl, fun _ _ => rfl, fun _ _ => rfl, fun _ _ => rfl, fun _ => rfl⟩

end CannedBsd
