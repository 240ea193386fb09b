import CannedBsd.Kernel.Paths
import CannedBsd.Kernel.ProgramHeap
import CannedBsd.Vfs.Demolition

/-!
# The end of the kernel

`cb_kernel_destroy` destroys all tasks in the order of the list and then the file system. It does not
take the tasks off the list, and closing the last descriptor of a pipe end walks over the list. So from
the second task on such a close reads tasks that have been freed.

The functions here are those of `src/core.c`, with a check at this walk: the result is `none` when the
list has a task on it that has been freed.

* `destroyTasks_eq`: where the checks pass, the tasks are destroyed as in the kernel model.
* `destroyTasks_iff`: the loop over the tasks passes the checks exactly when only the first task has pipe ends
  open.
* `survives_iff`: which nodes outlive the tasks and the file system.
* `kernel_destroy_exact`: both, for every reachable state.
-/

namespace CannedBsd

open CannedBsd.Lib

namespace Teardown

/-- Is the object a pipe end? Its last close calls `cb_wake_pipe_tasks`. -/
def isPipeEnd : FileObject → Bool
  | .pipeRead _ => true
  | .pipeWrite _ => true
  | _ => false

/-- Every task on the list is live. -/
def listLive (k : Kernel) : Bool := k.order.all fun t => (k.task t).isSome

/-- Releasing the open file closes a pipe end. -/
def closesEnd (k : Kernel) (f : FileId) : Bool :=
  (k.files.get f).any fun file => decide (file.references - 1 = 0) && isPipeEnd file.object

/-- The loop of `fd_close_all`. -/
def closeSlots (t : TaskId) : List (Fin cbMaxFds) → Kernel → Option Kernel
  | [], k => some k
  | d :: ds, k =>
    if (k.slot t d).any fun entry => closesEnd k entry.file && !listLive k then none
    else closeSlots t ds (fdCloseSlot k t d)

/-- `task_destroy`. -/
def taskDestroy (k : Kernel) (t : TaskId) : Option Kernel :=
  (closeSlots t (List.finRange cbMaxFds) (taskReleaseAllocations k t)).map fun k => taskRelease (dirCloseAll k t) t

def destroyTasks : List TaskId → Kernel → Option Kernel
  | [], k => some k
  | t :: ts, k => (taskDestroy k t).bind (destroyTasks ts)

/-- `cb_kernel_destroy`, up to the memory of the kernel itself. The array of programs it goes through is
never filled. -/
def cbKernelDestroy (k : Kernel) : Option Kernel :=
  (destroyTasks k.order k).bind fun k => (Demolition.cbVfsDestroy k.vfs).map fun v => { k with vfs := v }

/-! ### The checks change nothing -/

theorem fdCloseSlot_none {k : Kernel} {t : TaskId} {d : Fin cbMaxFds} (h : k.slot t d = none) : fdCloseSlot k t d = k := by
  rw [fdCloseSlot, h]

theorem closeSlots_eq (t : TaskId) (ds : List (Fin cbMaxFds)) : ∀ {k k' : Kernel}, closeSlots t ds k = some k' →
    ds.foldl (fun k d => if (k.slot t d).any fun _ => true then fdCloseSlot k t d else k) k = k' := by
  induction ds with
  | nil =>
    intro k k' h
    exact Option.some.inj h
  | cons d ds ih =>
    intro k k' h
    rw [closeSlots] at h
    split at h
    · cases h
    rw [List.foldl_cons]
    have hstep : (if (k.slot t d).any (fun _ => true) then fdCloseSlot k t d else k) = fdCloseSlot k t d := by
      cases hs : k.slot t d with
      | none => exact (fdCloseSlot_none hs).symm
      | some entry => rfl
    rw [hstep]
    exact ih h

/-- Where the checks pass, the task is destroyed as in the model. -/
theorem taskDestroy_eq {k k' : Kernel} {t : TaskId} (h : taskDestroy k t = some k') : CannedBsd.taskDestroy k t = k' := by
  obtain ⟨k₁, hclose, heq⟩ := Option.map_eq_some_iff.mp h
  have hall : fdCloseAll (taskReleaseAllocations k t) t = k₁ := closeSlots_eq t _ hclose
  rw [CannedBsd.taskDestroy, hall, heq]

theorem destroyTasks_eq (ts : List TaskId) : ∀ {k k' : Kernel}, destroyTasks ts k = some k' →
    ts.foldl CannedBsd.taskDestroy k = k' := by
  induction ts with
  | nil =>
    intro k k' h
    exact Option.some.inj h
  | cons t ts ih =>
    intro k k' h
    obtain ⟨k₁, hone, hrest⟩ := Option.bind_eq_some_iff.mp h
    rw [List.foldl_cons, taskDestroy_eq hone]
    exact ih hrest

/-! ### Nodes that are given back -/

/-- References to nodes are given back, and nodes without references go. The tree stays. -/
structure Eased (v v' : Vfs) : Prop where
  mounts : SameMounts v v'
  back : ∀ {n node'}, v'.node n = some node' → ∃ node, v.node n = some node ∧ node'.shape = node.shape
  keep : ∀ {n node}, v.node n = some node → (node.parent ≠ none ∨ v.rootOf node.mount = some n) → (v'.node n).isSome = true
  live : (∀ {n node}, v.node n = some node → 0 < node.references) → ∀ {n node}, v'.node n = some node → 0 < node.references
  spends : Demolition.Spends v v'

namespace Eased

variable {v v' v'' : Vfs} {ext : NodeId → ℕ} {n : NodeId}

theorem refl (v : Vfs) : Eased v v :=
  ⟨.refl v, fun h => ⟨_, h, rfl⟩, fun h _ => by rw [h, Option.isSome_some], fun h => h, .refl v⟩

theorem trans (h : Eased v v') (h' : Eased v' v'') : Eased v v'' := by
  refine ⟨h.mounts.trans h'.mounts, fun hn => ?_, fun {n node} hn hin => ?_, fun hlive => h'.live (h.live hlive),
    h.spends.trans h'.spends⟩
  · obtain ⟨node', hn', hshape'⟩ := h'.back hn
    obtain ⟨node, hn, hshape⟩ := h.back hn'
    exact ⟨node, hn, hshape'.trans hshape⟩
  · obtain ⟨node', hn'⟩ := Option.isSome_iff_exists.mp (h.keep hn hin)
    obtain ⟨x, hx, hshape⟩ := h.back hn'
    rw [hn, Option.some.injEq] at hx
    subst hx
    obtain ⟨hmount, -, -, hparent, -, -⟩ := Node.shape_eq_iff.mp hshape
    apply h'.keep hn'
    rw [hparent, hmount, h.mounts.rootOf]
    exact hin

/-- A node goes with its last reference only, and then it is loose. -/
theorem release (h : Sound v ext) (hext : 0 < ext n) : Eased v (ramfsNodeRelease v n) := by
  obtain ⟨node, hn⟩ := h.live hext
  have hlower : Demolition.Spends v (v.setNode n fun x => { x with references := x.references - 1 }) :=
    .setNode v n fun _ => rfl
  have hself : (v.setNode n fun x => { x with references := x.references - 1 }).node n =
      some { node with references := node.references - 1 } := by
    rw [Vfs.node_setNode_self, hn]
    rfl
  have hother : ∀ x, x ≠ n → (v.setNode n fun x => { x with references := x.references - 1 }).node x = v.node x :=
    fun x hx => Vfs.node_setNode_of_ne _ _ hx
  rw [ramfsNodeRelease, nodeRelease, hn]
  dsimp only
  split
  · rename_i hlast
    obtain ⟨hparent, hchildren, hroot, -⟩ := h.last hn hext hlast
    rw [hchildren, Sound.releaseChildren_none]
    have hnodes : ∀ (w : Vfs) (o : Option ProgramId), (programDestroy w o).nodes = w.nodes := by
      intro w o
      cases o <;> rfl
    rw [hnodes]
    set u := v.setNode n fun x => { x with references := x.references - 1 }
    have hget : ∀ x, ({ programDestroy u node.executable with nodes := u.nodes.free n } : Vfs).node x =
        if x = n then none else u.node x := fun x => Heap.get_free _ _ _
    have hback : ∀ {x y}, ({ programDestroy u node.executable with nodes := u.nodes.free n } : Vfs).node x = some y →
        v.node x = some y := by
      intro x y hx
      rw [hget] at hx
      split at hx
      · cases hx
      · rename_i hne
        rwa [hother x hne] at hx
    have hmounts := Sound.sameMounts_programDestroy u node.executable
    have hgone := Demolition.Spends.free hself
    refine ⟨(SameMounts.setNode v n _).trans (hmounts.trans ⟨rfl, rfl, rfl, rfl⟩), fun hx => ⟨_, hback hx, rfl⟩,
      fun {x y} hx hin => ?_, fun hlive {x y} hx => hlive (hback hx), hlower.trans hgone⟩
    have hne : x ≠ n := by
      intro heq
      rw [heq, hn, Option.some.injEq] at hx
      subst hx
      rw [heq] at hin
      exact hin.elim (fun hp => hp hparent) hroot
    rw [hget, if_neg hne, hother x hne, hx]
    rfl
  · rename_i hmore
    refine ⟨.setNode v n _, fun {x y} hx => ?_, fun {x y} hx _ => ?_, fun hlive {x y} hx => ?_, hlower⟩
    · by_cases hne : x = n
      · rw [hne, hself, Option.some.injEq] at hx
        subst hx
        exact ⟨node, hne ▸ hn, rfl⟩
      · rw [hother x hne] at hx
        exact ⟨y, hx, rfl⟩
    · by_cases hne : x = n
      · rw [hne, hself]
        rfl
      · rw [hother x hne, hx]
        rfl
    · by_cases hne : x = n
      · rw [hne, hself, Option.some.injEq] at hx
        subst hx
        show 0 < node.references - 1
        omega
      · rw [hother x hne] at hx
        exact hlive hx

end Eased

/-! ### The books of a kernel that is taken apart -/

/-- Every pipe has an end. -/
def PipesOpen (pipes : Heap Pipe) : Prop := ∀ p pipe, pipes.get p = some pipe → 0 < pipe.readers + pipe.writers

/-- The books go on, nodes go only when nothing refers to them, open files keep their objects, and pipes
go with their last ends. -/
structure GivesBack (k : Kernel) (k' : Kernel) (fl' : Flight) : Prop where
  books : Books k' fl'
  vfs : Eased k.vfs k'.vfs
  files : ∀ {f file'}, k'.files.get f = some file' → ∃ file, k.files.get f = some file ∧ file'.object = file.object
  pipes : PipesOpen k.pipes → PipesOpen k'.pipes

variable {k k' k'' : Kernel} {fl fl' : Flight} {t : TaskId}

theorem GivesBack.refl (hb : Books k fl) : GivesBack k k fl := ⟨hb, .refl _, fun h => ⟨_, h, rfl⟩, id⟩

theorem GivesBack.trans (h : GivesBack k k' fl) (h' : GivesBack k' k'' fl') : GivesBack k k'' fl' := by
  refine ⟨h'.books, h.vfs.trans h'.vfs, fun hf => ?_, fun hp => h'.pipes (h.pipes hp)⟩
  obtain ⟨file', hf', heq'⟩ := h'.files hf
  obtain ⟨file, hf, heq⟩ := h.files hf'
  exact ⟨file, hf, heq'.trans heq⟩

/-- A step that reaches neither nodes nor open files nor pipes. -/
theorem GivesBack.of_same (hb : Books k' fl') (hvfs : k'.vfs = k.vfs) (hfiles : k'.files = k.files)
    (hpipes : k'.pipes = k.pipes) :
    GivesBack k k' fl' := by
  refine ⟨hb, ?_, fun hf => ?_, fun hp => ?_⟩
  · rw [hvfs]
    exact .refl _
  · rw [hfiles] at hf
    exact ⟨_, hf, rfl⟩
  · rwa [hpipes]

theorem books_moves (hb : Books k fl) (hm : Moves noNode k fl k' fl') : Books k' fl' := by
  induction hm with
  | refl => exact hb
  | step _ hs ih => exact ih.micro hs

theorem gives_releaseNode (o : Option NodeId) (hb : Books k (fl.addNode o)) : GivesBack k (releaseNode k o) fl := by
  cases o with
  | none => exact .refl hb
  | some n =>
    have hpath : Path noNode k (fl.addNode (some n)) (releaseNode k (some n)) fl := releaseNode_path k fl (some n)
    refine ⟨books_moves hb hpath.moves, .release hb.vfs ?_, fun h => ⟨_, h, rfl⟩, id⟩
    simp only [Flight.addNode_nodes, pointsTo_self]
    omega

theorem vfs_pipeClose (k : Kernel) (p : PipeId) (lower : Pipe → Pipe) :
    (pipeClose k p lower).vfs = k.vfs ∧ (pipeClose k p lower).files = k.files := by
  rw [pipeClose]
  split
  · exact ⟨rfl, rfl⟩
  dsimp only
  split
  · exact ⟨rfl, rfl⟩
  · exact ⟨rfl, rfl⟩

/-- A pipe that has been closed at one end has another one, or it is freed. -/
theorem pipesOpen_pipeClose (p : PipeId) (lower : Pipe → Pipe) (h : PipesOpen k.pipes) :
    PipesOpen (pipeClose k p lower).pipes := by
  rw [pipeClose]
  split
  · exact h
  rename_i pipe hp
  have hget : ∀ q, (k.pipes.modify p lower).get q = if q = p then (k.pipes.get q).map lower else k.pipes.get q :=
    Heap.get_modify _ _ _
  dsimp only
  split
  · intro q x hx
    have hfree : ((k.pipes.modify p lower).free p).get q = some x := hx
    rw [Heap.get_free] at hfree
    split at hfree
    · cases hfree
    · rename_i hne
      rw [hget, if_neg hne] at hfree
      exact h q x hfree
  · rename_i hmore
    intro q x hx
    have hset : (k.pipes.modify p lower).get q = some x := hx
    rw [hget] at hset
    split at hset
    · rename_i heq
      rw [heq, hp, Option.map_some, Option.some.injEq] at hset
      rw [← hset]
      omega
    · exact h q x hset

/-- Open files that are left after one has been freed. -/
theorem gives_of_free {f : FileId} (hvfs : k'.vfs = k.vfs) (hfiles : k'.files = k.files.free f)
    (hpipes : PipesOpen k.pipes → PipesOpen k'.pipes) (hb : Books k' fl') : GivesBack k k' fl' := by
  refine ⟨hb, ?_, fun {x file'} hx => ?_, hpipes⟩
  · rw [hvfs]
    exact .refl _
  · rw [hfiles, Heap.get_free] at hx
    split at hx
    · cases hx
    · exact ⟨file', hx, rfl⟩

theorem gives_releaseFile {f : FileId} (hb : Books k (fl.addFile (some f))) : GivesBack k (cbOpenFileRelease k f) fl := by
  have hself : (fl.addFile (some f)).files f = fl.files f + 1 := by
    rw [Flight.addFile_files, pointsTo_self]
  have hbal : ∀ x, (fl.addFile (some f)).files x = fl.files x + pointsTo (some f) x := fun _ => rfl
  rw [cbOpenFileRelease]
  cases hf : k.files.get f with
  | none =>
    have hz := hb.freedFiles hf
    omega
  | some file =>
    dsimp only
    split
    · have hlower : Micro noNode k (fl.addFile (some f))
          (k.setFile f fun file => { file with references := file.references - 1 }) fl := by
        refine .file hf rfl rfl ?_ ?_ ?_
        · dsimp only
          omega
        · dsimp only
          omega
        · intro x hx
          rw [Flight.addFile_files, pointsTo_of_ne hx, Nat.add_zero]
      refine ⟨hb.micro hlower, .refl _, fun {x file'} hx => ?_, id⟩
      have hget : (k.files.modify f fun file => { file with references := file.references - 1 }).get x = some file' := hx
      rw [Heap.get_modify] at hget
      split at hget
      · obtain ⟨y, hy, heq⟩ := Option.map_eq_some_iff.mp hget
        rw [← heq]
        exact ⟨y, hy, rfl⟩
      · exact ⟨file', hget, rfl⟩
    · rename_i hlast
      have hone : file.references - 1 = 0 := not_not.mp hlast
      cases ho : file.object with
      | node n =>
        have hend : ∀ c, endHold (.node c) file = pointsTo (some n) c := by
          intro c
          simp [endHold, ho, pointsTo]
        have hclose : Micro noNode k (fl.addFile (some f)) ({ k with files := k.files.free f }.log (.lastClose f))
            (fl.addNode (some n)) :=
          .closeFile hf hone (fun p => by simp [ho]) (fun c => by rw [hend]; rfl) hbal
        have hfree : GivesBack k ({ k with files := k.files.free f }.log (.lastClose f)) (fl.addNode (some n)) :=
          gives_of_free rfl rfl id (hb.micro hclose)
        exact hfree.trans (gives_releaseNode (some n) hfree.books)
      | pipeRead p =>
        have hclose : Micro noNode k (fl.addFile (some f)) _ fl := .closeReader hf hone ho hbal
        obtain ⟨hvfs, hfiles⟩ := vfs_pipeClose ({ k with files := k.files.free f }.log (.lastClose f)) p
          fun pipe => { pipe with readers := pipe.readers - 1 }
        refine gives_of_free hvfs hfiles (fun hp => ?_) (hb.micro hclose)
        exact pipesOpen_pipeClose (k := { k with files := k.files.free f }.log (.lastClose f)) p _ hp
      | pipeWrite p =>
        have hclose : Micro noNode k (fl.addFile (some f)) _ fl := .closeWriter hf hone ho hbal
        obtain ⟨hvfs, hfiles⟩ := vfs_pipeClose ({ k with files := k.files.free f }.log (.lastClose f)) p
          fun pipe => { pipe with writers := pipe.writers - 1 }
        refine gives_of_free hvfs hfiles (fun hp => ?_) (hb.micro hclose)
        exact pipesOpen_pipeClose (k := { k with files := k.files.free f }.log (.lastClose f)) p _ hp
      | consoleInput =>
        have hclose : Micro noNode k (fl.addFile (some f)) ({ k with files := k.files.free f }.log (.lastClose f)) fl :=
          .closeFile hf hone (fun p => by simp [ho]) (fun c => by simp [endHold, ho, Flight.addFile]) hbal
        exact gives_of_free rfl rfl id (hb.micro hclose)
      | consoleOutput s =>
        have hclose : Micro noNode k (fl.addFile (some f)) ({ k with files := k.files.free f }.log (.lastClose f)) fl :=
          .closeFile hf hone (fun p => by simp [ho]) (fun c => by simp [endHold, ho, Flight.addFile]) hbal
        exact gives_of_free rfl rfl id (hb.micro hclose)

/-- A slot is emptied. The task may be in the middle of a call: it will not go on with it. -/
theorem books_emptySlot {task : Task} {d : Fin cbMaxFds} {entry : FdEntry} (hb : Books k fl) (ht : k.task t = some task)
    (hd : task.descriptors d = some entry) : Books (k.setSlot t d none) (fl.addFile (some entry.file)) := by
  have hdead : SamePointers k (k.setTask t fun task => { task with state := .dead }) := .setTask k t fun _ _ => rfl
  have ht' : (k.setTask t fun task => { task with state := .dead }).task t = some { task with state := .dead } :=
    Kernel.task_setTask_self _ ht
  have hset : Path noNode (k.setTask t fun task => { task with state := .dead }) (fl.addFile none)
      ((k.setTask t fun task => { task with state := .dead }).setSlot t d none) (fl.addFile (some entry.file)) :=
    setSlot_path fl none ht' ⟨_, ht', .inl rfl⟩ hd
  have hbooks := books_moves (hb.pointers hdead) hset.moves
  refine hbooks.pointers ⟨rfl, rfl, rfl, rfl, ?_, fun c => ?_⟩
  · show (k.tasks.modify t _).next = ((k.tasks.modify t _).modify t _).next
    rw [Heap.next_modify, Heap.next_modify, Heap.next_modify]
  · rw [Kernel.setSlot, Kernel.setSlot, Kernel.task_setTask, Kernel.task_setTask, Kernel.task_setTask]
    split
    · rw [Option.map_map, Option.map_map, Option.map_map]
      rfl
    · rfl

theorem gives_fdCloseSlot (hb : Books k fl) (d : Fin cbMaxFds) : GivesBack k (fdCloseSlot k t d) fl := by
  rw [fdCloseSlot]
  cases hs : k.slot t d with
  | none => exact .refl hb
  | some entry =>
    obtain ⟨task, ht, hd⟩ := Option.bind_eq_some_iff.mp hs
    have hempty : GivesBack k (k.setSlot t d none) (fl.addFile (some entry.file)) :=
      .of_same (books_emptySlot hb ht hd) rfl rfl rfl
    exact hempty.trans (gives_releaseFile hempty.books)

theorem gives_closeDir (hb : Books k fl) (d : Fin cbMaxDirs) :
    GivesBack k (closeDir k t d) (fl.addLeak (lookahead k t d)) := by
  rw [closeDir, lookahead]
  split
  · rename_i huse
    cases ht : k.task t with
    | none =>
      rw [Kernel.dir, ht] at huse
      cases huse
    | some task =>
      have hset : Path noNode k fl (k.setDir t d { k.dir t d with node := none, inUse := false })
          ((fl.addNode (k.dir t d).node).addNode (k.dir t d).next) := by
        refine setDir_path ht ?_ (fun _ c h => by cases h) (fun c h => by cases h) (fun h => by cases h)
        intro n
        rw [← dir_eq ht, dirHold, dirHold, if_pos huse, if_neg Bool.false_ne_true, Flight.addNode_nodes]
        omega
      have hleak := hset.trans (leak_path _ _ _)
      have hkeep : GivesBack k (k.setDir t d { k.dir t d with node := none, inUse := false })
          ((fl.addLeak (k.dir t d).next).addNode (k.dir t d).node) := .of_same (books_moves hb hleak.moves) rfl rfl rfl
      exact hkeep.trans (gives_releaseNode _ hkeep.books)
  · exact .refl hb

/-- The task is freed, and the nodes it points to are given back. -/
theorem gives_taskRelease {task : Task} (hb : Books k fl) (ht : k.task t = some task) (hslots : ∀ d, k.slot t d = none)
    (hdirs : ∀ d, (k.dir t d).inUse = false) : GivesBack k (taskRelease k t) fl := by
  have hfree : GivesBack k { k with tasks := k.tasks.free t }
      ((((fl.addNode task.root).addNode task.cwd).addNode task.pendingExecutableNode).addNode task.executableNode) := by
    refine .of_same ?_ rfl rfl rfl
    refine hb.destroy ht (fun n => ?_) (slotHold_of_none fun d => ?_) fl.limbo
    · rw [taskHold_of_closed fun d => by rw [← dir_eq ht, hdirs]]
      dsimp only [Flight.addNode]
      omega
    · rw [← slot_eq ht, hslots]
  rw [taskRelease, ht]
  have hexec := hfree.trans (gives_releaseNode _ hfree.books)
  have hpending := hexec.trans (gives_releaseNode _ hexec.books)
  have hcwd := hpending.trans (gives_releaseNode _ hpending.books)
  exact hcwd.trans (gives_releaseNode _ hcwd.books)
/-! ### One task -/

theorem slot_close (k : Kernel) (t : TaskId) (d e : Fin cbMaxFds) :
    (fdCloseSlot k t d).slot t e = if e = d then none else k.slot t e := by
  cases hs : k.slot t d with
  | none =>
    rw [fdCloseSlot_none hs]
    split
    · rename_i heq
      rw [heq, hs]
    · rfl
  | some entry =>
    obtain ⟨task, ht, -⟩ := Option.bind_eq_some_iff.mp hs
    rw [fdCloseSlot, hs]
    dsimp only
    rw [(resting_cbOpenFileRelease _ _).slot, slot_setSlot ht]

/-- The loop over the descriptors, by induction on the slots that are left. -/
theorem gives_closeSlots (ds : List (Fin cbMaxFds)) : ∀ {k k' : Kernel}, Books k fl → closeSlots t ds k = some k' →
    GivesBack k k' fl ∧ ∀ e, k'.slot t e = if e ∈ ds then none else k.slot t e := by
  induction ds with
  | nil =>
    intro k k' hb h
    rw [closeSlots, Option.some.injEq] at h
    subst h
    exact ⟨.refl hb, fun e => by simp⟩
  | cons d ds ih =>
    intro k k' hb h
    rw [closeSlots] at h
    split at h
    · cases h
    have hone : GivesBack k (fdCloseSlot k t d) fl := gives_fdCloseSlot hb d
    obtain ⟨hrest, hslots⟩ := ih hone.books h
    refine ⟨hone.trans hrest, fun e => ?_⟩
    rw [hslots, slot_close]
    by_cases hed : e = d
    · simp [hed]
    · simp [hed]

theorem dir_close (k : Kernel) (t : TaskId) (d e : Fin cbMaxDirs) :
    (closeDir k t d).dir t e =
      if e = d ∧ (k.dir t d).inUse = true then { k.dir t d with node := none, inUse := false } else k.dir t e := by
  rw [closeDir]
  by_cases huse : (k.dir t d).inUse = true
  · cases ht : k.task t with
    | none =>
      rw [Kernel.dir, ht] at huse
      cases huse
    | some task =>
      rw [if_pos huse, dir_releaseNode, dir_setDir ht]
      simp only [huse, and_true]
  · rw [if_neg huse, if_neg fun h => huse h.2]

/-- The loop over the handles: the look-ahead entries are forgotten. -/
theorem gives_closeDirs (ds : List (Fin cbMaxDirs)) : ∀ {k : Kernel} {fl : Flight}, ds.Nodup → Books k fl →
    GivesBack k (ds.foldl (fun k d => closeDir k t d) k)
        { fl with leaked := fun n => fl.leaked n + (ds.map fun d => pointsTo (lookahead k t d) n).sum } ∧
      ∀ e, ((ds.foldl (fun k d => closeDir k t d) k).dir t e).inUse = if e ∈ ds then false else (k.dir t e).inUse := by
  induction ds with
  | nil =>
    intro k fl _ hb
    exact ⟨.refl hb, fun e => by simp⟩
  | cons d ds ih =>
    intro k fl hnodup hb
    rw [List.nodup_cons] at hnodup
    have hone : GivesBack k (closeDir k t d) (fl.addLeak (lookahead k t d)) := gives_closeDir hb d
    obtain ⟨hrest, hdirs⟩ := ih hnodup.2 hone.books
    have hsame : ∀ e ∈ ds, lookahead (closeDir k t d) t e = lookahead k t e := by
      intro e he
      have hne : e ≠ d := by
        intro heq
        rw [heq] at he
        exact hnodup.1 he
      have hdir : (closeDir k t d).dir t e = k.dir t e := by
        rw [dir_close]
        exact if_neg fun h => hne h.1
      rw [lookahead, lookahead, hdir]
    have hleak : (fun n => (fl.addLeak (lookahead k t d)).leaked n +
        (ds.map fun e => pointsTo (lookahead (closeDir k t d) t e) n).sum) =
        fun n => fl.leaked n + ((d :: ds).map fun e => pointsTo (lookahead k t e) n).sum := by
      funext n
      have hmap : (ds.map fun e => pointsTo (lookahead (closeDir k t d) t e) n) =
          ds.map fun e => pointsTo (lookahead k t e) n := List.map_congr_left fun e he => by rw [hsame e he]
      rw [hmap, List.map_cons, List.sum_cons]
      exact Nat.add_assoc _ _ _
    rw [hleak] at hrest
    refine ⟨hone.trans hrest, fun e => ?_⟩
    rw [List.foldl_cons, hdirs, dir_close]
    by_cases hed : e = d
    · subst hed
      cases huse : (k.dir t e).inUse <;> simp [huse]
    · simp [hed]

/-- The look-ahead entries of the open handles of a task: `dir_close_all` does not give them back. -/
def lookaheads (k : Kernel) (t : TaskId) (n : NodeId) : ℕ :=
  ((List.finRange cbMaxDirs).map fun d => pointsTo (lookahead k t d) n).sum

theorem task_taskRelease_self (k : Kernel) (t : TaskId) : (taskRelease k t).task t = none := by
  rw [taskRelease]
  split
  · assumption
  · exact Heap.get_free_self _ _

/-- Is there a task at this address? -/
def occupied (c : TaskId) (k : Kernel) : Option Unit := (k.task c).map fun _ => ()

theorem aloof_occupied (c : TaskId) : Aloof (occupied c) := aloof_field (fun _ => ()) (fun _ => rfl) c

theorem occupied_setTask (k : Kernel) (t c : TaskId) (f : Task → Task) : occupied c (k.setTask t f) = occupied c k := by
  rw [occupied, occupied, Kernel.task_setTask]
  split
  · exact Option.map_map ..
  · rfl

theorem occupied_fdCloseSlot (k : Kernel) (t c : TaskId) (d : Fin cbMaxFds) : occupied c (fdCloseSlot k t d) = occupied c k :=
  (aloof_occupied c).fdCloseSlot (fun k _ _ => occupied_setTask k t c _) k d

theorem occupied_closeSlots (c : TaskId) (ds : List (Fin cbMaxFds)) : ∀ {k k' : Kernel}, closeSlots t ds k = some k' →
    occupied c k' = occupied c k := by
  induction ds with
  | nil =>
    intro k k' h
    rw [← Option.some.inj h]
  | cons d ds ih =>
    intro k k' h
    rw [closeSlots] at h
    split at h
    · cases h
    · rw [ih h, occupied_fdCloseSlot]

theorem task_of_occupied {c : TaskId} {task : Task} (h : occupied c k' = occupied c k) (ht : k.task c = some task) :
    ∃ task', k'.task c = some task' := by
  rw [occupied, occupied, ht, Option.map_some] at h
  obtain ⟨task', ht', -⟩ := Option.map_eq_some_iff.mp h
  exact ⟨task', ht'⟩

theorem view_taskDestroy {β : Type} {view : Kernel → β} (hv : Beyond t view) (h : taskDestroy k t = some k') :
    view k' = view k := by
  rw [← taskDestroy_eq h, CannedBsd.taskDestroy, hv.taskRelease hv.free, hv.dirCloseAll, fdCloseAll, hv.fdCloseWhere,
    hv.taskReleaseAllocations]

theorem task_taskDestroy_self (h : taskDestroy k t = some k') : k'.task t = none := by
  obtain ⟨k₁, -, heq⟩ := Option.map_eq_some_iff.mp h
  rw [← heq]
  exact task_taskRelease_self _ t

/-- `task_destroy` leaves nothing of the task, and of the others everything. -/
theorem gives_taskDestroy {task : Task} (hb : Books k fl) (ht : k.task t = some task) (h : taskDestroy k t = some k') :
    GivesBack k k' { fl with leaked := fun n => fl.leaked n + lookaheads k t n } ∧ k'.task t = none ∧ k'.order = k.order ∧
      ∀ c, c ≠ t → stillOf c k' = stillOf c k := by
  obtain ⟨k₁, hclose, heq⟩ := Option.map_eq_some_iff.mp h
  have hfresh : GivesBack k (taskReleaseAllocations k t) fl := by
    have hheap : Path noNode k fl (taskReleaseAllocations k t) fl := taskReleaseAllocations_path k t
    exact .of_same (books_moves hb hheap.moves) rfl rfl rfl
  obtain ⟨hslots, hempty⟩ := gives_closeSlots _ hfresh.books hclose
  obtain ⟨hdirs, hclosed⟩ := gives_closeDirs (t := t) (List.finRange cbMaxDirs) (List.nodup_finRange _) hslots.books
  rw [← dirCloseAll_eq] at hdirs hclosed
  have hlook : ∀ d, lookahead k₁ t d = lookahead k t d := by
    intro d
    have hdir : k₁.dir t d = k.dir t d := by
      rw [← closeSlots_eq t _ hclose]
      exact (dir_fdCloseWhere _ _ t d).trans (dir_taskReleaseAllocations k t t d)
    rw [lookahead, lookahead, hdir]
  have hoccupied : occupied t (dirCloseAll k₁ t) = occupied t k := by
    rw [(aloof_occupied t).dirCloseAll fun k _ _ => occupied_setTask k t t _, occupied_closeSlots t _ hclose]
    exact occupied_setTask _ t t _
  obtain ⟨task', ht'⟩ := task_of_occupied hoccupied ht
  have hgone := gives_taskRelease hdirs.books ht' (fun d => by rw [slot_dirCloseAll, hempty]; simp) fun d => by
    rw [hclosed]
    simp
  simp only [hlook] at hgone
  rw [heq] at hgone
  exact ⟨hfresh.trans (hslots.trans (hdirs.trans hgone)), task_taskDestroy_self h, view_taskDestroy (beyond_order t) h,
    fun c hc => view_taskDestroy (beyond_stillOf hc) h⟩

/-! ### All tasks -/

/-- The look-ahead entries of all these tasks. -/
def lookaheadsOf (k : Kernel) (ts : List TaskId) (n : NodeId) : ℕ := (ts.map fun t => lookaheads k t n).sum

theorem lookaheads_of_stillOf {c : TaskId} (h : stillOf c k' = stillOf c k) : lookaheads k' c = lookaheads k c := by
  have hdir : ∀ d, k'.dir c d = k.dir c d := by
    intro d
    have hread : ∀ k : Kernel, k.dir c d = ((stillOf c k).map fun task => task.directories d).getD ⟨none, none, false⟩ := by
      intro k
      rw [Kernel.dir, stillOf, Option.map_map]
      rfl
    rw [hread, hread, h]
  funext n
  simp only [lookaheads, lookahead, hdir]

theorem slot_of_stillOf {c : TaskId} (h : stillOf c k' = stillOf c k) (d : Fin cbMaxFds) : k'.slot c d = k.slot c d := by
  have hread : ∀ k : Kernel, k.slot c d = (stillOf c k).bind fun task => task.descriptors d := by
    intro k
    rw [Kernel.slot, stillOf, Option.bind_map]
    rfl
  rw [hread, hread, h]

theorem task_of_stillOf {c : TaskId} {task : Task} (h : stillOf c k' = stillOf c k) (ht : k.task c = some task) :
    ∃ task', k'.task c = some task' := by
  rw [stillOf, stillOf, ht, Option.map_some] at h
  obtain ⟨task', ht', -⟩ := Option.map_eq_some_iff.mp h
  exact ⟨task', ht'⟩

theorem task_none_of_stillOf {c : TaskId} (h : stillOf c k' = stillOf c k) (hc : k.task c = none) : k'.task c = none := by
  rw [stillOf, stillOf, hc] at h
  exact Option.map_eq_none_iff.mp h

/-- The loop over the tasks, by induction on those that are left. -/
theorem gives_destroyTasks (ts : List TaskId) : ∀ {k k' : Kernel} {fl : Flight}, ts.Nodup →
    (∀ t ∈ ts, ∃ task, k.task t = some task) → Books k fl → destroyTasks ts k = some k' →
    GivesBack k k' { fl with leaked := fun n => fl.leaked n + lookaheadsOf k ts n } ∧ (∀ t ∈ ts, k'.task t = none) ∧
      k'.order = k.order ∧ ∀ c, c ∉ ts → stillOf c k' = stillOf c k := by
  induction ts with
  | nil =>
    intro k k' fl _ _ hb h
    rw [destroyTasks, Option.some.injEq] at h
    subst h
    refine ⟨.refl hb, fun t ht => ?_, rfl, fun _ _ => rfl⟩
    cases ht
  | cons t ts ih =>
    intro k k' fl hnodup hlive hb h
    rw [List.nodup_cons] at hnodup
    obtain ⟨task, ht⟩ := hlive t (List.mem_cons_self ..)
    obtain ⟨k₁, hone, hrest⟩ := Option.bind_eq_some_iff.mp h
    obtain ⟨hgive, hgone, horder, hothers⟩ := gives_taskDestroy hb ht hone
    have hne : ∀ c ∈ ts, c ≠ t := by
      intro c hc heq
      rw [heq] at hc
      exact hnodup.1 hc
    have hlive₁ : ∀ c ∈ ts, ∃ task, k₁.task c = some task := by
      intro c hc
      obtain ⟨x, hx⟩ := hlive c (List.mem_cons_of_mem t hc)
      exact task_of_stillOf (hothers c (hne c hc)) hx
    obtain ⟨hgive', hgone', horder', hothers'⟩ := ih hnodup.2 hlive₁ hgive.books hrest
    have hsum : ∀ n, fl.leaked n + lookaheads k t n + lookaheadsOf k₁ ts n = fl.leaked n + lookaheadsOf k (t :: ts) n := by
      intro n
      have hmap : (ts.map fun c => lookaheads k₁ c n) = ts.map fun c => lookaheads k c n :=
        List.map_congr_left fun c hc => by rw [lookaheads_of_stillOf (hothers c (hne c hc))]
      rw [lookaheadsOf, hmap, lookaheadsOf, List.map_cons, List.sum_cons, Nat.add_assoc]
    simp only [hsum] at hgive'
    refine ⟨hgive.trans hgive', fun c hc => ?_, horder'.trans horder, fun c hc => ?_⟩
    · rcases List.mem_cons.mp hc with heq | hmem
      · rw [heq]
        exact task_none_of_stillOf (hothers' t hnodup.1) hgone
      · exact hgone' c hmem
    · rw [List.mem_cons, not_or] at hc
      exact (hothers' c hc.2).trans (hothers c hc.1)

/-! ### Walks over the list -/

theorem listLive_congr (horder : k'.order = k.order) (hoccupied : ∀ c, occupied c k' = occupied c k) :
    listLive k' = listLive k := by
  rw [listLive, listLive, horder]
  congr 1
  funext c
  have h := congrArg Option.isSome (hoccupied c)
  rwa [occupied, occupied, Option.isSome_map, Option.isSome_map] at h

theorem listLive_fdCloseSlot (k : Kernel) (t : TaskId) (d : Fin cbMaxFds) : listLive (fdCloseSlot k t d) = listLive k :=
  listLive_congr (steady_fdCloseSlot k t d).order fun c => occupied_fdCloseSlot k t c d

/-- No open file of the task is a pipe end. -/
def NoEnds (k : Kernel) (t : TaskId) : Prop :=
  ∀ d entry file, k.slot t d = some entry → k.files.get entry.file = some file → isPipeEnd file.object = false

theorem NoEnds.keep {c : TaskId} (h : NoEnds k c) (hgive : GivesBack k k' fl) (hstill : stillOf c k' = stillOf c k) :
    NoEnds k' c := by
  intro d entry file hs hf
  rw [slot_of_stillOf hstill] at hs
  obtain ⟨file₀, hf₀, heq⟩ := hgive.files hf
  rw [heq]
  exact h d entry file₀ hs hf₀

/-- The loop over the descriptors passes the checks while all tasks are live, or if there is no pipe end. -/
theorem closeSlots_passes (ds : List (Fin cbMaxFds)) : ∀ {k : Kernel}, Books k fl → listLive k = true ∨ NoEnds k t →
    ∃ k', closeSlots t ds k = some k' := by
  induction ds with
  | nil =>
    intro k _ _
    exact ⟨k, rfl⟩
  | cons d ds ih =>
    intro k hb h
    have hcheck : ((k.slot t d).any fun entry => closesEnd k entry.file && !listLive k) = false := by
      cases hs : k.slot t d with
      | none => rfl
      | some entry =>
        rcases h with hlive | hno
        · simp [hlive]
        · cases hf : k.files.get entry.file with
          | none => simp [closesEnd, hf]
          | some file => simp [closesEnd, hf, hno d entry file hs hf]
    rw [closeSlots, hcheck]
    have hone : GivesBack k (fdCloseSlot k t d) fl := gives_fdCloseSlot hb d
    apply ih hone.books
    rcases h with hlive | hno
    · left
      rw [listLive_fdCloseSlot, hlive]
    · right
      intro e entry file hs hf
      rw [slot_close] at hs
      split at hs
      · cases hs
      · obtain ⟨file₀, hf₀, heq⟩ := hone.files hf
        rw [heq]
        exact hno e entry file₀ hs hf₀

theorem slot_taskReleaseAllocations (k : Kernel) (t c : TaskId) (d : Fin cbMaxFds) :
    (taskReleaseAllocations k t).slot c d = k.slot c d := by
  rw [taskReleaseAllocations, Kernel.slot, Kernel.task_setTask, Kernel.slot]
  split
  · rename_i heq
    subst heq
    rw [Option.bind_map]
    rfl
  · rfl

theorem listLive_taskReleaseAllocations (k : Kernel) (t : TaskId) : listLive (taskReleaseAllocations k t) = listLive k := by
  apply listLive_congr
  · rfl
  · intro c
    exact occupied_setTask _ t c _

theorem taskDestroy_passes (hb : Books k fl) (h : listLive k = true ∨ NoEnds k t) : ∃ k', taskDestroy k t = some k' := by
  have hheap : Path noNode k fl (taskReleaseAllocations k t) fl := taskReleaseAllocations_path k t
  have hfirst : listLive (taskReleaseAllocations k t) = true ∨ NoEnds (taskReleaseAllocations k t) t := by
    rcases h with hlive | hno
    · left
      rw [listLive_taskReleaseAllocations, hlive]
    · right
      intro d entry file hs hf
      rw [slot_taskReleaseAllocations] at hs
      exact hno d entry file hs hf
  obtain ⟨k', hclose⟩ := closeSlots_passes (List.finRange cbMaxFds) (books_moves hb hheap.moves) hfirst
  exact ⟨taskRelease (dirCloseAll k' t) t, by rw [taskDestroy, hclose]; rfl⟩

/-- Releasing an open file reaches no other open file. -/
theorem files_releaseFile (k : Kernel) {f g : FileId} (hne : g ≠ f) :
    (cbOpenFileRelease k f).files.get g = k.files.get g := by
  have hlast : ∀ object, (lastClose ({ k with files := k.files.free f }.log (.lastClose f)) object).files = k.files.free f := by
    intro object
    cases object with
    | node n => rfl
    | pipeRead p => exact (vfs_pipeClose _ p _).2
    | pipeWrite p => exact (vfs_pipeClose _ p _).2
    | consoleInput => rfl
    | consoleOutput s => rfl
  rw [cbOpenFileRelease]
  split
  · rfl
  split
  · exact Heap.get_modify_of_ne _ _ hne
  · rw [hlast, Heap.get_free_of_ne _ hne]

/-- A pipe end stays open when its last reference may not be released. -/
theorem end_survives {f : FileId} {file : OpenFile} {d : Fin cbMaxFds} (hf : k.files.get f = some file)
    (hend : isPipeEnd file.object = true) (hcheck : ∀ entry, k.slot t d = some entry → closesEnd k entry.file = false) :
    ∃ file', (fdCloseSlot k t d).files.get f = some file' ∧ isPipeEnd file'.object = true := by
  rw [fdCloseSlot]
  cases hs : k.slot t d with
  | none => exact ⟨file, hf, hend⟩
  | some entry =>
    dsimp only
    by_cases hne : f = entry.file
    · have hmore : file.references - 1 ≠ 0 := by
        have hclose := hcheck entry hs
        rw [closesEnd, ← hne, hf] at hclose
        intro hzero
        simp [hzero, hend] at hclose
      have hset : (k.setSlot t d none).files.get entry.file = some file := by rw [← hne]; exact hf
      rw [cbOpenFileRelease, hset]
      dsimp only
      rw [if_pos hmore, hne]
      refine ⟨{ file with references := file.references - 1 }, ?_, hend⟩
      show (k.files.modify entry.file _).get entry.file = _
      rw [Heap.get_modify_self, ← hne, hf]
      rfl
    · rw [files_releaseFile _ hne]
      exact ⟨file, hf, hend⟩

/-- Once a task on the list is gone, no pipe end is closed any more. -/
theorem ends_survive_closeSlots {f : FileId} (ds : List (Fin cbMaxFds)) : ∀ {k k' : Kernel} {file : OpenFile},
    listLive k = false → k.files.get f = some file → isPipeEnd file.object = true → closeSlots t ds k = some k' →
    ∃ file', k'.files.get f = some file' ∧ isPipeEnd file'.object = true := by
  induction ds with
  | nil =>
    intro k k' file _ hf hend h
    rw [closeSlots, Option.some.injEq] at h
    subst h
    exact ⟨file, hf, hend⟩
  | cons d ds ih =>
    intro k k' file hlist hf hend h
    rw [closeSlots] at h
    split at h
    · cases h
    rename_i hcheck
    have hpass : ∀ entry, k.slot t d = some entry → closesEnd k entry.file = false := by
      intro entry hs
      rw [hs, hlist] at hcheck
      simpa using hcheck
    obtain ⟨file', hf', hend'⟩ := end_survives hf hend hpass
    refine ih ?_ hf' hend' h
    rw [listLive_fdCloseSlot, hlist]

theorem files_dirCloseAll (k : Kernel) (t : TaskId) : (dirCloseAll k t).files = k.files := by
  rw [dirCloseAll_eq]
  refine foldl_keep Kernel.files _ ?_ _ k
  intro k d
  rw [closeDir]
  split
  · rfl
  · rfl

theorem files_taskRelease (k : Kernel) (t : TaskId) : (taskRelease k t).files = k.files := by
  rw [taskRelease]
  split
  · rfl
  · rfl

/-- A list with a freed task on it has one for good. -/
theorem listLive_taskDestroy (h : taskDestroy k t = some k') (hlist : listLive k = false) : listLive k' = false := by
  rw [listLive, List.all_eq_false] at hlist ⊢
  obtain ⟨c, hc, hnone⟩ := hlist
  refine ⟨c, by rw [view_taskDestroy (beyond_order t) h]; exact hc, ?_⟩
  have hgone : k.task c = none := by simpa using hnone
  have hgone' : k'.task c = none := by
    by_cases heq : c = t
    · rw [heq]
      exact task_taskDestroy_self h
    · exact task_none_of_stillOf (view_taskDestroy (beyond_stillOf heq) h) hgone
  rw [hgone']
  exact Bool.false_ne_true

theorem ends_survive {f : FileId} (ts : List TaskId) : ∀ {k k' : Kernel} {file : OpenFile}, listLive k = false →
    k.files.get f = some file → isPipeEnd file.object = true → destroyTasks ts k = some k' →
    ∃ file', k'.files.get f = some file' ∧ isPipeEnd file'.object = true := by
  induction ts with
  | nil =>
    intro k k' file _ hf hend h
    rw [destroyTasks, Option.some.injEq] at h
    subst h
    exact ⟨file, hf, hend⟩
  | cons t ts ih =>
    intro k k' file hlist hf hend h
    obtain ⟨k₁, hone, hrest⟩ := Option.bind_eq_some_iff.mp h
    obtain ⟨k₂, hclose, heq⟩ := Option.map_eq_some_iff.mp hone
    obtain ⟨file', hf', hend'⟩ := ends_survive_closeSlots (k := taskReleaseAllocations k t) _
      (by rw [listLive_taskReleaseAllocations, hlist]) hf hend hclose
    refine ih (listLive_taskDestroy hone hlist) ?_ hend' hrest
    · rw [← heq, files_taskRelease, files_dirCloseAll]
      exact hf'

/-! ### When the checks pass -/

/-- With no task left there are no open files and no pipes. -/
theorem barren {l : NodeId → ℕ} (hb : Books k (.rest l)) (hnone : ∀ t, k.task t = none) (hopen : PipesOpen k.pipes) :
    (∀ f, k.files.get f = none) ∧ (∀ p, k.pipes.get p = none) ∧ ∀ n, k.holders n = 0 := by
  have htotal : ∀ w : Task → ℕ, k.tasks.total w = 0 := by
    intro w
    refine Heap.total_eq_zero w fun t task ht => ?_
    have h := hnone t
    rw [Kernel.task, ht] at h
    cases h
  have hfiles : ∀ f, k.files.get f = none := by
    intro f
    cases hf : k.files.get f with
    | none => rfl
    | some file =>
      obtain ⟨hcount, hpos⟩ := hb.files hf
      have hslots : k.slots f = 0 := htotal _
      have hrest : (Flight.rest l).files f = 0 := rfl
      omega
  have hends : ∀ object, k.ends object = 0 := by
    intro object
    refine Heap.total_eq_zero _ fun f file hf => ?_
    rw [hfiles f] at hf
    cases hf
  refine ⟨hfiles, fun p => ?_, fun n => ?_⟩
  · cases hp : k.pipes.get p with
    | none => rfl
    | some pipe =>
      obtain ⟨hread, hwrite⟩ := hb.pipes hp
      have hpos := hopen p pipe hp
      rw [hends] at hread hwrite
      omega
  · rw [Kernel.holders, hends, htotal]

theorem destroyTasks_passes (ts : List TaskId) : ∀ {k : Kernel} {fl : Flight}, ts.Nodup →
    (∀ t ∈ ts, ∃ task, k.task t = some task) → Books k fl → (∀ t ∈ ts, NoEnds k t) → ∃ k', destroyTasks ts k = some k' := by
  induction ts with
  | nil =>
    intro k fl _ _ _ _
    exact ⟨k, rfl⟩
  | cons t ts ih =>
    intro k fl hnodup hlive hb hno
    rw [List.nodup_cons] at hnodup
    obtain ⟨task, ht⟩ := hlive t (List.mem_cons_self ..)
    obtain ⟨k₁, hone⟩ := taskDestroy_passes hb (.inr (hno t (List.mem_cons_self ..)))
    obtain ⟨hgive, -, -, hothers⟩ := gives_taskDestroy hb ht hone
    have hstill : ∀ c ∈ ts, stillOf c k₁ = stillOf c k := by
      intro c hc
      apply hothers
      intro heq
      rw [heq] at hc
      exact hnodup.1 hc
    obtain ⟨k', hrest⟩ := ih hnodup.2
      (fun c hc => by
        obtain ⟨x, hx⟩ := hlive c (List.mem_cons_of_mem t hc)
        exact task_of_stillOf (hstill c hc) hx)
      hgive.books
      (fun c hc => (hno c (List.mem_cons_of_mem t hc)).keep hgive (hstill c hc))
    exact ⟨k', by rw [destroyTasks, hone]; exact hrest⟩

/-- The loop over the tasks passes the checks exactly when only the first task has pipe ends open. -/
theorem destroyTasks_iff {l : NodeId → ℕ} (hb : Books k (.rest l)) (hnodup : k.order.Nodup)
    (hlive : ∀ t ∈ k.order, ∃ task, k.task t = some task) (hlisted : ∀ t task, k.task t = some task → t ∈ k.order)
    (hopen : PipesOpen k.pipes) : (destroyTasks k.order k).isSome = true ↔ ∀ t ∈ k.order.tail, NoEnds k t := by
  have hall : listLive k = true := by
    rw [listLive, List.all_eq_true]
    intro c hc
    obtain ⟨x, hx⟩ := hlive c hc
    rw [hx]
    rfl
  have hfinal : ∀ {k'}, destroyTasks k.order k = some k' → ∀ f, k'.files.get f = none := by
    intro k' hrun
    obtain ⟨hgive, hgone, -, hothers⟩ := gives_destroyTasks k.order hnodup hlive hb hrun
    refine (barren hgive.books (fun c => ?_) (hgive.pipes hopen)).1
    by_cases hc : c ∈ k.order
    · exact hgone c hc
    · refine task_none_of_stillOf (hothers c hc) ?_
      cases hx : k.task c with
      | none => rfl
      | some x => exact absurd (hlisted c x hx) hc
  cases horder : k.order with
  | nil => simp [destroyTasks]
  | cons t ts =>
    rw [horder] at hnodup hlive hfinal
    rw [List.tail_cons]
    have hsplit := List.nodup_cons.mp hnodup
    obtain ⟨task, ht⟩ := hlive t (List.mem_cons_self ..)
    obtain ⟨k₁, hone⟩ := taskDestroy_passes (t := t) hb (.inl hall)
    obtain ⟨hgive, hgone, horder₁, hothers⟩ := gives_taskDestroy hb ht hone
    have hstill : ∀ c ∈ ts, stillOf c k₁ = stillOf c k := by
      intro c hc
      apply hothers
      intro heq
      rw [heq] at hc
      exact hsplit.1 hc
    constructor
    · intro hsome c hc d entry file hs hf
      obtain ⟨k', hrun⟩ := Option.isSome_iff_exists.mp hsome
      by_contra hend
      rw [Bool.not_eq_false] at hend
      -- the file outlives the first task, and then nothing may close it
      have hslot : k₁.slot c d = some entry := by rw [slot_of_stillOf (hstill c hc), hs]
      obtain ⟨x, hx, hd⟩ := Option.bind_eq_some_iff.mp hslot
      obtain ⟨file₁, hf₁⟩ := hgive.books.slot_live hx hd
      obtain ⟨file₀, hf₀, heq⟩ := hgive.files hf₁
      rw [hf, Option.some.injEq] at hf₀
      subst hf₀
      have hlist : listLive k₁ = false := by
        rw [listLive, List.all_eq_false, horder₁, horder]
        refine ⟨t, List.mem_cons_self .., ?_⟩
        rw [hgone]
        exact Bool.false_ne_true
      have hrest : destroyTasks ts k₁ = some k' := by
        rw [destroyTasks, hone] at hrun
        exact hrun
      obtain ⟨file', hf', -⟩ := ends_survive ts hlist hf₁ (heq ▸ hend) hrest
      rw [hfinal hrun] at hf'
      cases hf'
    · intro hno
      obtain ⟨k', hrest⟩ := destroyTasks_passes ts hsplit.2
        (fun c hc => by
          obtain ⟨x, hx⟩ := hlive c (List.mem_cons_of_mem t hc)
          exact task_of_stillOf (hstill c hc) hx)
        hgive.books
        (fun c hc => (hno c hc).keep hgive (hstill c hc))
      rw [destroyTasks, hone, Option.bind_some, hrest]
      rfl
/-! ### In every run -/

/-- Nothing that is live is without a reference. -/
structure Peopled (k : Kernel) : Prop where
  nodes : ∀ {n node}, k.vfs.node n = some node → 0 < node.references
  pipes : PipesOpen k.pipes

theorem positive_move {gone : NodeId → Prop} {v v' : Vfs} {a a' ext : NodeId → ℕ} (hm : VMove gone v a v' a')
    (h : Sound v fun n => ext n + a n) (hpos : ∀ {n node}, v.node n = some node → 0 < node.references) :
    ∀ {n node}, v'.node n = some node → 0 < node.references := by
  have hdetach : ∀ {d n link c node}, (detachNode v d n link).node c = some node → 0 < node.references := by
    intro d n link c node hc
    rw [Links.node_detachNode] at hc
    obtain ⟨x, hx, heq⟩ := Option.map_eq_some_iff.mp hc
    rw [← heq]
    show 0 < x.references
    exact hpos hx
  intro n node hn
  cases hm with
  | same _ hnodes _ =>
    have hfixed := hnodes n
    rw [hn, Option.map_some, eq_comm, Option.map_eq_some_iff] at hfixed
    obtain ⟨x, hx, heq⟩ := hfixed
    have href : x.references = node.references := congrArg (fun fixed => fixed.2.1) heq
    rw [← href]
    exact hpos hx
  | @retain _ _ m x hx _ =>
    have hset : (v.setNode m fun node => { node with references := node.references + 1 }).node n = some node := hn
    rw [Vfs.node_setNode] at hset
    split at hset
    · obtain ⟨y, -, heq⟩ := Option.map_eq_some_iff.mp hset
      rw [← heq]
      exact Nat.succ_pos _
    · exact hpos hset
  | @release _ _ m ha =>
    have hext : 0 < ext m + a m := by
      rw [ha, pointsTo_self]
      omega
    exact (Eased.release h hext).live hpos hn
  | @create _ _ d m dir new _ hp _ _ href _ =>
    by_cases hnm : n = m
    · rw [hnm, hp.newNode, Option.some.injEq] at hn
      rw [← hn, href]
      exact Nat.one_pos
    by_cases hnd : n = d
    · rw [hnd, hp.newDir, Option.some.injEq] at hn
      rw [← hn]
      show 0 < dir.references
      exact hpos hp.dirNode
    · rw [hp.others n hnm hnd] at hn
      exact hpos hn
  | detach => exact hdetach hn
  | @move _ _ d d' m dir dir₀ new old link _ _ _ _ hp _ _ _ hold href _ =>
    by_cases hnm : n = m
    · rw [hnm, hp.newNode, Option.some.injEq] at hn
      rw [← hn, href]
      exact hpos hold
    by_cases hnd : n = d'
    · rw [hnd, hp.newDir, Option.some.injEq] at hn
      rw [← hn]
      show 0 < dir.references
      exact hdetach hp.dirNode
    · rw [hp.others n hnm hnd] at hn
      exact hdetach hn
  | @mountRoot _ _ m r new hr _ =>
    rw [hr.nodes] at hn
    split at hn
    · rw [Option.some.injEq] at hn
      rw [← hn, hr.references]
      exact Nat.one_pos
    · exact hpos hn
  | attach => exact hpos hn
  | prepare => exact hpos hn
  | discard => exact hpos hn

/-- A change of a pipe that leaves an end, where the others stay. -/
theorem pipesOpen_setPipe {p : PipeId} {f : Pipe → Pipe} (h : PipesOpen k.pipes)
    (hf : ∀ pipe, 0 < pipe.readers + pipe.writers → 0 < (f pipe).readers + (f pipe).writers) : PipesOpen (k.setPipe p f).pipes := by
  intro q x hx
  have hset : (k.pipes.modify p f).get q = some x := hx
  rw [Heap.get_modify] at hset
  split at hset
  · obtain ⟨y, hy, heq⟩ := Option.map_eq_some_iff.mp hset
    rw [← heq]
    exact hf y (h q y hy)
  · exact h q x hset

theorem Peopled.micro {gone : NodeId → Prop} (h : Peopled k) (hb : Books k fl) (hm : Micro gone k fl k' fl') : Peopled k' := by
  cases hm with
  | vfs hv => exact ⟨positive_move hv hb.vfs h.nodes, h.pipes⟩
  | sched hs =>
    refine ⟨?_, ?_⟩
    · rw [hs.pointers.vfs]
      exact h.nodes
    · rw [hs.pointers.pipes]
      exact h.pipes
  | hold => exact ⟨h.nodes, h.pipes⟩
  | create => exact ⟨h.nodes, h.pipes⟩
  | destroy => exact ⟨h.nodes, h.pipes⟩
  | leak => exact h
  | file => exact ⟨h.nodes, h.pipes⟩
  | openFile => exact ⟨h.nodes, h.pipes⟩
  | closeFile => exact ⟨h.nodes, h.pipes⟩
  | openPipe =>
    refine ⟨h.nodes, fun p pipe hp => ?_⟩
    have hget : (k.pipes.alloc freshPipe).get p = some pipe := hp
    rw [Heap.get_alloc] at hget
    split at hget
    · rw [Option.some.injEq] at hget
      rw [← hget]
      exact Nat.one_pos
    · exact h.pipes p pipe hget
  | openWriter => exact ⟨h.nodes, pipesOpen_setPipe (k := { k with files := _ }) h.pipes fun _ _ => Nat.succ_pos _⟩
  | @closeReader _ f _ p =>
    have hsame : (pipeReadClose ({ k with files := k.files.free f }.log (.lastClose f)) p).vfs = k.vfs := (vfs_pipeClose _ p _).1
    refine ⟨?_, ?_⟩
    · rw [hsame]
      exact h.nodes
    · exact pipesOpen_pipeClose (k := { k with files := k.files.free f }.log (.lastClose f)) p _ h.pipes
  | @closeWriter _ f _ p =>
    have hsame : (pipeWriteClose ({ k with files := k.files.free f }.log (.lastClose f)) p).vfs = k.vfs := (vfs_pipeClose _ p _).1
    refine ⟨?_, ?_⟩
    · rw [hsame]
      exact h.nodes
    · exact pipesOpen_pipeClose (k := { k with files := k.files.free f }.log (.lastClose f)) p _ h.pipes
  | fetch => exact ⟨h.nodes, pipesOpen_setPipe h.pipes fun _ hp => hp⟩
  | beginWrite => exact ⟨h.nodes, h.pipes⟩
  | store => exact ⟨h.nodes, pipesOpen_setPipe h.pipes fun _ hp => hp⟩
  | endWrite => exact ⟨h.nodes, h.pipes⟩

theorem Peopled.moves {gone : NodeId → Prop} (h : Peopled k) (hb : Base k fl) (hm : Moves gone k fl k' fl') : Peopled k' := by
  induction hm with
  | refl => exact h
  | step hprev hs ih => exact ih.micro (hb.moves hprev).books hs

theorem peopled_cbKernelCreate (h : Host) : Peopled (cbKernelCreate h) := by
  have hblank : Sound blankVfs fun n => (fun _ => 0) n + (fun _ => 0) n := sound_blankVfs
  obtain ⟨hmoves, -, -⟩ : VMoves noNode blankVfs (fun _ => 0) _ (fun _ => 0) ∧ _ := ramfsMountTree_moves h hblank
  refine ⟨?_, fun p pipe hp => ?_⟩
  · have hall : ∀ {v a}, VMoves noNode blankVfs (fun _ => 0) v a →
        ∀ {n node}, v.node n = some node → 0 < node.references := by
      intro v a hm
      induction hm with
      | refl =>
        intro n node hn
        rw [Vfs.node, blankVfs, Heap.get_empty] at hn
        cases hn
      | step hprev hs ih => exact positive_move hs (hprev.sound hblank) ih
    intro n node hn
    exact hall hmoves hn
  · rw [show (cbKernelCreate h).pipes = .empty from rfl, Heap.get_empty] at hp
    cases hp

/-- In every reachable state all nodes have references and all pipes have ends. -/
theorem reachable_peopled (hr : Reachable k) : Peopled k := by
  obtain ⟨h, hrun⟩ := hr
  have hinv : (∃ l, Poised k l) ∧ Peopled k := by
    refine hrun.invariant (P := fun k => (∃ l, Poised k l) ∧ Peopled k)
      ⟨⟨_, poised_cbKernelCreate h⟩, peopled_cbKernelCreate h⟩ ?_
    rintro k a k' - hs ⟨⟨l, hp⟩, hpeople⟩
    obtain ⟨l', hm, hp', -⟩ := hp.step hs
    exact ⟨⟨l', hp'⟩, hpeople.moves hp.base hm⟩
  exact hinv.2

/-! ### What stays -/

/-- The references to a node that will not be given back: those that nothing accounts for, and the
look-ahead entries of open handles. -/
def strays (k : Kernel) (n : NodeId) : ℕ :=
  ((k.vfs.node n).map fun node => node.references - (anchor k.vfs n node + mountsOn k.vfs n + k.holders n)).getD 0 +
    lookaheadsOf k k.order n

/-- The node survives: it is at or below a stray reference, or part of a mount that was never attached. -/
def Survives (k : Kernel) (n : NodeId) : Prop :=
  ∃ node, k.vfs.node n = some node ∧ (Demolition.Strayed k.vfs (strays k) n ∨
    node.mount ∉ attached k.vfs ∧ (node.parent ≠ none ∨ k.vfs.rootOf node.mount = some n))

theorem strays_eq {l : NodeId → ℕ} (hb : Books k (.rest l)) (n : NodeId) : strays k n = l n + lookaheadsOf k k.order n := by
  rw [strays]
  cases hn : k.vfs.node n with
  | none =>
    have hzero := hb.vfs.refs.freed hn
    have hleak : (Flight.rest l).leaked n = l n := rfl
    rw [Option.map_none, Option.getD_none]
    omega
  | some node =>
    have hcount := hb.vfs.refs.count hn
    have hleak : (Flight.rest l).leaked n = l n := rfl
    have hheld : (Flight.rest l).nodes n = 0 := rfl
    rw [Option.map_some, Option.getD_some]
    omega

theorem Eased.parentOf {v v' : Vfs} (h : Eased v v') : v'.parentOf = v.parentOf := by
  funext n
  cases hn' : v'.node n with
  | some node' =>
    obtain ⟨node, hn, hshape⟩ := h.back hn'
    rw [Vfs.parentOf_of_node hn', Vfs.parentOf_of_node hn]
    exact (Node.shape_eq_iff.mp hshape).2.2.2.1
  | none =>
    rw [Vfs.parentOf, hn', Option.bind_none]
    cases hp : v.parentOf n with
    | none => rfl
    | some d =>
      obtain ⟨node, hn, hparent⟩ := Vfs.node_of_parentOf hp
      have hsome := h.keep hn (.inl (by rw [hparent]; simp))
      rw [hn'] at hsome
      cases hsome

/-- The nodes that outlive the tasks and the file system. -/
theorem survives_iff {k₁ : Kernel} {v' : Vfs} (h : Eased k.vfs k₁.vfs) (hsound : Sound k₁.vfs (strays k))
    (hlive : ∀ {n node}, k₁.vfs.node n = some node → 0 < node.references)
    (hdem : Demolition.Demolished k₁.vfs (strays k) v') (n : NodeId) : (v'.node n).isSome = true ↔ Survives k n := by
  rw [hdem.nodes, Demolition.Strayed, h.parentOf, h.mounts.attached]
  constructor
  · intro hstays
    obtain ⟨node₁, hn₁, hwhy⟩ := hstays
    obtain ⟨node, hn, hshape⟩ := h.back hn₁
    obtain ⟨hmount, -, -, hparent, -, -⟩ := Node.shape_eq_iff.mp hshape
    refine ⟨node, hn, ?_⟩
    rcases hwhy with hmount₁ | hstray
    · by_cases hin : node.parent ≠ none ∨ k.vfs.rootOf node.mount = some n
      · exact .inr ⟨by rwa [← hmount], hin⟩
      · -- a loose node that still lives is held by a stray reference
        left
        refine ⟨n, .refl, ?_⟩
        have hcount := hsound.refs.count hn₁
        have hpos := hlive hn₁
        have hplace : anchor k₁.vfs n node₁ = 0 := by
          rw [anchor, hparent, hmount, h.mounts.rootOf]
          exact if_neg hin
        have hloose : k₁.vfs.parentOf n = none := by
          rw [Vfs.parentOf_of_node hn₁, hparent]
          exact not_not.mp (not_or.mp hin).1
        have hpoint := hsound.tree.mountsOn_of_parentOf hloose
        omega
    · exact .inl hstray
  · intro hstays
    obtain ⟨node, hn, hwhy⟩ := hstays
    have hsome : ∃ node₁, k₁.vfs.node n = some node₁ := by
      rcases hwhy with ⟨d, hclimb, hpos⟩ | ⟨-, hin⟩
      · cases hclimb with
        | refl => exact hsound.live hpos
        | step hp _ =>
          rw [Vfs.parentOf_of_node hn] at hp
          exact Option.isSome_iff_exists.mp (h.keep hn (.inl (by rw [hp]; simp)))
      · exact Option.isSome_iff_exists.mp (h.keep hn hin)
    obtain ⟨node₁, hn₁⟩ := hsome
    obtain ⟨x, hx, hshape⟩ := h.back hn₁
    rw [hn, Option.some.injEq] at hx
    subst hx
    refine ⟨node₁, hn₁, ?_⟩
    rcases hwhy with hstray | ⟨hmount, -⟩
    · exact .inr hstray
    · left
      rwa [(Node.shape_eq_iff.mp hshape).1]

/-- What `cb_kernel_destroy` leaves of a kernel. -/
structure Destroyed (k k' : Kernel) : Prop where
  tasks : ∀ t, k'.task t = none
  files : ∀ f, k'.files.get f = none
  pipes : ∀ p, k'.pipes.get p = none
  mounts : ∀ m, k'.vfs.mounts.get m = if m ∈ attached k.vfs then none else k.vfs.mounts.get m
  nodes : ∀ n, (k'.vfs.node n).isSome = true ↔ Survives k n
  programs : ∀ {n node p}, k.vfs.node n = some node → node.executable = some p → ¬ Survives k n → p ∈ k'.vfs.destroyed
  once : k'.vfs.destroyed.Nodup

/-- The file system goes down once the tasks are gone. -/
theorem destroyed_of_tasks {k₁ : Kernel} (hr : Reachable k) (hrun : destroyTasks k.order k = some k₁) :
    ∃ v', Demolition.cbVfsDestroy k₁.vfs = some v' ∧ Destroyed k { k₁ with vfs := v' } := by
  obtain ⟨l, hbase⟩ := hr.base
  have hb := hbase.books
  have hpeople := reachable_peopled hr
  have hlisted : ∀ t task, k.task t = some task → t ∈ k.order :=
    fun t task ht => (hbase.roster.listed ht).resolve_right fun h => nomatch h
  obtain ⟨hgive, hgone, -, hothers⟩ := gives_destroyTasks k.order hbase.roster.nodup (fun t ht => hbase.roster.live ht) hb hrun
  have hnone : ∀ c, k₁.task c = none := by
    intro c
    by_cases hc : c ∈ k.order
    · exact hgone c hc
    · refine task_none_of_stillOf (hothers c hc) ?_
      cases hx : k.task c with
      | none => rfl
      | some x => exact absurd (hlisted c x hx) hc
  obtain ⟨hfiles, hpipes, hholders⟩ := barren hgive.books hnone (hgive.pipes hpeople.pipes)
  have hsound : Sound k₁.vfs (strays k) := by
    refine hgive.books.vfs.congr fun n => ?_
    rw [strays_eq hb, hholders]
    show l n + lookaheadsOf k k.order n = 0 + (l n + lookaheadsOf k k.order n) + 0
    omega
  have hlive : ∀ {n node}, k₁.vfs.node n = some node → 0 < node.references := hgive.vfs.live hpeople.nodes
  obtain ⟨v', hdestroy, hdem⟩ := Demolition.cbVfsDestroy_demolished hsound hlive ⟨_, hgive.books.root⟩
    (by rw [hgive.vfs.mounts.attached]; exact hr.mounted.once)
  have hnodes := survives_iff hgive.vfs hsound hlive hdem
  have hspends := hgive.vfs.spends.trans hdem.spends
  refine ⟨v', hdestroy, hnone, hfiles, hpipes, fun m => ?_, hnodes, fun {n node p} hn hp hgone => ?_,
    (hspends.stock hbase.stock).once⟩
  · show v'.mounts.get m = _
    rw [hdem.mounts, hgive.vfs.mounts.attached, hgive.vfs.mounts.mounts]
  · exact (hspends.program hn hp).resolve_left fun hsome => hgone ((hnodes n).mp hsome)

end Teardown

open Teardown

/-- **The end of the kernel.**  In every reachable state `cb_kernel_destroy` reads no task that it has freed
exactly if no task but the newest has a pipe end open. Then it frees all tasks, open files, pipes and
attached mounts, and programs with their nodes. The nodes that stay are those at or below a stray reference
and those of mounts that were never attached. -/
theorem kernel_destroy_exact {k : Kernel} (hr : Reachable k) :
    ((Teardown.cbKernelDestroy k).isSome = true ↔ ∀ t ∈ k.order.tail, NoEnds k t) ∧
      ∀ k', Teardown.cbKernelDestroy k = some k' → Destroyed k k' := by
  obtain ⟨l, hbase⟩ := hr.base
  have hpeople := reachable_peopled hr
  have hiff := destroyTasks_iff hbase.books hbase.roster.nodup (fun t ht => hbase.roster.live ht)
    (fun t task ht => (hbase.roster.listed ht).resolve_right fun h => nomatch h) hpeople.pipes
  refine ⟨?_, fun k' h => ?_⟩
  · rw [← hiff, Teardown.cbKernelDestroy]
    cases hrun : destroyTasks k.order k with
    | none => rfl
    | some k₁ =>
      obtain ⟨v', hdestroy, -⟩ := destroyed_of_tasks hr hrun
      rw [Option.bind_some, hdestroy]
      rfl
  · obtain ⟨k₁, hrun, hrest⟩ := Option.bind_eq_some_iff.mp h
    obtain ⟨v', hdestroy, hdestroyed⟩ := destroyed_of_tasks hr hrun
    rw [hdestroy, Option.map_some, Option.some.injEq] at hrest
    rw [← hrest]
    exact hdestroyed

/-- The shell makes a pipe. -/
def pipedShell : List Action := shellStart ++ calls [.pipe]

/-- It starts another shell, which is the first on the list then. -/
def pipedShells : List Action := shellStart ++ calls [.pipe, .spawn shName [shName] none []]

theorem kernel_destroy_exact_piped :
    (∃ k', Teardown.cbKernelDestroy (stateAfter pipedShell) = some k' ∧ Destroyed (stateAfter pipedShell) k') ∧
      Teardown.cbKernelDestroy (stateAfter pipedShells) = none := by
  have hone : Reachable (stateAfter pipedShell) := reachable_stateAfter _
  have htwo : Reachable (stateAfter pipedShells) := reachable_stateAfter _
  have hsome : (Teardown.cbKernelDestroy (stateAfter pipedShell)).isSome = true := by
    rw [(kernel_destroy_exact hone).1]
    have htail : (stateAfter pipedShell).order.tail = [] := by decide +kernel
    rw [htail]
    intro t ht
    cases ht
  refine ⟨?_, ?_⟩
  · obtain ⟨k', hk'⟩ := Option.isSome_iff_exists.mp hsome
    exact ⟨k', hk', (kernel_destroy_exact hone).2 k' hk'⟩
  · rw [← Option.not_isSome_iff_eq_none, (kernel_destroy_exact htwo).1]
    intro hno
    have hin : 0 ∈ (stateAfter pipedShells).order.tail := by decide +kernel
    have hend : ∃ d, (((stateAfter pipedShells).slot 0 d).bind fun entry => (stateAfter pipedShells).files.get entry.file).any
        (fun file => isPipeEnd file.object) = true := by decide +kernel
    obtain ⟨d, hany⟩ := hend
    obtain ⟨file, hfile, hpipe⟩ := (Option.any_eq_true _ _).mp hany
    obtain ⟨entry, hs, hf⟩ := Option.bind_eq_some_iff.mp hfile
    rw [hno 0 hin d entry file hs hf] at hpipe
    cases hpipe

end CannedBsd
