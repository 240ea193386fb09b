import CannedBsd.Kernel.Flight

/-!
# The books

All reference counts of the kernel agree with the pointers: those of nodes with the open files,
tasks, handles and mounts that point to them, those of open files with the descriptor slots, and
those of pipes with the open files of their two ends. A call that is under way may hold more; what
it holds is counted too. Every elementary step keeps the books.

* `Books.micro`: every elementary step keeps the books.
* `Books.node_live`: the nodes a task points to are live.
-/

namespace CannedBsd

open CannedBsd.Lib

/-- The counts agree with the pointers, those in flight included. -/
structure Books (k : Kernel) (fl : Flight) : Prop where
  vfs : Sound k.vfs fun n => k.holders n + fl.leaked n + fl.nodes n
  root : HasRoot k.vfs
  files : ∀ {f file}, k.files.get f = some file →
    file.references = k.slots f + fl.files f ∧ 0 < file.references
  freedFiles : ∀ {f}, k.files.get f = none → k.slots f + fl.files f = 0
  pipes : ∀ {p pipe}, k.pipes.get p = some pipe →
    pipe.readers = k.ends (.pipeRead p) ∧ pipe.writers = k.ends (.pipeWrite p)
  freedPipes : ∀ {p}, k.pipes.get p = none → k.ends (.pipeRead p) = 0 ∧ k.ends (.pipeWrite p) = 0
  closes : ∀ f, k.trace.count (.lastClose f) = k.files.freed f
  roots : ∀ {t task}, k.task t = some task → task.root = some k.vfs.vfsRoot

/-! ### Steps that keep all pointers -/

/-- No pointer and no count changes. -/
structure SamePointers (k k' : Kernel) : Prop where
  vfs : k'.vfs = k.vfs
  files : k'.files = k.files
  pipes : k'.pipes = k.pipes
  trace : k'.trace = k.trace
  next : k'.tasks.next = k.tasks.next
  holdings : ∀ t, (k'.task t).map Task.holdings = (k.task t).map Task.holdings

namespace SamePointers

variable {k k' k'' : Kernel}

/-- A weight that only reads the pointers of a task has the same total. -/
theorem total (h : SamePointers k k') {w : Task → ℕ} (v : Holdings → ℕ) (hw : ∀ task, w task = v task.holdings) :
    k'.tasks.total w = k.tasks.total w := by
  refine Heap.total_congr w h.next fun t => ?_
  have hmap : ∀ o : Option Task, o.map w = (o.map Task.holdings).map v := by
    intro o
    cases o with
    | none => rfl
    | some task => simp [hw]
  have ht := h.holdings t
  rw [Kernel.task, Kernel.task] at ht
  rw [hmap, hmap, ht]

theorem slots (h : SamePointers k k') : k'.slots = k.slots := by
  funext f
  exact h.total (fun g => ∑ d, pointsTo ((g.descriptors d).map FdEntry.file) f) fun _ => rfl

theorem ends (h : SamePointers k k') : k'.ends = k.ends := by
  funext object
  rw [Kernel.ends, Kernel.ends, h.files]

theorem holders (h : SamePointers k k') : k'.holders = k.holders := by
  funext n
  have htotal := h.total (w := taskHold n)
    (fun g => pointsTo g.cwd n + pointsTo g.root n + pointsTo g.executableNode n +
      pointsTo g.pendingExecutableNode n + ∑ d, dirHold n (g.directories d)) fun _ => rfl
  rw [Kernel.holders, Kernel.holders, h.ends, htotal]

theorem back (h : SamePointers k k') {t : TaskId} {task' : Task} (ht : k'.task t = some task') :
    ∃ task, k.task t = some task ∧ task'.holdings = task.holdings := by
  have hm := h.holdings t
  rw [ht, Option.map_some, eq_comm, Option.map_eq_some_iff] at hm
  obtain ⟨task, htask, heq⟩ := hm
  exact ⟨task, htask, heq.symm⟩

/-- Rewriting one task without touching its pointers. -/
theorem setTask (k : Kernel) (t : TaskId) {f : Task → Task}
    (hf : ∀ task, k.task t = some task → (f task).holdings = task.holdings) :
    SamePointers k (k.setTask t f) := by
  refine ⟨rfl, rfl, rfl, rfl, Heap.next_modify _ _ _, fun t' => ?_⟩
  rw [Kernel.task, Kernel.setTask, Heap.get_modify]
  split
  · rename_i heq
    subst heq
    rw [Kernel.task]
    cases ht : k.tasks.get t' with
    | none => rfl
    | some task => simp only [Option.map_some, hf task ht]
  · rfl

end SamePointers

theorem Calm.pointers {k k' : Kernel} (h : Calm k k') : SamePointers k k' := by
  refine ⟨h.vfs, h.files, h.pipes, h.trace, h.rest.next, fun t => ?_⟩
  cases ht : k'.task t with
  | none =>
    cases ht' : k.task t with
    | none => rfl
    | some task =>
      obtain ⟨task', hsome⟩ := h.rest.live ht'
      rw [ht] at hsome
      cases hsome
  | some task' =>
    obtain ⟨task, htask, hr⟩ := h.rest.tasks ht
    rw [htask, Option.map_some, Option.map_some, hr.holdings]

theorem pointers_wakeWaitingParent (k : Kernel) (child : Task) :
    SamePointers k (wakeWaitingParent k child) := by
  rw [wakeWaitingParent]
  split
  · exact ⟨rfl, rfl, rfl, rfl, rfl, fun _ => rfl⟩
  · exact .setTask k _ fun _ _ => rfl

/-- The scheduler moves no pointer. -/
theorem Sched.pointers {k k' : Kernel} {fl fl' : Flight} (h : Sched k fl k' fl') : SamePointers k k' := by
  cases h with
  | calm hc => exact hc.pointers
  | @dispatch _ t task hcur hfin hmem ht hst hw =>
    have hs := SamePointers.setTask k t (f := fun task => { task with state := .running }) fun _ _ => rfl
    exact ⟨hs.vfs, hs.files, hs.pipes, hs.trace, hs.next, hs.holdings⟩
  | @yield _ t task state frame hcur ht hs hp hw hf =>
    have hs := SamePointers.setTask k t
      (f := fun task => { task with wakeReason := .none, state := state, frame := frame }) fun _ _ => rfl
    exact ⟨hs.vfs, hs.files, hs.pipes, hs.trace, hs.next, hs.holdings⟩
  | @exec _ t task hcur ht hw =>
    have hs := SamePointers.setTask k t
      (f := fun task => { task with wakeReason := .none, state := .execPending, frame := .entry }) fun _ _ => rfl
    exact ⟨hs.vfs, hs.files, hs.pipes, hs.trace, hs.next, hs.holdings⟩
  | @restart _ t task f fatal hfin ht hh hpid hppid hpend hst hfr hfit hexit =>
    have hs := SamePointers.setTask k t (f := f) fun task' ht' => by
      rw [ht, Option.some.injEq] at ht'
      subst ht'
      exact hh
    exact ⟨hs.vfs, hs.files, hs.pipes, hs.trace, hs.next, hs.holdings⟩
  | @leave _ t task status hcur ht hdirs =>
    have hs := SamePointers.setTask k t
      (f := fun task => { task with exitStatus := status % 256, state := .zombie }) fun _ _ => rfl
    obtain ⟨finished, bootStatus, heq⟩ := retire_eq k t task status
    have hw := pointers_wakeWaitingParent (retire k t task status) task
    rw [heq] at hw
    rw [CannedBsd.leave, heq]
    exact ⟨hw.vfs, hw.files, hw.pipes, hw.trace, hw.next.trans hs.next,
      fun t' => (hw.holdings t').trans (hs.holdings t')⟩
  | list => exact ⟨rfl, rfl, rfl, rfl, rfl, fun _ => rfl⟩
  | @unlist _ p c parent child hl hcur hp hppid hmem ht hst =>
    have hs := SamePointers.setTask k c (f := fun task => { task with state := .dead }) fun _ _ => rfl
    exact ⟨hs.vfs, hs.files, hs.pipes, hs.trace, hs.next, hs.holdings⟩

theorem Sched.flight {k k' : Kernel} {fl fl' : Flight} (h : Sched k fl k' fl') :
    fl'.nodes = fl.nodes ∧ fl'.files = fl.files ∧ fl'.leaked = fl.leaked := by
  cases h <;> exact ⟨rfl, rfl, rfl⟩

namespace Books

variable {k k' : Kernel} {fl fl' : Flight}

/-- The books only look at the references in flight. -/
theorem flight (hb : Books k fl) (hn : fl'.nodes = fl.nodes) (hf : fl'.files = fl.files)
    (hl : fl'.leaked = fl.leaked) : Books k fl' := by
  refine ⟨?_, hb.root, ?_, ?_, hb.pipes, hb.freedPipes, hb.closes, hb.roots⟩
  · rw [hn, hl]
    exact hb.vfs
  · rw [hf]
    exact hb.files
  · rw [hf]
    exact hb.freedFiles

theorem pointers (hb : Books k fl) (hs : SamePointers k k') : Books k' fl := by
  refine ⟨?_, ?_, ?_, ?_, ?_, ?_, ?_, ?_⟩
  · rw [hs.vfs, hs.holders]
    exact hb.vfs
  · rw [hs.vfs]
    exact hb.root
  · intro f file hf
    rw [hs.files] at hf
    rw [hs.slots]
    exact hb.files hf
  · intro f hf
    rw [hs.files] at hf
    rw [hs.slots]
    exact hb.freedFiles hf
  · intro p pipe hp
    rw [hs.pipes] at hp
    rw [hs.ends]
    exact hb.pipes hp
  · intro p hp
    rw [hs.pipes] at hp
    rw [hs.ends]
    exact hb.freedPipes hp
  · intro f
    rw [hs.trace, hs.files]
    exact hb.closes f
  · intro t task' ht
    obtain ⟨task, htask, hh⟩ := hs.back ht
    have hroot : task'.root = task.root := congrArg Holdings.root hh
    rw [hroot, hs.vfs]
    exact hb.roots htask

/-! ### The file system -/

theorem vfsMove {gone : NodeId → Prop} {v : Vfs} {a : NodeId → ℕ} (hb : Books k fl)
    (hm : VMove gone k.vfs fl.nodes v a) : Books { k with vfs := v } { fl with nodes := a } := by
  obtain ⟨hrm, hvr, hroots⟩ := hm.roots_keep hb.vfs
  refine ⟨hm.sound hb.vfs, ?_, hb.files, hb.freedFiles, hb.pipes, hb.freedPipes, hb.closes, ?_⟩
  · have hroot := hroots hb.root
    rw [HasRoot, hrm, hvr]
    exact hroot
  · intro t task ht
    rw [hb.roots ht]
    exact congrArg some hvr.symm

theorem leak {n : NodeId} {a : NodeId → ℕ} (hb : Books k fl)
    (ha : ∀ c, fl.nodes c = a c + pointsTo (some n) c) :
    Books k { fl with nodes := a, leaked := fun c => fl.leaked c + pointsTo (some n) c } := by
  refine ⟨hb.vfs.congr fun c => ?_, hb.root, hb.files, hb.freedFiles, hb.pipes, hb.freedPipes, hb.closes,
    hb.roots⟩
  have hc := ha c
  dsimp only
  omega

/-! ### Tasks -/

theorem hold {gone : NodeId → Prop} {t : TaskId} {task : Task} {f : Task → Task} (hb : Books k fl)
    (ht : k.task t = some task) (hx : Exchange gone k.vfs fl fl' task (f task)) :
    Books (k.setTask t f) fl' := by
  have hslots : ∀ x, (k.setTask t f).slots x + fl'.files x = k.slots x + fl.files x := by
    intro x
    have htotal := Heap.total_modify (slotHold x) ht f
    have hbal := hx.files x
    rw [Kernel.slots, Kernel.slots]
    show (k.tasks.modify t f).total (slotHold x) + _ = _
    omega
  refine ⟨hb.vfs.congr fun n => ?_, hb.root, ?_, ?_, hb.pipes, hb.freedPipes, hb.closes, ?_⟩
  · have htotal := Heap.total_modify (taskHold n) ht f
    have hbal := hx.nodes n
    have hleak := congrFun hx.leaked n
    show k.ends (.node n) + (k.tasks.modify t f).total (taskHold n) + _ + _ =
      k.ends (.node n) + k.tasks.total (taskHold n) + _ + _
    omega
  · intro x file hf
    have hs := hslots x
    obtain ⟨hcount, hpos⟩ := hb.files (f := x) hf
    exact ⟨by omega, hpos⟩
  · intro x hf
    have hs := hslots x
    have hz := hb.freedFiles (f := x) hf
    omega
  · intro t' task' ht'
    rw [Kernel.task, Kernel.setTask, Heap.get_modify] at ht'
    split at ht'
    · rename_i heq
      subst heq
      rw [Kernel.task] at ht
      rw [ht, Option.map_some, Option.some.injEq] at ht'
      subst ht'
      rw [hx.root]
      exact hb.roots ht
    · exact hb.roots ht'

theorem create {task : Task} {a : NodeId → ℕ} (hb : Books k fl)
    (ha : ∀ n, fl.nodes n = a n + taskHold n task) (hslots : ∀ f, slotHold f task = 0)
    (hroot : task.root = some k.vfs.vfsRoot) (l : Option TaskId) :
    Books { k with nextPid := k.nextPid + 1, tasks := k.tasks.alloc task } { fl with nodes := a, limbo := l } := by
  have hs : ∀ x, Kernel.slots { k with nextPid := k.nextPid + 1, tasks := k.tasks.alloc task } x = k.slots x := by
    intro x
    have htotal := Heap.total_alloc (slotHold x) k.tasks task
    rw [hslots x] at htotal
    exact htotal
  refine ⟨hb.vfs.congr fun n => ?_, hb.root, ?_, ?_, hb.pipes, hb.freedPipes, hb.closes, ?_⟩
  · have htotal := Heap.total_alloc (taskHold n) k.tasks task
    have hn := ha n
    show k.ends (.node n) + (k.tasks.alloc task).total (taskHold n) + _ + _ =
      k.ends (.node n) + k.tasks.total (taskHold n) + _ + _
    dsimp only
    omega
  · intro x file hf
    rw [hs]
    exact hb.files hf
  · intro x hf
    rw [hs]
    exact hb.freedFiles hf
  · intro t task' ht
    rw [Kernel.task, Heap.get_alloc] at ht
    split at ht
    · rw [Option.some.injEq] at ht
      subst ht
      exact hroot
    · exact hb.roots ht

theorem destroy {t : TaskId} {task : Task} {a : NodeId → ℕ} (hb : Books k fl)
    (ht : k.task t = some task) (ha : ∀ n, a n = fl.nodes n + taskHold n task)
    (hslots : ∀ f, slotHold f task = 0) (l : Option TaskId) :
    Books { k with tasks := k.tasks.free t } { fl with nodes := a, limbo := l } := by
  have hs : ∀ x, Kernel.slots { k with tasks := k.tasks.free t } x = k.slots x := by
    intro x
    have htotal := Heap.total_free (slotHold x) ht
    rw [hslots x] at htotal
    exact htotal
  refine ⟨hb.vfs.congr fun n => ?_, hb.root, ?_, ?_, hb.pipes, hb.freedPipes, hb.closes, ?_⟩
  · have htotal := Heap.total_free (taskHold n) ht
    have hn := ha n
    show k.ends (.node n) + (k.tasks.free t).total (taskHold n) + _ + _ =
      k.ends (.node n) + k.tasks.total (taskHold n) + _ + _
    dsimp only
    omega
  · intro x file hf
    rw [hs]
    exact hb.files hf
  · intro x hf
    rw [hs]
    exact hb.freedFiles hf
  · intro t' task' ht'
    rw [Kernel.task, Heap.get_free] at ht'
    split at ht'
    · cases ht'
    · exact hb.roots ht'

/-! ### Open files -/

theorem file {f : FileId} {file : OpenFile} {g : OpenFile → OpenFile} {b : FileId → ℕ} (hb : Books k fl)
    (hf : k.files.get f = some file) (hobj : (g file).object = file.object)
    (hpos : 0 < (g file).references) (hbal : (g file).references + fl.files f = file.references + b f)
    (hother : ∀ x, x ≠ f → b x = fl.files x) : Books (k.setFile f g) { fl with files := b } := by
  have hends : ∀ o, (k.setFile f g).ends o = k.ends o := by
    intro o
    have htotal := Heap.total_modify (endHold o) hf g
    rw [endHold, endHold, hobj] at htotal
    show (k.files.modify f g).total (endHold o) = k.files.total (endHold o)
    omega
  have hget : ∀ x, (k.setFile f g).files.get x = if x = f then some (g file) else k.files.get x := by
    intro x
    rw [Kernel.setFile, Heap.get_modify]
    split
    · rename_i heq
      rw [heq, hf, Option.map_some]
    · rfl
  refine ⟨hb.vfs.congr fun n => ?_, hb.root, ?_, ?_, ?_, ?_, ?_, hb.roots⟩
  · show (k.setFile f g).ends (.node n) + _ + _ + _ = k.ends (.node n) + _ + _ + _
    rw [hends]
    rfl
  · intro x file' hx
    rw [hget] at hx
    split at hx
    · rename_i heq
      subst heq
      rw [Option.some.injEq] at hx
      subst hx
      have hcount := (hb.files hf).1
      refine ⟨?_, hpos⟩
      show _ = k.slots x + b x
      omega
    · rename_i hne
      show _ = k.slots x + b x ∧ _
      rw [hother x hne]
      exact hb.files hx
  · intro x hx
    rw [hget] at hx
    split at hx
    · cases hx
    · rename_i hne
      show k.slots x + b x = 0
      rw [hother x hne]
      exact hb.freedFiles hx
  · intro p pipe hp
    rw [hends, hends]
    exact hb.pipes hp
  · intro p hp
    rw [hends, hends]
    exact hb.freedPipes hp
  · intro x
    have hc := hb.closes x
    show k.trace.count (.lastClose x) = (k.files.modify f g).freed x
    rw [hc, Heap.freed_modify]

/-- Nothing points to an address that was not handed out yet. -/
theorem next_unused (hb : Books k fl) : k.slots k.files.next + fl.files k.files.next = 0 :=
  hb.freedFiles (Heap.get_next _)

/-- A new open file with one reference, in the hands of the call; the pipes are left to show. -/
theorem addFile {file : OpenFile} {a : NodeId → ℕ} {b : FileId → ℕ} (pipes : Heap Pipe) (hb : Books k fl)
    (href : file.references = 1) (ha : ∀ n, fl.nodes n = a n + endHold (.node n) file)
    (hbal : ∀ x, b x = fl.files x + pointsTo (some k.files.next) x)
    (hpipes : ∀ {p pipe}, pipes.get p = some pipe →
      pipe.readers = k.ends (.pipeRead p) + endHold (.pipeRead p) file ∧
        pipe.writers = k.ends (.pipeWrite p) + endHold (.pipeWrite p) file)
    (hfreed : ∀ {p}, pipes.get p = none →
      k.ends (.pipeRead p) + endHold (.pipeRead p) file = 0 ∧
        k.ends (.pipeWrite p) + endHold (.pipeWrite p) file = 0) :
    Books { k with files := k.files.alloc file, pipes := pipes } { fl with nodes := a, files := b } := by
  have hends : ∀ o, Kernel.ends { k with files := k.files.alloc file, pipes := pipes } o =
      k.ends o + endHold o file := fun o => Heap.total_alloc (endHold o) k.files file
  have hz := hb.next_unused
  refine ⟨hb.vfs.congr fun n => ?_, hb.root, ?_, ?_, ?_, ?_, ?_, hb.roots⟩
  · have hn := ha n
    show Kernel.ends { k with files := k.files.alloc file, pipes := pipes } (.node n) + _ + _ + _ =
      k.ends (.node n) + k.tasks.total (taskHold n) + _ + _
    rw [hends]
    dsimp only
    omega
  · intro x file' hx
    show _ = k.slots x + b x ∧ _
    dsimp only at hx
    rw [hbal x]
    rw [Heap.get_alloc] at hx
    split at hx
    · rename_i heq
      subst heq
      rw [Option.some.injEq] at hx
      subst hx
      rw [href, pointsTo_self]
      omega
    · rename_i hne
      rw [pointsTo_of_ne hne]
      exact hb.files hx
  · intro x hx
    show k.slots x + b x = 0
    dsimp only at hx
    rw [hbal x]
    rw [Heap.get_alloc] at hx
    split at hx
    · cases hx
    · rename_i hne
      rw [pointsTo_of_ne hne]
      exact hb.freedFiles hx
  · intro p pipe hp
    rw [hends, hends]
    exact hpipes hp
  · intro p hp
    rw [hends, hends]
    exact hfreed hp
  · intro x
    have hc := hb.closes x
    show k.trace.count (.lastClose x) = (k.files.alloc file).freed x
    rw [hc, Heap.freed_alloc]

theorem openFile {file : OpenFile} {a : NodeId → ℕ} {b : FileId → ℕ} (hb : Books k fl)
    (href : file.references = 1) (hobj : ∀ p, file.object ≠ .pipeRead p ∧ file.object ≠ .pipeWrite p)
    (ha : ∀ n, fl.nodes n = a n + endHold (.node n) file)
    (hbal : ∀ x, b x = fl.files x + pointsTo (some k.files.next) x) :
    Books { k with files := k.files.alloc file } { fl with nodes := a, files := b } := by
  have hz : ∀ p, endHold (.pipeRead p) file = 0 ∧ endHold (.pipeWrite p) file = 0 := by
    intro p
    exact ⟨if_neg (hobj p).1, if_neg (hobj p).2⟩
  refine hb.addFile k.pipes href ha hbal ?_ ?_
  · intro p pipe hp
    rw [(hz p).1, (hz p).2]
    exact hb.pipes hp
  · intro p hp
    rw [(hz p).1, (hz p).2]
    exact hb.freedPipes hp

theorem endHold_pipeRead (p q : PipeId) (r : ℕ) (flags : OpenFlags) (o : ℤ) :
    endHold (.pipeRead q) ⟨r, flags, o, .pipeRead p⟩ = pointsTo (some p) q := by
  simp [endHold, pointsTo]

theorem endHold_pipeWrite (p q : PipeId) (r : ℕ) (flags : OpenFlags) (o : ℤ) :
    endHold (.pipeWrite q) ⟨r, flags, o, .pipeWrite p⟩ = pointsTo (some p) q := by
  simp [endHold, pointsTo]

theorem openPipe {b : FileId → ℕ} (hb : Books k fl)
    (hbal : ∀ x, b x = fl.files x + pointsTo (some k.files.next) x) :
    Books
      { k with
        pipes := k.pipes.alloc freshPipe
        files := k.files.alloc ⟨1, readFlags, 0, .pipeRead k.pipes.next⟩ }
      { fl with files := b } := by
  have hnew := hb.freedPipes (p := k.pipes.next) (Heap.get_next _)
  refine hb.addFile (k.pipes.alloc freshPipe) rfl (fun _ => rfl) hbal ?_ ?_
  · intro p pipe hp
    rw [endHold_pipeRead]
    rw [Heap.get_alloc] at hp
    split at hp
    · rename_i heq
      subst heq
      cases hp
      rw [hnew.1, hnew.2, pointsTo_self]
      exact ⟨rfl, rfl⟩
    · rename_i hne
      rw [pointsTo_of_ne hne]
      exact hb.pipes hp
  · intro p hp
    rw [endHold_pipeRead]
    rw [Heap.get_alloc] at hp
    split at hp
    · cases hp
    · rename_i hne
      rw [pointsTo_of_ne hne]
      exact hb.freedPipes hp

theorem openWriter {p : PipeId} {pipe : Pipe} {b : FileId → ℕ} (hb : Books k fl)
    (hp : k.pipes.get p = some pipe) (hw : pipe.writers = 0)
    (hbal : ∀ x, b x = fl.files x + pointsTo (some k.files.next) x) :
    Books
      ({ k with files := k.files.alloc ⟨1, writeFlags, 0, .pipeWrite p⟩ }.setPipe p
        fun pipe => { pipe with writers := 1 })
      { fl with files := b } := by
  refine hb.addFile (k.pipes.modify p fun pipe => { pipe with writers := 1 }) rfl (fun _ => rfl) hbal
    ?_ ?_
  · intro q pipe' hq
    rw [endHold_pipeWrite]
    rw [Heap.get_modify] at hq
    split at hq
    · rename_i heq
      subst heq
      rw [hp, Option.map_some, Option.some.injEq] at hq
      subst hq
      have hold := hb.pipes hp
      rw [pointsTo_self, ← hold.2, hw]
      exact ⟨hold.1, rfl⟩
    · rename_i hne
      rw [pointsTo_of_ne hne]
      exact hb.pipes hq
  · intro q hq
    rw [endHold_pipeWrite]
    rw [Heap.get_modify] at hq
    split at hq
    · rename_i heq
      subst heq
      rw [hp] at hq
      cases hq
    · rename_i hne
      rw [pointsTo_of_ne hne]
      exact hb.freedPipes hq

/-! ### Closing -/

/-- The last reference to an open file is given back; the pipes are left to show. -/
theorem dropFile {f : FileId} {file : OpenFile} {a : NodeId → ℕ} {b : FileId → ℕ}
    (pipes : Heap Pipe) (hb : Books k fl) (hf : k.files.get f = some file) (hlast : file.references - 1 = 0)
    (ha : ∀ n, a n = fl.nodes n + endHold (.node n) file)
    (hbal : ∀ x, fl.files x = b x + pointsTo (some f) x)
    (hpipes : ∀ {p pipe}, pipes.get p = some pipe →
      pipe.readers + endHold (.pipeRead p) file = k.ends (.pipeRead p) ∧
        pipe.writers + endHold (.pipeWrite p) file = k.ends (.pipeWrite p))
    (hfreed : ∀ {p}, pipes.get p = none →
      k.ends (.pipeRead p) = endHold (.pipeRead p) file ∧
        k.ends (.pipeWrite p) = endHold (.pipeWrite p) file) :
    Books { ({ k with files := k.files.free f }.log (.lastClose f)) with pipes := pipes }
      { fl with nodes := a, files := b } := by
  have hends : ∀ o, Kernel.ends { ({ k with files := k.files.free f }.log (.lastClose f)) with
      pipes := pipes } o + endHold o file = k.ends o := fun o => Heap.total_free (endHold o) hf
  have hself := hbal f
  rw [pointsTo_self] at hself
  obtain ⟨hcount, hpos⟩ := hb.files hf
  refine ⟨hb.vfs.congr fun n => ?_, hb.root, ?_, ?_, ?_, ?_, ?_, hb.roots⟩
  · have hn := ha n
    have he := hends (.node n)
    show Kernel.ends { ({ k with files := k.files.free f }.log (.lastClose f)) with pipes := pipes }
      (.node n) + _ + _ + _ = k.ends (.node n) + k.tasks.total (taskHold n) + _ + _
    rw [← he]
    have htasks : Kernel.tasks { ({ k with files := k.files.free f }.log (.lastClose f)) with
      pipes := pipes } = k.tasks := rfl
    rw [htasks]
    dsimp only
    omega
  · intro x file' hx
    show _ = k.slots x + b x ∧ _
    have hx' : (k.files.free f).get x = some file' := hx
    rw [Heap.get_free] at hx'
    split at hx'
    · cases hx'
    · rename_i hne
      have hx := hbal x
      rw [pointsTo_of_ne hne, Nat.add_zero] at hx
      rw [← hx]
      exact hb.files hx'
  · intro x hx
    show k.slots x + b x = 0
    have hx' : (k.files.free f).get x = none := hx
    rw [Heap.get_free] at hx'
    split at hx'
    · rename_i heq
      subst heq
      omega
    · rename_i hne
      have hx := hbal x
      rw [pointsTo_of_ne hne, Nat.add_zero] at hx
      rw [← hx]
      exact hb.freedFiles hx'
  · intro p pipe hp
    have hr := hends (.pipeRead p)
    have hw := hends (.pipeWrite p)
    have hpp := hpipes hp
    omega
  · intro p hp
    have hr := hends (.pipeRead p)
    have hw := hends (.pipeWrite p)
    have hpp := hfreed hp
    omega
  · intro x
    have hc := hb.closes x
    show (k.trace ++ [Event.lastClose f]).count (.lastClose x) = (k.files.free f).freed x
    have hsame : (Event.lastClose f == Event.lastClose x) = decide (x = f) := by
      rw [Bool.eq_iff_iff, beq_iff_eq, Event.lastClose.injEq, decide_eq_true_eq]
      exact ⟨Eq.symm, Eq.symm⟩
    rw [List.count_append, hc, Heap.freed_free hf, List.count_singleton, hsame]
    simp only [decide_eq_true_eq]

theorem closeFile {f : FileId} {file : OpenFile} {a : NodeId → ℕ} {b : FileId → ℕ} (hb : Books k fl)
    (hf : k.files.get f = some file) (hlast : file.references - 1 = 0)
    (hobj : ∀ p, file.object ≠ .pipeRead p ∧ file.object ≠ .pipeWrite p)
    (ha : ∀ n, a n = fl.nodes n + endHold (.node n) file)
    (hbal : ∀ x, fl.files x = b x + pointsTo (some f) x) :
    Books ({ k with files := k.files.free f }.log (.lastClose f)) { fl with nodes := a, files := b } := by
  have hz : ∀ p, endHold (.pipeRead p) file = 0 ∧ endHold (.pipeWrite p) file = 0 := by
    intro p
    exact ⟨if_neg (hobj p).1, if_neg (hobj p).2⟩
  refine hb.dropFile k.pipes hf hlast ha hbal ?_ ?_
  · intro p pipe hp
    rw [(hz p).1, (hz p).2]
    exact hb.pipes hp
  · intro p hp
    rw [(hz p).1, (hz p).2]
    exact hb.freedPipes hp

theorem rests_wakePipeTask (task : Task) : Rests task (wakePipeTask task) := by
  rw [wakePipeTask]
  split
  · rename_i h
    exact ⟨rfl, rfl, rfl, .inr ⟨by simp [blocked, h], rfl⟩, .inl rfl, .inl rfl, rfl, rfl⟩
  split
  · rename_i h
    exact ⟨rfl, rfl, rfl, .inr ⟨by simp [blocked, h], rfl⟩, .inl rfl, .inl rfl, rfl, rfl⟩
  · exact .refl task

/-- A loop over the task list in which every task at most wakes up. -/
theorem calm_forTasks (k : Kernel) {w : Task → Task} (hw : ∀ task, Rests task (w task)) :
    Calm k (forTasks k w) := by
  refine ⟨rfl, rfl, rfl, rfl, rfl, rfl, rfl, rfl, rfl, rfl, le_rfl, Heap.next_map _ _, ?_, ?_⟩
  · intro t task' ht
    rw [Kernel.task, forTasks, Heap.get_map, Option.map_eq_some_iff] at ht
    obtain ⟨task, htask, rfl⟩ := ht
    refine ⟨task, htask, ?_⟩
    split
    · exact hw task
    · exact .refl task
  · intro t task ht
    refine ⟨if t ∈ k.order then w task else task, ?_⟩
    rw [Kernel.task, forTasks, Heap.get_map]
    rw [Kernel.task] at ht
    rw [ht, Option.map_some]

theorem calm_cbWakePipeTasks (k : Kernel) : Calm k (cbWakePipeTasks k) :=
  calm_forTasks k rests_wakePipeTask

/-- Closing one end of a pipe. -/
theorem closeEnd {f : FileId} {file : OpenFile} {p : PipeId} {b : FileId → ℕ} {lower : Pipe → Pipe}
    (hb : Books k fl) (hf : k.files.get f = some file) (hlast : file.references - 1 = 0)
    (hobj : file.object = .pipeRead p ∨ file.object = .pipeWrite p)
    (hlower : ∀ pipe, (lower pipe).readers = pipe.readers - endHold (.pipeRead p) file ∧
      (lower pipe).writers = pipe.writers - endHold (.pipeWrite p) file)
    (hbal : ∀ x, fl.files x = b x + pointsTo (some f) x) :
    Books (pipeClose ({ k with files := k.files.free f }.log (.lastClose f)) p lower)
      { fl with files := b } := by
  have hle : ∀ o, endHold o file ≤ k.ends o := fun o => Heap.le_total (endHold o) hf
  -- the pipe is live, since one of its ends is
  obtain ⟨pipe, hp⟩ : ∃ pipe, k.pipes.get p = some pipe := by
    cases hget : k.pipes.get p with
    | some pipe => exact ⟨pipe, rfl⟩
    | none =>
      exfalso
      have hz := hb.freedPipes hget
      have hr := hle (.pipeRead p)
      have hw := hle (.pipeWrite p)
      rcases hobj with hobj | hobj
      · rw [endHold, if_pos hobj] at hr
        omega
      · rw [endHold, if_pos hobj] at hw
        omega
  have hnode : ∀ n, endHold (.node n) file = 0 := by
    intro n
    rw [endHold, if_neg]
    rintro heq
    rcases hobj with hobj | hobj <;> rw [hobj] at heq <;> cases heq
  have hother : ∀ q, q ≠ p → endHold (.pipeRead q) file = 0 ∧ endHold (.pipeWrite q) file = 0 := by
    intro q hq
    constructor
    · rw [endHold, if_neg]
      intro heq
      rcases hobj with hobj | hobj <;> rw [hobj] at heq <;> cases heq
      exact hq rfl
    · rw [endHold, if_neg]
      intro heq
      rcases hobj with hobj | hobj <;> rw [hobj] at heq <;> cases heq
      exact hq rfl
  have hcounts := hb.pipes hp
  have hl := hlower pipe
  have hr := hle (.pipeRead p)
  have hw := hle (.pipeWrite p)
  have hp' : ({ k with files := k.files.free f }.log (.lastClose f)).pipes.get p = some pipe := hp
  rw [pipeClose, hp']
  dsimp only
  split
  · rename_i hzero
    have hbooks := hb.dropFile (a := fl.nodes) ((k.pipes.modify p lower).free p) hf hlast
      (fun n => by rw [hnode n, Nat.add_zero]) hbal
      (by
        intro q pipe' hq
        rw [Heap.get_free] at hq
        split at hq
        · cases hq
        · rename_i hne
          rw [Heap.get_modify_of_ne _ _ hne] at hq
          have hqc := hb.pipes hq
          rw [(hother q hne).1, (hother q hne).2]
          exact hqc)
      (by
        intro q hq
        rw [Heap.get_free] at hq
        by_cases hne : q = p
        · subst hne
          omega
        · rw [if_neg hne, Heap.get_modify_of_ne _ _ hne] at hq
          rw [(hother q hne).1, (hother q hne).2]
          exact hb.freedPipes hq)
    have hwake := (calm_cbWakePipeTasks
      (({ k with files := k.files.free f }.log (.lastClose f)).setPipe p lower)).pointers
    exact hbooks.pointers ⟨rfl, rfl, rfl, rfl, hwake.next, hwake.holdings⟩
  · have hbooks := hb.dropFile (a := fl.nodes) (k.pipes.modify p lower) hf hlast
      (fun n => by rw [hnode n, Nat.add_zero]) hbal
      (by
        intro q pipe' hq
        rw [Heap.get_modify] at hq
        split at hq
        · rename_i heq
          subst heq
          rw [hp, Option.map_some, Option.some.injEq] at hq
          subst hq
          omega
        · rename_i hne
          rw [(hother q hne).1, (hother q hne).2]
          exact hb.pipes hq)
      (by
        intro q hq
        rw [Heap.get_modify] at hq
        split at hq
        · rename_i heq
          subst heq
          rw [hp] at hq
          cases hq
        · rename_i hne
          rw [(hother q hne).1, (hother q hne).2]
          exact hb.freedPipes hq)
    have hwake := (calm_cbWakePipeTasks
      (({ k with files := k.files.free f }.log (.lastClose f)).setPipe p lower)).pointers
    exact hbooks.pointers ⟨rfl, rfl, rfl, rfl, hwake.next, hwake.holdings⟩

/-! ### Bytes in pipes -/

theorem setPipe {p : PipeId} {g : Pipe → Pipe} (hb : Books k fl)
    (hg : ∀ pipe, (g pipe).readers = pipe.readers ∧ (g pipe).writers = pipe.writers) :
    Books (k.setPipe p g) fl := by
  refine ⟨hb.vfs, hb.root, hb.files, hb.freedFiles, ?_, ?_, hb.closes, hb.roots⟩
  · intro q pipe hq
    rw [Kernel.setPipe, Heap.get_modify] at hq
    split at hq
    · obtain ⟨old, hold, rfl⟩ := Option.map_eq_some_iff.mp hq
      rw [(hg old).1, (hg old).2]
      exact hb.pipes hold
    · exact hb.pipes hq
  · intro q hq
    rw [Kernel.setPipe, Heap.get_modify] at hq
    split at hq
    · exact hb.freedPipes (Option.map_eq_none_iff.mp hq)
    · exact hb.freedPipes hq

theorem log {e : Event} (hb : Books k fl) (he : ∀ f, e ≠ .lastClose f) : Books (k.log e) fl := by
  refine ⟨hb.vfs, hb.root, hb.files, hb.freedFiles, hb.pipes, hb.freedPipes, ?_, hb.roots⟩
  intro f
  have hc := hb.closes f
  show (k.trace ++ [e]).count (.lastClose f) = _
  have hne : (e == Event.lastClose f) = false := by simpa using he f
  rw [List.count_append, hc, List.count_singleton, hne]
  rfl

/-- Bytes go into a pipe or out of it, and all waiting tasks wake up. -/
theorem pipeBytes {p : PipeId} {g : Pipe → Pipe} {e : Event} (hb : Books k fl)
    (hg : ∀ pipe, (g pipe).readers = pipe.readers ∧ (g pipe).writers = pipe.writers)
    (he : ∀ f, e ≠ .lastClose f) : Books (cbWakePipeTasks ((k.setPipe p g).log e)) fl :=
  ((hb.setPipe hg).log he).pointers (calm_cbWakePipeTasks _).pointers

/-- **The books.**  Every elementary step keeps them. -/
theorem micro {gone : NodeId → Prop} (hb : Books k fl) (hm : Micro gone k fl k' fl') : Books k' fl' := by
  cases hm with
  | vfs hv => exact hb.vfsMove hv
  | sched hs =>
    obtain ⟨hn, hf, hl⟩ := hs.flight
    exact (hb.pointers hs.pointers).flight hn hf hl
  | hold ht hx => exact hb.hold ht hx
  | create _ ha hslots hroot => exact hb.create ha hslots hroot _
  | destroy _ _ ht ha hslots => exact hb.destroy ht ha hslots _
  | leak ha => exact hb.leak ha
  | file hf hobj _ hpos hbal hother => exact hb.file hf hobj hpos hbal hother
  | openFile href hobj ha hbal => exact hb.openFile href hobj ha hbal
  | closeFile hf hlast hobj ha hbal => exact hb.closeFile hf hlast hobj ha hbal
  | openPipe hbal => exact hb.openPipe hbal
  | openWriter hp hw hbal => exact hb.openWriter hp hw hbal
  | closeReader hf hlast hobj hbal =>
    refine hb.closeEnd hf hlast (.inl hobj) (fun pipe => ?_) hbal
    simp [endHold, hobj]
  | closeWriter hf hlast hobj hbal =>
    refine hb.closeEnd hf hlast (.inr hobj) (fun pipe => ?_) hbal
    simp [endHold, hobj]
  | fetch hp hle => exact (hb.pipeBytes (fun _ => ⟨rfl, rfl⟩) fun _ => by simp)
  | beginWrite hw =>
    have hs : SamePointers k { k with calls := k.calls + 1 } := ⟨rfl, rfl, rfl, rfl, rfl, fun _ => rfl⟩
    exact Books.flight (hb.pointers hs) rfl rfl rfl
  | store hw hp hne hbytes => exact Books.flight (hb.pipeBytes (fun _ => ⟨rfl, rfl⟩) fun _ => by simp) rfl rfl rfl
  | endWrite hw hv => exact Books.flight (hb.log fun _ => by simp) rfl rfl rfl

/-- The nodes a task points to are live. -/
theorem node_live {t : TaskId} {task : Task} {n : NodeId} (hb : Books k fl) (ht : k.task t = some task)
    (hn : 0 < taskHold n task) : ∃ node, k.vfs.node n = some node := by
  have hle := Heap.le_total (taskHold n) ht
  have hpos : 0 < k.holders n := by
    rw [Kernel.holders]
    omega
  exact hb.vfs.live (n := n) (by omega)

end Books

end CannedBsd
