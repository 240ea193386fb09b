import CannedBsd.Kernel.Possessions

/-!
# Ledgers

The kernel keeps a ledger of heap blocks for each task. The ledger of a task changes by the task's own heap
calls, and is emptied when the task exits, is replaced or is destroyed: then its blocks go back to the host.

* `ledgerOf_step`: the ledger of a task changes by its own heap calls and when it ends or is replaced.
* `settles_step`: a step that ends or replaces a task gives back its blocks.
* `accountOf_step`: all other steps but the heap calls leave the account of the host alone.
-/

namespace CannedBsd

open CannedBsd.Lib

variable {k k' : Kernel} {t : TaskId} {l : NodeId → ℕ}

/-! ### Ledgers -/

def Task.blocks (task : Task) : List ℕ := task.allocations.map Allocation.pointer

/-- The blocks in the ledger of a task. -/
def ledgerOf (k : Kernel) (t : TaskId) : List ℕ := ((k.task t).map Task.blocks).getD []

theorem ledgerOf_eq {task : Task} (ht : k.task t = some task) : ledgerOf k t = task.blocks := by
  rw [ledgerOf, ht]
  rfl

theorem ledgerOf_none (ht : k.task t = none) : ledgerOf k t = [] := by
  rw [ledgerOf, ht]
  rfl

theorem ledgerOf_of_ownOf (h : ownOf t k' = ownOf t k) : ledgerOf k' t = ledgerOf k t := by
  have hmap := congrArg (Option.map fun s : (Fin cbMaxDirs → DirHandle) × List Allocation =>
    s.2.map Allocation.pointer) h
  rw [ownOf, ownOf, Option.map_map, Option.map_map] at hmap
  exact congrArg (Option.getD · []) hmap

/-- Most calls leave the ledgers alone. -/
theorem reserved_ledgerOf (t c : TaskId) : Reserved c fun k => ledgerOf k t where
  vfs _ _ := rfl
  files _ _ := rfl
  pipes _ _ := rfl
  trace _ _ := rfl
  wake k := ledgerOf_of_ownOf ((reserved_ownOf t c).wake k)
  setSpare k f hf := ledgerOf_of_ownOf ((reserved_ownOf t c).setSpare k f hf)
  parent k child := ledgerOf_of_ownOf ((reserved_ownOf t c).parent k child)
  current _ _ := rfl
  finishing _ _ _ := rfl
  calls _ _ := rfl

theorem ledgerOf_setDir (k : Kernel) (c : TaskId) (d : Fin cbMaxDirs) (handle : DirHandle) :
    ledgerOf (k.setDir c d handle) t = ledgerOf k t :=
  congrArg (Option.getD · []) (field_setTask Task.blocks k c t fun _ => rfl)

theorem ledgerOf_dirCloseAll (k : Kernel) (c : TaskId) : ledgerOf (dirCloseAll k c) t = ledgerOf k t :=
  (reserved_ledgerOf t c).toAloof.dirCloseAll (fun k d handle => ledgerOf_setDir k c d handle) k

/-! ### The account -/

/-- The task a passage says has exited. -/
def Passage.leaver : Passage → Option TaskId
  | .exited t _ => some t
  | _ => none

/-- The tasks that have exited. -/
def Kernel.departures (k : Kernel) : List TaskId := k.history.filterMap Passage.leaver

/-- The calls of the host's allocator, and the tasks that have exited. -/
def accountOf (k : Kernel) : List (HeapCall ℕ) × List TaskId := (k.heap, k.departures)

/-- Neither changes with the tasks. -/
theorem outside_accountOf (c : TaskId) : Outside c accountOf where
  vfs _ _ := rfl
  files _ _ := rfl
  pipes _ _ := rfl
  trace _ _ := rfl
  wake _ := rfl
  setSpare _ _ _ := rfl
  parent k child := by
    rw [wakeWaitingParent]
    split <;> rfl
  current _ _ := rfl
  finishing _ _ _ := rfl
  calls _ _ := rfl
  setTask _ _ := rfl
  alloc _ _ _ := rfl
  free _ := rfl
  nextPid _ _ := rfl

theorem accountOf_record {k : Kernel} {e : Passage} (he : e.leaver = none) : accountOf (k.record e) = accountOf k := by
  refine congrArg (Prod.mk k.heap) ?_
  rw [Kernel.departures, Kernel.record, List.filterMap_append, List.filterMap_cons_none he, List.filterMap_nil,
    List.append_nil]
  rfl

theorem accountOf_apiSpawn (h : Host) (k : Kernel) (t : TaskId) (programName : Bytes) (argv : List Bytes)
    (envp : Option (List Bytes)) (actions : List SpawnAction) :
    accountOf (apiSpawn h k t programName argv envp actions).1 = accountOf k := by
  refine (outside_accountOf k.tasks.next).apiSpawn (fun k order p c pid => ?_) h t programName argv envp actions
  exact accountOf_record (k := { k with order := order }) rfl

/-! ### Giving back everything -/

/-- The task gives back its blocks. -/
structure Settles (t : TaskId) (k k' : Kernel) : Prop where
  heap : k'.heap = k.heap ++ (ledgerOf k t).map .gave
  ledger : ledgerOf k' t = []
  departures : ∀ c, c ∈ k'.departures → c = t ∨ c ∈ k.departures

theorem accountOf_taskReleaseAllocations (k : Kernel) (t : TaskId) :
    accountOf (taskReleaseAllocations k t) = (k.heap ++ (ledgerOf k t).map .gave, k.departures) := by
  have hgiven : ((((k.task t).map Task.allocations).getD []).map fun a => HeapCall.gave a.pointer) =
      (ledgerOf k t).map .gave := by
    rw [ledgerOf]
    cases k.task t with
    | none => rfl
    | some task => exact (List.map_map ..).symm
  exact congrArg (fun given => (k.heap ++ given, k.departures)) hgiven

theorem ledgerOf_taskReleaseAllocations (k : Kernel) (t : TaskId) : ledgerOf (taskReleaseAllocations k t) t = [] := by
  rw [ledgerOf, taskReleaseAllocations]
  dsimp only
  have hself : ∀ (k : Kernel) f, (k.setTask t f).task t = (k.task t).map f := fun k f => Heap.get_modify_self _ _ _
  rw [hself]
  cases Kernel.task _ t with
  | none => rfl
  | some task => rfl

theorem settles_apiExit (k : Kernel) (t : TaskId) (status : ℤ) : Settles t k (apiExit k t status) := by
  have hv := outside_accountOf t
  have hl := reserved_ledgerOf t t
  have hclosed : accountOf (dirCloseAll (fdCloseAll (taskReleaseAllocations k t) t) t) =
      (k.heap ++ (ledgerOf k t).map .gave, k.departures) := by
    rw [hv.dirCloseAll, fdCloseAll, hv.fdCloseWhere, accountOf_taskReleaseAllocations]
  have hempty : ledgerOf (dirCloseAll (fdCloseAll (taskReleaseAllocations k t) t) t) t = [] := by
    rw [ledgerOf_dirCloseAll, fdCloseAll]
    exact (hl.fdCloseWhere _ _).trans (ledgerOf_taskReleaseAllocations k t)
  rw [apiExit_eq]
  generalize dirCloseAll (fdCloseAll (taskReleaseAllocations k t) t) t = k₁ at hclosed hempty ⊢
  have hheap : k₁.heap = k.heap ++ (ledgerOf k t).map .gave := congrArg Prod.fst hclosed
  have hleft : k₁.departures = k.departures := congrArg Prod.snd hclosed
  cases ht : k₁.task t with
  | none => exact ⟨hheap, hempty, fun c hc => .inr (hleft ▸ hc)⟩
  | some task =>
    obtain ⟨finished, bootStatus, heq⟩ := retire_eq k₁ t task status
    dsimp only [leave]
    have haccount := hv.parent (retire k₁ t task status) task
    refine ⟨?_, ?_, fun c hc => ?_⟩
    · rw [← hheap]
      refine (congrArg Prod.fst haccount).trans ?_
      rw [heq]
      rfl
    · rw [← hempty]
      refine (hl.parent (retire k₁ t task status) task).trans ?_
      rw [heq]
      refine hl.setSpare k₁ (fun task => { task with exitStatus := status % 256, state := .zombie }) ?_
      exact fun _ => rfl
    · have hsame : (wakeWaitingParent (retire k₁ t task status) task).departures = k₁.departures ++ [t] := by
        refine (congrArg Prod.snd haccount).trans ?_
        rw [heq]
        exact List.filterMap_append
      have hmem : c ∈ k₁.departures ++ [t] := hsame ▸ hc
      rcases List.mem_append.mp hmem with hold | hnew
      · exact .inr (hleft ▸ hold)
      · exact .inl (List.mem_singleton.mp hnew)

theorem settles_taskFinishExec (h : Host) (k : Kernel) (t : TaskId) : Settles t k (taskFinishExec h k t) := by
  have hv := outside_accountOf t
  have hl := reserved_ledgerOf t t
  have hdestroy : ledgerOf (destroyInstance k t) t = ledgerOf k t := hl.setSpare k _ fun _ => rfl
  have hinstall : ∀ k, accountOf (installProgram k t) = accountOf k ∧ ledgerOf (installProgram k t) t = ledgerOf k t := by
    intro k
    rw [installProgram]
    split
    · exact ⟨rfl, rfl⟩
    · refine ⟨rfl, (hl.releaseNode _ _).trans (hl.setSpare k _ ?_)⟩
      exact fun _ => rfl
  have hstart : ∀ k, accountOf (startInstance h k t) = accountOf k ∧ ledgerOf (startInstance h k t) t = ledgerOf k t := by
    intro k
    rw [startInstance]
    split
    · exact ⟨rfl, rfl⟩
    · refine ⟨rfl, (hl.finishing _ _ _).trans (hl.setSpare k _ ?_)⟩
      exact fun _ => rfl
  have haccount : accountOf (taskFinishExec h k t) = (k.heap ++ (ledgerOf k t).map .gave, k.departures) := by
    rw [taskFinishExec, (hstart _).1, (hinstall _).1, hv.dirCloseAll, hv.fdCloseWhere,
      accountOf_taskReleaseAllocations, hdestroy]
    rfl
  have hempty : ledgerOf (taskFinishExec h k t) t = [] := by
    rw [taskFinishExec, (hstart _).2, (hinstall _).2, ledgerOf_dirCloseAll]
    exact (hl.fdCloseWhere _ _).trans (ledgerOf_taskReleaseAllocations _ t)
  generalize taskFinishExec h k t = k' at haccount hempty ⊢
  have hsame : k'.departures = k.departures := congrArg Prod.snd haccount
  exact ⟨congrArg Prod.fst haccount, hempty, fun c hc => .inr (hsame ▸ hc)⟩

theorem accountOf_taskDestroy (k : Kernel) (t : TaskId) :
    accountOf (taskDestroy k t) = (k.heap ++ (ledgerOf k t).map .gave, k.departures) := by
  have hv := outside_accountOf t
  rw [taskDestroy, hv.taskRelease hv.free, hv.dirCloseAll, fdCloseAll, hv.fdCloseWhere,
    accountOf_taskReleaseAllocations]

theorem accountOf_reap (k : Kernel) (c : TaskId) :
    accountOf (reap k c) = (k.heap ++ (ledgerOf k c).map .gave, k.departures) := by
  have hdead : ∀ k : Kernel, ledgerOf (k.setTask c fun task => { task with state := .dead }) c = ledgerOf k c :=
    fun k => (reserved_ledgerOf c c).setSpare k _ fun _ => rfl
  rw [reap, accountOf_taskDestroy, hdead]
  rfl

/-! ### Steps that do not ask the host -/

/-- A task that has exited has nothing left. -/
def Bankrupt (k : Kernel) : Prop := ∀ t ∈ k.departures, ledgerOf k t = []

/-- A child on the list that is a zombie has nothing left. -/
theorem Bankrupt.zombie {fl : Flight} {task : Task} (h : Bankrupt k) (hb : Base k fl) (hmem : t ∈ k.order)
    (ht : k.task t = some task) (hz : task.state = .zombie) : ledgerOf k t = [] := by
  obtain ⟨status, hx, -⟩ := hb.lineage.zombie hmem ht hz
  exact h t (List.mem_filterMap.mpr ⟨_, hx, rfl⟩)

theorem accountOf_apiWaitpid {fl : Flight} (hz : Bankrupt k) (hb : Base k fl) (pid : ℤ) :
    accountOf (apiWaitpid k t pid).1 = accountOf k := by
  have hround := apiWaitpid_round k t pid
  generalize apiWaitpid k t pid = r at hround
  cases hround with
  | kept o => rfl
  | noted o => rfl
  | @reaped parent child c hparent hmem hchild hppid hzombie =>
    have hempty : ledgerOf (k.record (.reaped t c child.pid child.exitStatus)) c = [] :=
      hz.zombie hb hmem hchild hzombie
    dsimp only
    rw [accountOf_reap, hempty, List.map_nil, List.append_nil]
    exact accountOf_record rfl

/-- The heap calls. -/
def Op.heaps : Op → Bool
  | .allocate _ => true
  | .resize _ _ => true
  | .release _ => true
  | _ => false

theorem accountOf_perform {op : Op} {fl : Flight} (h : Host) (hz : Bankrupt k) (hb : Base k fl) (hop : op.heaps = false)
    (hexit : ∀ status, op ≠ .exit status) : accountOf (perform h k t op).1 = accountOf k := by
  have hv := outside_accountOf t
  by_cases hdis : op.discreet = true
  · exact hv.perform h k hdis
  cases op with
  | spawn programName argv envp actions => exact accountOf_apiSpawn h k t programName argv envp actions
  | exec programName argv envp => exact hv.apiExec h k programName argv envp
  | exit status => exact absurd rfl (hexit status)
  | waitpid pid => exact accountOf_apiWaitpid hz hb pid
  | opendir path => exact hv.apiOpendir k path
  | readdir descriptor nameSize => exact hv.apiReaddir k descriptor nameSize
  | closedir descriptor => exact hv.apiClosedir k descriptor
  | allocate | resize | release => cases hop
  | _ => exact absurd rfl hdis

theorem accountOf_deliver (r : Kernel × Outcome) : accountOf (deliver t r) = accountOf r.1 := (outside_accountOf t).deliver r

theorem accountOf_resume {fl : Flight} (h : Host) (hz : Bankrupt k) (hb : Base k fl)
    (hint : ((k.task t).any Task.interrupted) = false) : accountOf (resume h k t) = accountOf k := by
  have hv := outside_accountOf t
  rw [resume]
  cases ht : k.task t with
  | none => rfl
  | some task =>
    rw [ht, Option.any_some] at hint
    have hcond : ¬ (task.interruptPending = true ∧ task.interruptIgnored = false) := by
      rintro ⟨hp, hi⟩
      simp [Task.interrupted, hp, hi] at hint
    dsimp only
    rw [if_neg hcond]
    split
    · rfl
    · rfl
    · exact (accountOf_deliver _).trans (hv.pipeRead k _ _)
    · exact (accountOf_deliver _).trans (hv.pipeWriteLoop _ _ _ _ _ _)
    · refine (accountOf_deliver _).trans ?_
      rw [consoleRead_kernel]
    · exact (accountOf_deliver _).trans (accountOf_apiWaitpid hz hb _)
    · refine (accountOf_deliver _).trans ?_
      rw [pollLoop_kernel]

theorem settles_resume (h : Host) (hint : ((k.task t).any Task.interrupted) = true) : Settles t k (resume h k t) := by
  rw [resume]
  cases ht : k.task t with
  | none =>
    rw [ht] at hint
    cases hint
  | some task =>
    rw [ht, Option.any_some] at hint
    have hcond : task.interruptPending = true ∧ task.interruptIgnored = false := by
      simpa [Task.interrupted] using hint
    dsimp only
    rw [if_pos hcond]
    have hsame : ledgerOf (k.setTask t fun task => { task with interruptPending := false }) t = ledgerOf k t :=
      (reserved_ledgerOf t t).setSpare k _ fun _ => rfl
    have hexit := settles_apiExit (k.setTask t fun task => { task with interruptPending := false }) t 130
    exact ⟨hexit.heap.trans (by rw [hsame]; rfl), hexit.ledger, hexit.departures⟩

/-! ### Creation -/

/-- A task that has just been created has an empty ledger. -/
theorem ledgerOf_taskCreate (h : Host) (k : Kernel) (parent : Option TaskId) (program : Option ProgramId)
    (argv : List Bytes) (envp : Option (List Bytes)) (actions : List SpawnAction) :
    ledgerOf (taskCreate h k parent program argv envp actions).1 k.tasks.next = [] := by
  have hl := reserved_ledgerOf k.tasks.next k.tasks.next
  have hfree : ledgerOf k k.tasks.next = [] := ledgerOf_none (Heap.get_next _)
  rcases taskCreate_stages h k parent program argv envp actions with heq | heq | ⟨environment, heq⟩
  · rw [heq]
    exact hfree
  · rw [heq]
    exact hfree
  rw [heq]
  have hwith : ∀ p, ledgerOf (withTask k p program argv environment) k.tasks.next = [] := by
    intro p
    have hnew : (withTask k p program argv environment).task k.tasks.next =
        some (newTask (k.nextPid + 1) p program argv environment (startRoot k p) (startCwd k p)) :=
      Heap.get_alloc_self _ _
    rw [ledgerOf_eq hnew]
    rfl
  have hbuild : ∀ p, ledgerOf (buildTask k p program argv environment) k.tasks.next = [] := by
    intro p
    cases p with
    | none => exact hwith none
    | some task => exact (hl.inheritDescriptors _ task).trans (hwith (some task))
  have hacted := (hl.taskApplyActions actions (buildTask k (parent.bind k.task) program argv environment)).trans
    (hbuild (parent.bind k.task))
  generalize taskApplyActions k.tasks.next (buildTask k (parent.bind k.task) program argv environment) actions =
    acted at hacted
  obtain ⟨k', accepted⟩ := acted
  have hfail : ledgerOf (taskRelease (fdCloseAll k' k.tasks.next) k.tasks.next) k.tasks.next = [] := by
    refine ledgerOf_none ?_
    rw [taskRelease]
    split
    · assumption
    · exact Heap.get_free_self _ _
  cases accepted with
  | false =>
    rw [settleTask]
    generalize taskRelease (fdCloseAll k' k.tasks.next) k.tasks.next = k₂ at hfail ⊢
    exact hfail
  | true =>
    rw [settleTask]
    generalize taskRelease (fdCloseAll k' k.tasks.next) k.tasks.next = k₂ at hfail ⊢
    split
    · exact hfail
    · refine Eq.trans ?_ hacted
      refine hl.setSpare k' _ ?_
      exact fun _ => rfl

theorem ledgerOf_apiSpawn (h : Host) (k : Kernel) (t : TaskId) (programName : Bytes) (argv : List Bytes)
    (envp : Option (List Bytes)) (actions : List SpawnAction) :
    ledgerOf (apiSpawn h k t programName argv envp actions).1 k.tasks.next = [] := by
  have hfree : ledgerOf k k.tasks.next = [] := ledgerOf_none (Heap.get_next _)
  rw [apiSpawn]
  split
  · exact hfree
  split
  · exact hfree
  split
  · exact hfree
  rename_i n _
  have hcreate := ledgerOf_taskCreate h (retainNode k (some n)) (some t) (executableOf k n) argv envp actions
  split
  · rename_i heq
    rw [heq] at hcreate
    exact hcreate
  · rename_i c heq
    rw [heq] at hcreate
    refine Eq.trans ?_ hcreate
    refine (reserved_ledgerOf k.tasks.next c).setSpare _ _ ?_
    exact fun _ => rfl

theorem ledgerOf_cbKernelBoot (h : Host) (k : Kernel) (command : Option Bytes) :
    ledgerOf (cbKernelBoot h k command) k.tasks.next = [] := by
  have hfree : ledgerOf k k.tasks.next = [] := ledgerOf_none (Heap.get_next _)
  have hwith : ∀ n argv, ledgerOf (bootWith h k n argv) k.tasks.next = [] := by
    intro n argv
    have hcreate := ledgerOf_taskCreate h (retainNode k (some n)) none (executableOf k n) argv
      (some [homeSetting, pathSetting]) []
    rw [bootWith]
    split
    · rename_i heq
      rw [heq] at hcreate
      exact hcreate
    · rename_i k' c heq
      rw [heq] at hcreate
      have hl := reserved_ledgerOf k.tasks.next c
      have hset : ledgerOf (k'.setTask c fun task => { task with executableNode := some n }) k.tasks.next = [] := by
        refine (hl.setSpare k' _ ?_).trans hcreate
        exact fun _ => rfl
      rw [bootConsole]
      split
      · exact hset
      · dsimp only [cbOpenFileCreate]
        exact (hl.fdInstallAt _ _ _ _).trans ((hl.fdInstallAt _ _ _ _).trans ((hl.fdInstallAt _ _ _ _).trans hset))
  unfold cbKernelBoot
  split
  · exact hfree
  split
  · exact hfree
  · exact hwith _ _

theorem accountOf_cbKernelBoot (h : Host) (k : Kernel) (command : Option Bytes) :
    accountOf (cbKernelBoot h k command) = accountOf k := by
  have hv := outside_accountOf k.tasks.next
  have hwith : ∀ n argv, accountOf (bootWith h k n argv) = accountOf k := by
    intro n argv
    rw [bootWith]
    rcases @Outside.taskCreate _ _ (retainNode k (some n)) hv h none (executableOf k n) argv
        (some [homeSetting, pathSetting]) [] with ⟨k', heq, hview⟩ | ⟨k', pid, heq, hview⟩
    · rw [heq]
      exact hview
    rw [heq]
    have hlisted : accountOf ({ k' with order := k.tasks.next :: k'.order }.record
        (.spawned none k.tasks.next pid)) = accountOf k :=
      (accountOf_record (k := { k' with order := k.tasks.next :: k'.order }) rfl).trans hview
    dsimp only [bootConsole]
    split
    · exact hlisted
    · dsimp only [cbOpenFileCreate]
      exact (hv.fdInstallAt _ _ _ _).trans ((hv.fdInstallAt _ _ _ _).trans ((hv.fdInstallAt _ _ _ _).trans hlisted))
  unfold cbKernelBoot
  split
  · rfl
  split
  · rfl
  · exact hwith _ _

/-! ### Steps -/

/-- The step is a heap call of the running task. -/
def heapStep : Action → Bool
  | .call _ op => op.heaps
  | _ => false

theorem accountOf_roused (h : Host) (k : Kernel) : accountOf (roused h k) = accountOf k := by
  rw [roused]
  split <;> rfl

theorem accountOf_idleRound (h : Host) (k : Kernel) : accountOf (idleRound h k) = accountOf k := by
  have htasks : ∀ k f, accountOf (forTasks k f) = accountOf k := fun _ _ => rfl
  rw [idleRound]
  split
  · rw [htasks]
    split <;> rfl
  split <;> rfl

theorem ledgerOf_roused (h : Host) (k : Kernel) (t : TaskId) : ledgerOf (roused h k) t = ledgerOf k t :=
  ledgerOf_of_ownOf (ownOf_of_settled (settled_roused h t k))

theorem ledgerOf_dispatch (k : Kernel) (t c : TaskId) : ledgerOf (dispatch k c) t = ledgerOf k t := by
  refine (reserved_ledgerOf t c).setSpare k (fun task => { task with state := .running }) ?_
  exact fun _ => rfl

theorem interrupted_dispatch (k : Kernel) (c : TaskId) :
    ((dispatch k c).task c).any Task.interrupted = (k.task c).any Task.interrupted := by
  have hself : (dispatch k c).task c = (k.task c).map fun y => { y with state := .running } := Heap.get_modify_self _ _ _
  rw [hself, Option.any_map]
  rfl

/-- A step that ends or replaces a task gives back its blocks. -/
theorem settles_step {a : Action} (hs : step k a = some k') (hclose : closesHandles k a = some t) : Settles t k k' := by
  unfold step at hs
  split at hs
  · cases hs
  cases a with
  | call h op =>
    cases op with
    | exit status =>
      rw [closesHandles, leaves] at hclose
      simp only [hclose, Option.some.injEq] at hs
      have hexit := settles_apiExit k t status
      have heq : deliver t (perform h k t (.exit status)) = apiExit k t status := by
        dsimp only [perform]
        generalize apiExit k t status = k₁
        rfl
      rw [heq] at hs
      rw [← hs]
      exact hexit
    | _ => cases hclose
  | schedule h =>
    dsimp only at hs
    split at hs
    · rw [Option.some.injEq] at hs
      rw [closesHandles, Option.filter_eq_some_iff] at hclose
      obtain ⟨hpick, hint⟩ := hclose
      rw [scheduleRound_eq, hpick] at hs
      dsimp only at hs
      have hgo := settles_resume (k := dispatch (roused h k) t) h ((interrupted_dispatch _ t).trans hint)
      rw [hs] at hgo
      have hledger : ledgerOf (dispatch (roused h k) t) t = ledgerOf k t :=
        (ledgerOf_dispatch _ t t).trans (ledgerOf_roused h k t)
      have haccount := accountOf_roused h k
      refine ⟨?_, hgo.ledger, fun c hc => ?_⟩
      · rw [hgo.heap, hledger]
        exact congrArg (· ++ (ledgerOf k t).map HeapCall.gave) (congrArg Prod.fst haccount)
      · rcases hgo.departures c hc with heq | hold
        · exact .inl heq
        · have hsame : (dispatch (roused h k) t).departures = k.departures := congrArg Prod.snd haccount
          exact .inr (hsame ▸ hold)
    · cases hs
  | finishExec h =>
    rw [closesHandles] at hclose
    dsimp only at hs
    rw [hclose, Option.map_some, Option.some.injEq] at hs
    have hfinish := settles_taskFinishExec h k t
    rw [hs] at hfinish
    exact hfinish
  | _ => cases hclose

/-- All other steps but the heap calls leave the account alone. -/
theorem accountOf_step {a : Action} (hp : Poised k l) (hz : Bankrupt k) (hs : step k a = some k')
    (hheap : heapStep a = false) (hclose : closesHandles k a = none) : accountOf k' = accountOf k := by
  unfold step at hs
  split at hs
  · cases hs
  cases a with
  | call h op =>
    cases hc : k.current with
    | none => simp [hc] at hs
    | some c =>
      simp only [hc, Option.some.injEq] at hs
      subst hs
      refine (accountOf_deliver _).trans (accountOf_perform h hz hp.base hheap ?_)
      rintro status rfl
      rw [closesHandles, leaves, hc] at hclose
      cases hclose
  | schedule h =>
    dsimp only at hs
    split at hs
    · rename_i hready
      rw [Option.some.injEq] at hs
      rw [scheduleRound_eq] at hs
      cases hpick : pickRunnable (roused h k) with
      | none =>
        rw [hpick] at hs
        subst hs
        exact (accountOf_idleRound h (roused h k)).trans (accountOf_roused h k)
      | some c =>
        rw [hpick] at hs
        dsimp only at hs
        have hint : ((roused h k).task c).any Task.interrupted = false := by
          rw [closesHandles, hpick, Option.filter_some] at hclose
          cases hany : ((roused h k).task c).any Task.interrupted with
          | false => rfl
          | true =>
            rw [hany] at hclose
            cases hclose
        have haccount := accountOf_roused h k
        have hbankrupt : Bankrupt (dispatch (roused h k) c) := by
          intro t ht
          have hsame : (dispatch (roused h k) c).departures = k.departures := congrArg Prod.snd haccount
          rw [ledgerOf_dispatch, ledgerOf_roused]
          exact hz t (hsame ▸ ht)
        obtain ⟨hmem, task, ht, hst⟩ := pickRunnable_eq_some hpick
        have hwake : Path noNode k (.rest l) (roused h k) (.rest l) := roused_path h k
        have hgo : Moves noNode (roused h k) (.rest l) (dispatch (roused h k) c) (.resumed l task.frame) :=
          .single (.sched (.dispatch (hwake.steady.current.trans hready.1)
            (hwake.steady.finishing.trans hready.2.1) hmem ht hst rfl))
        have hresume := accountOf_resume (t := c) h hbankrupt ((hwake.base hp.base).moves hgo)
          ((interrupted_dispatch _ c).trans hint)
        rw [hs] at hresume
        exact hresume.trans haccount
    · cases hs
  | finishExec h =>
    rw [closesHandles] at hclose
    dsimp only at hs
    rw [hclose] at hs
    cases hs
  | requestInterrupt pid =>
    cases hs
    rw [cbKernelRequestInterrupt]
    split
    · rfl
    split
    · rfl
    split
    · rfl
    split
    · rfl
    split <;> rfl
  | setInterrupt c disposition =>
    dsimp only at hs
    split at hs
    · cases hs
      rw [cbTaskSetInterrupt]
      split
      · rfl
      split
      · rfl
      split <;> rfl
    · cases hs
  | mountCreate h =>
    cases hs
    rfl
  | mountPath c path m =>
    dsimp only at hs
    split at hs
    · cases hs
      rfl
    · cases hs
  | register h program =>
    rw [Option.some.injEq] at hs
    subst hs
    obtain ⟨v, heq⟩ := cbKernelRegister_vfs h k program
    rw [heq]
    rfl
  | boot h command =>
    rw [Option.some.injEq] at hs
    subst hs
    exact accountOf_cbKernelBoot h k command

theorem ledgerOf_dirCall {op : Op} (h : Host) (hop : op.handles = true) (hheap : op.heaps = false) :
    ledgerOf (perform h k t op).1 t = ledgerOf k t := by
  have hl := reserved_ledgerOf t t
  cases op with
  | opendir path =>
    dsimp only [perform]
    rw [apiOpendir]
    split
    · rfl
    dsimp only
    split
    · rfl
    split
    · exact ledgerOf_setDir _ t _ _
    · rfl
  | readdir descriptor nameSize =>
    dsimp only [perform]
    rw [apiReaddir]
    split
    · rfl
    split
    · rfl
    split
    · rfl
    split
    · rfl
    split
    · rfl
    · exact (hl.releaseNode _ _).trans (ledgerOf_setDir _ t _ _)
  | closedir descriptor =>
    dsimp only [perform]
    rw [apiClosedir]
    split
    · rfl
    · exact (hl.releaseNode _ _).trans ((hl.releaseNode _ _).trans (ledgerOf_setDir _ t _ _))
  | allocate | resize | release => cases hheap
  | _ => cases hop

/-- The ledger of a task changes by its own heap calls and when it ends or is replaced. -/
theorem ledgerOf_step {a : Action} (hp : Poised k l) (hz : Bankrupt k) (hs : step k a = some k')
    (hheap : heapStep a = true → k.current ≠ some t) (hclose : closesHandles k a ≠ some t) :
    ledgerOf k' t = ledgerOf k t := by
  by_cases hnew : creates a = true ∧ t = k.tasks.next
  · obtain ⟨hcreates, rfl⟩ := hnew
    have hfree : ledgerOf k k.tasks.next = [] := ledgerOf_none (Heap.get_next _)
    rw [hfree]
    unfold step at hs
    split at hs
    · cases hs
    cases a with
    | call h op =>
      cases op with
      | spawn programName argv envp actions =>
        cases hc : k.current with
        | none => simp [hc] at hs
        | some c =>
          simp only [hc, Option.some.injEq] at hs
          subst hs
          exact ((reserved_ledgerOf k.tasks.next c).deliver _).trans
            (ledgerOf_apiSpawn h k c programName argv envp actions)
      | _ => cases hcreates
    | boot h command =>
      rw [Option.some.injEq] at hs
      subst hs
      exact ledgerOf_cbKernelBoot h k command
    | _ => cases hcreates
  · cases hown : handlesOwn k t a with
    | true =>
      cases a with
      | call h op =>
        rw [handlesOwn, Bool.and_eq_true, decide_eq_true_eq] at hown
        have hquiet : op.heaps = false := by
          cases hop : op.heaps with
          | false => rfl
          | true => exact absurd hown.1 (hheap hop)
        unfold step at hs
        split at hs
        · cases hs
        simp only [hown.1, Option.some.injEq] at hs
        subst hs
        exact ((reserved_ledgerOf t t).deliver _).trans (ledgerOf_dirCall h hown.2 hquiet)
      | _ => cases hown
    | false =>
      rcases remains_step hs (fun hcreates heq => hnew ⟨hcreates, heq⟩) hown hclose with
        heq | ⟨⟨task, ht, hzombie⟩, hgone⟩
      · exact ledgerOf_of_ownOf heq
      · have hmem : t ∈ k.order := by
          rcases hp.base.roster.listed ht with hmem | hlimbo
          · exact hmem
          · cases hlimbo
        rw [ledgerOf_none hgone, hz.zombie hp.base hmem ht hzombie]

end CannedBsd
