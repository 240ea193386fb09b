import CannedBsd.Kernel.Reachable
import CannedBsd.Vfs.Walk

/-!
# Path arguments in reachable states

Three facts about the paths a task passes to the kernel: editing their text agrees with walking the
tree, `getcwd` prints what `chdir` was given, and an absolute path means the same for every task as
long as the working directories of the tasks can be printed.

* `reachable_lexical_walk`: a path whose physical walk succeeds is resolved to the node the walk reaches.
* `reachable_getcwd_chdir`: `getcwd` prints the normalized path that `chdir` was given.
* `absolute_paths_agree`: two tasks get the same results for all absolute paths exactly when their working
  directories have the same fault, or none.
* `absolute_path_depends_on_cwd`: in a removed working directory `stat` of the root fails.
-/

namespace CannedBsd

open CannedBsd.Lib

variable {gone : NodeId → Prop} {k k' : Kernel} {fl fl' : Flight} {t : TaskId}

/-! ### Mounts -/

theorem attached_micro (hb : Base k fl) (hm : Micro gone k fl k' fl') (hd : (attached k.vfs).Nodup) :
    (attached k'.vfs).Nodup := by
  cases hm with
  | vfs hv => exact hv.attached_nodup hb.books.vfs hd
  | sched hs => rwa [hs.pointers.vfs]
  | hold => exact hd
  | create => exact hd
  | destroy => exact hd
  | leak => exact hd
  | file => exact hd
  | openFile => exact hd
  | closeFile => exact hd
  | openPipe => exact hd
  | openWriter => exact hd
  | closeReader => rwa [pipeReadClose, Waiting.vfs_pipeClose]
  | closeWriter => rwa [pipeWriteClose, Waiting.vfs_pipeClose]
  | fetch => exact hd
  | beginWrite => exact hd
  | store => exact hd
  | endWrite => exact hd

theorem attached_moves (hb : Base k fl) (hm : Moves gone k fl k' fl') (hd : (attached k.vfs).Nodup) :
    (attached k'.vfs).Nodup := by
  induction hm with
  | refl => exact hd
  | step hprev hs ih => exact attached_micro (hb.moves hprev) hs ih

/-- In every reachable state the mounts form one tree under the kernel root. -/
theorem Reachable.mounted (hr : Reachable k) : Mounted k.vfs := by
  obtain ⟨h, hrun⟩ := id hr
  obtain ⟨l, hb⟩ := hr.base
  refine ⟨hb.books.vfs.tree, hb.books.root, ?_⟩
  have hinv : (∃ l, Poised k l) ∧ (attached k.vfs).Nodup := by
    refine hrun.invariant (P := fun k => (∃ l, Poised k l) ∧ (attached k.vfs).Nodup)
      ⟨⟨_, poised_cbKernelCreate h⟩, List.nodup_singleton _⟩ ?_
    rintro k a k' - hs ⟨⟨l, hp⟩, hd⟩
    obtain ⟨l', hm, hp', -⟩ := hp.step hs
    exact ⟨⟨l', hp'⟩, attached_moves hp.base hm hd⟩
  exact hinv.2

theorem Reachable.view_root {task : Task} (hr : Reachable k) (ht : k.task t = some task) :
    (k.viewOf t).root = some k.vfs.vfsRoot := by
  obtain ⟨l, hb⟩ := hr.base
  rw [viewOf_eq ht]
  exact hb.books.roots ht

/-! ### Editing and walking -/

/-- **Lexical resolution.**  For a task whose `getcwd` text leads to its working directory, a path
whose physical walk succeeds is resolved to the node the walk reaches. -/
theorem reachable_lexical_walk {task : Task} {cwd path text : Bytes} {n m : NodeId} (hr : Reachable k)
    (ht : k.task t = some task) (hcwd : task.cwd = some n)
    (hprint : cwdString k.vfs (k.viewOf t) cbPathMax = .ok cwd)
    (hself : resolveNormalized k.vfs (k.viewOf t) cwd = .ok n)
    (hwalk : physicalWalk k.vfs (k.viewOf t) path = some m)
    (hnorm : normalizeForTask k.vfs (k.viewOf t) path = .ok text) :
    resolveNormalized k.vfs (k.viewOf t) text = .ok m := by
  rw [normalizeForTask, hprint] at hnorm
  refine lexical_eq_physical hr.mounted (hr.view_root ht) ?_ hself hwalk hnorm
  rw [viewOf_eq ht]
  exact hcwd

/-- The shell stands in the directory `bin` of a file system mounted on `/d`. -/
def mountRun : Kernel :=
  stateAfter (shellStart ++ calls [.mkdir dPath 0] ++ [.mountCreate .calm, .mountPath 0 dPath 1] ++
    calls [.chdir (dPath ++ binDirectory)])

/-- The path `../..//tmp/.` leads out of the mount to `/tmp`. -/
theorem reachable_lexical_walk_mount :
    resolveNormalized mountRun.vfs (mountRun.viewOf 0) (slash :: tmpName) = .ok 2 := by
  have hlive : (mountRun.task 0).isSome = true := by decide +kernel
  obtain ⟨task, ht⟩ := Option.isSome_iff_exists.mp hlive
  have hcwd : (mountRun.viewOf 0).cwd = some 8 := by decide +kernel
  rw [viewOf_eq ht] at hcwd
  have hwalk : physicalWalk mountRun.vfs (mountRun.viewOf 0)
      ([dot, dot, slash, dot, dot, slash, slash] ++ tmpName ++ [slash, dot]) = some 2 := by decide +kernel
  have hprint : cwdString mountRun.vfs (mountRun.viewOf 0) cbPathMax = .ok (dPath ++ slash :: binName) := by
    decide +kernel
  exact reachable_lexical_walk (reachable_stateAfter _) ht hcwd hprint (by decide +kernel) hwalk (by decide +kernel)

/-! ### `chdir` and `getcwd` -/

theorem cwd_held {task : Task} {n : NodeId} (ht : k.task t = some task)
    (hcwd : task.cwd = some n) : 0 < k.holders n := by
  have hle : taskHold n task ≤ k.tasks.total (taskHold n) := Heap.le_total _ ht
  have hself : 0 < taskHold n task := by
    rw [taskHold, hcwd, pointsTo_self]
    omega
  rw [Kernel.holders]
  omega

/-- What a path leads to is still there after `chdir` has exchanged the reference to the working
directory. -/
theorem resolve_after_chdir {task : Task} {l : NodeId → ℕ} {n m root : NodeId} {cs : List Bytes} {node : Node}
    (hb : Base k (.rest l)) (ht : k.task t = some task) (hn : k.vfs.node n = some node)
    (hl : Links (cbVfsNodeRelease (ramfsNodeRetain k.vfs n) task.cwd))
    (hres : resolveFrom k.vfs root cs = .ok m) :
    resolveFrom (cbVfsNodeRelease (ramfsNodeRetain k.vfs n) task.cwd) root cs = .ok m ∧
      SameMounts k.vfs (cbVfsNodeRelease (ramfsNodeRetain k.vfs n) task.cwd) := by
  have hsound : Sound (ramfsNodeRetain k.vfs n) fun c =>
      k.holders c + l c + 0 + pointsTo (some n) c := hb.books.vfs.retain hn fun _ => rfl
  have hmount : SameMounts k.vfs (ramfsNodeRetain k.vfs n) := .setNode k.vfs n _
  have hres₁ : resolveFrom (ramfsNodeRetain k.vfs n) root cs = .ok m :=
    (keepsPlaces_retain k.vfs n).resolveFrom hmount hb.books.vfs.tree.links hsound.tree.links hres
  cases hcwd : task.cwd with
  | none => exact ⟨hres₁, hmount⟩
  | some old =>
    rw [hcwd] at hl
    have hheld := cwd_held ht hcwd
    obtain ⟨hkeep, hsame⟩ := keepsPlaces_release (n := old) hsound (by omega)
    exact ⟨hkeep.resolveFrom hsame hsound.tree.links hl hres₁, hmount.trans hsame⟩

theorem viewOf_deliver (r : Kernel × Outcome) : (deliver t r).viewOf t = r.1.viewOf t := by
  obtain ⟨k, outcome⟩ := r
  have hset : ∀ (k : Kernel) (f : Task → Task), (∀ task, (f task).view = task.view) →
      (k.setTask t f).viewOf t = k.viewOf t := by
    intro k f hf
    rw [Kernel.viewOf, Kernel.task_setTask, if_pos rfl, Kernel.viewOf]
    cases k.task t with
    | none => rfl
    | some task =>
      rw [Option.map_some, Option.map_some, Option.map_some, hf]
  cases outcome with
  | done reply out =>
    rw [deliver]
    refine (hset _ (fun task => { task with frame := .program }) fun _ => rfl).trans ?_
    cases reply.error with
    | none => rfl
    | some e => exact hset k (fun task => { task with errorCell := e }) fun _ => rfl
  | block state frame =>
    exact hset k (fun task => { task with wakeReason := .none, state := state, frame := frame }) fun _ => rfl
  | gone => rfl

/-- What a successful `chdir` has looked up and left behind. -/
theorem apiChdir_ok {path : Bytes} {task : Task} (ht : k.task t = some task)
    (h : (apiChdir k t path).2 = .value 0) :
    ∃ n, lookupDirectory k.vfs (k.viewOf t) path = .ok n ∧
      (apiChdir k t path).1.vfs = cbVfsNodeRelease (ramfsNodeRetain k.vfs n) task.cwd ∧
      (apiChdir k t path).1.viewOf t = ⟨task.root, some n⟩ := by
  rw [apiChdir] at h ⊢
  cases hlook : lookupDirectory k.vfs (k.viewOf t) path with
  | error e =>
    rw [hlook] at h
    cases h
  | ok n =>
    refine ⟨n, rfl, ?_, ?_⟩
    · dsimp only
      rw [viewOf_eq ht]
      rfl
    · have hset : ((retainNode k (some n)).setTask t fun task => { task with cwd := some n }).task t =
          some { task with cwd := some n } := Kernel.task_setTask_self _ ht
      have hrelease : ∀ (k : Kernel) (o : Option NodeId), (releaseNode k o).viewOf t = k.viewOf t := fun _ _ => rfl
      dsimp only
      rw [hrelease, viewOf_eq hset]
      rfl

theorem lookupDirectory_ok {v : Vfs} {view : View} {path : Bytes} {n : NodeId}
    (h : lookupDirectory v view path = .ok n) : cbVfsLookupNode v view path = .ok n := by
  rw [lookupDirectory] at h
  cases hl : cbVfsLookupNode v view path with
  | error e => simp [hl] at h
  | ok n' =>
    simp only [hl] at h
    cases hs : ramfsStat v n' with
    | error e => simp [hs] at h
    | ok status =>
      simp only [hs] at h
      obtain ⟨-, h⟩ := ok_of_guard h
      exact h

theorem cbVfsLookupNode_ok {v : Vfs} {view : View} {path : Bytes} {n : NodeId}
    (h : cbVfsLookupNode v view path = .ok n) :
    ∃ cwd text, cwdString v view cbPathMax = .ok cwd ∧ cbTestPathNormalize cwd path cbPathMax = .ok text ∧
      resolveNormalized v view text = .ok n := by
  rw [cbVfsLookupNode, normalizeForTask] at h
  cases hc : cwdString v view cbPathMax with
  | error e => simp [hc] at h
  | ok cwd =>
    simp only [hc] at h
    cases ht : cbTestPathNormalize cwd path cbPathMax with
    | error e => simp [ht] at h
    | ok text =>
      simp only [ht] at h
      exact ⟨cwd, text, rfl, ht, h⟩

/-- The answers `getcwd` may give when the text is known. -/
theorem apiGetcwd_eq {text : Bytes} {size : ℕ} (hsize : 0 < size)
    (h : cwdString k.vfs (k.viewOf t) size = if text.length < size then .ok text else .error .enametoolong) :
    apiGetcwd k t size = if text.length < size then .done ⟨1, text, some 0⟩ .none
      else .done ⟨0, [], some Errno.enametoolong.code⟩ .none := by
  rw [apiGetcwd, if_neg (Nat.ne_of_gt hsize), h]
  by_cases hfit : text.length < size
  · rw [if_pos hfit, if_pos hfit]
  · rw [if_neg hfit, if_neg hfit]

/-- **`getcwd` inverts `chdir`.**  After a successful `chdir`, `getcwd` prints the normalized path,
which leads to the new working directory; a smaller buffer gets the same text or an error, and is
never exceeded. -/
theorem reachable_getcwd_chdir {h h' : Host} {path : Bytes} (hr : Reachable k) (hc : k.current = some t)
    (hs : step k (.call h (.chdir path)) = some k') (hok : (perform h k t (.chdir path)).2 = .value 0) :
    ∃ cwd text n, cwdString k.vfs (k.viewOf t) cbPathMax = .ok cwd ∧
      cbTestPathNormalize cwd path cbPathMax = .ok text ∧ (k'.viewOf t).cwd = some n ∧
      resolveNormalized k'.vfs (k'.viewOf t) text = .ok n ∧
      (perform h' k' t (.getcwd cbPathMax)).2 = .done ⟨1, text, some 0⟩ .none ∧
      ∀ size, 0 < size →
        ((perform h' k' t (.getcwd size)).2 = .done ⟨1, text, some 0⟩ .none ∨
          (perform h' k' t (.getcwd size)).2 = .done ⟨0, [], some Errno.enametoolong.code⟩ .none) ∧
        cwdExtent k'.vfs (k'.viewOf t) size ≤ size := by
  have hr' : Reachable k' := by
    obtain ⟨h₀, hrun⟩ := hr
    exact ⟨h₀, hrun.step trivial hs⟩
  obtain ⟨l, hb⟩ := hr.base
  obtain ⟨-, task, ht, -⟩ := hb.roster.current hc
  have heq : k' = deliver t (apiChdir k t path) := by
    rw [step] at hs
    split at hs
    · cases hs
    · rw [hc] at hs
      exact (Option.some.inj hs).symm
  obtain ⟨n, hlook, hvfs, hview⟩ := apiChdir_ok ht hok
  obtain ⟨cwd, text, hcwd, hnorm, hres⟩ := cbVfsLookupNode_ok (lookupDirectory_ok hlook)
  have hroot := hr.view_root ht
  have hmounted := hr'.mounted
  have hvfs' : k'.vfs = cbVfsNodeRelease (ramfsNodeRetain k.vfs n) task.cwd := by rw [heq, vfs_deliver, hvfs]
  have hview' : k'.viewOf t = ⟨task.root, some n⟩ := by rw [heq, viewOf_deliver, hview]
  -- the components of the text lead to the directory before and after the call
  have htext := normalize_eq_render hnorm
  obtain ⟨hdepth, hlength⟩ := normalize_bounded hnorm
  rw [htext, resolveNormalized_render k.vfs hroot (keptComponents_good cwd path)] at hres
  have hunder : Unparked k t := .of_current hb hc
  obtain ⟨node, hnode, -⟩ := lookupDirectory_rooted (hb.resolves hunder) hlook
  obtain ⟨hres', hsame⟩ := resolve_after_chdir hb ht hnode (hvfs' ▸ hmounted.tree.links) hres
  rw [← hvfs'] at hres' hsame
  have hroot' : (k'.viewOf t).root = some k'.vfs.vfsRoot := by
    rw [hview', hsame.vfsRoot]
    rw [viewOf_eq ht] at hroot
    exact hroot
  have hcwd' : (k'.viewOf t).cwd = some n := by rw [hview']
  have hres'' : resolveFrom k'.vfs k'.vfs.vfsRoot (keptComponents cwd path) = .ok n := by rwa [hsame.vfsRoot]
  have hprint := cwdString_of_resolve hmounted hroot' hcwd' hres'' hdepth
  rw [← htext] at hprint hlength
  refine ⟨cwd, text, n, hcwd, hnorm, hcwd', ?_, ?_, fun size hsize => ⟨?_, cwdExtent_le _ _ _⟩⟩
  · rw [htext, resolveNormalized_render k'.vfs hroot' (keptComponents_good cwd path)]
    exact hres''
  · exact (apiGetcwd_eq (by decide) (hprint cbPathMax)).trans (if_pos hlength)
  · by_cases hfit : text.length < size
    · exact .inl ((apiGetcwd_eq hsize (hprint size)).trans (if_pos hfit))
    · exact .inr ((apiGetcwd_eq hsize (hprint size)).trans (if_neg hfit))

/-- The shell before it enters the mounted file system. -/
def beforeChdir : Kernel :=
  stateAfter (shellStart ++ calls [.mkdir dPath 0] ++ [.mountCreate .calm, .mountPath 0 dPath 1])

theorem reachable_getcwd_chdir_mount :
    ∃ k' text, step beforeChdir (.call .calm (.chdir (dPath ++ binDirectory))) = some k' ∧
      (perform .calm k' 0 (.getcwd cbPathMax)).2 = .done ⟨1, text, some 0⟩ .none := by
  have hpossible : (step beforeChdir (.call .calm (.chdir (dPath ++ binDirectory)))).isSome = true := by
    decide +kernel
  obtain ⟨k', hs⟩ := Option.isSome_iff_exists.mp hpossible
  have hr : Reachable beforeChdir := reachable_stateAfter _
  have hc : beforeChdir.current = some 0 := by decide +kernel
  obtain ⟨cwd, text, n, -, -, -, -, hprint, -⟩ :
      ∃ cwd text n, _ ∧ _ ∧ _ ∧ _ ∧ (perform .calm k' 0 (.getcwd cbPathMax)).2 = .done ⟨1, text, some 0⟩ .none ∧ _ :=
    reachable_getcwd_chdir hr hc hs (by decide +kernel)
  exact ⟨k', text, hs, hprint⟩

/-! ### Absolute paths -/

/-- Why the working directory cannot be printed, if it cannot. -/
def cwdFault (v : Vfs) (view : View) : Option Errno :=
  match cwdString v view cbPathMax with
  | .error e => some e
  | .ok _ => none

/-- The calls on absolute paths give the same results and error codes for both views. `chdir` and
`opendir` look up the same directory. -/
def AbsoluteAgree (k : Kernel) (a b : View) : Prop :=
  ∀ (h : Host) (path : Bytes) (flags : OpenFlags) (mode : ℕ) (length : ℤ), path.head? = some slash →
    cbVfsStatPath k.vfs a path = cbVfsStatPath k.vfs b path ∧
    cbVfsOpen h k a path flags mode = cbVfsOpen h k b path flags mode ∧
    lookupDirectory k.vfs a path = lookupDirectory k.vfs b path ∧
    cbVfsMkdirPath h k.vfs a path mode = cbVfsMkdirPath h k.vfs b path mode ∧
    cbVfsUnlinkPath k.vfs a path = cbVfsUnlinkPath k.vfs b path ∧
    cbVfsRmdirPath k.vfs a path = cbVfsRmdirPath k.vfs b path ∧
    cbVfsTruncatePath h k.vfs a path length = cbVfsTruncatePath h k.vfs b path length ∧
    resolveExecutableNode k.vfs a path = resolveExecutableNode k.vfs b path

/-- The printed working directory begins with a slash. -/
theorem cwdString_head {v : Vfs} {view : View} {size : ℕ} {text : Bytes} (h : cwdString v view size = .ok text) :
    text.head? = some slash := by
  have hgrow : ∀ (ps : List NodeId) (buffer : Bytes), buffer.head? = some slash →
      renderParts v size buffer ps = .ok text → text.head? = some slash := by
    intro ps
    induction ps with
    | nil =>
      intro buffer hb hr
      cases hr
      exact hb
    | cons p rest ih =>
      intro buffer hb hr
      rw [renderParts] at hr
      split at hr
      · cases hr
      obtain ⟨-, hr⟩ := ok_of_guard hr
      refine ih _ ?_ hr
      rw [List.append_assoc, List.head?_append, hb]
      rfl
  rw [cwdString] at h
  split at h
  · cases h
  obtain ⟨-, h⟩ := ok_of_guard h
  exact hgrow _ _ rfl h

/-- For an absolute path only the fault of the working directory matters. -/
theorem normalizeForTask_absolute {v : Vfs} {view : View} {path : Bytes} (hpath : path.head? = some slash) :
    normalizeForTask v view path =
      match cwdFault v view with
      | some e => .error e
      | none => cbTestPathNormalize [slash] path cbPathMax := by
  rw [normalizeForTask, cwdFault]
  cases hc : cwdString v view cbPathMax with
  | error e => rfl
  | ok cwd =>
    dsimp only
    have hinput : absoluteInput cwd path = absoluteInput [slash] path := by
      rw [absoluteInput, absoluteInput, if_pos hpath, if_pos hpath]
    rw [cbTestPathNormalize, cbTestPathNormalize, hinput, cwdString_head hc]
    rfl

theorem absoluteAgree_of_fault {a b : View} (hroot : a.root = b.root) (hfault : cwdFault k.vfs a = cwdFault k.vfs b) :
    AbsoluteAgree k a b := by
  intro h path flags mode length hpath
  have hnorm : normalizeForTask k.vfs a path = normalizeForTask k.vfs b path := by
    rw [normalizeForTask_absolute hpath, normalizeForTask_absolute hpath, hfault]
  have hres : resolveNormalized k.vfs a = resolveNormalized k.vfs b := by
    funext text
    rw [resolveNormalized, resolveNormalized, hroot]
  have hparent : resolveParent k.vfs a = resolveParent k.vfs b := by
    funext text
    rw [resolveParent, resolveParent, hres]
  have hcreate : createAt h k.vfs a = createAt h k.vfs b := by
    funext text type mode
    rw [createAt, createAt, hparent]
  have hlook : cbVfsLookupNode k.vfs a path = cbVfsLookupNode k.vfs b path := by
    rw [cbVfsLookupNode, cbVfsLookupNode, hnorm, hres]
  refine ⟨?_, ?_, ?_, ?_, ?_, ?_, ?_, ?_⟩
  · rw [cbVfsStatPath, cbVfsStatPath, hlook]
  · rw [cbVfsOpen, cbVfsOpen, hnorm, hres, hcreate]
  · rw [lookupDirectory, lookupDirectory, hlook]
  · rw [cbVfsMkdirPath, cbVfsMkdirPath, hnorm, hres, hcreate]
  · rw [cbVfsUnlinkPath, removePath, removePath, hlook]
  · rw [cbVfsRmdirPath, removePath, removePath, hlook]
  · rw [cbVfsTruncatePath, cbVfsTruncatePath, hlook]
  · have hslash : slash ∈ path := List.mem_of_mem_head? hpath
    rw [resolveExecutableNode, resolveExecutableNode, if_pos hslash, hlook]

/-- `stat("/")` fails exactly with the fault of the working directory. -/
theorem stat_root_fault {view : View} (hm : Mounted k.vfs) (hroot : view.root = some k.vfs.vfsRoot) :
    (∃ status, cbVfsStatPath k.vfs view [slash] = .ok status) ∧ cwdFault k.vfs view = none ∨
      ∃ e, cbVfsStatPath k.vfs view [slash] = .error e ∧ cwdFault k.vfs view = some e := by
  have hnorm : normalizeForTask k.vfs view [slash] = _ := normalizeForTask_absolute rfl
  rw [cbVfsStatPath, cbVfsLookupNode, hnorm]
  cases hf : cwdFault k.vfs view with
  | some e => exact .inr ⟨e, rfl, rfl⟩
  | none =>
    refine .inl ⟨?_, rfl⟩
    have hslash : cbTestPathNormalize [slash] [slash] cbPathMax = .ok [slash] := by decide
    obtain ⟨node, hn, -⟩ := hm.tree.roots hm.root
    have hres : resolveNormalized k.vfs view [slash] = .ok k.vfs.vfsRoot := by
      rw [resolveNormalized, hroot]
      rfl
    dsimp only
    rw [hslash]
    dsimp only
    rw [hres]
    dsimp only
    rw [ramfsStat, hn]
    exact ⟨_, rfl⟩

/-- **Absolute paths.**  Two tasks get the same results for all absolute paths exactly when their
working directories have the same fault, or none. -/
theorem absolute_paths_agree {t' : TaskId} {a b : Task} (hr : Reachable k) (ha : k.task t = some a)
    (hb : k.task t' = some b) (hroot : a.root = b.root) :
    AbsoluteAgree k a.view b.view ↔ cwdFault k.vfs a.view = cwdFault k.vfs b.view := by
  constructor
  · intro hagree
    have hra := hr.view_root ha
    have hrb := hr.view_root hb
    rw [viewOf_eq ha] at hra
    rw [viewOf_eq hb] at hrb
    have hstat := (hagree .calm [slash] readFlags 0 0 rfl).1
    rcases stat_root_fault hr.mounted hra with ⟨⟨status, hs⟩, hfa⟩ | ⟨e, hs, hfa⟩ <;>
      rcases stat_root_fault hr.mounted hrb with ⟨⟨status', hs'⟩, hfb⟩ | ⟨e', hs', hfb⟩
    · rw [hfa, hfb]
    · rw [hs, hs'] at hstat
      cases hstat
    · rw [hs, hs'] at hstat
      cases hstat
    · rw [hs, hs', Except.error.injEq] at hstat
      rw [hfa, hfb, hstat]
  · exact absoluteAgree_of_fault hroot

/-- The shell has a child, which is another shell in `/`. -/
def twoShells : List Action := shellStart ++ calls [.mkdir dPath 0, .spawn shName [shName] none [], .chdir dPath]

theorem two_tasks {k : Kernel} (h : (k.task 0).isSome = true ∧ (k.task 1).isSome = true) :
    ∃ a b, k.task 0 = some a ∧ k.task 1 = some b := by
  obtain ⟨a, ha⟩ := Option.isSome_iff_exists.mp h.1
  obtain ⟨b, hb⟩ := Option.isSome_iff_exists.mp h.2
  exact ⟨a, b, ha, hb⟩

/-- The two shells stand in different directories, and absolute paths agree. -/
theorem absolute_paths_agree_twoShells :
    AbsoluteAgree (stateAfter twoShells) ((stateAfter twoShells).viewOf 0) ((stateAfter twoShells).viewOf 1) := by
  obtain ⟨a, b, ha, hb⟩ := two_tasks (k := stateAfter twoShells) (by decide +kernel)
  have hroot : ((stateAfter twoShells).viewOf 0).root = ((stateAfter twoShells).viewOf 1).root := by
    decide +kernel
  have hfault : cwdFault (stateAfter twoShells).vfs ((stateAfter twoShells).viewOf 0) =
      cwdFault (stateAfter twoShells).vfs ((stateAfter twoShells).viewOf 1) := by decide +kernel
  rw [viewOf_eq ha, viewOf_eq hb] at hroot hfault ⊢
  exact (absolute_paths_agree (reachable_stateAfter _) ha hb hroot).mpr hfault

/-- The parent's working directory is removed: `stat("/")` fails for it and not for its child. -/
theorem absolute_path_depends_on_cwd :
    Reachable (stateAfter (twoShells ++ calls [.rmdir dPath])) ∧
      ((stateAfter (twoShells ++ calls [.rmdir dPath])).viewOf 0).root =
        ((stateAfter (twoShells ++ calls [.rmdir dPath])).viewOf 1).root ∧
      ¬ AbsoluteAgree (stateAfter (twoShells ++ calls [.rmdir dPath]))
        ((stateAfter (twoShells ++ calls [.rmdir dPath])).viewOf 0)
        ((stateAfter (twoShells ++ calls [.rmdir dPath])).viewOf 1) := by
  refine ⟨reachable_stateAfter _, by decide +kernel, fun hagree => ?_⟩
  have hstat := (hagree .calm [slash] readFlags 0 0 rfl).1
  revert hstat
  decide +kernel

end CannedBsd
