import CannedBsd.Kernel.Reachable
import CannedBsd.Vfs.Rename

/-!
# Directory iteration

A handle keeps the entry it will return next. The entry stays a child of the handle's directory
unless `unlink`, `rmdir` or `rename` takes it out; these do not look at the handles, so the next
`readdir` returns the entry all the same.

* `ReachBy.fresh`: in a run that leaves the look-ahead entries alone, each is a child of the directory of its
  handle.
* `readdir_fresh`: in such a run `readdir` returns children of the directory only.
* `readdir_returns_removed`: without the condition it returns an entry that has been removed.
-/

namespace CannedBsd

open CannedBsd.Lib

variable {gone : NodeId → Prop} {k k' : Kernel} {fl fl' : Flight} {t : TaskId}

/-- The look-ahead entries of all handles are fresh, and none of them may go. -/
def Fresh (gone : NodeId → Prop) (k : Kernel) : Prop :=
  ∀ t task, k.task t = some task → ∀ d, FreshHandle k.vfs (task.directories d) ∧
    ∀ c, (task.directories d).inUse = true → (task.directories d).next = some c → ¬ gone c

namespace Fresh

/-- The handles and the file system stay. -/
theorem keep (h : Fresh gone k) (hv : k'.vfs = k.vfs)
    (hback : ∀ t task', k'.task t = some task' → ∃ task, k.task t = some task ∧
      task'.directories = task.directories) : Fresh gone k' := by
  intro t task' ht' d
  obtain ⟨task, ht, hd⟩ := hback t task' ht'
  rw [hv, hd]
  exact h t task ht d

theorem resting (h : Fresh gone k) (hv : k'.vfs = k.vfs) (hr : Resting k k') : Fresh gone k' := by
  refine h.keep hv fun t task' ht' => ?_
  obtain ⟨task, ht, hrest⟩ := hr.tasks ht'
  exact ⟨task, ht, congrArg Holdings.directories hrest.holdings⟩

theorem vfs {v : Vfs} {a : NodeId → ℕ} (h : Fresh gone k) (hb : Books k fl)
    (hm : VMove gone k.vfs fl.nodes v a) : Fresh gone { k with vfs := v } := by
  intro t task ht d
  obtain ⟨hfresh, hstay⟩ := h t task ht d
  refine ⟨fun c huse hnext => ?_, hstay⟩
  obtain ⟨dir, hdir, hp⟩ := hfresh c huse hnext
  exact ⟨dir, hdir, hm.parentOf_keep hb.vfs hp (hstay c huse hnext)⟩

theorem hold {task : Task} {f : Task → Task} (h : Fresh gone k) (ht : k.task t = some task)
    (hx : Exchange gone k.vfs fl fl' task (f task)) : Fresh gone (k.setTask t f) := by
  intro c task' hc d
  by_cases hct : c = t
  · subst hct
    rw [Kernel.task_setTask_self _ ht, Option.some.injEq] at hc
    subst hc
    rcases hx.directories d with heq | ⟨hfresh, hstay⟩
    · rw [heq]
      exact h c task ht d
    · exact ⟨hfresh (h c task ht d).1, hstay⟩
  · rw [Kernel.task_setTask_of_ne _ _ hct] at hc
    exact h c task' hc d

theorem micro (h : Fresh gone k) (hb : Base k fl) (hm : Micro gone k fl k' fl') : Fresh gone k' := by
  cases hm with
  | vfs hv => exact h.vfs hb.books hv
  | sched hs =>
    refine h.keep hs.pointers.vfs fun t task' ht' => ?_
    obtain ⟨task, ht, hold⟩ := hs.pointers.back ht'
    exact ⟨task, ht, congrArg Holdings.directories hold⟩
  | hold ht hx => exact h.hold ht hx
  | @create _ task a hl hn hs hroot hpid hst hfr hdirs hpend =>
    intro c task' hc d
    rw [Kernel.task, Heap.get_alloc] at hc
    split at hc
    · cases hc
      refine ⟨fun x huse => ?_, fun x huse => ?_⟩ <;>
      · rw [hdirs d] at huse
        cases huse
    · exact h c task' hc d
  | @destroy _ t task a hl hmem ht ha hs =>
    intro c task' hc d
    rw [Kernel.task, Heap.get_free] at hc
    split at hc
    · cases hc
    · exact h c task' hc d
  | leak => exact h
  | file => exact h
  | openFile => exact h
  | closeFile => exact h
  | openPipe => exact h
  | openWriter => exact h
  | closeReader => exact h.resting (Waiting.vfs_pipeClose _ _ _) ((resting_pipeClose _ _ _).after rfl rfl rfl rfl rfl)
  | closeWriter => exact h.resting (Waiting.vfs_pipeClose _ _ _) ((resting_pipeClose _ _ _).after rfl rfl rfl rfl rfl)
  | fetch => exact h.resting rfl ((Books.calm_cbWakePipeTasks _).rest.after rfl rfl rfl rfl rfl)
  | beginWrite => exact h
  | store => exact h.resting rfl ((Books.calm_cbWakePipeTasks _).rest.after rfl rfl rfl rfl rfl)
  | endWrite => exact h

theorem moves (h : Fresh gone k) (hb : Base k fl) (hm : Moves gone k fl k' fl') : Fresh gone k' := by
  induction hm with
  | refl => exact h
  | step hprev hs ih => exact ih.micro (hb.moves hprev) hs

end Fresh

/-- No node the step takes out of its directory is the look-ahead entry of a handle in use. -/
def FreshStep (k : Kernel) (a : Action) : Prop :=
  ∀ t task, k.task t = some task → ∀ d c, (task.directories d).inUse = true →
    (task.directories d).next = some c → ¬ stepRemoves k a c

theorem vfsOutcome_kernel (k : Kernel) (r : Vfs × Except Errno Unit) : (vfsOutcome k r).1 = { k with vfs := r.1 } := by
  obtain ⟨v, result⟩ := r
  cases result <;> rfl

/-- A rename keeps the look-ahead entries that stay in their directory. -/
theorem Fresh.rename {l : NodeId → ℕ} {h : Host} {oldPath newPath : Bytes} {task : Task} (hb : Base k (.rest l))
    (ht : k.task t = some task) (hf : Fresh (renamesAway h k.vfs (k.viewOf t) oldPath newPath) k) :
    Fresh noNode (deliver t (apiRename h k t oldPath newPath)) := by
  have hview : (k.viewOf t).root = some k.vfs.vfsRoot := by
    rw [viewOf_eq ht]
    exact hb.books.roots ht
  have hvfs : (deliver t (apiRename h k t oldPath newPath)).vfs =
      (cbVfsRenamePaths h k.vfs (k.viewOf t) oldPath newPath).1 := by
    rw [vfs_deliver, apiRename, vfsOutcome_kernel]
  intro c task' hc' d
  have hdirs := @field_deliver t _ Task.directories (apiRename h k t oldPath newPath) c (fun _ _ => rfl) (fun _ _ => rfl)
    fun _ _ _ _ => rfl
  have hsame : (apiRename h k t oldPath newPath).1.task c = k.task c := by
    rw [apiRename, vfsOutcome_kernel]
    rfl
  rw [hc', hsame, Option.map_some, eq_comm] at hdirs
  obtain ⟨old, hold, heq⟩ := Option.map_eq_some_iff.mp hdirs
  obtain ⟨hfresh, hstay⟩ := hf c old hold d
  rw [hvfs, ← heq]
  refine ⟨fun x huse hnext => ?_, fun _ _ _ hno => hno⟩
  obtain ⟨dir, hdir, hp⟩ := hfresh x huse hnext
  exact ⟨dir, hdir, cbVfsRenamePaths_parentOf ⟨hb.books.vfs, hb.books.root, hview⟩ hp (hstay x huse hnext)⟩

/-- Only a rename moves a node without taking it out of its directory. -/
theorem stirs_eq_removes {h : Host} {op : Op} (hop : ∀ oldPath newPath, op ≠ .rename oldPath newPath) :
    stirs h k t op = removes h k t op := by
  cases op with
  | rename oldPath newPath => exact absurd rfl (hop oldPath newPath)
  | _ => rfl

theorem Fresh.step {l l' : NodeId → ℕ} {a : Action} (hb : Base k (.rest l))
    (hm : Moves (stepStirs k a) k (.rest l) k' (.rest l')) (hs : step k a = some k') (hf : Fresh (stepRemoves k a) k) :
    Fresh noNode k' := by
  by_cases hsame : stepStirs k a = stepRemoves k a
  · rw [hsame] at hm
    have hend := hf.moves hb hm
    exact fun t task ht d => ⟨(hend t task ht d).1, fun _ _ _ hno => hno⟩
  · cases a with
    | call h op =>
      unfold CannedBsd.step at hs
      split at hs
      · cases hs
      cases hc : k.current with
      | none => simp [hc] at hs
      | some t =>
        simp only [hc, Option.some.injEq] at hs
        subst hs
        have hremoves : stepRemoves k (.call h op) = removes h k t op := by
          rw [stepRemoves]
          simp only [hc]
        have hstirs : stepStirs k (.call h op) = stirs h k t op := by
          rw [stepStirs]
          simp only [hc]
        rw [hremoves, hstirs] at hsame
        rw [hremoves] at hf
        obtain ⟨-, task, ht, -⟩ := hb.roster.current hc
        by_cases hop : ∃ oldPath newPath, op = .rename oldPath newPath
        · obtain ⟨oldPath, newPath, rfl⟩ := hop
          exact Fresh.rename hb ht hf
        · exact absurd (stirs_eq_removes fun oldPath newPath heq => hop ⟨oldPath, newPath, heq⟩) hsame
    | _ => exact absurd rfl hsame

/-- In a run whose steps leave the look-ahead entries alone, every look-ahead entry is a child of the
directory of its handle. -/
theorem ReachBy.fresh (hr : ReachBy FreshStep k) : (∃ l, Poised k l) ∧ Fresh noNode k := by
  obtain ⟨h, hr⟩ := hr
  refine hr.invariant (P := fun k => (∃ l, Poised k l) ∧ Fresh noNode k) ⟨⟨_, poised_cbKernelCreate h⟩, ?_⟩ ?_
  · intro t task ht
    have hnone : (cbKernelCreate h).task t = none := Heap.get_empty t
    rw [hnone] at ht
    cases ht
  · rintro k a k' hok hs ⟨⟨l, hp⟩, hf⟩
    have hb := hp.base
    obtain ⟨l', hm, hp', -⟩ := hp.step hs
    have hgo : Fresh (stepRemoves k a) k := by
      intro t task ht d
      exact ⟨(hf t task ht d).1, hok t task ht d⟩
    exact ⟨⟨l', hp'⟩, hgo.step hb hm hs⟩

/-- What `readdir` returned belongs to a child of the handle's directory. -/
def ReaddirFresh (h : Host) (k : Kernel) (t : TaskId) (descriptor : ℤ) (nameSize : ℕ) : Prop :=
  ∀ reply name inode type, (perform h k t (.readdir descriptor nameSize)).2 = .done reply (.entry name inode type) →
    name ≠ [] → ∃ d dir c node, dirSlot descriptor = some d ∧ (k.dir t d).inUse = true ∧
      (k.dir t d).node = some dir ∧ k.vfs.parentOf c = some dir ∧ k.vfs.node c = some node ∧
      node.name = name ∧ node.inode = inode

theorem apiReaddir_entry {descriptor : ℤ} {nameSize : ℕ} {reply : Reply} {name : Bytes} {inode : ℕ}
    {type : NodeType} (h : (apiReaddir k t descriptor nameSize).2 = .done reply (.entry name inode type))
    (hne : name ≠ []) :
    ∃ d c node, dirSlot descriptor = some d ∧ (k.dir t d).inUse = true ∧ (k.dir t d).next = some c ∧
      k.vfs.node c = some node ∧ node.name = name ∧ node.inode = inode := by
  rw [apiReaddir] at h
  split at h
  · cases h
  rename_i d hslot
  obtain ⟨hd, huse⟩ := Option.filter_eq_some_iff.mp hslot
  split at h
  · cases h
  split at h
  · cases h
    exact absurd rfl hne
  rename_i c hnext
  split at h
  · cases h
  rename_i node hn
  split at h
  · cases h
  cases h
  exact ⟨d, c, node, hd, huse, hnext, hn, rfl, rfl⟩

/-- **Iteration.**  In a run in which no look-ahead entry of a handle in use is taken out of its
directory, `readdir` returns children of the handle's directory only. -/
theorem readdir_fresh (hr : ReachBy FreshStep k) (hc : k.current = some t) (h : Host) (descriptor : ℤ)
    (nameSize : ℕ) : ReaddirFresh h k t descriptor nameSize := by
  obtain ⟨⟨l, hp⟩, hf⟩ := hr.fresh
  obtain ⟨-, task, ht, -⟩ := hp.base.roster.current hc
  intro reply name inode type hcall hne
  obtain ⟨d, c, node, hd, huse, hnext, hn, hname, hinode⟩ := apiReaddir_entry hcall hne
  rw [dir_eq ht] at huse hnext
  obtain ⟨dir, hdir, hp⟩ := (hf t task ht d).1 c huse hnext
  rw [← dir_eq ht] at huse hdir
  exact ⟨d, dir, c, node, hd, huse, hdir, hp, hn, hname, hinode⟩

/-- A run without removals meets the condition. -/
theorem freshStep_of_noNode {a : Action} (h : stepRemoves k a = noNode) : FreshStep k a := by
  intro t task _ d c _ _ hno
  rw [h] at hno
  exact hno

theorem stepRemoves_call {h : Host} {op : Op} (hop : ∀ t, removes h k t op = noNode) :
    stepRemoves k (.call h op) = noNode := by
  rw [stepRemoves]
  split
  · rfl
  · exact hop _

/-- The shell makes a directory after it has opened the root, and reads on. -/
theorem readdir_fresh_mkdir :
    ReaddirFresh .calm (stateAfter (shellStart ++ calls [.opendir [slash], .mkdir dPath 0])) 0 0 64 := by
  refine readdir_fresh (reachBy_stateAfter ?_) (by decide +kernel) .calm 0 64
  refine ⟨freshStep_of_noNode rfl, fun _ _ => ⟨freshStep_of_noNode rfl, fun _ _ =>
    ⟨freshStep_of_noNode rfl, fun _ _ => ⟨freshStep_of_noNode (stepRemoves_call fun _ => rfl), fun _ _ =>
      ⟨freshStep_of_noNode (stepRemoves_call fun _ => rfl), fun _ _ => trivial⟩⟩⟩⟩⟩

/-- The shell makes `/d`, opens the root and removes `/d` again. -/
def removedRun : Kernel :=
  stateAfter (shellStart ++ calls [.mkdir dPath 0, .opendir [slash], .rmdir dPath])

/-- `readdir` still returns `d`, which no child of the root has as its name. -/
theorem readdir_returns_removed : Reachable removedRun ∧ ¬ ReaddirFresh .calm removedRun 0 0 64 := by
  refine ⟨reachable_stateAfter _, fun hfresh => ?_⟩
  have hreply : (perform .calm removedRun 0 (.readdir 0 64)).2 = .done (.done 0) (.entry [100] 7 .directory) := by
    decide +kernel
  obtain ⟨d, dir, c, node, -, -, -, hp, hn, hname, -⟩ := hfresh _ _ _ _ hreply (by decide)
  have hbound : c < removedRun.vfs.nodes.next := Heap.lt_next_of_get hn
  have hnone : ∀ c < removedRun.vfs.nodes.next,
      (removedRun.vfs.node c).map Node.name = some [100] → removedRun.vfs.parentOf c = none := by
    decide +kernel
  rw [hnone c hbound (by rw [hn, Option.map_some, hname])] at hp
  cases hp

end CannedBsd
