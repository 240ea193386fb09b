import CannedBsd.Kernel.Spawning

/-!
# Calls that return at once

The calls on descriptors, paths and directory handles never suspend the task. Each is a path of
elementary steps that starts and ends with the same hands.

* `Base.resolves`: path resolution works for every task.
* `apiOpen_returns`, `apiRename_returns`, `apiReaddir_returns` and the others: each call returns with the
  hands it started with.
-/

namespace CannedBsd

open CannedBsd.Lib

variable {gone : NodeId → Prop} {k k' : Kernel} {fl : Flight} {t : TaskId}

/-- The call returns, and it is a path. -/
structure Returns (gone : NodeId → Prop) (k : Kernel) (fl : Flight) (r : Kernel × Outcome) : Prop where
  path : Path gone k fl r.1 fl
  done : ∃ reply out, r.2 = .done reply out

theorem Returns.same (k : Kernel) (fl : Flight) (reply : Reply) (out : Out) :
    Returns gone k fl (k, .done reply out) := ⟨.refl k fl, reply, out, rfl⟩

theorem Path.returns (h : Path gone k fl k' fl) (reply : Reply) (out : Out) :
    Returns gone k fl (k', .done reply out) := ⟨h, reply, out, rfl⟩

/-! ### Contents of files -/

/-- An open file moves its offset. -/
theorem setOffset_path {f : FileId} {file file' : OpenFile} (hb : Base k fl) (hf : k.files.get f = some file)
    (hface : file' = { file with offset := file'.offset }) :
    Path gone k fl (k.setFile f fun _ => file') fl := by
  have hpos := (hb.books.files hf).2
  have href : file'.references = file.references := by rw [hface]
  have hobj : file'.object = file.object := by rw [hface]
  have hflags : file'.flags = file.flags := by rw [hface]
  refine .single (.file (b := fl.files) hf hobj hflags ?_ ?_ fun _ _ => rfl) (.of_tasks rfl rfl rfl rfl rfl)
  · rw [href]
    exact hpos
  · rw [href]

theorem setContent_path {n : NodeId} {node node' : Node} (hn : k.vfs.node n = some node)
    (hf : node'.fixed = node.fixed) :
    Path gone k fl { k with vfs := k.vfs.setNode n fun _ => node' } fl :=
  .vfs (.single (.content hn hf))

theorem nodeRead_file (h : Host) (file : OpenFile) (node : Node) (count : ℕ) :
    (nodeRead h file node count).1 = { file with offset := (nodeRead h file node count).1.offset } := by
  rw [nodeRead]
  split
  · rfl
  split
  · rfl
  split
  · rfl
  split <;> rfl

theorem aimed_file (file : OpenFile) (node : Node) :
    aimed file node = { file with offset := (aimed file node).offset } := by
  rw [aimed]
  by_cases ha : file.flags.append = true
  · rw [if_pos ha]
  · rw [if_neg ha]

theorem nodeWrite_file (h : Host) (file : OpenFile) (node : Node) (buffer : Bytes) :
    (nodeWrite h file node buffer).1 = { file with offset := (nodeWrite h file node buffer).1.offset } := by
  rw [nodeWrite]
  split
  · rfl
  split
  · rfl
  split
  · rfl
  dsimp only
  rw [aimed_file]
  split
  · rfl
  split <;> rfl

theorem nodeLseek_file (file : OpenFile) (node : Node) (offset : ℤ) (whence : Whence) :
    (nodeLseek file node offset whence).1 =
      { file with offset := (nodeLseek file node offset whence).1.offset } := by
  unfold nodeLseek
  dsimp only
  split
  · rfl
  split
  · rfl
  split <;> rfl

theorem apiLseek_returns (descriptor offset : ℤ) (whence : Whence) (hb : Base k fl) :
    Returns gone k fl (apiLseek k t descriptor offset whence) := by
  rw [apiLseek]
  split
  · exact .same k fl _ _
  · rename_i f file hfile
    obtain ⟨-, -, -, -, -, hf⟩ := slot_of_fileOf hfile
    split
    · split
      · exact .same k fl _ _
      · exact (setOffset_path hb hf (nodeLseek_file file _ offset whence)).returns _ _
    · exact .same k fl _ _

theorem apiFtruncate_returns (h : Host) (descriptor length : ℤ) :
    Returns gone k fl (apiFtruncate h k t descriptor length) := by
  rw [apiFtruncate]
  split
  · exact .same k fl _ _
  split
  · exact .same k fl _ _
  split
  · split
    · exact .same k fl _ _
    · rename_i node hn
      exact (setContent_path hn (fixed_nodeTruncate h _ node length)).returns _ _
  · exact .same k fl _ _

/-! ### Descriptors -/

theorem apiClose_returns (descriptor : ℤ) (hb : Base k fl) (hu : Unparked k t) :
    Returns gone k fl (apiClose k t descriptor) := by
  rw [apiClose]
  split
  · exact .same k fl _ _
  · exact (fdCloseSlot_path hb hu).returns _ _

theorem apiDup2_returns (oldDescriptor newDescriptor : ℤ) (hb : Base k fl) (hu : Unparked k t) :
    Returns gone k fl (apiDup2 k t oldDescriptor newDescriptor) := by
  rw [apiDup2]
  split
  · rename_i f file d hfile hd
    obtain ⟨d₀, entry, hd₀, hslot, hf, -⟩ := slot_of_fileOf hfile
    split
    · exact .same k fl _ _
    · rename_i hne
      exact (fdInstallAt_path hb hu hslot hf (fdSlot_ne hd₀ hd hne)).returns _ _
  · exact .same k fl _ _

theorem apiSetCloexec_returns (descriptor : ℤ) (enabled : Bool) (hu : Unparked k t) :
    Returns gone k fl (apiSetCloexec k t descriptor enabled) := by
  obtain ⟨task, ht, -⟩ := id hu
  rw [apiSetCloexec]
  split
  · exact .same k fl _ _
  · rename_i d entry hslot
    obtain ⟨d', -, hmap⟩ := Option.bind_eq_some_iff.mp hslot
    obtain ⟨entry', hs, heq⟩ := Option.map_eq_some_iff.mp hmap
    cases heq
    have hset : Path gone k fl (k.setSlot t d (some { entry with closeOnExec := enabled })) fl :=
      setSlot_same ht hu ((slot_eq ht).symm.trans hs) rfl
    exact hset.returns _ _

/-- Installing the open file the call holds, or giving it back. -/
theorem fdInstall_cases {f : FileId} (hb : Base k (fl.addFile (some f))) (hu : Unparked k t) :
    (∃ k' d, fdInstall k t f = (k', some d) ∧ Path gone k (fl.addFile (some f)) k' fl) ∨
      ∃ k', fdInstall k t f = (k', none) ∧ Path gone k (fl.addFile (some f)) k' (fl.addFile (some f)) ∧
        Path gone k (fl.addFile (some f)) (cbOpenFileRelease k' f) fl := by
  have hinstall : Path gone k (fl.addFile (some f)) _ _ := fdInstall_path hu
  cases heq : fdInstall k t f with
  | mk k' o =>
    rw [heq] at hinstall
    cases o with
    | some d => exact .inl ⟨k', d, rfl, hinstall⟩
    | none =>
      exact .inr ⟨k', rfl, hinstall, hinstall.trans (cbOpenFileRelease_path (hinstall.base hb))⟩

theorem apiDup_returns (descriptor : ℤ) (hb : Base k fl) (hu : Unparked k t) :
    Returns gone k fl (apiDup k t descriptor) := by
  rw [apiDup]
  split
  · exact .same k fl _ _
  · rename_i f file hfile
    obtain ⟨-, -, -, -, -, hf⟩ := slot_of_fileOf hfile
    have hretain : Path gone k fl (cbOpenFileRetain k f) (fl.addFile (some f)) := cbOpenFileRetain_path hf
    obtain ⟨k', d, heq, hpath⟩ | ⟨k', heq, -, hpath⟩ :
        (∃ k' d, _ ∧ Path gone (cbOpenFileRetain k f) _ k' fl) ∨ _ :=
      fdInstall_cases (hretain.base hb) (hu.steady hretain.steady)
    · rw [heq]
      exact (hretain.trans hpath).returns _ _
    · rw [heq]
      exact (hretain.trans hpath).returns _ _

/-! ### New pipes -/

theorem apiPipe_returns (h : Host) (hb : Base k fl) (hu : Unparked k t) :
    Returns gone k fl (apiPipe h k t) := by
  rw [apiPipe]
  split
  · exact .same k fl _ _
  dsimp only [cbOpenFileCreate]
  set p := k.pipes.next
  set reader := k.files.next
  set k₁ : Kernel :=
    { k with
      pipes := k.pipes.alloc freshPipe
      files := k.files.alloc ⟨1, readFlags, 0, .pipeRead p⟩ } with hk₁
  have hread : Path gone k fl k₁ (fl.addFile (some reader)) :=
    .single (.openPipe fun _ => rfl) (.of_tasks rfl rfl rfl rfl rfl)
  split
  · exact (hread.trans (cbOpenFileRelease_path (hread.base hb))).returns _ _
  set writer := k₁.files.next
  set k₂ : Kernel := { k₁ with files := k₁.files.alloc ⟨1, writeFlags, 0, .pipeWrite p⟩ }.setPipe p
    fun pipe => { pipe with writers := 1 }
  have hwrite : Path gone k₁ (fl.addFile (some reader)) k₂ ((fl.addFile (some reader)).addFile (some writer)) :=
    .single (.openWriter (Heap.get_alloc_self _ _) rfl fun _ => rfl) (.of_tasks rfl rfl rfl rfl rfl)
  have hboth := hread.trans hwrite
  rw [Flight.addFile_comm] at hboth
  have hb₂ := hboth.base hb
  have hu₂ := hu.steady hboth.steady
  obtain ⟨k₃, r, heq, hpath⟩ | ⟨k₃, heq, -, hpath⟩ :
      (∃ k₃ r, _ ∧ Path gone k₂ _ k₃ (fl.addFile (some writer))) ∨ _ := fdInstall_cases hb₂ hu₂
  · rw [heq]
    dsimp only
    have h₃ := hboth.trans hpath
    obtain ⟨k₄, w, heq', hpath'⟩ | ⟨k₄, heq', hkeep, -⟩ :
        (∃ k₄ w, _ ∧ Path gone k₃ _ k₄ fl) ∨ _ := fdInstall_cases (h₃.base hb) (hu.steady h₃.steady)
    · rw [heq']
      exact (h₃.trans hpath').returns _ _
    · rw [heq']
      have h₄ := h₃.trans hkeep
      have hclose : Path gone k₄ (fl.addFile (some writer)) (fdCloseSlot k₄ t r) (fl.addFile (some writer)) :=
        fdCloseSlot_path (h₄.base hb) (hu.steady h₄.steady)
      have h₅ := h₄.trans hclose
      exact (h₅.trans (cbOpenFileRelease_path (h₅.base hb))).returns _ _
  · rw [heq]
    have h₃ := hboth.trans hpath
    exact (h₃.trans (cbOpenFileRelease_path (h₃.base hb))).returns _ _

/-! ### Paths -/

theorem viewOf_eq {task : Task} (ht : k.task t = some task) : k.viewOf t = task.view := by
  rw [Kernel.viewOf, ht]
  rfl

/-- Path resolution works for every task. -/
theorem Base.resolves (hb : Base k fl) (hu : Unparked k t) :
    Resolves k.vfs (fun n => k.holders n + fl.leaked n + fl.nodes n) (k.viewOf t) := by
  obtain ⟨task, ht, -⟩ := hu
  refine ⟨hb.books.vfs, hb.books.root, ?_⟩
  rw [viewOf_eq ht]
  exact hb.books.roots ht

theorem vfsOutcome_returns {r : Vfs × Except Errno Unit} (h : VMoves gone k.vfs fl.nodes r.1 fl.nodes) :
    Returns gone k fl (vfsOutcome k r) := by
  obtain ⟨v, o⟩ := r
  cases o with
  | error e => exact (Path.vfs h).returns _ _
  | ok u => exact (Path.vfs h).returns _ _

theorem apiMkdir_returns (h : Host) (path : Bytes) (mode : ℕ) (hb : Base k fl) (hu : Unparked k t) :
    Returns gone k fl (apiMkdir h k t path mode) :=
  vfsOutcome_returns (cbVfsMkdirPath_moves h mode (hb.resolves hu))

theorem apiTruncate_returns (h : Host) (path : Bytes) (length : ℤ) :
    Returns gone k fl (apiTruncate h k t path length) :=
  vfsOutcome_returns (cbVfsTruncatePath_moves h length)

theorem apiUnlink_returns (path : Bytes) (hb : Base k fl) :
    Returns (unlinks k.vfs (k.viewOf t) path) k fl (apiUnlink k t path) :=
  vfsOutcome_returns (cbVfsUnlinkPath_moves hb.books.vfs)

theorem apiRmdir_returns (path : Bytes) (hb : Base k fl) :
    Returns (rmdirs k.vfs (k.viewOf t) path) k fl (apiRmdir k t path) :=
  vfsOutcome_returns (cbVfsRmdirPath_moves hb.books.vfs)

theorem apiRename_returns (h : Host) (oldPath newPath : Bytes) (hb : Base k fl) (hu : Unparked k t) :
    Returns (renameStirs h k.vfs (k.viewOf t) oldPath newPath) k fl (apiRename h k t oldPath newPath) :=
  vfsOutcome_returns (cbVfsRenamePaths_moves (hb.resolves hu))

/-- A file-system call that opened a file holds a reference to it. -/
def Opens (gone : NodeId → Prop) (k : Kernel) (fl : Flight) : Kernel × Except Errno FileId → Prop
  | (k', .ok f) => Path gone k fl k' (fl.addFile (some f))
  | (k', .error _) => Path gone k fl k' fl

theorem openNode_opens (h : Host) (n : NodeId) (flags : OpenFlags) : Opens gone k fl (openNode h k n flags) := by
  rw [openNode]
  split
  · exact .refl k fl
  rename_i node hn
  split
  · exact .refl k fl
  rename_i node' file hopen
  rw [ramfsOpen] at hopen
  split at hopen
  · cases hopen
  split at hopen
  · cases hopen
  cases hopen
  have hcut : Path gone k fl { k with vfs := k.vfs.setNode n fun _ => cutAtOpen node flags } fl :=
    setContent_path hn (fixed_cutAtOpen node flags)
  dsimp only
  split
  · exact hcut
  have hlive : (k.vfs.setNode n fun _ => cutAtOpen node flags).node n = some (cutAtOpen node flags) := by
    rw [Vfs.node_setNode_self, hn, Option.map_some]
  have hretain : Path gone { k with vfs := k.vfs.setNode n fun _ => cutAtOpen node flags } fl
      (retainNode { k with vfs := k.vfs.setNode n fun _ => cutAtOpen node flags } (some n))
      (fl.addNode (some n)) := retainNode_path hlive
  refine hcut.trans (hretain.trans (.single (.openFile (a := fl.nodes) rfl (fun p => ?_) (fun c => ?_) fun _ => rfl)
    (.of_tasks rfl rfl rfl rfl rfl)))
  · exact ⟨by simp, by simp⟩
  · simp [Flight.addNode, endHold, pointsTo]

theorem cbVfsOpen_opens (h : Host) (path : Bytes) (flags : OpenFlags) (mode : ℕ) (hb : Base k fl)
    (hu : Unparked k t) : Opens gone k fl (cbVfsOpen h k (k.viewOf t) path flags mode) := by
  rw [cbVfsOpen]
  split
  · exact .refl k fl
  rename_i normalized hn
  split
  · exact openNode_opens h _ flags
  split
  · split
    · exact .refl k fl
    · rename_i v n hc
      have hcreate : Path gone k fl { k with vfs := v } fl :=
        .vfs (.single (createAt_move (hb.resolves hu) hn hc (by decide)).1)
      have hopen : Opens gone { k with vfs := v } fl (openNode h { k with vfs := v } n flags) :=
        openNode_opens h n flags
      revert hopen
      cases openNode h { k with vfs := v } n flags with
      | mk k' o =>
        cases o with
        | error e => exact hcreate.trans
        | ok f => exact hcreate.trans
  · exact .refl k fl

theorem apiOpen_returns (h : Host) (path : Bytes) (flags : OpenFlags) (mode : ℕ) (hb : Base k fl)
    (hu : Unparked k t) : Returns gone k fl (apiOpen h k t path flags mode) := by
  have hopen : Opens gone k fl (cbVfsOpen h k (k.viewOf t) path flags mode) :=
    cbVfsOpen_opens h path flags mode hb hu
  rw [apiOpen]
  split
  · rename_i k' e heq
    rw [heq] at hopen
    exact Path.returns hopen _ _
  · rename_i k' f heq
    rw [heq] at hopen
    have hpath : Path gone k fl k' (fl.addFile (some f)) := hopen
    obtain ⟨k₁, d, heq₁, hpath₁⟩ | ⟨k₁, heq₁, -, hpath₁⟩ :
        (∃ k₁ d, _ ∧ Path gone k' _ k₁ fl) ∨ _ := fdInstall_cases (hpath.base hb) (hu.steady hpath.steady)
    · rw [heq₁]
      exact (hpath.trans hpath₁).returns _ _
    · rw [heq₁]
      exact (hpath.trans hpath₁).returns _ _

theorem apiChdir_returns (path : Bytes) (hb : Base k fl) (hu : Unparked k t) :
    Returns gone k fl (apiChdir k t path) := by
  rw [apiChdir]
  split
  · exact .same k fl _ _
  rename_i n hlook
  obtain ⟨node, hn, -⟩ := lookupDirectory_rooted (hb.resolves hu) hlook
  obtain ⟨task, ht, -⟩ := id hu
  have hretain : Path gone k fl (retainNode k (some n)) (fl.addNode (some n)) := retainNode_path hn
  have hset : Path gone (retainNode k (some n)) (fl.addNode (some n))
      ((retainNode k (some n)).setTask t fun task => { task with cwd := some n }) (fl.addNode task.cwd) := by
    refine ⟨.single (.hold ht ⟨fun c => ?_, fun _ => rfl, rfl, rfl, rfl, rfl, rfl, rfl, rfl, rfl, rfl, .inl rfl,
      fun _ => .inl rfl, fun _ => .inl, .inl rfl, id, rfl⟩),
      .setTask _ t fun _ _ => ⟨rfl, .inl rfl, .inl rfl, rfl, rfl, fun _ => .inl⟩⟩
    simp only [taskHold, Flight.addNode_nodes]
    omega
  have hcwd : (k.viewOf t).cwd = task.cwd := by rw [viewOf_eq ht]; rfl
  rw [hcwd]
  exact (hretain.trans (hset.trans (releaseNode_path _ fl task.cwd))).returns _ _

/-- A question about descriptors or paths. -/
theorem Returns.of_outcome (k : Kernel) (fl : Flight) {o : Outcome} (h : ∃ reply out, o = .done reply out) :
    Returns gone k fl (k, o) := ⟨.refl k fl, h⟩

theorem apiFstat_returns (descriptor : ℤ) : Returns gone k fl (k, apiFstat k t descriptor) := by
  refine .of_outcome k fl ?_
  rw [apiFstat]
  split
  · exact ⟨_, _, rfl⟩
  split
  · exact ⟨_, _, rfl⟩
  · exact ⟨_, _, rfl⟩

theorem apiStat_returns (path : Bytes) : Returns gone k fl (k, apiStat k t path) := by
  refine .of_outcome k fl ?_
  rw [apiStat]
  split
  · exact ⟨_, _, rfl⟩
  · exact ⟨_, _, rfl⟩

theorem apiGetcwd_returns (size : ℕ) : Returns gone k fl (k, apiGetcwd k t size) := by
  refine .of_outcome k fl ?_
  rw [apiGetcwd]
  split
  · exact ⟨_, _, rfl⟩
  split
  · exact ⟨_, _, rfl⟩
  · exact ⟨_, _, rfl⟩

theorem apiIsatty_returns (descriptor : ℤ) : Returns gone k fl (k, apiIsatty k t descriptor) := by
  refine .of_outcome k fl ?_
  rw [apiIsatty]
  split
  · exact ⟨_, _, rfl⟩
  split
  · exact ⟨_, _, rfl⟩
  · exact ⟨_, _, rfl⟩
  · exact ⟨_, _, rfl⟩

/-! ### Directory handles -/

/-- The node predicate of a step that takes no node out of its directory. -/
def noNode : NodeId → Prop := fun _ => False

theorem parentOf_retainNode (k : Kernel) (o : Option NodeId) :
    (retainNode k o).vfs.parentOf = k.vfs.parentOf := by
  cases o with
  | none => rfl
  | some n =>
    have hshape : SameShape k.vfs (ramfsNodeRetain k.vfs n) := .setNode k.vfs n fun _ _ => rfl
    exact hshape.parentOf

/-- The first child `child_at` finds is a child. -/
theorem childAt_parent {v : Vfs} {d c : NodeId} {index : ℕ} (hl : Links v)
    (h : ramfsChildAt v d index = .ok (some c)) : v.parentOf c = some d := by
  rw [ramfsChildAt] at h
  split at h
  · cases h
  rename_i dir hd
  split at h
  · cases h
  rw [Except.ok.injEq] at h
  exact ((hl.collect_children hd).2 c).mp (List.mem_of_getElem? h)

theorem apiOpendir_returns (path : Bytes) (hb : Base k fl) (hc : k.current = some t) :
    Returns noNode k fl (apiOpendir k t path) := by
  have hu := Unparked.of_current hb hc
  rw [apiOpendir]
  split
  · exact .same k fl _ _
  rename_i n hlook
  obtain ⟨node, hn, -⟩ := lookupDirectory_rooted (hb.resolves hu) hlook
  have hdir : Path noNode k fl (retainNode k (some n)) (fl.addNode (some n)) := retainNode_path hn
  have hb₁ := hdir.base hb
  dsimp only
  split
  · exact (hdir.trans (releaseNode_path _ fl (some n))).returns _ _
  rename_i first hfirst
  have hparent : ∀ c, first = some c → (retainNode k (some n)).vfs.parentOf c = some n := by
    rintro c rfl
    exact childAt_parent hb₁.books.vfs.tree.links hfirst
  have hchild : Path noNode (retainNode k (some n)) (fl.addNode (some n))
      (retainNode (retainNode k (some n)) first) ((fl.addNode (some n)).addNode first) := by
    refine retainSome_path fun c hfc => ?_
    obtain ⟨x, hx, -⟩ := Vfs.node_of_parentOf (hparent c hfc)
    exact ⟨x, hx⟩
  have hboth := hdir.trans hchild
  split
  · rename_i d hfree
    obtain ⟨-, task, ht, hrun⟩ := hb.roster.current hc
    have ht' : (retainNode (retainNode k (some n)) first).task t = some task := ht
    rw [ht', Option.bind_some] at hfree
    have hunused : (task.directories d).inUse = false := by
      have hd := List.find?_some hfree
      simpa using hd
    have hset : Path noNode (retainNode (retainNode k (some n)) first) ((fl.addNode (some n)).addNode first)
        ((retainNode (retainNode k (some n)) first).setDir t d ⟨some n, first, true⟩) fl := by
      refine setDir_path ht' (fun c => ?_) (fun _ c _ hnext => ⟨n, rfl, ?_⟩) (fun _ _ _ hno => hno)
        fun _ => .inr hrun
      · rw [dirHold, dirHold, hunused, if_pos rfl, if_neg Bool.false_ne_true, Flight.addNode_nodes,
          Flight.addNode_nodes]
        dsimp only
        omega
      · rw [parentOf_retainNode]
        exact hparent c hnext
    exact (hboth.trans hset).returns _ _
  · exact (hboth.trans ((releaseNode_path _ (fl.addNode (some n)) first).trans
      (releaseNode_path _ fl (some n)))).returns _ _

theorem apiReaddir_returns (descriptor : ℤ) (nameSize : ℕ) (hb : Base k fl) (hu : Unparked k t) :
    Returns noNode k fl (apiReaddir k t descriptor nameSize) := by
  rw [apiReaddir]
  split
  · exact .same k fl _ _
  rename_i d hslot
  have huse : (k.dir t d).inUse = true := (Option.filter_eq_some_iff.mp hslot).2
  split
  · exact .same k fl _ _
  split
  · exact .same k fl _ _
  rename_i child hnext
  split
  · exact .same k fl _ _
  split
  · exact .same k fl _ _
  obtain ⟨task, ht, -⟩ := id hu
  have hlinks := hb.books.vfs.tree.links
  dsimp only
  set lookahead := ramfsNextSibling k.vfs child with hlook
  have hretain : Path noNode k fl (retainNode k lookahead) (fl.addNode lookahead) := by
    refine retainSome_path fun c hc => ?_
    obtain ⟨e, -, hp⟩ := hlinks.next_live hc
    obtain ⟨x, hx, -⟩ := Vfs.node_of_parentOf hp
    exact ⟨x, hx⟩
  have ht' : (retainNode k lookahead).task t = some task := ht
  have hset : Path noNode (retainNode k lookahead) (fl.addNode lookahead)
      ((retainNode k lookahead).setDir t d { (retainNode k lookahead).dir t d with next := lookahead })
      (fl.addNode (some child)) := by
    rw [dir_eq ht] at huse hnext
    rw [dir_eq ht']
    refine setDir_path ht' (fun c => ?_) (fun hfresh c _ hc => ?_) (fun _ _ _ hno => hno) fun h => .inl h
    · rw [dirHold, dirHold, huse, if_pos rfl, if_pos rfl, hnext, Flight.addNode_nodes]
      dsimp only
      omega
    · obtain ⟨e, he, hp⟩ := hfresh child huse hnext
      refine ⟨e, he, ?_⟩
      rw [parentOf_retainNode] at hp ⊢
      exact hlinks.next_parent hp hc
  exact (hretain.trans (hset.trans (releaseNode_path _ fl (some child)))).returns _ _

theorem apiClosedir_returns (descriptor : ℤ) (hu : Unparked k t) :
    Returns gone k fl (apiClosedir k t descriptor) := by
  rw [apiClosedir]
  split
  · exact .same k fl _ _
  rename_i d hslot
  have huse : (k.dir t d).inUse = true := (Option.filter_eq_some_iff.mp hslot).2
  obtain ⟨task, ht, -⟩ := id hu
  have hset : Path gone k fl (k.setDir t d ⟨none, none, false⟩)
      ((fl.addNode (k.dir t d).node).addNode (k.dir t d).next) := by
    refine setDir_path ht (fun c => ?_) (fun _ c h => by cases h) (fun c h => by cases h) fun h => by cases h
    rw [dir_eq ht] at huse ⊢
    rw [dirHold, dirHold, huse, if_pos rfl, if_neg Bool.false_ne_true, Flight.addNode_nodes]
    omega
  exact (hset.trans ((releaseNode_path _ (fl.addNode (k.dir t d).node) (k.dir t d).next).trans
    (releaseNode_path _ fl (k.dir t d).node))).returns _ _

/-! ### The heap and libc state of a task -/

/-- The task writes to its ledger, its vectors or the state of libc. -/
theorem note_path {f : Task → Task} (k : Kernel) (t : TaskId)
    (hf : ∀ task, f task = { task with
      argv := (f task).argv, environment := (f task).environment, allocations := (f task).allocations
      libc := (f task).libc }) : Path gone k fl (k.setTask t f) fl := by
  refine .calm (calm_setTask k t fun task _ => ?_)
  rw [hf task]
  exact ⟨rfl, rfl, rfl, .inl rfl, .inl rfl, .inl rfl, rfl, rfl⟩

/-- The host's allocator is asked. -/
theorem heap_path (k : Kernel) (heap : List (HeapCall ℕ)) : Path gone k fl { k with heap := heap } fl :=
  .calm ⟨rfl, rfl, rfl, rfl, rfl, rfl, rfl, .of_tasks rfl rfl rfl rfl rfl⟩

theorem apiAllocate_returns (h : Host) (size : ℕ) : Returns gone k fl (apiAllocate h k t size) := by
  rw [apiAllocate]
  split
  · exact .same k fl _ _
  dsimp only
  split
  · exact ((heap_path k _).trans (heap_path _ _)).returns _ _
  · exact ((heap_path k _).trans (note_path _ t fun _ => rfl)).returns _ _

theorem unbook_path (k : Kernel) (t : TaskId) (pointer : ℕ) : Path gone k fl (unbook k t pointer) fl :=
  (heap_path k _).trans (note_path _ t fun _ => rfl)

theorem apiResize_returns (h : Host) (pointer size : ℕ) : Returns gone k fl (apiResize h k t pointer size) := by
  rw [apiResize]
  split
  · exact apiAllocate_returns h size
  split
  · exact .same k fl _ _
  split
  · exact (unbook_path k t pointer).returns _ _
  split
  · exact .same k fl _ _
  · exact ((heap_path k _).trans (note_path _ t fun _ => rfl)).returns _ _

theorem apiRelease_returns (pointer : ℕ) : Returns gone k fl (apiRelease k t pointer) := by
  rw [apiRelease]
  split
  · exact .same k fl _ _
  split
  · exact .same k fl _ _
  · exact (unbook_path k t pointer).returns _ _

theorem taskReleaseAllocations_path (k : Kernel) (t : TaskId) :
    Path gone k fl (taskReleaseAllocations k t) fl := (heap_path k _).trans (note_path _ t fun _ => rfl)

end CannedBsd
