import CannedBsd.Lib.Brackets
import CannedBsd.Libc.Fts

/-!
# What a walk owns and what it reports

Every entry belongs to one frame or to the slot of the entry that is freed at the next call, and every
open directory belongs to one frame. So a walk that is closed at any point has given back everything, and
what it has reported until then is the beginning of a nested report.

* `ftsReadLoop_round`: the loop of `fts_read` drops the frames that are skipped and then reads or leaves.
* `cbLibcFtsRead_round`: one call of `fts_read`, with what it hands out and what it owns then.
-/

namespace CannedBsd

open CannedBsd.Lib

/-! ### Blocks -/

def FtsEnt.blocks (e : FtsEnt) : List ℕ := [e.statPointer, e.pathPointer, e.pointer]

def FtsFrame.blocks (f : FtsFrame) : List ℕ := f.dir.pointer :: f.entry.blocks

/-- The blocks of an entry that may be there. -/
def pendingBlocks : Option FtsEnt → List ℕ
  | none => []
  | some e => e.blocks

def Fts.blocks (fts : Fts) : List ℕ :=
  pendingBlocks fts.pendingFree ++ fts.stack.flatMap FtsFrame.blocks ++ [fts.pointer]

/-- What `classify` does not change of an entry. -/
def FtsEnt.key (e : FtsEnt) : ℕ × ℕ × ℕ × Bytes × ℕ := (e.pointer, e.pathPointer, e.statPointer, e.path, e.level)

/-- Where an entry is. -/
def FtsEnt.place (e : FtsEnt) : Bytes × ℕ := (e.path, e.level)

theorem FtsEnt.blocks_of_key {e e' : FtsEnt} (h : e'.key = e.key) : e'.blocks = e.blocks := by
  simp only [FtsEnt.key, Prod.mk.injEq] at h
  rw [FtsEnt.blocks, FtsEnt.blocks, h.1, h.2.1, h.2.2.1]

theorem FtsEnt.place_of_key {e e' : FtsEnt} (h : e'.key = e.key) : e'.place = e.place := by
  simp only [FtsEnt.key, Prod.mk.injEq] at h
  rw [FtsEnt.place, FtsEnt.place, h.2.2.2.1, h.2.2.2.2]

section Entries

variable {hosts : Machine → Host} {t : TaskId} {base : Kernel} {m : Machine} {blocks : List ℕ} {dirs : List OpenDir}

theorem Desk.entryCreate (sizes : Sizes) (h : Desk t base m blocks dirs) (hf : FreshHosts hosts)
    (parentPath : Option Bytes) (name : Bytes) (level : ℕ) :
    (entryCreate hosts t sizes parentPath name level m).2 = none ∧ (∃ m, (hosts m).starves = true) ∧
        Desk t base (entryCreate hosts t sizes parentPath name level m).1 blocks dirs ∨
      ∃ e, (entryCreate hosts t sizes parentPath name level m).2 = some e ∧
        e.place = (entryPath parentPath name, level) ∧ e.accpath = e.path ∧
        Desk t base (entryCreate hosts t sizes parentPath name level m).1 (e.blocks ++ blocks) dirs := by
  rw [CannedBsd.entryCreate, cbLibcCalloc_one sizes.ftsent_le]
  have hentry := h.allocate hf sizes.ftsent
  generalize cbLibcMalloc hosts t sizes.ftsent m = result at hentry ⊢
  obtain ⟨m₁, entry⟩ := result
  dsimp only at hentry ⊢
  rcases hentry with ⟨hnull, hwhy, hdesk⟩ | ⟨hnull, hdesk⟩
  · rw [if_pos hnull]
    exact .inl ⟨rfl, ⟨m, hwhy⟩, hdesk⟩
  rw [if_neg hnull]
  have hpath := hdesk.allocate hf ((entryPath parentPath name).length + 1)
  generalize cbLibcMalloc hosts t ((entryPath parentPath name).length + 1) m₁ = result at hpath ⊢
  obtain ⟨m₂, ftsPath⟩ := result
  dsimp only at hpath ⊢
  rcases hpath with ⟨hnull', hwhy, hdesk'⟩ | ⟨hnull', hdesk'⟩
  · rw [if_pos hnull']
    exact .inl ⟨rfl, ⟨m₁, hwhy⟩, hdesk'.free⟩
  rw [if_neg hnull', cbLibcCalloc_one sizes.stat_le]
  have hstat := hdesk'.allocate hf sizes.stat
  generalize cbLibcMalloc hosts t sizes.stat m₂ = result at hstat ⊢
  obtain ⟨m₃, statp⟩ := result
  dsimp only at hstat ⊢
  rcases hstat with ⟨hnull'', hwhy, hdesk''⟩ | ⟨hnull'', hdesk''⟩
  · rw [if_pos hnull'']
    exact .inl ⟨rfl, ⟨m₂, hwhy⟩, hdesk''.free.free⟩
  · rw [if_neg hnull'']
    exact .inr ⟨_, rfl, rfl, rfl, hdesk''⟩

theorem Desk.entryDestroy {e : FtsEnt} (h : Desk t base m (e.blocks ++ blocks) dirs) :
    Desk t base (entryDestroy hosts t e m) blocks dirs := by
  have hstat : Desk t base (cbLibcFree hosts t e.statPointer m) (e.pathPointer :: e.pointer :: blocks) dirs := h.free
  exact hstat.free.free

/-- The entry that is waiting to be freed, if there is one. -/
theorem Desk.freePending {pending : Option FtsEnt} (h : Desk t base m (pendingBlocks pending ++ blocks) dirs) :
    Desk t base (freePending hosts t pending m) blocks dirs := by
  cases pending with
  | none => exact h
  | some e => exact h.entryDestroy

/-- The frame reads the directory at the path of its entry. -/
structure Serves (t : TaskId) (base : Kernel) (f : FtsFrame) (o : OpenDir) : Prop where
  descriptor : f.dir.descriptor = o.slot.val
  found : lookupDirectory base.vfs (base.viewOf t) f.entry.path = .ok o.dir
  unread : o.unread <:+ entriesOf base.vfs o.dir

theorem Desk.closeFrame {f : FtsFrame} {o : OpenDir} (h : Desk t base m (f.blocks ++ blocks) (o :: dirs))
    (hs : Serves t base f o) : Desk t base (CannedBsd.entryDestroy hosts t f.entry (cbLibcClosedir hosts t f.dir m)) blocks dirs := by
  have hdir : f.dir = ⟨f.dir.pointer, o.slot.val⟩ := by rw [← hs.descriptor]
  have hclosed : Desk t base (cbLibcClosedir hosts t ⟨f.dir.pointer, o.slot.val⟩ m) (f.entry.blocks ++ blocks) dirs :=
    h.libcClosedir
  rw [hdir]
  exact hclosed.entryDestroy

/-! ### Classifying an entry -/

/-- Why an entry is not descended into. -/
inductive LeafInfo (hosts : Machine → Host) (t : TaskId) (base : Kernel) (fts : Fts) (held : ℕ) (path : Bytes) :
    FtsInfo → Prop
  | missing (h : (cbVfsStatPath base.vfs (base.viewOf t) path).toOption = none) : LeafInfo hosts t base fts held path .ns
  | file {status : Stat} (h : (cbVfsStatPath base.vfs (base.viewOf t) path).toOption = some status)
      (htype : status.type ≠ .directory) : LeafInfo hosts t base fts held path .default
  | cycle {status : Stat} (h : (cbVfsStatPath base.vfs (base.viewOf t) path).toOption = some status)
      (htype : status.type = .directory) (hcycle : cycleDetected fts status.inode = true) :
      LeafInfo hosts t base fts held path .dc
  | deep (h : cbFtsMaxDepth ≤ fts.stack.length) : LeafInfo hosts t base fts held path .dnr
  | shut (h : ∀ dir, lookupDirectory base.vfs (base.viewOf t) path = .ok dir →
      held = cbMaxDirs ∨ ∃ m, (hosts m).starves = true) : LeafInfo hosts t base fts held path .dnr

theorem LeafInfo.ne {fts : Fts} {held : ℕ} {path : Bytes} {info : FtsInfo} (h : LeafInfo hosts t base fts held path info) :
    info ≠ .d ∧ info ≠ .dp := by
  cases h <;> simp

/-- How `classify` can go: the entry is a leaf, or its directory is open on top of the stack. -/
inductive ClassifyRound (hosts : Machine → Host) (t : TaskId) (base : Kernel) (fts : Fts) (e : FtsEnt) (blocks : List ℕ)
    (dirs : List OpenDir) : Machine × Fts × FtsEnt → Prop
  | leaf {m' : Machine} {e' : FtsEnt} (hdesk : Desk t base m' blocks dirs) (hkey : e'.key = e.key)
      (hinfo : LeafInfo hosts t base fts (handlesInUse t base + dirs.length) e.path e'.info) :
      ClassifyRound hosts t base fts e blocks dirs (m', fts, e')
  | dir {m' : Machine} {f : FtsFrame} {o : OpenDir} (hdesk : Desk t base m' (f.dir.pointer :: blocks) (o :: dirs))
      (hserves : Serves t base f o) (hwhole : o.unread = entriesOf base.vfs o.dir) (hkey : f.entry.key = e.key)
      (hinfo : f.entry.info = .d) (hskip : f.skip = false) {status : Stat}
      (hstat : (cbVfsStatPath base.vfs (base.viewOf t) e.path).toOption = some status) (hinode : f.inode = status.inode) :
      ClassifyRound hosts t base fts e blocks dirs (m', { fts with stack := f :: fts.stack }, f.entry)

theorem classify_round (sizes : Sizes) {fts : Fts} {e : FtsEnt} (h : Desk t base m blocks dirs) (hf : FreshHosts hosts)
    (hacc : e.accpath = e.path) : ClassifyRound hosts t base fts e blocks dirs (classify hosts t sizes fts e m) := by
  rw [classify]
  obtain ⟨hdesk, hstat⟩ := @Desk.stat hosts t base m blocks dirs h e.path
  generalize cbLibcStat hosts t e.path m = result at hdesk hstat ⊢
  obtain ⟨m₁, found⟩ := result
  dsimp only at hdesk hstat ⊢
  cases found with
  | none => exact .leaf hdesk rfl (.missing hstat.symm)
  | some status =>
    dsimp only
    by_cases htype : status.type = .directory
    · rw [if_neg (not_not.mpr htype)]
      by_cases hcycle : cycleDetected fts status.inode = true
      · rw [if_pos hcycle]
        exact .leaf hdesk rfl (.cycle hstat.symm htype hcycle)
      rw [if_neg hcycle]
      by_cases hdeep : cbFtsMaxDepth ≤ fts.stack.length
      · rw [if_pos hdeep]
        exact .leaf hdesk rfl (.deep hdeep)
      rw [if_neg hdeep, hacc]
      have hopen := hdesk.libcOpendir sizes hf e.path
      generalize cbLibcOpendir hosts t sizes e.path m₁ = result at hopen ⊢
      obtain ⟨m₂, dir⟩ := result
      dsimp only at hopen ⊢
      rcases hopen with ⟨rfl, hdesk', hwhy⟩ | ⟨d, n, pointer, rfl, hlook, hdesk'⟩
      · exact .leaf hdesk' rfl (.shut hwhy)
      · exact .dir hdesk' ⟨rfl, hlook, List.suffix_refl _⟩ rfl rfl rfl rfl hstat.symm rfl
    · rw [if_pos htype]
      exact .leaf hdesk rfl (.file hstat.symm htype)

end Entries

/-! ### One call of `fts_read` -/

/-- The places that belong below another one, or at the top. -/
def Below (t : TaskId) (base : Kernel) (roots : List Bytes) : Option (Bytes × ℕ) → Bytes × ℕ → Prop
  | none, (path, level) => path ∈ roots ∧ level = 0
  | some (parent, n), (path, level) => level = n + 1 ∧ ∃ dir, lookupDirectory base.vfs (base.viewOf t) parent = .ok dir ∧
      ∃ e ∈ entriesOf base.vfs dir, path = parent ++ slash :: e.name

def FtsFrame.place (f : FtsFrame) : Bytes × ℕ := f.entry.place

/-- What `fts_read` can return when these frames are left after those that are skipped. -/
inductive ReadRound (t : TaskId) (base : Kernel) (roots : List Bytes) (frames : List FtsFrame) : Fts → Option FtsEnt → Prop
  | nothing {fts' : Fts} (hstack : fts'.stack = frames) (hargv : fts'.pathArgv = roots) :
      ReadRound t base roots frames fts' none
  | leaf {fts' : Fts} {e : FtsEnt} (hstack : fts'.stack = frames) (hargv : fts'.pathArgv = roots)
      (hd : e.info ≠ .d) (hdp : e.info ≠ .dp)
      (hbelow : Below t base roots (frames.head?.map FtsFrame.place) e.place) : ReadRound t base roots frames fts' (some e)
  | entered {fts' : Fts} {f : FtsFrame} (hstack : fts'.stack = f :: frames) (hargv : fts'.pathArgv = roots)
      (hinfo : f.entry.info = .d) (hskip : f.skip = false)
      (hbelow : Below t base roots (frames.head?.map FtsFrame.place) f.place) :
      ReadRound t base roots frames fts' (some f.entry)
  | left {fts' : Fts} {f : FtsFrame} {e : FtsEnt} (hframes : frames = f :: fts'.stack) (hargv : fts'.pathArgv = roots)
      (hinfo : e.info = .dp) (hplace : e.place = f.place) : ReadRound t base roots frames fts' (some e)

section Reading

variable {hosts : Machine → Host} {t : TaskId} {base : Kernel} {m : Machine} {fts : Fts} {roots : List Bytes}

/-- The walk owns its blocks and the directories of its frames, and nothing else. -/
def Owns (t : TaskId) (base : Kernel) (m : Machine) (fts : Fts) : Prop :=
  ∃ dirs, Desk t base m fts.blocks dirs ∧ List.Forall₂ (Serves t base) fts.stack dirs

/-- A new entry is handed out: it is waiting to be freed, or it is the entry of a new frame. -/
theorem handOut_round (sizes : Sizes) {e : FtsEnt} {dirs : List OpenDir} (hf : FreshHosts hosts)
    (h : Desk t base m (e.blocks ++ fts.stack.flatMap FtsFrame.blocks ++ [fts.pointer]) dirs)
    (hserve : List.Forall₂ (Serves t base) fts.stack dirs) (hpending : fts.pendingFree = none) (hargv : fts.pathArgv = roots)
    (hacc : e.accpath = e.path)
    (hbelow : Below t base roots (fts.stack.head?.map FtsFrame.place) e.place) :
    ReadRound t base roots fts.stack (handOut (classify hosts t sizes fts e m)).2.1
        (handOut (classify hosts t sizes fts e m)).2.2 ∧
      Owns t base (handOut (classify hosts t sizes fts e m)).1 (handOut (classify hosts t sizes fts e m)).2.1 := by
  have hround := @classify_round hosts t base m _ dirs sizes fts e h hf hacc
  generalize classify hosts t sizes fts e m = result at hround ⊢
  cases hround with
  | @leaf m' e' hdesk hkey hinfo =>
    obtain ⟨hd, hdp⟩ := hinfo.ne
    rw [handOut, if_pos hd]
    refine ⟨.leaf rfl hargv hd hdp ?_, dirs, ?_, hserve⟩
    · rw [FtsEnt.place_of_key hkey]
      exact hbelow
    · rw [Fts.blocks, pendingBlocks, FtsEnt.blocks_of_key hkey]
      exact hdesk
  | @dir m' f o hdesk hserves hwhole hkey hinfo hskip status hstat hinode =>
    rw [handOut, if_neg (not_not.mpr hinfo)]
    refine ⟨.entered rfl hargv hinfo hskip ?_, o :: dirs, ?_, .cons hserves hserve⟩
    · rw [FtsFrame.place, FtsEnt.place_of_key hkey]
      exact hbelow
    · rw [Fts.blocks, hpending, pendingBlocks, List.nil_append]
      dsimp only
      rw [List.flatMap_cons, FtsFrame.blocks, FtsEnt.blocks_of_key hkey]
      exact hdesk

/-- One more name is read from the innermost directory. -/
theorem Serves.read {f : FtsFrame} {o : OpenDir} (h : Serves t base f o) :
    Serves t base f { o with unread := (readNext o.unread cbPathMax).2 } := by
  refine ⟨h.descriptor, h.found, List.IsSuffix.trans ?_ h.unread⟩
  have hsize : cbPathMax ≠ 0 := by decide
  cases o.unread with
  | nil => rw [readNext, if_neg hsize]
  | cons e rest =>
    rw [readNext, if_neg hsize]
    split
    · exact List.suffix_refl _
    · exact List.suffix_cons e rest

theorem nextName_mem {entries : List Entry} {name : Bytes} (h : nextName entries = some name) :
    ∃ e ∈ entries, e.name = name := by
  cases entries with
  | nil => cases h
  | cons e rest =>
    rw [nextName] at h
    split at h
    · cases h
    · exact ⟨e, List.mem_cons_self .., Option.some.inj h⟩

/-- The loop of `fts_read` drops the frames that are skipped and then reads or leaves. -/
theorem ftsReadLoop_round (sizes : Sizes) (hf : FreshHosts hosts) (hpending : fts.pendingFree = none)
    (hargv : fts.pathArgv = roots)
    (stack : List FtsFrame) : ∀ {m : Machine} {dirs : List OpenDir},
    Desk t base m (stack.flatMap FtsFrame.blocks ++ [fts.pointer]) dirs → List.Forall₂ (Serves t base) stack dirs →
    ReadRound t base roots (stack.dropWhile FtsFrame.skip) (ftsReadLoop hosts t sizes fts stack m).2.1
        (ftsReadLoop hosts t sizes fts stack m).2.2 ∧
      Owns t base (ftsReadLoop hosts t sizes fts stack m).1 (ftsReadLoop hosts t sizes fts stack m).2.1 := by
  induction stack with
  | nil =>
    intro m dirs h hserve
    rw [ftsReadLoop, List.dropWhile_nil]
    dsimp only
    cases hroot : fts.pathArgv[fts.rootIndex]? with
    | none =>
      refine ⟨.nothing rfl hargv, dirs, ?_, hserve⟩
      rw [Fts.blocks, hpending]
      exact h.setErrno 0
    | some path =>
      dsimp only
      have hcreate := h.entryCreate sizes hf none path 0
      generalize entryCreate hosts t sizes none path 0 m = result at hcreate ⊢
      obtain ⟨m₁, root⟩ := result
      dsimp only at hcreate ⊢
      rcases hcreate with ⟨rfl, -, hdesk⟩ | ⟨e, rfl, hplace, hacc, hdesk⟩
      · refine ⟨.nothing rfl hargv, dirs, ?_, hserve⟩
        rw [Fts.blocks, hpending]
        exact hdesk
      · refine @handOut_round hosts t base m₁ { fts with stack := [], rootIndex := fts.rootIndex + 1 } roots sizes e dirs hf
          hdesk hserve hpending hargv hacc ?_
        rw [hplace, ← hargv]
        exact ⟨List.mem_of_getElem? hroot, rfl⟩
  | cons top rest ih =>
    intro m dirs h hserve
    obtain ⟨o, dirs, hs, hrest, rfl⟩ := List.forall₂_cons_left_iff.mp hserve
    rw [ftsReadLoop]
    rw [List.flatMap_cons, List.append_assoc] at h
    by_cases hskip : top.skip = true
    · rw [if_pos hskip, List.dropWhile_cons_of_pos hskip]
      exact ih (h.closeFrame hs) hrest
    rw [if_neg hskip, List.dropWhile_cons_of_neg hskip]
    have hdir : top.dir = ⟨top.dir.pointer, o.slot.val⟩ := by rw [← hs.descriptor]
    obtain ⟨hname, hdesk⟩ := @Desk.libcReaddir hosts t base m _ dirs o top.dir.pointer h
    rw [← hdir] at hname hdesk
    generalize cbLibcReaddir hosts t top.dir m = result at hname hdesk ⊢
    obtain ⟨m₁, name⟩ := result
    dsimp only at hname hdesk ⊢
    cases name with
    | none =>
      dsimp only
      have hclosed : Desk t base (cbLibcClosedir hosts t ⟨top.dir.pointer, o.slot.val⟩ m₁)
        (top.entry.blocks ++ (rest.flatMap FtsFrame.blocks ++ [fts.pointer])) dirs := hdesk.libcClosedir
      rw [← hdir] at hclosed
      refine ⟨.left rfl hargv rfl rfl, dirs, ?_, hrest⟩
      rw [Fts.blocks, pendingBlocks, List.append_assoc]
      exact hclosed
    | some name =>
      dsimp only
      have hcreate := hdesk.entryCreate sizes hf (some top.entry.path) name (top.entry.level + 1)
      generalize entryCreate hosts t sizes (some top.entry.path) name (top.entry.level + 1) m₁ = result at hcreate ⊢
      obtain ⟨m₂, child⟩ := result
      dsimp only at hcreate ⊢
      have hserve' : List.Forall₂ (Serves t base) (top :: rest)
        ({ o with unread := (readNext o.unread cbPathMax).2 } :: dirs) := .cons hs.read hrest
      rcases hcreate with ⟨rfl, -, hdesk'⟩ | ⟨e, rfl, hplace, hacc, hdesk'⟩
      · refine ⟨.nothing rfl hargv, _, ?_, hserve'⟩
        rw [Fts.blocks, hpending, pendingBlocks, List.nil_append, List.flatMap_cons, List.append_assoc]
        exact hdesk'
      · refine @handOut_round hosts t base m₂ { fts with stack := top :: rest } roots sizes e _ hf ?_ hserve' hpending hargv
          hacc ?_
        · dsimp only
          rw [List.flatMap_cons, List.append_assoc, List.append_assoc]
          exact hdesk'
        · rw [hplace]
          obtain ⟨x, hx, rfl⟩ := nextName_mem hname.symm
          exact ⟨rfl, o.dir, hs.found, x, hs.unread.subset hx, rfl⟩

theorem cbLibcFtsRead_round (sizes : Sizes) (hf : FreshHosts hosts) (h : Owns t base m fts) (hargv : fts.pathArgv = roots) :
    ReadRound t base roots (fts.stack.dropWhile FtsFrame.skip) (cbLibcFtsRead hosts t sizes fts m).2.1
        (cbLibcFtsRead hosts t sizes fts m).2.2 ∧
      Owns t base (cbLibcFtsRead hosts t sizes fts m).1 (cbLibcFtsRead hosts t sizes fts m).2.1 := by
  obtain ⟨dirs, hdesk, hserve⟩ := h
  rw [Fts.blocks, List.append_assoc] at hdesk
  rw [cbLibcFtsRead]
  exact @ftsReadLoop_round hosts t base { fts with pendingFree := none } roots sizes hf rfl hargv fts.stack _ dirs
    hdesk.freePending hserve

end Reading

end CannedBsd
