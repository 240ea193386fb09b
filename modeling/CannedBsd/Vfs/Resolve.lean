import CannedBsd.Vfs.Moves

/-!
# The calls on paths

A lookup that starts at the kernel root only meets nodes of attached trees, and the names it is
given are ones a directory entry can have. So every call on paths is a sequence of elementary
changes. The nodes a call takes out of their directory are named, by what the call finds before it
changes anything.

* `resolveFrom_rooted`: every node on the way of a path is in an attached tree.
* `cbVfsUnlinkPath_moves`, `cbVfsRenamePaths_moves`, `cbVfsMountPath_moves` and the others: each call is a
  sequence of changes.
-/

namespace CannedBsd

open CannedBsd.Lib

/-- The kernel root is the root of the root mount. -/
def HasRoot (v : Vfs) : Prop := v.rootOf v.rootMount = some v.vfsRoot

/-! ### Lookups -/

section Lookup

variable {v : Vfs} {n n' : NodeId}

theorem rooted_vfsRoot (ht : Tree v) (hr : HasRoot v) : Rooted v v.vfsRoot := by
  obtain ⟨node, hn, -, -, hm⟩ := ht.roots hr
  refine ⟨node, hn, ?_, .inr ?_⟩
  · rw [hm]
    exact List.mem_cons_self
  · rwa [hm]

theorem ramfsLookup_ok {name : Bytes} (hl : Links v) (h : ramfsLookup v n name = .ok n') :
    ∃ dir node, v.node n = some dir ∧ dir.type = .directory ∧ v.node n' = some node ∧
      node.parent = some n ∧ node.name = name := by
  rw [ramfsLookup] at h
  cases hn : v.node n with
  | none => simp [hn] at h
  | some dir =>
    simp only [hn] at h
    obtain ⟨hty, h⟩ := ok_of_guard h
    cases hf : findChild v n name with
    | none => simp [hf] at h
    | some c =>
      simp only [hf, Except.ok.injEq] at h
      subst h
      obtain ⟨node, hc, hp, hname⟩ := hl.findChild_some hn hf
      exact ⟨dir, node, rfl, not_not.mp hty, hc, hp, hname⟩

theorem ramfsLookup_enoent {name : Bytes} (h : ramfsLookup v n name = .error .enoent) :
    ∃ dir, v.node n = some dir ∧ dir.type = .directory ∧ findChild v n name = none := by
  rw [ramfsLookup] at h
  cases hn : v.node n with
  | none => simp [hn] at h
  | some dir =>
    simp only [hn] at h
    by_cases hty : dir.type = .directory
    · rw [if_neg (not_not.mpr hty)] at h
      cases hf : findChild v n name with
      | none => exact ⟨dir, rfl, hty, rfl⟩
      | some c => simp [hf] at h
    · rw [if_pos hty] at h
      cases h

theorem lookup_rooted {name : Bytes} (ht : Tree v) (hn : Rooted v n)
    (h : ramfsLookup v n name = .ok n') : Rooted v n' := by
  obtain ⟨dir, node, hd, -, hc, hp, -⟩ := ramfsLookup_ok ht.links h
  obtain ⟨dir', hd', hm, -⟩ := hn
  rw [hd, Option.some.injEq] at hd'
  subst hd'
  refine ⟨node, hc, ?_, .inl (by rw [hp]; simp)⟩
  rwa [← ht.links.mount hc hp hd]

theorem crossDown_rooted (ht : Tree v) (hn : Rooted v n) (h : crossDown v n = some n') :
    Rooted v n' := by
  rw [crossDown] at h
  cases hf : v.table.find? fun e => e.mountPoint = n with
  | none =>
    simp only [hf, Option.some.injEq] at h
    exact h ▸ hn
  | some e =>
    simp only [hf] at h
    obtain ⟨node, hn', -, -, hm⟩ := ht.roots h
    refine ⟨node, hn', ?_, .inr (by rwa [hm])⟩
    rw [hm]
    exact List.mem_cons_of_mem _ (List.mem_map_of_mem (List.mem_of_find?_eq_some hf))

/-- Induction over the components: every node on the way is in an attached tree. -/
theorem resolveFrom_rooted (ht : Tree v) {cs : List Bytes} (hn : Rooted v n)
    (h : resolveFrom v n cs = .ok n') : Rooted v n' := by
  induction cs generalizing n with
  | nil =>
    rw [resolveFrom, Except.ok.injEq] at h
    exact h ▸ hn
  | cons c cs ih =>
    rw [resolveFrom] at h
    cases hl : ramfsLookup v n c with
    | error e => simp [hl] at h
    | ok next =>
      simp only [hl] at h
      cases hc : crossDown v next with
      | none => simp [hc] at h
      | some next' =>
        simp only [hc] at h
        exact ih (crossDown_rooted ht (lookup_rooted ht hn hl) hc) h

end Lookup

/-! ### Paths of a task -/

section View

variable {v : Vfs} {view : View} {n : NodeId} {path normalized : Bytes}

/-- Path resolution works: the tree is sound, and the task stands under the kernel root. -/
structure Resolves (v : Vfs) (ext : NodeId → ℕ) (view : View) : Prop where
  sound : Sound v ext
  root : HasRoot v
  view : view.root = some v.vfsRoot

variable {ext : NodeId → ℕ}

theorem resolveNormalized_rooted (hv : Resolves v ext view)
    (h : resolveNormalized v view normalized = .ok n) : Rooted v n := by
  rw [resolveNormalized, hv.view] at h
  exact resolveFrom_rooted hv.sound.tree (rooted_vfsRoot hv.sound.tree hv.root) h

theorem lookupNode_rooted (hv : Resolves v ext view) (h : cbVfsLookupNode v view path = .ok n) :
    Rooted v n := by
  rw [cbVfsLookupNode] at h
  cases hn : normalizeForTask v view path with
  | error e => simp [hn] at h
  | ok normalized =>
    simp only [hn] at h
    exact resolveNormalized_rooted hv h

theorem lookupDirectory_rooted (hv : Resolves v ext view) (h : lookupDirectory v view path = .ok n) :
    Rooted v n := by
  rw [lookupDirectory] at h
  cases hn : cbVfsLookupNode v view path with
  | error e => simp [hn] at h
  | ok n' =>
    simp only [hn] at h
    cases hs : ramfsStat v n' with
    | error e => simp [hs] at h
    | ok status =>
      simp only [hs] at h
      obtain ⟨-, h⟩ := ok_of_guard h
      cases h
      exact lookupNode_rooted hv hn

theorem executableNode_rooted (hv : Resolves v ext view) {name : Bytes}
    (h : resolveExecutableNode v view name = .ok n) : Rooted v n := by
  rw [resolveExecutableNode] at h
  obtain ⟨-, h⟩ := ok_of_guard h
  cases hn : cbVfsLookupNode v view (if slash ∈ name then name else binDirectory ++ name) with
  | error e => simp [hn] at h
  | ok n' =>
    simp only [hn] at h
    cases hs : ramfsStat v n' with
    | error e => simp [hs] at h
    | ok status =>
      simp only [hs] at h
      obtain ⟨-, h⟩ := ok_of_guard h
      obtain ⟨-, h⟩ := ok_of_guard h
      cases h
      exact lookupNode_rooted hv hn

theorem type_of_executableNode {name : Bytes} (h : resolveExecutableNode v view name = .ok n) :
    ∃ node, v.node n = some node ∧ node.type = .executable := by
  rw [resolveExecutableNode] at h
  obtain ⟨-, h⟩ := ok_of_guard h
  cases hn : cbVfsLookupNode v view (if slash ∈ name then name else binDirectory ++ name) with
  | error e => simp [hn] at h
  | ok n' =>
    simp only [hn] at h
    cases hnode : v.node n' with
    | none => simp [ramfsStat, hnode] at h
    | some node =>
      simp only [ramfsStat, hnode] at h
      obtain ⟨-, h⟩ := ok_of_guard h
      obtain ⟨htype, h⟩ := ok_of_guard h
      cases h
      exact ⟨node, hnode, not_not.mp htype⟩

/-- The directory and the name where a path argument ends. -/
theorem resolveParent_rooted {parent : NodeId} {name : Bytes} (hv : Resolves v ext view)
    (hn : normalizeForTask v view path = .ok normalized)
    (h : resolveParent v view normalized = .ok (parent, name)) : Rooted v parent ∧ goodName name := by
  obtain ⟨cs, rfl, hcs⟩ := normalizeForTask_eq hn
  obtain ⟨front, rfl, hres⟩ := resolveParent_render hv.view hcs h
  exact ⟨resolveFrom_rooted hv.sound.tree (rooted_vfsRoot hv.sound.tree hv.root) hres,
    hcs name (by simp)⟩

end View

/-! ### Creation -/

section Create

variable {gone : NodeId → Prop} {v : Vfs} {view : View} {a ext : NodeId → ℕ} {path normalized : Bytes}

theorem createAt_move {h : Host} {type : NodeType} {mode : ℕ} {v' : Vfs} {n : NodeId}
    (hv : Resolves v ext view) (hn : normalizeForTask v view path = .ok normalized)
    (hc : createAt h v view normalized type mode = .ok (v', n)) (hplain : type ≠ .executable) :
    VMove gone v a v' a ∧ ∃ node, v'.node n = some node := by
  rw [createAt] at hc
  cases hp : resolveParent v view normalized with
  | error e => simp [hp] at hc
  | ok target =>
    obtain ⟨parent, name⟩ := target
    simp only [hp] at hc
    obtain ⟨⟨dir, hd, -, hroot⟩, hname⟩ := resolveParent_rooted hv hn hp
    obtain ⟨dir', hd', hty, hfind, rfl, rfl⟩ := ramfsCreate_cases hc
    rw [hd, Option.some.injEq] at hd'
    subst hd'
    have hfree : ∀ {c x}, v.node c = some x → x.parent = some parent → x.name ≠ name :=
      fun hc hx => hv.sound.tree.links.findChild_none hd hfind hc hx
    exact ⟨nodeCreate_move h hd hty hroot hplain mode hname hfree,
      ⟨_, (nodeCreate_pushed h hd hty type mode hname hfree).newNode⟩⟩

theorem cbVfsMkdirPath_moves (h : Host) (mode : ℕ) (hv : Resolves v ext view) :
    VMoves gone v a (cbVfsMkdirPath h v view path mode).1 a := by
  rw [cbVfsMkdirPath]
  split
  · exact .refl
  · rename_i normalized hn
    split
    · exact .refl
    · split
      · exact .refl
      · rename_i v' n hc
        exact .single (createAt_move hv hn hc (by decide)).1
    · exact .refl

/-- Creation below the root of a normalized path, with a change of the new node outside the tree. -/
theorem createAt_moveWith {h : Host} {type : NodeType} {mode : ℕ} {v' : Vfs} {n : NodeId} {f : Node → Node}
    (hv : Resolves v ext view) (hn : normalizeForTask v view path = .ok normalized)
    (hc : createAt h v view normalized type mode = .ok (v', n)) (hf : ∀ node, (f node).shape = node.shape)
    (href : ∀ node, (f node).references = node.references)
    (hprogram : ∀ node, ∃ p, (f node).executable = some p)
    (hx : ∀ {node p}, (f node).executable = some p → (∃ program, v.programs.get p = some program) ∧
      ∀ {c x}, v.node c = some x → x.executable ≠ some p) :
    VMove gone v a (v'.setNode n f) a := by
  rw [createAt] at hc
  cases hp : resolveParent v view normalized with
  | error e => simp [hp] at hc
  | ok target =>
    obtain ⟨parent, name⟩ := target
    simp only [hp] at hc
    obtain ⟨⟨dir, hd, -, hroot⟩, hname⟩ := resolveParent_rooted hv hn hp
    obtain ⟨dir', hd', hty, hfind, rfl, rfl⟩ := ramfsCreate_cases hc
    rw [hd, Option.some.injEq] at hd'
    subst hd'
    have hfree : ∀ {c x}, v.node c = some x → x.parent = some parent → x.name ≠ name :=
      fun hc hx => hv.sound.tree.links.findChild_none hd hfind hc hx
    have hpush := (nodeCreate_pushed h hd hty type mode hname hfree).adorn fun node => Node.shape_eq_iff.mp (hf node)
    refine .create ((sameMounts_nodeCreate h v _ _ _ _ _).trans (.setNode _ _ _)) hpush (Heap.get_next _) hroot
      (href _) ⟨rfl, rfl, rfl, ?_, fun c => hpush.ware c, fun _ => hprogram _, hx⟩
    show (((v.nodes.alloc _).modify parent _).modify v.nodes.next f).next = v.nodes.next + 1
    rw [Heap.next_modify, Heap.next_modify, Heap.next_alloc]

theorem cbVfsCreateExecutable_moves {program : Program} (h : Host) (p : ProgramId) (hs : Sound v ext) (hr : HasRoot v)
    (hlive : v.programs.get p = some program) (hunused : ∀ {c x}, v.node c = some x → x.executable ≠ some p) :
    VMoves gone v a (cbVfsCreateExecutable h v path p).1 a := by
  have hv : Resolves v ext ⟨some v.vfsRoot, some v.vfsRoot⟩ := ⟨hs, hr, rfl⟩
  rw [cbVfsCreateExecutable]
  split
  · exact .refl
  · rename_i normalized hn
    split
    · exact .refl
    · split
      · exact .refl
      · rename_i v' n hc
        refine .single (createAt_moveWith hv hn hc (fun _ => rfl) (fun _ => rfl) (fun _ => ⟨p, rfl⟩) fun hp => ?_)
        rw [Option.some.injEq] at hp
        subst hp
        exact ⟨⟨program, hlive⟩, hunused⟩
    · exact .refl

end Create

/-! ### Contents and mounts -/

section Mount

variable {gone : NodeId → Prop} {v : Vfs} {view : View} {a ext : NodeId → ℕ} {path : Bytes}

theorem cbVfsTruncatePath_moves (h : Host) (length : ℤ) :
    VMoves gone v a (cbVfsTruncatePath h v view path length).1 a := by
  rw [cbVfsTruncatePath]
  split
  · exact .refl
  · split
    · exact .refl
    · split
      · exact .refl
      · rename_i n _ node hn
        exact .single (.content hn (fixed_cbVfsTruncateNode h node length))

/-- A node that is no mount node and not the kernel root has a directory entry. -/
theorem parent_of_not_mountNode {n : NodeId} (hr : HasRoot v) (hn : Rooted v n) (hne : n ≠ v.vfsRoot)
    (hm : isMountNode v n = false) :
    ∃ node, v.node n = some node ∧ node.mount ∈ attached v ∧ node.parent ≠ none := by
  obtain ⟨node, hnode, ha, hp | hroot⟩ := hn
  · exact ⟨node, hnode, ha, hp⟩
  · exfalso
    rcases List.mem_cons.mp ha with hrm | htable
    · rw [hrm, hr, Option.some.injEq] at hroot
      exact hne hroot.symm
    · obtain ⟨e, he, hem⟩ := List.mem_map.mp htable
      rw [isMountNode, List.any_eq_false] at hm
      refine hm e he ?_
      rw [hem, hroot]
      simp

theorem not_point_of_not_mountNode {n : NodeId} (hm : isMountNode v n = false) :
    ∀ e ∈ v.table, e.mountPoint ≠ n := by
  intro e he heq
  rw [isMountNode, List.any_eq_false] at hm
  refine hm e he ?_
  simp [heq]

theorem ramfsStat_ok {n : NodeId} {status : Stat} (h : ramfsStat v n = .ok status) :
    ∃ node, v.node n = some node ∧ status.type = node.type := by
  rw [ramfsStat] at h
  cases hn : v.node n with
  | none => simp [hn] at h
  | some node =>
    simp only [hn, Except.ok.injEq] at h
    exact ⟨node, rfl, h ▸ rfl⟩

theorem cbVfsMountPath_moves (m : MountId) (hv : Resolves v ext view) :
    VMoves gone v a (cbVfsMountPath v view path m).1 a := by
  rw [cbVfsMountPath]
  split
  · exact .refl
  rename_i r hr
  split
  · exact .refl
  rename_i hroot
  split
  · exact .refl
  rename_i htable
  split
  · exact .refl
  split
  · exact .refl
  rename_i n hlookup
  split
  · exact .refl
  rename_i hne
  split
  · exact .refl
  rename_i status hstat
  split
  · exact .refl
  rename_i hty
  split
  · exact .refl
  rename_i hmount
  have hrooted := lookupNode_rooted hv hlookup
  obtain ⟨node, hnode, ha, hp⟩ := parent_of_not_mountNode hv.root hrooted hne
    (Bool.eq_false_iff.mpr hmount)
  obtain ⟨node', hnode', hsty⟩ := ramfsStat_ok hstat
  rw [hnode, Option.some.injEq] at hnode'
  subst hnode'
  have hdir : node.type = .directory := by rw [← hsty, not_not.mp hty]
  have hret : (ramfsNodeRetain v n).node n = some { node with references := node.references + 1 } := by
    rw [ramfsNodeRetain, Vfs.node_setNode_self, hnode]
    rfl
  have hmove₁ : VMove gone v a (ramfsNodeRetain v n) fun c => a c + pointsTo (some n) c :=
    .retain hnode fun _ => rfl
  have hnew : m ∉ attached v := by
    intro hmem
    rcases List.mem_cons.mp hmem with heq | hmem
    · exact hroot heq
    · obtain ⟨e, he, heq⟩ := List.mem_map.mp hmem
      exact htable (List.any_eq_true.mpr ⟨e, he, decide_eq_true heq⟩)
  exact .step (.single hmove₁) (.attach hret hdir hp ha hr hnew fun _ => rfl)

end Mount

/-! ### Removal -/

section Remove

variable {v : Vfs} {view : View} {a ext : NodeId → ℕ} {path : Bytes}

/-- The node `unlink` takes out of its directory. -/
def unlinks (v : Vfs) (view : View) (path : Bytes) (n : NodeId) : Prop :=
  cbVfsLookupNode v view path = .ok n ∧ isMountNode v n = false ∧
    ∃ node, v.node n = some node ∧ node.type ≠ .directory

/-- The node `rmdir` takes out of its directory. -/
def rmdirs (v : Vfs) (view : View) (path : Bytes) (n : NodeId) : Prop :=
  cbVfsLookupNode v view path = .ok n ∧ isMountNode v n = false ∧
    ∃ node, v.node n = some node ∧ node.type = .directory ∧ node.children = none

theorem cbVfsUnlinkPath_moves (hv : Sound v fun c => ext c + a c) :
    VMoves (unlinks v view path) v a (cbVfsUnlinkPath v view path).1 a := by
  rw [cbVfsUnlinkPath, removePath]
  cases hl : cbVfsLookupNode v view path with
  | error e => exact .refl
  | ok n =>
    dsimp only
    split
    · exact .refl
    rename_i hm
    rw [ramfsUnlink]
    cases hn : v.node n with
    | none => exact .refl
    | some node =>
      dsimp only
      split
      · exact .refl
      rename_i hty
      have hmount := Bool.eq_false_iff.mpr hm
      refine unlinkNode_moves hv hn ?_ (not_point_of_not_mountNode hmount) ⟨hl, hmount, node, hn, hty⟩
      by_contra hch
      exact hty (hv.tree.directory_of_children hn hch)

theorem cbVfsRmdirPath_moves (hv : Sound v fun c => ext c + a c) :
    VMoves (rmdirs v view path) v a (cbVfsRmdirPath v view path).1 a := by
  rw [cbVfsRmdirPath, removePath]
  cases hl : cbVfsLookupNode v view path with
  | error e => exact .refl
  | ok n =>
    dsimp only
    split
    · exact .refl
    rename_i hm
    rw [ramfsRmdir]
    cases hn : v.node n with
    | none => exact .refl
    | some node =>
      dsimp only
      split
      · exact .refl
      rename_i hty
      split
      · exact .refl
      rename_i hch
      have hmount := Bool.eq_false_iff.mpr hm
      rw [not_not] at hty hch
      exact unlinkNode_moves hv hn hch (not_point_of_not_mountNode hmount) ⟨hl, hmount, node, hn, hty, hch⟩

end Remove

/-! ### Renaming -/

section Rename

variable {v : Vfs} {view : View} {a ext : NodeId → ℕ} {h : Host} {oldPath newPath newName : Bytes}
  {n d' : NodeId}

/-- The nodes `rename` takes out of their directory: the moved node when it changes its directory,
and the node that had the new name. -/
def renamesAway (h : Host) (v : Vfs) (view : View) (oldPath newPath : Bytes) (c : NodeId) : Prop :=
  ∃ n d' newName existing, renameTargets v view oldPath newPath = .ok (n, d', newName) ∧
    renameChecks h v n d' newName = .ok (.move existing) ∧
    (c = n ∧ v.parentOf n ≠ some d' ∨ existing = some c)

/-- The nodes `rename` takes out of their place: the moved node, also when it stays in its directory,
and the node that had the new name. -/
def renameStirs (h : Host) (v : Vfs) (view : View) (oldPath newPath : Bytes) (c : NodeId) : Prop :=
  ∃ n d' newName existing, renameTargets v view oldPath newPath = .ok (n, d', newName) ∧
    renameChecks h v n d' newName = .ok (.move existing) ∧ (c = n ∨ existing = some c)

/-- What `ramfs_rename` needs of a node and its new directory. -/
structure Movable (v : Vfs) (n d' : NodeId) : Prop where
  nodes : ∃ node dir, v.node n = some node ∧ v.node d' = some dir ∧ dir.type = .directory ∧
    (dir.parent ≠ none ∨ v.rootOf dir.mount = some d') ∧ node.mount = dir.mount
  below : ¬ Climb v.parentOf d' n

theorem Movable.moves {gone : NodeId → Prop} (hl : Links v) (hm : Movable v n d')
    (hname : goodName newName)
    (hfree : ∀ {c x}, v.node c = some x → c ≠ n → x.parent = some d' → x.name ≠ newName)
    (hg : gone n) : VMoves gone v a (ramfsRename h v n d' newName).1 a := by
  obtain ⟨node, dir, hn, hd, hty, hroot, hmount⟩ := hm.nodes
  exact ramfsRename_moves h hl hn hd hty hroot hmount hm.below hname hfree hg

/-- What the checks of a rename establish. -/
theorem renameChecks_ok {existing : Option NodeId} (hl : Links v) (hn : Rooted v n) (hd : Rooted v d')
    (hc : renameChecks h v n d' newName = .ok (.move existing)) :
    Movable v n d' ∧
      match existing with
      | none => findChild v d' newName = none
      | some e => e ≠ n ∧ ∃ node, v.node e = some node ∧ node.parent = some d' ∧ node.name = newName ∧
          node.type ≠ .directory := by
  obtain ⟨node, hnode, -, -⟩ := hn
  obtain ⟨dir, hdir, -, hroot⟩ := hd
  rw [renameChecks] at hc
  obtain ⟨hmount, hc⟩ := ok_of_guard hc
  obtain ⟨-, hc⟩ := ok_of_guard hc
  rw [not_not, hnode, hdir, Option.map_some, Option.map_some, Option.some.injEq] at hmount
  have hbelow : walkUp v.parentOf n (cbPathMax / 2) (some d') = .clear := by
    cases hw : walkUp v.parentOf n (cbPathMax / 2) (some d') with
    | clear => rfl
    | hit => simp [hw] at hc
    | tooLong => simp [hw] at hc
  simp only [hbelow] at hc
  have hclimb := not_climb_of_walkUp hbelow
  cases hs : ramfsStat v n with
  | error e => simp [hs] at hc
  | ok status =>
    simp only [hs] at hc
    cases hlk : ramfsLookup v d' newName with
    | ok e =>
      obtain ⟨dir', x, hdir', hty, hx, hxp, hxn⟩ := ramfsLookup_ok hl hlk
      rw [hdir, Option.some.injEq] at hdir'
      subst hdir'
      refine ⟨⟨⟨node, dir, hnode, hdir, hty, hroot, hmount⟩, hclimb⟩, ?_⟩
      simp only [hlk] at hc
      by_cases hen : e = n
      · rw [if_pos hen] at hc
        cases hc
      rw [if_neg hen] at hc
      cases hse : ramfsStat v e with
      | error e' => simp [hse] at hc
      | ok estatus =>
        simp only [hse] at hc
        obtain ⟨-, hc⟩ := ok_of_guard hc
        obtain ⟨hety, hc⟩ := ok_of_guard hc
        obtain ⟨-, hc⟩ := ok_of_guard hc
        cases hc
        obtain ⟨x', hx', hst⟩ := ramfsStat_ok hse
        rw [hx, Option.some.injEq] at hx'
        subst hx'
        exact ⟨hen, x, hx, hxp, hxn, by rwa [← hst]⟩
    | error e =>
      have he : e = .enoent := by
        by_contra hne
        simp only [hlk] at hc
        cases hc
      subst he
      simp only [hlk] at hc
      obtain ⟨-, hc⟩ := ok_of_guard hc
      cases hc
      obtain ⟨dir', hdir', hty, hfind⟩ := ramfsLookup_enoent hlk
      rw [hdir, Option.some.injEq] at hdir'
      subst hdir'
      exact ⟨⟨⟨node, dir, hnode, hdir, hty, hroot, hmount⟩, hclimb⟩, hfind⟩

/-- Unlinking another node leaves a movable node movable. -/
theorem Movable.unlink {e : NodeId} {x : Node} (hs : Sound v ext) (hm : Movable v n d') (hen : e ≠ n)
    (he : v.node e = some x) (hty : x.type ≠ .directory) (hp : v.parentOf e = some d') :
    Movable (unlinkNode v e).1 n d' ∧ (unlinkNode v e).1.parentOf n = v.parentOf n ∧
      ∀ {c y}, (unlinkNode v e).1.node c = some y → y.parent = some d' →
        ∃ z, v.node c = some z ∧ c ≠ e ∧ z.parent = some d' ∧ y.name = z.name := by
  have hch : x.children = none := by
    by_contra hch
    exact hty (hs.tree.directory_of_children he hch)
  have hpoint : ∀ entry ∈ v.table, entry.mountPoint ≠ e := by
    rintro entry hentry rfl
    obtain ⟨y, hy, hydir, -⟩ := hs.tree.point hentry
    rw [he, Option.some.injEq] at hy
    exact hty (hy ▸ hydir)
  obtain ⟨link, hsame, hloose, hnodes⟩ := unlinkNode_nodes hs he hch hpoint hp
  -- every other node keeps its parent, mount, type and name
  have hkeep : ∀ {c z}, c ≠ e → v.node c = some z → ∃ y, (unlinkNode v e).1.node c = some y ∧
      y.parent = z.parent ∧ y.mount = z.mount ∧ y.type = z.type ∧ y.name = z.name := by
    intro c z hce hc
    have hnew := hnodes c hce
    rw [Links.node_detachNode, hc, Option.map_some] at hnew
    exact ⟨_, hnew, by simp [hce], rfl, rfl, rfl⟩
  have hback : ∀ {c y}, c ≠ e → (unlinkNode v e).1.node c = some y → ∃ z, v.node c = some z ∧
      y.parent = z.parent ∧ y.name = z.name := by
    intro c y hce hc
    rw [hnodes c hce, Links.node_detachNode, Option.map_eq_some_iff] at hc
    obtain ⟨z, hz, rfl⟩ := hc
    exact ⟨z, hz, by simp [hce], rfl⟩
  have hparent : ∀ c, c ≠ e → (unlinkNode v e).1.parentOf c = v.parentOf c := by
    intro c hce
    rw [Vfs.parentOf, hnodes c hce]
    exact (Links.parentOf_detachNode c).trans (if_neg hce)
  obtain ⟨node, dir, hn, hd, hdty, hroot, hmount⟩ := hm.nodes
  have hde : d' ≠ e := by
    rintro rfl
    rw [hd, Option.some.injEq] at he
    exact hty (he ▸ hdty)
  refine ⟨⟨?_, ?_⟩, hparent n (Ne.symm hen), ?_⟩
  · obtain ⟨node', hn', -, hnm, -, -⟩ := hkeep (Ne.symm hen) hn
    obtain ⟨dir', hd', hdp, hdm, hdt, -⟩ := hkeep hde hd
    exact ⟨node', dir', hn', hd', hdt.trans hdty, by rwa [hdp, hdm, hsame.rootOf],
      hnm.trans (hmount.trans hdm.symm)⟩
  · intro hclimb
    refine hm.below (hclimb.mono fun b p hb => ?_)
    by_cases hbe : b = e
    · rw [hbe, hloose] at hb
      cases hb
    · rwa [hparent b hbe] at hb
  · intro c y hc hyp
    have hce : c ≠ e := by
      rintro rfl
      rw [Vfs.parentOf_of_node hc, hyp] at hloose
      cases hloose
    obtain ⟨z, hz, hzp, hzn⟩ := hback hce hc
    exact ⟨z, hz, hce, by rw [← hzp, hyp], hzn⟩

theorem renameTargets_rooted (hv : Resolves v ext view)
    (ht : renameTargets v view oldPath newPath = .ok (n, d', newName)) :
    Rooted v n ∧ Rooted v d' ∧ goodName newName := by
  rw [renameTargets] at ht
  cases hl : cbVfsLookupNode v view oldPath with
  | error e => simp [hl] at ht
  | ok oldNode =>
    simp only [hl] at ht
    cases hnorm : normalizeForTask v view newPath with
    | error e => simp [hnorm] at ht
    | ok normalized =>
      simp only [hnorm] at ht
      cases hp : resolveParent v view normalized with
      | error e => simp [hp] at ht
      | ok target =>
        obtain ⟨parent, name⟩ := target
        simp only [hp, Except.ok.injEq, Prod.mk.injEq] at ht
        obtain ⟨rfl, rfl, rfl⟩ := ht
        exact ⟨lookupNode_rooted hv hl, resolveParent_rooted hv hnorm hp⟩

theorem cbVfsRenamePaths_moves (hv : Resolves v (fun c => ext c + a c) view) :
    VMoves (renameStirs h v view oldPath newPath) v a (cbVfsRenamePaths h v view oldPath newPath).1 a := by
  rw [cbVfsRenamePaths]
  cases ht : renameTargets v view oldPath newPath with
  | error e => exact .refl
  | ok targets =>
    obtain ⟨n, d', newName⟩ := targets
    dsimp only
    obtain ⟨hn, hd, hname⟩ := renameTargets_rooted hv ht
    have hl := hv.sound.tree.links
    cases hc : renameChecks h v n d' newName with
    | error e => exact .refl
    | ok plan =>
      cases plan with
      | same => exact .refl
      | move existing =>
        obtain ⟨hmov, hex⟩ := renameChecks_ok hl hn hd hc
        obtain ⟨node, dir, hnode, hdir, hty, hroot, hmount⟩ := hmov.nodes
        have haway : renameStirs h v view oldPath newPath n := ⟨n, d', newName, existing, ht, hc, .inl rfl⟩
        cases existing with
        | none =>
          exact hmov.moves hl hname (fun hc _ hx => hl.findChild_none hdir hex hc hx) haway
        | some e =>
          obtain ⟨hen, x, hx, hxp, hxn, hxty⟩ := hex
          have hpe : v.parentOf e = some d' := by rw [Vfs.parentOf_of_node hx, hxp]
          obtain ⟨hmov', -, hchildren⟩ := hmov.unlink hv.sound hen hx hxty hpe
          have hch : x.children = none := by
            by_contra hch
            exact hxty (hv.sound.tree.directory_of_children hx hch)
          have hpoint : ∀ entry ∈ v.table, entry.mountPoint ≠ e := by
            rintro entry hentry rfl
            obtain ⟨y, hy, hydir, -⟩ := hv.sound.tree.point hentry
            rw [hx, Option.some.injEq] at hy
            exact hxty (hy ▸ hydir)
          have hgone : renameStirs h v view oldPath newPath e :=
            ⟨n, d', newName, some e, ht, hc, .inr rfl⟩
          have hunl := unlinkNode_moves hv.sound hx hch hpoint hgone
          obtain ⟨link, -, heq⟩ := unlinkNode_of_parent hl hpe
          have hunlink : ramfsUnlink v e = ((unlinkNode v e).1, .ok ()) := by
            rw [ramfsUnlink, hx]
            simp only [if_neg hxty, heq]
          simp only [hunlink]
          refine hunl.trans (hmov'.moves (hunl.sound hv.sound).tree.links hname ?_ haway)
          -- the only node with this name was the unlinked one
          intro c y hc' hcn hyp hyn
          obtain ⟨z, hz, hce, hzp, hzn⟩ := hchildren hc' hyp
          exact hce (hl.unique hz hx hzp hxp (by rw [← hzn, hyn, hxn]))

end Rename

end CannedBsd
