import CannedBsd.Vfs.Rename
import CannedBsd.Kernel.Paths

/-!
# Renaming in a running system

What `cb_vfs_rename_paths` does to the paths of a reachable state, and to a replaced file that some
task still has open.

* `renamed_of_rehung`: the moved arrow, seen through the paths of a task.
* `rename_exact`: a rename that fails changes nothing, and one that succeeds moves exactly what was below the
  old path.
-/

namespace CannedBsd

open CannedBsd.Lib

variable {k : Kernel} {t : TaskId} {h : Host} {oldPath newPath : Bytes}

/-- The paths behind the targets of a rename. -/
theorem renameTargets_paths {v : Vfs} {view : View} {root n d' : NodeId} {newName : Bytes} (hroot : view.root = some root)
    (ht : renameTargets v view oldPath newPath = .ok (n, d', newName)) :
    ∃ os ps, normalizeForTask v view oldPath = .ok (render os) ∧
      normalizeForTask v view newPath = .ok (render (ps ++ [newName])) ∧ (∀ c ∈ os, goodName c) ∧
      (∀ c ∈ ps ++ [newName], goodName c) ∧ resolveFrom v root os = .ok n ∧ resolveFrom v root ps = .ok d' := by
  rw [renameTargets] at ht
  cases hl : cbVfsLookupNode v view oldPath with
  | error e => simp [hl] at ht
  | ok oldNode =>
    simp only [hl] at ht
    cases hnorm : normalizeForTask v view newPath with
    | error e => simp [hnorm] at ht
    | ok normalized =>
      simp only [hnorm] at ht
      cases hp : resolveParent v view normalized with
      | error e => simp [hp] at ht
      | ok target =>
        obtain ⟨parent, name⟩ := target
        simp only [hp, Except.ok.injEq, Prod.mk.injEq] at ht
        obtain ⟨rfl, rfl, rfl⟩ := ht
        rw [cbVfsLookupNode] at hl
        cases hold : normalizeForTask v view oldPath with
        | error e => simp [hold] at hl
        | ok old =>
          simp only [hold] at hl
          obtain ⟨os, rfl, hos⟩ := normalizeForTask_eq hold
          obtain ⟨ns, rfl, hns⟩ := normalizeForTask_eq hnorm
          obtain ⟨ps, rfl, hps⟩ := resolveParent_render hroot hns hp
          rw [resolveNormalized_render v hroot hos] at hl
          exact ⟨os, ps, rfl, rfl, hos, hns, hl, hps⟩

/-- An open file of a node holds it. -/
theorem open_held {f : FileId} {file : OpenFile} {n : NodeId} (hf : k.files.get f = some file)
    (hobj : file.object = .node n) : 0 < k.holders n := by
  have hle : endHold (.node n) file ≤ k.files.total (endHold (.node n)) := Heap.le_total _ hf
  have hself : endHold (.node n) file = 1 := if_pos hobj
  rw [Kernel.holders, Kernel.ends]
  omega

/-- What a successful rename of the path `os` to the path `ns` makes of the file system. -/
structure Renamed (h : Host) (k : Kernel) (view : View) (v' : Vfs) (os ns : List Bytes) (n : NodeId) : Prop where
  /-- The node is under its new path, and is the same but for its place, its name and its `ctime`. -/
  arrives : resolveNormalized v' view (render ns) = .ok n
  identity : ∃ d' newName node node', k.vfs.node n = some node ∧ v'.node n = some node' ∧
    node'.body = renamedBody h d' newName node
  /-- A replaced file has lost its entry; whoever has it open still has it. -/
  replaced : ∀ e, resolveNormalized k.vfs view (render ns) = .ok e →
    (∃ node, k.vfs.node e = some node ∧ node.type ≠ .directory) ∧ v'.parentOf e = none ∧
      ∀ f file, k.files.get f = some file → file.object = .node e →
        ∃ node node', k.vfs.node e = some node ∧ v'.node e = some node' ∧ node'.body = unlinkedBody node
  /-- Paths below the new path, below the old path, and all others. -/
  below : ∀ rest : List Bytes, (∀ c ∈ rest, goodName c) →
    resolveNormalized v' view (render (ns ++ rest)) = resolveNormalized k.vfs view (render (os ++ rest))
  leaves : ∀ rest : List Bytes, (∀ c ∈ rest, goodName c) →
    resolveNormalized v' view (render (os ++ rest)) = .error .enoent
  elsewhere : ∀ cs : List Bytes, (∀ c ∈ cs, goodName c) → ¬ os <+: cs → ¬ ns <+: cs →
    resolveNormalized v' view (render cs) = resolveNormalized k.vfs view (render cs)
  /-- The node was not moved into itself. -/
  outside : ¬ os <+: ns

/-- The moved arrow, seen through the paths of a task. -/
theorem renamed_of_rehung {l ext : NodeId → ℕ} {view : View} {v' : Vfs} {n d' : NodeId} {newName : Bytes}
    {existing : Option NodeId} {os ps : List Bytes} (hm : Mounted k.vfs) (hb : Base k (.rest l))
    (hext : ∀ n, k.holders n ≤ ext n) (hview : view.root = some k.vfs.vfsRoot)
    (htargets : renameTargets k.vfs view oldPath newPath = .ok (n, d', newName))
    (hchecks : renameChecks h k.vfs n d' newName = .ok (.move existing))
    (hre : Rehung h ext k.vfs v' n d' newName existing) (hos : ∀ c ∈ os, goodName c)
    (hns : ∀ c ∈ ps ++ [newName], goodName c) (hres : resolveFrom k.vfs k.vfs.vfsRoot os = .ok n)
    (hps : resolveFrom k.vfs k.vfs.vfsRoot ps = .ok d') : Renamed h k view v' os (ps ++ [newName]) n := by
  have hview' : view.root = some v'.vfsRoot := by rw [hre.mounts.vfsRoot, hview]
  obtain ⟨hn, hd', -⟩ := renameTargets_rooted ⟨hb.books.vfs, hb.books.root, hview⟩ htargets
  obtain ⟨hmount, hlookup⟩ := renameChecks_lookup hchecks
  obtain ⟨hmov, hex⟩ := renameChecks_ok hm.tree.links hn hd' hchecks
  -- the node has a name, so its path has a last component
  obtain ⟨os, a, rfl⟩ : ∃ os' a, os = os' ++ [a] := by
    cases os using List.reverseRecOn with
    | nil =>
      cases hres
      obtain ⟨d, hp⟩ := hmov.parent hm.tree hn
      rw [hm.root_loose] at hp
      cases hp
    | append_singleton os a => exact ⟨os, a, rfl⟩
  rw [resolveFrom_eq_walk] at hres hps
  obtain ⟨d, hgraft⟩ := hre.grafted hm hn hd' hchecks hres hps
  have hold : ∀ cs, (∀ c ∈ cs, goodName c) →
      resolveNormalized k.vfs view (render cs) = walk (descend k.vfs) k.vfs.vfsRoot cs := by
    intro cs hcs
    rw [resolveNormalized_render _ hview hcs, resolveFrom_eq_walk]
  have hnew : ∀ cs, (∀ c ∈ cs, goodName c) →
      resolveNormalized v' view (render cs) = walk (descend v') k.vfs.vfsRoot cs := by
    intro cs hcs
    rw [resolveNormalized_render _ hview' hcs, resolveFrom_eq_walk, hre.mounts.vfsRoot]
  have happend : ∀ {cs rest : List Bytes}, (∀ c ∈ cs, goodName c) → (∀ c ∈ rest, goodName c) →
      ∀ c ∈ cs ++ rest, goodName c := by
    intro cs rest hcs hrest c hc
    rcases List.mem_append.mp hc with hc | hc
    · exact hcs c hc
    · exact hrest c hc
  refine ⟨?_, ?_, ?_, ?_, ?_, ?_, ?_⟩
  · rw [hnew _ hns, ← List.append_nil (ps ++ [newName]), hgraft.new_place [], List.append_nil, hres]
  · obtain ⟨node, hnode, -, -⟩ := hn
    have hmoved := hre.moved
    rw [hnode, Option.map_some, bodyOf] at hmoved
    obtain ⟨node', hnode', hbody⟩ := Option.map_eq_some_iff.mp hmoved
    exact ⟨d', newName, node, node', hnode, hnode', hbody⟩
  · intro e he
    rw [hold _ hns] at he
    obtain ⟨z, hz, hdesc⟩ := walk_snoc.mp he
    rw [hps] at hz
    cases hz
    obtain ⟨x, hx, hcross⟩ := descend_ok.mp hdesc
    rw [hlookup] at hx
    cases existing with
    | none => cases hx
    | some e' =>
      cases hx
      obtain ⟨hen, node, hnode, -, -, hty⟩ := hex
      rw [crossDown_file hm.tree hnode hty, Option.some.injEq] at hcross
      subst hcross
      refine ⟨⟨node, hnode, hty⟩, hre.loose rfl, fun f file hf hobj => ?_⟩
      have hbody := hre.held rfl hnode ((open_held hf hobj).trans_le (hext x))
      obtain ⟨node', hnode', heq⟩ := Option.map_eq_some_iff.mp hbody
      exact ⟨node, node', hnode, hnode', heq⟩
  · intro rest hrest
    rw [hnew _ (happend hns hrest), hold _ (happend hos hrest), hgraft.new_place rest]
  · intro rest hrest
    rw [hnew _ (happend hos hrest), hgraft.old_place rest]
  · intro cs hcs hnotOld hnotNew
    rw [hnew _ hcs, hold _ hcs, hgraft.elsewhere hnotOld hnotNew]
  · intro hpre
    obtain ⟨s, hs⟩ := hpre
    exact hgraft.not_below s (hs ▸ List.prefix_rfl)

/-- **Renaming.**  In every reachable state, a rename that fails leaves the file system as it is. One
that succeeds leaves it as it is when both paths named the same node, and moves the node otherwise. -/
theorem rename_exact {task : Task} (hr : Reachable k) (ht : k.task t = some task) (h : Host) (oldPath newPath : Bytes) :
    (∀ e, (cbVfsRenamePaths h k.vfs (k.viewOf t) oldPath newPath).2 = .error e →
      (cbVfsRenamePaths h k.vfs (k.viewOf t) oldPath newPath).1 = k.vfs) ∧
    ((cbVfsRenamePaths h k.vfs (k.viewOf t) oldPath newPath).2 = .ok () → ∃ os ns n,
      normalizeForTask k.vfs (k.viewOf t) oldPath = .ok (render os) ∧
      normalizeForTask k.vfs (k.viewOf t) newPath = .ok (render ns) ∧
      resolveNormalized k.vfs (k.viewOf t) (render os) = .ok n ∧
      (resolveNormalized k.vfs (k.viewOf t) (render ns) = .ok n →
        (cbVfsRenamePaths h k.vfs (k.viewOf t) oldPath newPath).1 = k.vfs) ∧
      (resolveNormalized k.vfs (k.viewOf t) (render ns) ≠ .ok n →
        Renamed h k (k.viewOf t) (cbVfsRenamePaths h k.vfs (k.viewOf t) oldPath newPath).1 os ns n)) := by
  obtain ⟨l, hb⟩ := hr.base
  have hm := hr.mounted
  have hview := hr.view_root ht
  have hv : Resolves k.vfs (fun n => k.holders n + l n + 0) (k.viewOf t) := ⟨hb.books.vfs, hb.books.root, hview⟩
  have hround := @cbVfsRenamePaths_round k.vfs h (k.viewOf t) _ oldPath newPath hv
  generalize cbVfsRenamePaths h k.vfs (k.viewOf t) oldPath newPath = r at hround ⊢
  cases hround with
  | refused e =>
    refine ⟨fun _ _ => rfl, fun hok => ?_⟩
    cases hok
  | @same n d' newName htargets hchecks =>
    refine ⟨fun _ he => ?_, fun _ => ?_⟩
    · cases he
    obtain ⟨os, ps, hold, hnew, hos, hns, hres, hps⟩ := renameTargets_paths hview htargets
    refine ⟨os, ps ++ [newName], n, hold, hnew, ?_, fun _ => rfl, fun hne => absurd ?_ hne⟩
    · rw [resolveNormalized_render _ hview hos, hres]
    · obtain ⟨hmount, hlookup⟩ := renameChecks_lookup hchecks
      rw [resolveNormalized_render _ hview hns]
      exact resolveFrom_snoc.mpr ⟨d', n, hps, hlookup, crossDown_of_not_mountNode hmount⟩
  | @moved n d' newName existing v' htargets hchecks hre =>
    refine ⟨fun _ he => ?_, fun _ => ?_⟩
    · cases he
    obtain ⟨os, ps, hold, hnew, hos, hns, hres, hps⟩ := renameTargets_paths hview htargets
    have hrenamed := renamed_of_rehung hm hb (fun n => by omega) hview htargets hchecks hre hos hns hres hps
    refine ⟨os, ps ++ [newName], n, hold, hnew, ?_, fun hsame => absurd ?_ hrenamed.outside, fun _ => hrenamed⟩
    · rw [resolveNormalized_render _ hview hos, hres]
    · -- two paths to one node are one path
      rw [resolveNormalized_render _ hview hns, resolveFrom_eq_walk] at hsame
      rw [resolveFrom_eq_walk] at hres
      rw [descend_unique hm hres hsame]

/-- The shell has made the directory `/d`. -/
def beforeRename : Kernel := stateAfter (shellStart ++ calls [.mkdir dPath 0])

/-- It can be moved to `/tmp/d`. -/
theorem rename_exact_mkdir : ∃ os ns n, Renamed .calm beforeRename (beforeRename.viewOf 0)
    (cbVfsRenamePaths .calm beforeRename.vfs (beforeRename.viewOf 0) dPath (slash :: tmpName ++ dPath)).1 os ns n := by
  have hlive : (beforeRename.task 0).isSome = true := by decide +kernel
  obtain ⟨task, ht⟩ := Option.isSome_iff_exists.mp hlive
  have hok : (cbVfsRenamePaths .calm beforeRename.vfs (beforeRename.viewOf 0) dPath (slash :: tmpName ++ dPath)).2 =
      .ok () := by decide +kernel
  have hfree : (normalizeForTask beforeRename.vfs (beforeRename.viewOf 0) (slash :: tmpName ++ dPath)).toOption.map
      (resolveNormalized beforeRename.vfs (beforeRename.viewOf 0)) = some (.error .enoent) := by decide +kernel
  have hr : Reachable beforeRename := reachable_stateAfter _
  obtain ⟨os, ns, n, -, hnew, -, -, hmoved⟩ := (rename_exact hr ht .calm dPath (slash :: tmpName ++ dPath)).2 hok
  refine ⟨os, ns, n, hmoved ?_⟩
  rw [hnew] at hfree
  have hnone : resolveNormalized beforeRename.vfs (beforeRename.viewOf 0) (render ns) = .error .enoent :=
    Option.some.inj hfree
  rw [hnone]
  exact fun heq => nomatch heq

end CannedBsd
