import CannedBsd.Kernel.Reachable

/-!
# The shape of the directory tree

What the pointers between nodes look like in every reachable state, whatever calls any number of
tasks have made and however these ended.

* `Tree.points_fromRoot`: the mount points are linked to the kernel root.
* `reachable_treelike`: in every reachable state the nodes form the trees of their mounts.
-/

namespace CannedBsd

open CannedBsd.Lib

/-- The node is linked to the kernel root: by directory entries, and from a mount point to the root
of what is mounted there. A directory that was mounted over later stays linked. -/
inductive FromRoot (v : Vfs) : NodeId → Prop
  | root : FromRoot v v.vfsRoot
  | child {d c : NodeId} : FromRoot v d → v.parentOf c = some d → FromRoot v c
  | mount {e : MountEntry} {r : NodeId} : FromRoot v e.mountPoint → e ∈ v.table →
      v.rootOf e.mount = some r → FromRoot v r

/-- Whoever climbs to a node that is linked to the root is linked to it as well. -/
theorem FromRoot.of_climb {v : Vfs} {n r : NodeId} (hr : FromRoot v r) (h : Climb v.parentOf n r) :
    FromRoot v n := by
  induction h with
  | refl => exact hr
  | step hp _ ih => exact .child (ih hr) hp

/-- What the pointers of a directory tree look like. -/
structure Treelike (v : Vfs) : Prop where
  /-- A node is in the children list of its parent exactly once, and in no other list. -/
  children : ∀ {d dir}, v.node d = some dir →
    ∃ l, Chain v.nextOf dir.children l ∧ ∀ c, l.count c = if v.parentOf c = some d then 1 else 0
  parents : ∀ {c d}, v.parentOf c = some d → ∃ dir, v.node d = some dir
  /-- The parent pointers lead to the root of the node's own mount. -/
  climbs : ∀ {n node}, v.node n = some node → node.parent ≠ none →
    ∃ r, v.rootOf node.mount = some r ∧ v.parentOf r = none ∧ Climb v.parentOf n r
  /-- There is no way down from a node to its parent. -/
  acyclic : ∀ {n p}, v.parentOf n = some p → ¬ Climb v.parentOf p n
  unique : ∀ {c c' node node' d}, v.node c = some node → v.node c' = some node' →
    node.parent = some d → node'.parent = some d → node.name = node'.name → c = c'
  names : ∀ {c node d}, v.node c = some node → node.parent = some d → goodName node.name
  directories : ∀ {n node}, v.node n = some node → node.children ≠ none → node.type = .directory
  points : ∀ {e}, e ∈ v.table → v.parentOf e.mountPoint ≠ none ∧ FromRoot v e.mountPoint

variable {v : Vfs}

/-- The roots of the mounts that were attached first are linked to the kernel root, and so are the
mount points inside them. -/
theorem Tree.points_fromRoot (ht : Tree v) (hr : HasRoot v) (i : ℕ) :
    ∀ e, v.table[i]? = some e → FromRoot v e.mountPoint := by
  induction i using Nat.strong_induction_on with
  | _ i ih =>
    intro e he
    obtain ⟨node, d, -, hn, -, hp, hm, -⟩ := ht.points he
    obtain ⟨r, hroot, hclimb⟩ := ht.climbs hn hp
    refine FromRoot.of_climb ?_ hclimb
    rcases List.mem_cons.mp hm with heq | hm
    · rw [heq, hr, Option.some.injEq] at hroot
      rw [← hroot]
      exact .root
    · obtain ⟨e', he', heq⟩ := List.mem_map.mp hm
      obtain ⟨j, hj, hget⟩ := List.mem_take_iff_getElem.mp he'
      have hlt : j < i := lt_of_lt_of_le hj (Nat.min_le_left _ _)
      have hget? : v.table[j]? = some e' := by
        rw [List.getElem?_eq_getElem (lt_of_lt_of_le hj (Nat.min_le_right _ _)), hget]
      rw [← heq] at hroot
      exact .mount (ih j hlt e' hget?) (List.mem_of_getElem? hget?) hroot

theorem Tree.treelike (ht : Tree v) (hr : HasRoot v) : Treelike v := by
  have hclimb : ∀ {n node}, v.node n = some node → node.parent ≠ none →
      ∃ r, v.rootOf node.mount = some r ∧ v.parentOf r = none ∧ Climb v.parentOf n r := by
    intro n node hn hp
    obtain ⟨r, hroot, hc⟩ := ht.climb_root hn (.inl hp)
    exact ⟨r, hroot, ht.parent_of_root hroot, hc⟩
  refine ⟨?_, ?_, hclimb, ?_, ht.links.unique, ht.links.name, ht.directory_of_children, ?_⟩
  · intro d dir hd
    obtain ⟨l, hl, hm⟩ := ht.links.children hd
    refine ⟨l, hl, fun c => ?_⟩
    split
    · rename_i hp
      exact List.count_eq_one_of_mem hl.nodup ((hm c).mpr hp)
    · rename_i hp
      exact List.count_eq_zero_of_not_mem fun hc => hp ((hm c).mp hc)
  · intro c d hp
    obtain ⟨dir, hd, -⟩ := ht.links.parent hp
    exact ⟨dir, hd⟩
  · intro n p hp
    obtain ⟨node, hn, hpar⟩ := Vfs.node_of_parentOf hp
    obtain ⟨r, -, hnone, hc⟩ := hclimb hn (by rw [hpar]; simp)
    exact hc.acyclic hnone hp
  · intro e he
    obtain ⟨i, hi⟩ := List.mem_iff_getElem?.mp he
    exact ⟨ht.parent_of_point he, ht.points_fromRoot hr i e hi⟩

/-- **Tree invariant.**  In every reachable state the nodes form the trees of their mounts, and
every mount point is part of the tree under the kernel root. -/
theorem reachable_treelike {k : Kernel} (hr : Reachable k) : Treelike k.vfs := by
  obtain ⟨l, hb⟩ := hr.base
  exact hb.books.vfs.tree.treelike hb.books.root

/-- A run with a directory that is made, entered and removed. -/
theorem reachable_treelike_mkdir :
    Treelike (stateAfter (shellStart ++ calls [.mkdir dPath 0, .chdir dPath, .rmdir dPath])).vfs :=
  reachable_treelike (reachable_stateAfter _)

end CannedBsd
