import CannedBsd.Vfs.Normalize

/-!
# The tree of a file system

On top of the sibling lists, `Tree` says where the parent pointers lead: from every linked node to
the root of its mount. It also says what the mount table may contain. The operations on nodes keep
it; they are stated here by what they do to the nodes, and the calls that do this come later.

* `Tree.climb_root`: a node of an attached tree reaches the root of its mount.
* `Tree.create`, `Tree.detach`, `Tree.free`, `Tree.move`: the operations keep the tree.
-/

namespace CannedBsd

open CannedBsd.Lib

/-! ### The invariant -/

/-- The mounts that are attached when the first `i` entries of the table are. -/
def attachedBefore (v : Vfs) (i : ℕ) : List MountId :=
  v.rootMount :: (v.table.take i).map MountEntry.mount

/-- All attached mounts. -/
def attached (v : Vfs) : List MountId := v.rootMount :: v.table.map MountEntry.mount

/-- The invariant of the file system's tree. -/
structure Tree (v : Vfs) : Prop where
  links : Links v
  climbs : ∀ {n node d}, v.node n = some node → node.parent = some d →
    ∃ r, v.rootOf node.mount = some r ∧ Climb v.parentOf n r
  childless : ∀ {n node}, v.node n = some node → node.parent = none → node.children ≠ none →
    v.rootOf node.mount = some n
  roots : ∀ {m r}, v.rootOf m = some r →
    ∃ node, v.node r = some node ∧ node.type = .directory ∧ node.parent = none ∧ node.mount = m
  points : ∀ {i e}, v.table[i]? = some e → ∃ node d r, v.node e.mountPoint = some node ∧
    node.type = .directory ∧ node.parent = some d ∧ node.mount ∈ attachedBefore v i ∧
    v.rootOf e.mount = some r

/-- A node a lookup can find: it is part of the tree of an attached mount. -/
def Rooted (v : Vfs) (n : NodeId) : Prop :=
  ∃ node, v.node n = some node ∧ node.mount ∈ attached v ∧
    (node.parent ≠ none ∨ v.rootOf node.mount = some n)

/-- The mounts and the mount table are the same in both. -/
structure SameMounts (v v' : Vfs) : Prop where
  mounts : v'.mounts = v.mounts
  table : v'.table = v.table
  rootMount : v'.rootMount = v.rootMount
  vfsRoot : v'.vfsRoot = v.vfsRoot

/-- A node keeps its mount and type, and it stays linked or stays loose. -/
def StaysPut (v v' : Vfs) (n : NodeId) : Prop :=
  ∀ {node}, v.node n = some node → ∃ node', v'.node n = some node' ∧ node'.mount = node.mount ∧
    node'.type = node.type ∧ node'.parent.isSome = node.parent.isSome

namespace SameMounts

variable {v v' v'' : Vfs}

theorem refl (v : Vfs) : SameMounts v v := ⟨rfl, rfl, rfl, rfl⟩

theorem trans (h : SameMounts v v') (h' : SameMounts v' v'') : SameMounts v v'' :=
  ⟨h'.mounts.trans h.mounts, h'.table.trans h.table, h'.rootMount.trans h.rootMount,
    h'.vfsRoot.trans h.vfsRoot⟩

theorem rootOf (h : SameMounts v v') : v'.rootOf = v.rootOf := by
  funext m
  rw [Vfs.rootOf, Vfs.rootOf, h.mounts]

theorem attachedBefore (h : SameMounts v v') : attachedBefore v' = attachedBefore v := by
  funext i
  rw [CannedBsd.attachedBefore, CannedBsd.attachedBefore, h.table, h.rootMount]

theorem attached (h : SameMounts v v') : attached v' = attached v := by
  rw [CannedBsd.attached, CannedBsd.attached, h.table, h.rootMount]

theorem setNode (v : Vfs) (n : NodeId) (f : Node → Node) : SameMounts v (v.setNode n f) :=
  ⟨rfl, rfl, rfl, rfl⟩

theorem detachNode (v : Vfs) (d n : NodeId) (link : Link NodeId) :
    SameMounts v (detachNode v d n link) := by
  cases link <;> exact ⟨rfl, rfl, rfl, rfl⟩

end SameMounts

namespace Tree

variable {v v' : Vfs} {n d : NodeId} {node dir new : Node}

/-- What is left to show when the mounts do not change. -/
theorem transfer (ht : Tree v) (hs : SameMounts v v') (hl : Links v')
    (hclimbs : ∀ {n node d}, v'.node n = some node → node.parent = some d →
      ∃ r, v.rootOf node.mount = some r ∧ Climb v'.parentOf n r)
    (hchildless : ∀ {n node}, v'.node n = some node → node.parent = none → node.children ≠ none →
      v.rootOf node.mount = some n)
    (hroots : ∀ {m r}, v.rootOf m = some r → StaysPut v v' r)
    (hpoints : ∀ e ∈ v.table, StaysPut v v' e.mountPoint) : Tree v' := by
  refine ⟨hl, ?_, ?_, ?_, ?_⟩
  · intro n node d hn hp
    rw [hs.rootOf]
    exact hclimbs hn hp
  · intro n node hn hp hc
    rw [hs.rootOf]
    exact hchildless hn hp hc
  · intro m r hr
    rw [hs.rootOf] at hr
    obtain ⟨node, hn, hty, hp, hm⟩ := ht.roots hr
    obtain ⟨node', hn', hm', hty', hp'⟩ := hroots hr hn
    rw [hp, Option.isSome_none, Option.isSome_eq_false_iff, Option.isNone_iff_eq_none] at hp'
    exact ⟨node', hn', hty'.trans hty, hp', hm'.trans hm⟩
  · intro i e he
    rw [hs.table] at he
    obtain ⟨node, d, r, hn, hty, hp, ha, hr⟩ := ht.points he
    obtain ⟨node', hn', hm', hty', hp'⟩ := hpoints e (List.mem_of_getElem? he) hn
    rw [hp, Option.isSome_some, Option.isSome_iff_exists] at hp'
    obtain ⟨d', hd'⟩ := hp'
    exact ⟨node', d', r, hn', hty'.trans hty, hd', by rwa [hs.attachedBefore, hm'], by rwa [hs.rootOf]⟩

/-! ### Reading the tree -/

/-- A parent pointer never leads to a free node, so no climb from a live node does. -/
theorem climb_live (ht : Tree v) {a b : NodeId} (h : Climb v.parentOf a b) {na : Node}
    (ha : v.node a = some na) : ∃ nb, v.node b = some nb ∧ nb.mount = na.mount := by
  induction h generalizing na with
  | refl => exact ⟨na, ha, rfl⟩
  | @step a p r hp _ ih =>
    obtain ⟨dir, hd, -⟩ := ht.links.parent hp
    obtain ⟨nb, hb, hm⟩ := ih hd
    rw [Vfs.parentOf_of_node ha] at hp
    exact ⟨nb, hb, hm.trans (ht.links.mount ha hp hd)⟩

/-- A node with a child has a children pointer. -/
theorem children_ne_none (ht : Tree v) {c : NodeId} (hp : v.parentOf c = some d)
    (hd : v.node d = some dir) : dir.children ≠ none := by
  obtain ⟨l, hc, hm⟩ := ht.links.children hd
  have hmem := (hm c).mpr hp
  cases l with
  | nil => cases hmem
  | cons b l =>
    rw [hc.eq_some]
    simp

/-- Only directories have children. -/
theorem directory_of_children (ht : Tree v) (hd : v.node d = some dir) (hc : dir.children ≠ none) :
    dir.type = .directory := by
  obtain ⟨l, hch, hm⟩ := ht.links.children hd
  generalize dir.children = first at hch hc
  cases hch with
  | nil => exact absurd rfl hc
  | @cons c l hcs =>
    obtain ⟨dir', hd', hty⟩ := ht.links.parent ((hm c).mp (by simp))
    rw [hd, Option.some.injEq] at hd'
    exact hd' ▸ hty

/-- No climb passes through a node without children, except the one that starts there. -/
theorem not_climb_childless (ht : Tree v) {a : NodeId} (hn : v.node n = some node)
    (hc : node.children = none) (ha : a ≠ n) : ¬ Climb v.parentOf a n := by
  intro h
  induction h with
  | refl => exact ha rfl
  | @step a p r hp h ih =>
    by_cases hpn : p = r
    · subst hpn
      exact ht.children_ne_none hp hn hc
    · exact ih hn hpn

theorem not_climb_free (ht : Tree v) {a : NodeId} (hn : v.node n = none) {na : Node}
    (ha : v.node a = some na) : ¬ Climb v.parentOf a n := by
  intro h
  obtain ⟨nb, hb, -⟩ := ht.climb_live h ha
  rw [hn] at hb
  cases hb

/-- A root is loose, and a linked node is not a root. -/
theorem parent_of_root (ht : Tree v) {m : MountId} (hr : v.rootOf m = some n) :
    v.parentOf n = none := by
  obtain ⟨node, hn, -, hp, -⟩ := ht.roots hr
  rw [Vfs.parentOf_of_node hn, hp]

/-- A mount point is a linked directory. -/
theorem point (ht : Tree v) {e : MountEntry} (he : e ∈ v.table) :
    ∃ node, v.node e.mountPoint = some node ∧ node.type = .directory ∧ node.parent ≠ none := by
  obtain ⟨i, hi⟩ := List.mem_iff_getElem?.mp he
  obtain ⟨node, d, r, hn, hty, hp, -, -⟩ := ht.points hi
  exact ⟨node, hn, hty, by rw [hp]; simp⟩

theorem parent_of_point (ht : Tree v) {e : MountEntry} (he : e ∈ v.table) :
    v.parentOf e.mountPoint ≠ none := by
  obtain ⟨node, hn, -, hp⟩ := ht.point he
  rwa [Vfs.parentOf_of_node hn]

/-- A node of an attached tree reaches the root of its mount. -/
theorem climb_root (ht : Tree v) (hn : v.node n = some node)
    (h : node.parent ≠ none ∨ v.rootOf node.mount = some n) :
    ∃ r, v.rootOf node.mount = some r ∧ Climb v.parentOf n r := by
  cases hp : node.parent with
  | some d => exact ht.climbs hn hp
  | none =>
    rcases h with h | h
    · exact absurd hp h
    · exact ⟨n, h, .refl⟩

/-! ### Creation -/

/-- Linking a new node below a node of the tree. -/
theorem create (ht : Tree v) (hs : SameMounts v v') (hp : Links.Pushed v v' d n dir new)
    (hfree : v.node n = none) (hd : dir.parent ≠ none ∨ v.rootOf dir.mount = some d) : Tree v' := by
  have hother : ∀ b, b ≠ n → v'.parentOf b = v.parentOf b := by
    intro b hb
    rw [hp.parentOf, if_neg hb]
  have hstays : ∀ c, StaysPut v v' c := by
    intro c node hc
    have hcn : c ≠ n := by
      rintro rfl
      rw [hfree] at hc
      cases hc
    by_cases hcd : c = d
    · subst hcd
      rw [hp.dirNode, Option.some.injEq] at hc
      subst hc
      exact ⟨_, hp.newDir, rfl, rfl, rfl⟩
    · exact ⟨node, by rw [hp.others c hcn hcd, hc], rfl, rfl, rfl⟩
  -- old paths do not meet the new node
  have hold : ∀ {a na r}, v.node a = some na → Climb v.parentOf a r → Climb v'.parentOf a r := by
    intro a na r ha hclimb
    refine hclimb.congr fun b hb => hother b ?_
    rintro rfl
    exact ht.not_climb_free hfree ha hb
  refine ht.transfer hs (hp.links ht.links) ?_ ?_ (fun {m r} _ => hstays r) (fun e _ => hstays _)
  · intro c node e hc hpar
    by_cases hcn : c = n
    · subst hcn
      rw [hp.newNode, Option.some.injEq] at hc
      subst hc
      obtain ⟨r, hr, hclimb⟩ := ht.climb_root hp.dirNode hd
      refine ⟨r, by rwa [hp.mount], .step ?_ (hold hp.dirNode hclimb)⟩
      rw [hp.parentOf, if_pos rfl]
    · obtain ⟨old, ho, -, hm, -, hpo, -⟩ := hp.keeps hcn hc
      obtain ⟨r, hr, hclimb⟩ := ht.climbs ho (by rw [← hpo, hpar])
      exact ⟨r, by rwa [hm], hold ho hclimb⟩
  · intro c node hc hpar hch
    by_cases hcn : c = n
    · subst hcn
      rw [hp.newNode, Option.some.injEq] at hc
      subst hc
      exact absurd (hp.fresh hfree) hch
    by_cases hcd : c = d
    · subst hcd
      rw [hp.newDir, Option.some.injEq] at hc
      subst hc
      exact hd.resolve_left (fun h => h hpar)
    · rw [hp.others c hcn hcd] at hc
      exact ht.childless hc hpar hch

/-! ### Removal -/

section Detach

variable {link : Link NodeId}

/-- The nodes a detached node leaves behind keep all but their list pointers. -/
theorem node_of_detachNode {c : NodeId} {node' : Node} (h : (detachNode v d n link).node c = some node') :
    ∃ node, v.node c = some node ∧ node'.mount = node.mount ∧ node'.type = node.type ∧
      node'.parent = (if c = n then none else node.parent) ∧
      node'.children = (if link = .head ∧ c = d then v.nextOf n else node.children) ∧
      node'.references = node.references := by
  rw [Links.node_detachNode] at h
  obtain ⟨node, hn, rfl⟩ := Option.map_eq_some_iff.mp h
  exact ⟨node, hn, rfl, rfl, rfl, rfl, rfl⟩

theorem stays_detachNode {c : NodeId} (hc : c ≠ n) : StaysPut v (detachNode v d n link) c := by
  intro node hn
  have hnew := Links.node_detachNode v d n link c
  rw [hn, Option.map_some] at hnew
  exact ⟨_, hnew, rfl, rfl, by simp [hc]⟩

/-- Cutting out a node without children that nothing is mounted on. -/
theorem detach (ht : Tree v) (hp : v.parentOf n = some d) (hlink : linkTo v d n = some link)
    (hch : v.childrenOf n = none) (hpoint : ∀ e ∈ v.table, e.mountPoint ≠ n) :
    Tree (detachNode v d n link) := by
  obtain ⟨node, hn, hpar⟩ := Vfs.node_of_parentOf hp
  rw [Vfs.childrenOf_of_node hn] at hch
  refine ht.transfer (.detachNode v d n link) (ht.links.detach hp hlink) ?_ ?_ ?_ ?_
  · intro c node' e hc hpc
    obtain ⟨old, ho, hm, -, hpo, -, -⟩ := node_of_detachNode hc
    have hcn : c ≠ n := by
      rintro rfl
      rw [hpc, if_pos rfl] at hpo
      cases hpo
    rw [hpc, if_neg hcn] at hpo
    obtain ⟨r, hr, hclimb⟩ := ht.climbs ho hpo.symm
    refine ⟨r, by rwa [hm], hclimb.congr fun b hb => ?_⟩
    rw [Links.parentOf_detachNode, if_neg]
    rintro rfl
    exact ht.not_climb_childless hn hch hcn hb
  · intro c node' hc hpc hcc
    obtain ⟨old, ho, hm, -, hpo, hco, -⟩ := node_of_detachNode hc
    rw [hm]
    by_cases hcn : c = n
    · subst hcn
      rw [hn, Option.some.injEq] at ho
      subst ho
      -- `n` is not its own parent, so its children pointer is untouched
      have hne : c ≠ d := by
        rintro rfl
        exact ht.children_ne_none hp hn hch
      rw [hco, if_neg (fun h => hne h.2), hch] at hcc
      exact absurd rfl hcc
    · rw [hpc, if_neg hcn] at hpo
      refine ht.childless ho hpo.symm fun hnone => hcc ?_
      rw [hco]
      split
      · rename_i h
        -- a directory with `n` below it has children
        rw [h.2] at ho
        exact absurd hnone (ht.children_ne_none hp ho)
      · exact hnone
  · intro m r hr
    refine stays_detachNode ?_
    rintro rfl
    rw [ht.parent_of_root hr] at hp
    cases hp
  · intro e he
    exact stays_detachNode (hpoint e he)

end Detach

/-- Forgetting a loose node without children. -/
theorem free (ht : Tree v) (hs : SameMounts v v') (hn : v.node n = some node)
    (hpar : node.parent = none) (hch : node.children = none) (hroot : v.rootOf node.mount ≠ some n)
    (hnodes : ∀ c, v'.node c = if c = n then none else v.node c) : Tree v' := by
  have hparentOf : v'.parentOf = v.parentOf := by
    funext c
    rw [Vfs.parentOf, hnodes]
    split
    · rename_i h
      rw [h, Vfs.parentOf_of_node hn, hpar]
      rfl
    · rfl
  have hnextOf : v'.nextOf = v.nextOf := by
    funext c
    rw [Vfs.nextOf, hnodes]
    split
    · rename_i h
      rw [h, Vfs.nextOf_of_node hn, ht.links.loose hn hpar]
      rfl
    · rfl
  have hold : ∀ {c x}, v'.node c = some x → v.node c = some x := by
    intro c x hc
    rw [hnodes] at hc
    split at hc
    · cases hc
    · exact hc
  have hnotpar : ∀ c, v.parentOf c ≠ some n := by
    intro c hc
    exact ht.children_ne_none hc hn hch
  have hkeep : ∀ {c x}, v.node c = some x → c ≠ n → v'.node c = some x := by
    intro c x hc hcn
    rw [hnodes, if_neg hcn, hc]
  have hstays : ∀ c, c ≠ n → StaysPut v v' c := fun c hcn x hx => ⟨x, hkeep hx hcn, rfl, rfl, rfl⟩
  have hlinks : Links v' := by
    refine ⟨?_, ?_, ?_, ?_, ?_, ?_⟩
    · intro d dir hd
      rw [hnextOf, hparentOf]
      exact ht.links.children (hold hd)
    · intro c d hc
      rw [hparentOf] at hc
      obtain ⟨dir, hd, hty⟩ := ht.links.parent hc
      refine ⟨dir, hkeep hd ?_, hty⟩
      rintro rfl
      exact hnotpar c hc
    · intro c x d dir hc hp hd
      exact ht.links.mount (hold hc) hp (hold hd)
    · intro c x d hc hp
      exact ht.links.name (hold hc) hp
    · intro c c' x x' d hc hc' hp hp' hname
      exact ht.links.unique (hold hc) (hold hc') hp hp' hname
    · intro c x hc hp
      exact ht.links.loose (hold hc) hp
  refine ht.transfer hs hlinks ?_ ?_ ?_ ?_
  · intro c x d hc hp
    rw [hparentOf]
    exact ht.climbs (hold hc) hp
  · intro c x hc hp hcc
    exact ht.childless (hold hc) hp hcc
  · intro m r hr
    refine hstays r ?_
    rintro rfl
    obtain ⟨x, hx, -, -, hm⟩ := ht.roots hr
    rw [hn, Option.some.injEq] at hx
    subst hx
    exact hroot (hm ▸ hr)
  · intro e he
    refine hstays _ ?_
    rintro rfl
    refine ht.parent_of_point he ?_
    rw [Vfs.parentOf_of_node hn, hpar]

/-! ### Moving -/

/-- Cutting out a node and linking it below another node of its mount that is not below it. -/
theorem move {d' : NodeId} {link : Link NodeId} (ht : Tree v) (hs : SameMounts v v')
    (hp : v.parentOf n = some d) (hlink : linkTo v d n = some link)
    (hpush : Links.Pushed (detachNode v d n link) v' d' n dir new)
    (hd' : ∃ dir₀, v.node d' = some dir₀ ∧ (dir₀.parent ≠ none ∨ v.rootOf dir₀.mount = some d'))
    (hbelow : ¬ Climb v.parentOf d' n) : Tree v' := by
  obtain ⟨node, hn, hpar⟩ := Vfs.node_of_parentOf hp
  have hother : ∀ b, b ≠ n → v'.parentOf b = v.parentOf b := by
    intro b hb
    rw [hpush.parentOf, if_neg hb, Links.parentOf_detachNode, if_neg hb]
  have hself : v'.parentOf n = some d' := by rw [hpush.parentOf, if_pos rfl]
  -- every node keeps its mount and type; only `n` changes its parent
  have hback : ∀ {c x'}, v'.node c = some x' → ∃ x, v.node c = some x ∧ x'.mount = x.mount ∧
      x'.type = x.type ∧ (c ≠ n → x'.parent = x.parent) := by
    intro c x' hc
    by_cases hcn : c = n
    · subst hcn
      rw [hpush.newNode, Option.some.injEq] at hc
      subst hc
      have hdet := Links.node_detachNode v d c link c
      rw [hn, Option.map_some] at hdet
      obtain ⟨-, hm, hty⟩ := hpush.kept hdet
      exact ⟨node, hn, hm, hty, fun h => absurd rfl h⟩
    · obtain ⟨y, hy, hty, hm, -, hpy, -⟩ := hpush.keeps hcn hc
      obtain ⟨x, hx, hmx, htx, hpx, -, -⟩ := node_of_detachNode hy
      refine ⟨x, hx, hm.trans hmx, hty.trans htx, fun _ => ?_⟩
      rw [hpy, hpx, if_neg hcn]
  have hlive : ∀ {c x}, v.node c = some x → ∃ x', v'.node c = some x' := by
    intro c x hc
    by_cases hcn : c = n
    · exact ⟨new, hcn ▸ hpush.newNode⟩
    by_cases hcd : c = d'
    · exact ⟨_, hcd ▸ hpush.newDir⟩
    · have hdet := Links.node_detachNode v d n link c
      rw [hc, Option.map_some] at hdet
      exact ⟨_, (hpush.others c hcn hcd).trans hdet⟩
  have hstays : ∀ c, StaysPut v v' c := by
    intro c x hc
    obtain ⟨x', hx'⟩ := hlive hc
    obtain ⟨x₀, hx₀, hm, hty, hpx⟩ := hback hx'
    rw [hc, Option.some.injEq] at hx₀
    subst hx₀
    refine ⟨x', hx', hm, hty, ?_⟩
    by_cases hcn : c = n
    · subst hcn
      rw [hn, Option.some.injEq] at hc
      subst hc
      rw [Vfs.parentOf_of_node hx'] at hself
      rw [hself, hpar]
      rfl
    · rw [hpx hcn]
  obtain ⟨dir₀, hdir₀, hdr⟩ := hd'
  obtain ⟨r₀, hr₀, hclimb₀⟩ := ht.climb_root hdir₀ hdr
  have hmount : dir₀.mount = node.mount := by
    obtain ⟨x', hx'⟩ := hlive hn
    obtain ⟨x, hx, hm, -, -⟩ := hback hx'
    rw [hn, Option.some.injEq] at hx
    subst hx
    rw [hpush.newNode, Option.some.injEq] at hx'
    subst hx'
    obtain ⟨y, hy, hym, -, -, -, -⟩ := node_of_detachNode hpush.dirNode
    rw [hdir₀, Option.some.injEq] at hy
    subst hy
    rw [← hm, hpush.mount, hym]
  have hpaths : ∀ {a na r}, v.node a = some na → v.rootOf na.mount = some r →
      Climb v.parentOf a r → Climb v'.parentOf a r := by
    intro a na r ha hr hclimb
    by_cases hthrough : Climb v.parentOf a n
    · -- the path is redirected behind `n`
      obtain ⟨nb, hb, hm⟩ := ht.climb_live hthrough ha
      rw [hn, Option.some.injEq] at hb
      subst hb
      rw [← hm, ← hmount, hr₀, Option.some.injEq] at hr
      subst hr
      exact hclimb.redirect hclimb₀ hbelow hself hother
    · refine hclimb.congr fun b hb => hother b ?_
      rintro rfl
      exact hthrough hb
  refine ht.transfer hs (hpush.links (ht.links.detach hp hlink)) ?_ ?_ (fun {m r} _ => hstays r)
    (fun e _ => hstays _)
  · intro c x' e hc hpc
    obtain ⟨x, hx, hm, -, hpx⟩ := hback hc
    rw [hm]
    by_cases hcn : c = n
    · subst hcn
      rw [hn, Option.some.injEq] at hx
      subst hx
      obtain ⟨r, hr, hclimb⟩ := ht.climbs hn hpar
      exact ⟨r, hr, hpaths hn hr hclimb⟩
    · obtain ⟨r, hr, hclimb⟩ := ht.climbs hx (by rw [← hpx hcn, hpc])
      exact ⟨r, hr, hpaths hx hr hclimb⟩
  · intro c x' hc hpc hcc
    have hcn : c ≠ n := by
      rintro rfl
      rw [Vfs.parentOf_of_node hc, hpc] at hself
      cases hself
    obtain ⟨x, hx, hm, -, hpx⟩ := hback hc
    rw [hm]
    have hxp : x.parent = none := by rw [← hpx hcn, hpc]
    by_cases hcd : c = d'
    · subst hcd
      rw [hdir₀, Option.some.injEq] at hx
      subst hx
      exact hdr.resolve_left (fun h => h hxp)
    · rw [hpush.others c hcn hcd] at hc
      obtain ⟨y, hy, -, -, -, hyc, -⟩ := node_of_detachNode hc
      rw [hx, Option.some.injEq] at hy
      subst hy
      refine ht.childless hx hxp fun hnone => hcc ?_
      rw [hyc]
      split
      · rename_i h
        rw [h.2] at hx
        exact absurd hnone (ht.children_ne_none hp hx)
      · exact hnone

end Tree

end CannedBsd
