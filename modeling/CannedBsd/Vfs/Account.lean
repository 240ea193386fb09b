import CannedBsd.Vfs.Tree

/-!
# Reference counts of nodes

The count of a node is one for its place in a tree, one for each mount on it, and one for each
pointer from outside the file system. A node is destroyed when its last reference is given back,
and then it is a loose node without children; so destroying it does not touch the tree.

* `Sound.release_cases`: releasing a reference lowers the count or frees this one node.
* `Sound.create`, `Sound.detach`, `Sound.move`, `Sound.attach`: the changes of the tree keep the counts.
-/

namespace CannedBsd

open CannedBsd.Lib

/-! ### Changes outside the tree -/

/-- The part of a node the tree is made of. -/
structure Shape where
  mount : MountId
  type : NodeType
  name : Bytes
  parent : Option NodeId
  children : Option NodeId
  nextSibling : Option NodeId

def Node.shape (node : Node) : Shape :=
  ⟨node.mount, node.type, node.name, node.parent, node.children, node.nextSibling⟩

/-- What is neither the content nor the times of a node. -/
def Node.fixed (node : Node) : Shape × ℕ × Option ProgramId × ℕ :=
  (node.shape, node.references, node.executable, node.inode)

/-- Both have the same nodes, up to what is not part of the tree. -/
def SameShape (v v' : Vfs) : Prop := ∀ n, (v'.node n).map Node.shape = (v.node n).map Node.shape

theorem Node.shape_eq_iff {x y : Node} : x.shape = y.shape ↔ x.mount = y.mount ∧ x.type = y.type ∧
    x.name = y.name ∧ x.parent = y.parent ∧ x.children = y.children ∧
    x.nextSibling = y.nextSibling := by
  simp [Node.shape]

namespace SameShape

variable {v v' : Vfs} {n : NodeId}

theorem refl (v : Vfs) : SameShape v v := fun _ => rfl

theorem symm (h : SameShape v v') : SameShape v' v := fun n => (h n).symm

theorem back (h : SameShape v v') {x' : Node} (hx : v'.node n = some x') :
    ∃ x, v.node n = some x ∧ x'.shape = x.shape := by
  have hn := h n
  rw [hx, Option.map_some, eq_comm, Option.map_eq_some_iff] at hn
  obtain ⟨x, hx, hs⟩ := hn
  exact ⟨x, hx, hs.symm⟩

theorem live (h : SameShape v v') : (v'.node n).isSome = (v.node n).isSome := by
  have hn := congrArg Option.isSome (h n)
  simpa using hn

theorem parentOf (h : SameShape v v') : v'.parentOf = v.parentOf := by
  funext n
  have hn := congrArg (fun o => o.bind Shape.parent) (h n)
  simpa [Vfs.parentOf, Option.bind_map, Function.comp_def, Node.shape] using hn

theorem nextOf (h : SameShape v v') : v'.nextOf = v.nextOf := by
  funext n
  have hn := congrArg (fun o => o.bind Shape.nextSibling) (h n)
  simpa [Vfs.nextOf, Option.bind_map, Function.comp_def, Node.shape] using hn

/-- Rewriting a node without touching its shape. -/
theorem setNode (v : Vfs) (n : NodeId) {f : Node → Node}
    (hf : ∀ node, v.node n = some node → (f node).shape = node.shape) : SameShape v (v.setNode n f) := by
  intro c
  rw [Vfs.node_setNode]
  split
  · rename_i hcn
    subst hcn
    cases hc : v.node c with
    | none => rfl
    | some node =>
      rw [Option.map_some, Option.map_some, Option.map_some, hf node hc]
  · rfl

end SameShape

theorem Links.same {v v' : Vfs} (hl : Links v) (h : SameShape v v') : Links v' := by
  refine ⟨?_, ?_, ?_, ?_, ?_, ?_⟩
  · intro d dir' hd
    obtain ⟨dir, hd, hs⟩ := h.back hd
    rw [h.nextOf, h.parentOf, (Node.shape_eq_iff.mp hs).2.2.2.2.1]
    exact hl.children hd
  · intro c d hc
    rw [h.parentOf] at hc
    obtain ⟨dir, hd, hty⟩ := hl.parent hc
    obtain ⟨dir', hd', hs⟩ := h.symm.back hd
    exact ⟨dir', hd', by rw [← (Node.shape_eq_iff.mp hs).2.1, hty]⟩
  · intro c node' d dir' hc hp hd
    obtain ⟨node, hn, hs⟩ := h.back hc
    obtain ⟨dir, hd, hsd⟩ := h.back hd
    obtain ⟨hm, -, -, hpar, -, -⟩ := Node.shape_eq_iff.mp hs
    rw [hm, (Node.shape_eq_iff.mp hsd).1]
    exact hl.mount hn (by rw [← hpar, hp]) hd
  · intro c node' d hc hp
    obtain ⟨node, hn, hs⟩ := h.back hc
    obtain ⟨-, -, hname, hpar, -, -⟩ := Node.shape_eq_iff.mp hs
    rw [hname]
    exact hl.name hn (by rw [← hpar, hp])
  · intro c c' x x' d hc hc' hp hp' heq
    obtain ⟨y, hy, hs⟩ := h.back hc
    obtain ⟨y', hy', hs'⟩ := h.back hc'
    obtain ⟨-, -, hname, hpar, -, -⟩ := Node.shape_eq_iff.mp hs
    obtain ⟨-, -, hname', hpar', -, -⟩ := Node.shape_eq_iff.mp hs'
    exact hl.unique hy hy' (by rw [← hpar, hp]) (by rw [← hpar', hp']) (by rw [← hname, ← hname', heq])
  · intro c node' hc hp
    obtain ⟨node, hn, hs⟩ := h.back hc
    obtain ⟨-, -, -, hpar, -, hnext⟩ := Node.shape_eq_iff.mp hs
    rw [hnext]
    exact hl.loose hn (by rw [← hpar, hp])

theorem Tree.same {v v' : Vfs} (ht : Tree v) (hm : SameMounts v v') (h : SameShape v v') : Tree v' := by
  have hstays : ∀ c, StaysPut v v' c := by
    intro c node hc
    obtain ⟨node', hn', hs⟩ := h.symm.back hc
    obtain ⟨hm, hty, -, hp, -, -⟩ := Node.shape_eq_iff.mp hs
    exact ⟨node', hn', hm.symm, hty.symm, by rw [hp]⟩
  refine ht.transfer hm (ht.links.same h) ?_ ?_ (fun {m r} _ => hstays r) (fun e _ => hstays _)
  · intro n node' d hn hp
    obtain ⟨node, hn, hs⟩ := h.back hn
    obtain ⟨hmt, -, -, hpar, -, -⟩ := Node.shape_eq_iff.mp hs
    rw [h.parentOf, hmt]
    exact ht.climbs hn (by rw [← hpar, hp])
  · intro n node' hn hp hc
    obtain ⟨node, hn, hs⟩ := h.back hn
    obtain ⟨hmt, -, -, hpar, hch, -⟩ := Node.shape_eq_iff.mp hs
    rw [hmt]
    exact ht.childless hn (by rw [← hpar, hp]) (by rwa [← hch])

/-! ### Counting -/

/-- The references the pointer `o` is to the address `a`. -/
def pointsTo (o : Option ℕ) (a : ℕ) : ℕ := if o = some a then 1 else 0

@[simp] theorem pointsTo_none (a : ℕ) : pointsTo none a = 0 := rfl

@[simp] theorem pointsTo_self (a : ℕ) : pointsTo (some a) a = 1 := if_pos rfl

theorem pointsTo_of_ne {a b : ℕ} (h : b ≠ a) : pointsTo (some a) b = 0 := by
  rw [pointsTo, if_neg]
  rintro ⟨⟩
  exact h rfl

/-- The reference of a directory entry or of a mount to its root. -/
def anchor (v : Vfs) (n : NodeId) (node : Node) : ℕ :=
  if node.parent ≠ none ∨ v.rootOf node.mount = some n then 1 else 0

/-- The number of mounts on a node. -/
def mountsOn (v : Vfs) (n : NodeId) : ℕ := v.table.countP fun e => e.mountPoint = n

/-- The counts of all nodes, where `ext` counts the pointers from outside. -/
structure Refs (v : Vfs) (ext : NodeId → ℕ) : Prop where
  count : ∀ {n node}, v.node n = some node → node.references = anchor v n node + mountsOn v n + ext n
  freed : ∀ {n}, v.node n = none → ext n = 0

theorem anchor_congr {v v' : Vfs} (hs : SameMounts v v') : anchor v' = anchor v := by
  funext n node
  rw [anchor, anchor, hs.rootOf]

theorem mountsOn_congr {v v' : Vfs} (hs : SameMounts v v') : mountsOn v' = mountsOn v := by
  funext n
  rw [mountsOn, mountsOn, hs.table]

theorem anchor_of_parent {v : Vfs} {n : NodeId} {node : Node} (h : node.parent ≠ none) :
    anchor v n node = 1 := if_pos (.inl h)

theorem mountsOn_eq_zero {v : Vfs} {n : NodeId} : mountsOn v n = 0 ↔ ∀ e ∈ v.table, e.mountPoint ≠ n := by
  simp [mountsOn, List.countP_eq_zero]

/-- A node on the mount table has a parent. -/
theorem Tree.mountsOn_of_parentOf {v : Vfs} (ht : Tree v) {n : NodeId} (hp : v.parentOf n = none) :
    mountsOn v n = 0 := by
  rw [mountsOn_eq_zero]
  rintro e he rfl
  exact ht.parent_of_point he hp

/-- What is left to show when the mounts do not change and no node is new. -/
theorem Refs.transfer {v v' : Vfs} {ext ext' : NodeId → ℕ} (hr : Refs v ext) (hs : SameMounts v v')
    (hlive : ∀ {n x'}, v'.node n = some x' → ∃ x, v.node n = some x ∧
      x'.references + (anchor v n x + ext n) = x.references + (anchor v n x' + ext' n))
    (hfreed : ∀ {n}, v'.node n = none → ext' n = 0) : Refs v' ext' := by
  refine ⟨?_, hfreed⟩
  intro n x' hx'
  obtain ⟨x, hx, heq⟩ := hlive hx'
  have hc := hr.count hx
  rw [anchor_congr hs, mountsOn_congr hs]
  omega

/-- A new mount `m` whose root is the new node `n`. -/
structure NewRoot (v v' : Vfs) (m : MountId) (n : NodeId) (new : Node) : Prop where
  free : v.node n = none
  nodes : ∀ c, v'.node c = if c = n then some new else v.node c
  unused : v.rootOf m = none
  rootOf : ∀ m', v'.rootOf m' = if m' = m then some n else v.rootOf m'
  table : v'.table = v.table
  rootMount : v'.rootMount = v.rootMount
  vfsRoot : v'.vfsRoot = v.vfsRoot
  mount : new.mount = m
  directory : new.type = .directory
  parent : new.parent = none
  children : new.children = none
  sibling : new.nextSibling = none
  references : new.references = 1

/-- The tree and the counts together. -/
structure Sound (v : Vfs) (ext : NodeId → ℕ) : Prop where
  tree : Tree v
  refs : Refs v ext

namespace Sound

variable {v v' : Vfs} {ext ext' : NodeId → ℕ} {n d : NodeId} {node dir new : Node}

/-- A node something points to is live. -/
theorem live (h : Sound v ext) (hn : 0 < ext n) : ∃ node, v.node n = some node := by
  cases hv : v.node n with
  | none =>
    rw [h.refs.freed hv] at hn
    cases hn
  | some node => exact ⟨node, rfl⟩

theorem congr (h : Sound v ext) (heq : ∀ n, ext' n = ext n) : Sound v ext' := by
  have hfun : ext' = ext := funext heq
  rwa [hfun]

theorem sameShape_of_fixed (hnodes : ∀ n, (v'.node n).map Node.fixed = (v.node n).map Node.fixed) :
    SameShape v v' := by
  intro c
  have hc := congrArg (Option.map Prod.fst) (hnodes c)
  simpa [Function.comp_def, Node.fixed] using hc

theorem same (h : Sound v ext) (hs : SameMounts v v')
    (hnodes : ∀ n, (v'.node n).map Node.fixed = (v.node n).map Node.fixed) : Sound v' ext := by
  have hshape := sameShape_of_fixed hnodes
  refine ⟨h.tree.same hs hshape, h.refs.transfer hs ?_ ?_⟩
  · intro c x' hx'
    have hc := hnodes c
    rw [hx', Option.map_some, eq_comm, Option.map_eq_some_iff] at hc
    obtain ⟨x, hx, heq⟩ := hc
    rw [Node.fixed, Node.fixed, Prod.mk.injEq, Prod.mk.injEq] at heq
    obtain ⟨hm, -, -, hp, -, -⟩ := Node.shape_eq_iff.mp heq.1
    refine ⟨x, hx, ?_⟩
    rw [anchor, anchor, hm, hp, heq.2.1]
  · intro c hc
    refine h.refs.freed ?_
    have hlive := hshape.live (n := c)
    rwa [hc, Option.isSome_none, eq_comm, Option.isSome_eq_false_iff, Option.isNone_iff_eq_none] at hlive

/-- Changing the count of one node, and the number of pointers to it with it. -/
theorem recount (h : Sound v ext) (hn : v.node n = some node) {f : ℕ → ℕ}
    (hself : f node.references + ext n = node.references + ext' n)
    (hother : ∀ c, c ≠ n → ext' c = ext c) :
    Sound (v.setNode n fun x => { x with references := f x.references }) ext' := by
  have hs := SameMounts.setNode v n fun x => { x with references := f x.references }
  refine ⟨h.tree.same hs (.setNode v n fun _ _ => rfl), h.refs.transfer hs ?_ ?_⟩
  · intro c x' hx'
    rw [Vfs.node_setNode] at hx'
    split at hx'
    · rename_i hcn
      subst hcn
      rw [hn, Option.map_some, Option.some.injEq] at hx'
      subst hx'
      refine ⟨node, hn, ?_⟩
      simp only [anchor]
      omega
    · rename_i hcn
      exact ⟨x', hx', by rw [hother c hcn]⟩
  · intro c hc
    rw [Vfs.node_setNode] at hc
    split at hc
    · rename_i hcn
      subst hcn
      rw [hn] at hc
      cases hc
    · rename_i hcn
      rw [hother c hcn]
      exact h.refs.freed hc

theorem retain (h : Sound v ext) (hn : v.node n = some node)
    (hext : ∀ c, ext' c = ext c + pointsTo (some n) c) : Sound (ramfsNodeRetain v n) ext' := by
  refine h.recount hn (f := fun r => r + 1) ?_ ?_
  · rw [hext, pointsTo_self]
    omega
  · intro c hc
    rw [hext, pointsTo_of_ne hc]
    rfl

/-! ### Giving a reference back -/

theorem releaseChildren_none (release : Vfs → NodeId → Vfs) (fuel : ℕ) (v : Vfs) :
    releaseChildren release fuel v none = v := by
  cases fuel <;> rfl

theorem node_programDestroy (v : Vfs) (p : Option ProgramId) : (programDestroy v p).node = v.node := by
  cases p <;> rfl

theorem sameMounts_programDestroy (v : Vfs) (p : Option ProgramId) : SameMounts v (programDestroy v p) := by
  cases p <;> exact ⟨rfl, rfl, rfl, rfl⟩

/-- The last reference is to a loose node without children. -/
theorem last (h : Sound v ext) (hn : v.node n = some node) (hext : 0 < ext n)
    (hone : node.references - 1 = 0) :
    node.parent = none ∧ node.children = none ∧ v.rootOf node.mount ≠ some n ∧ ext n = 1 := by
  have hc := h.refs.count hn
  have hnot : ¬ (node.parent ≠ none ∨ v.rootOf node.mount = some n) := by
    intro hanchor
    rw [anchor, if_pos hanchor] at hc
    omega
  rw [not_or, not_not] at hnot
  refine ⟨hnot.1, ?_, hnot.2, by omega⟩
  by_contra hch
  exact hnot.2 (h.tree.childless hn hnot.1 hch)

/-- Releasing a reference either lowers the count or frees this one node. -/
theorem release_cases (h : Sound v ext) (hext : 0 < ext n) :
    ∃ node, v.node n = some node ∧
      (node.references - 1 ≠ 0 ∧ ramfsNodeRelease v n =
          v.setNode n (fun x => { x with references := x.references - 1 }) ∨
        node.references - 1 = 0 ∧ SameMounts v (ramfsNodeRelease v n) ∧
          ∀ c, (ramfsNodeRelease v n).node c = if c = n then none else v.node c) := by
  obtain ⟨node, hn⟩ := h.live hext
  refine ⟨node, hn, ?_⟩
  rw [ramfsNodeRelease, nodeRelease, hn]
  by_cases hone : node.references - 1 = 0
  · obtain ⟨-, hch, -, -⟩ := h.last hn hext hone
    refine .inr ⟨hone, ?_⟩
    simp only [if_pos hone, hch, releaseChildren_none]
    refine ⟨?_, ?_⟩
    · have hs := sameMounts_programDestroy
        (v.setNode n fun x => { x with references := x.references - 1 }) node.executable
      exact (SameMounts.setNode v n _).trans (hs.trans ⟨rfl, rfl, rfl, rfl⟩)
    · intro c
      have hnode := node_programDestroy
        (v.setNode n fun x => { x with references := x.references - 1 }) node.executable
      rw [Vfs.node, Heap.get_free]
      split
      · rfl
      · rename_i hcn
        have hc := congrFun hnode c
        rw [Vfs.node_setNode_of_ne _ _ hcn] at hc
        exact hc
  · refine .inl ⟨hone, ?_⟩
    simp only [if_neg hone]

theorem release (h : Sound v ext) (hext : ∀ c, ext c = ext' c + pointsTo (some n) c) :
    Sound (ramfsNodeRelease v n) ext' := by
  have hpos : 0 < ext n := by
    rw [hext, pointsTo_self]
    omega
  have hother : ∀ c, c ≠ n → ext' c = ext c := by
    intro c hc
    rw [hext, pointsTo_of_ne hc]
    rfl
  have hself := hext n
  rw [pointsTo_self] at hself
  obtain ⟨node, hn, ⟨hmore, heq⟩ | ⟨hone, hs, hnodes⟩⟩ := h.release_cases hpos
  · rw [heq]
    exact h.recount hn (f := fun r => r - 1) (by omega) hother
  · obtain ⟨hp, hch, hroot, hlast⟩ := h.last hn hpos hone
    refine ⟨h.tree.free hs hn hp hch hroot hnodes, h.refs.transfer hs ?_ ?_⟩
    · intro c x' hx'
      rw [hnodes] at hx'
      split at hx'
      · cases hx'
      · rename_i hcn
        exact ⟨x', hx', by rw [hother c hcn]⟩
    · intro c hc
      by_cases hcn : c = n
      · subst hcn
        omega
      · rw [hnodes, if_neg hcn] at hc
        rw [hother c hcn]
        exact h.refs.freed hc

/-! ### Changes of the tree -/

theorem create (h : Sound v ext) (hs : SameMounts v v') (hp : Links.Pushed v v' d n dir new)
    (hfree : v.node n = none) (hd : dir.parent ≠ none ∨ v.rootOf dir.mount = some d)
    (hrefs : new.references = 1) : Sound v' ext := by
  refine ⟨h.tree.create hs hp hfree hd, ?_, ?_⟩
  · intro c x' hx'
    rw [anchor_congr hs, mountsOn_congr hs]
    by_cases hcn : c = n
    · subst hcn
      rw [hp.newNode, Option.some.injEq] at hx'
      subst hx'
      rw [anchor_of_parent (by rw [hp.parent]; simp), h.tree.mountsOn_of_parentOf hp.loose,
        h.refs.freed hfree, hrefs]
    by_cases hcd : c = d
    · subst hcd
      rw [hp.newDir, Option.some.injEq] at hx'
      subst hx'
      have hdir := h.refs.count hp.dirNode
      exact hdir
    · rw [hp.others c hcn hcd] at hx'
      exact h.refs.count hx'
  · intro c hc
    by_cases hcn : c = n
    · rw [hcn]
      exact h.refs.freed hfree
    by_cases hcd : c = d
    · rw [hcd, hp.newDir] at hc
      cases hc
    · rw [hp.others c hcn hcd] at hc
      exact h.refs.freed hc

theorem detach {link : Link NodeId} (h : Sound v ext) (hp : v.parentOf n = some d)
    (hlink : linkTo v d n = some link) (hch : v.childrenOf n = none)
    (hpoint : ∀ e ∈ v.table, e.mountPoint ≠ n) (hext : ∀ c, ext' c = ext c + pointsTo (some n) c) :
    Sound (detachNode v d n link) ext' := by
  refine ⟨h.tree.detach hp hlink hch hpoint, h.refs.transfer (.detachNode v d n link) ?_ ?_⟩
  · intro c x' hx'
    obtain ⟨x, hx, hm, -, hpar, -, hrefs⟩ := Tree.node_of_detachNode hx'
    refine ⟨x, hx, ?_⟩
    by_cases hcn : c = n
    · subst hcn
      rw [Vfs.parentOf_of_node hx] at hp
      -- the reference of the directory entry is now in the hands of the call
      have hroot : v.rootOf x.mount ≠ some c := by
        intro hr
        have hnone := h.tree.parent_of_root hr
        rw [Vfs.parentOf_of_node hx, hp] at hnone
        cases hnone
      rw [if_pos rfl] at hpar
      rw [anchor_of_parent (by rw [hp]; simp), anchor, hpar, hm, if_neg (by simpa using hroot), hrefs,
        hext, pointsTo_self]
      omega
    · rw [if_neg hcn] at hpar
      rw [anchor, anchor, hpar, hm, hrefs, hext, pointsTo_of_ne hcn]
      rfl
  · intro c hc
    rw [Links.node_detachNode, Option.map_eq_none_iff] at hc
    have hcn : c ≠ n := by
      rintro rfl
      rw [Vfs.parentOf, hc] at hp
      cases hp
    rw [hext, pointsTo_of_ne hcn, h.refs.freed hc]

theorem move {d' : NodeId} {dir₀ old : Node} {link : Link NodeId} (h : Sound v ext)
    (hs : SameMounts v v') (hp : v.parentOf n = some d) (hlink : linkTo v d n = some link)
    (hpush : Links.Pushed (detachNode v d n link) v' d' n dir new) (hd' : v.node d' = some dir₀)
    (hr : dir₀.parent ≠ none ∨ v.rootOf dir₀.mount = some d') (hbelow : ¬ Climb v.parentOf d' n)
    (hn : v.node n = some old) (hrefs : new.references = old.references) : Sound v' ext := by
  refine ⟨h.tree.move hs hp hlink hpush ⟨dir₀, hd', hr⟩ hbelow, h.refs.transfer hs ?_ ?_⟩
  · intro c x' hx'
    by_cases hcn : c = n
    · subst hcn
      rw [hpush.newNode, Option.some.injEq] at hx'
      subst hx'
      rw [Vfs.parentOf_of_node hn] at hp
      refine ⟨old, hn, ?_⟩
      rw [anchor_of_parent (by rw [hp]; simp), anchor_of_parent (by rw [hpush.parent]; simp), hrefs]
    · have hdet : ∃ y, (detachNode v d n link).node c = some y ∧ x'.parent = y.parent ∧
          x'.mount = y.mount ∧ x'.references = y.references := by
        by_cases hcd : c = d'
        · subst hcd
          rw [hpush.newDir, Option.some.injEq] at hx'
          subst hx'
          exact ⟨dir, hpush.dirNode, rfl, rfl, rfl⟩
        · rw [hpush.others c hcn hcd] at hx'
          exact ⟨x', hx', rfl, rfl, rfl⟩
      obtain ⟨y, hy, hpy, hmy, hry⟩ := hdet
      obtain ⟨x, hx, hm, -, hpx, -, hrx⟩ := Tree.node_of_detachNode hy
      rw [if_neg hcn] at hpx
      refine ⟨x, hx, ?_⟩
      rw [anchor, anchor, hpy, hpx, hmy, hm, hry, hrx]
  · intro c hc
    refine h.refs.freed ?_
    by_cases hcn : c = n
    · rw [hcn, hpush.newNode] at hc
      cases hc
    by_cases hcd : c = d'
    · rw [hcd, hpush.newDir] at hc
      cases hc
    · rw [hpush.others c hcn hcd, Links.node_detachNode, Option.map_eq_none_iff] at hc
      exact hc

/-! ### Mounts -/

theorem mountRoot {m : MountId} (h : Sound v ext) (hr : NewRoot v v' m n new) : Sound v' ext := by
  have hback : ∀ {c x}, c ≠ n → v'.node c = some x → v.node c = some x := by
    intro c x hcn hc
    rwa [hr.nodes, if_neg hcn] at hc
  have hkeep : ∀ {c x}, v.node c = some x → c ≠ n ∧ v'.node c = some x := by
    intro c x hc
    have hcn : c ≠ n := by
      rintro rfl
      rw [hr.free] at hc
      cases hc
    exact ⟨hcn, by rw [hr.nodes, if_neg hcn, hc]⟩
  have hself : v'.node n = some new := by rw [hr.nodes, if_pos rfl]
  have hparentOf : v'.parentOf = v.parentOf := by
    funext c
    by_cases hcn : c = n
    · subst hcn
      rw [Vfs.parentOf_of_node hself, hr.parent, Vfs.parentOf, hr.free]
      rfl
    · rw [Vfs.parentOf, hr.nodes, if_neg hcn, Vfs.parentOf]
  have hnextOf : v'.nextOf = v.nextOf := by
    funext c
    by_cases hcn : c = n
    · subst hcn
      rw [Vfs.nextOf_of_node hself, hr.sibling, Vfs.nextOf, hr.free]
      rfl
    · rw [Vfs.nextOf, hr.nodes, if_neg hcn, Vfs.nextOf]
  have hnew : ∀ {c x}, v'.node c = some x → x.parent ≠ none → c ≠ n := by
    rintro c x hc hp rfl
    rw [hself, Option.some.injEq] at hc
    exact hp (hc ▸ hr.parent)
  have hrootOf : ∀ {m' r}, v.rootOf m' = some r → v'.rootOf m' = some r := by
    intro m' r hm
    rw [hr.rootOf, if_neg]
    · exact hm
    · rintro rfl
      rw [hr.unused] at hm
      cases hm
  have hroot_iff : ∀ {m' c}, c ≠ n → (v'.rootOf m' = some c ↔ v.rootOf m' = some c) := by
    intro m' c hcn
    constructor
    · intro hm
      rw [hr.rootOf] at hm
      split at hm
      · cases hm
        exact absurd rfl hcn
      · exact hm
    · exact hrootOf
  have hbefore : attachedBefore v' = attachedBefore v := by
    funext i
    rw [attachedBefore, attachedBefore, hr.table, hr.rootMount]
  have hl := h.tree.links
  refine ⟨⟨⟨?_, ?_, ?_, ?_, ?_, ?_⟩, ?_, ?_, ?_, ?_⟩, ?_, ?_⟩
  · intro d dir hd
    rw [hnextOf, hparentOf]
    by_cases hdn : d = n
    · subst hdn
      rw [hself, Option.some.injEq] at hd
      subst hd
      refine ⟨[], by rw [hr.children]; exact .nil, ?_⟩
      intro c
      simp only [List.not_mem_nil, false_iff]
      intro hc
      obtain ⟨dir', hd', -⟩ := hl.parent hc
      rw [hr.free] at hd'
      cases hd'
    · exact hl.children (hback hdn hd)
  · intro c d hc
    rw [hparentOf] at hc
    obtain ⟨dir, hd, hty⟩ := hl.parent hc
    exact ⟨dir, (hkeep hd).2, hty⟩
  · intro c x d dir hc hp hd
    have hcn := hnew hc (by rw [hp]; simp)
    have hc' := hback hcn hc
    have hpc : v.parentOf c = some d := by rw [Vfs.parentOf_of_node hc', hp]
    obtain ⟨dir', hd', -⟩ := hl.parent hpc
    rw [(hkeep hd').2, Option.some.injEq] at hd
    subst hd
    exact hl.mount hc' hp hd'
  · intro c x d hc hp
    exact hl.name (hback (hnew hc (by rw [hp]; simp)) hc) hp
  · intro c c' x x' d hc hc' hp hp' hname
    exact hl.unique (hback (hnew hc (by rw [hp]; simp)) hc) (hback (hnew hc' (by rw [hp']; simp)) hc')
      hp hp' hname
  · intro c x hc hp
    by_cases hcn : c = n
    · subst hcn
      rw [hself, Option.some.injEq] at hc
      subst hc
      exact hr.sibling
    · exact hl.loose (hback hcn hc) hp
  · intro c x d hc hp
    rw [hparentOf]
    obtain ⟨r, hroot, hclimb⟩ := h.tree.climbs (hback (hnew hc (by rw [hp]; simp)) hc) hp
    exact ⟨r, hrootOf hroot, hclimb⟩
  · intro c x hc hp hch
    by_cases hcn : c = n
    · subst hcn
      rw [hself, Option.some.injEq] at hc
      subst hc
      exact absurd hr.children hch
    · exact hrootOf (h.tree.childless (hback hcn hc) hp hch)
  · intro m' r hm
    by_cases hrn : r = n
    · subst hrn
      rw [hr.rootOf] at hm
      split at hm
      · rename_i hmm
        subst hmm
        exact ⟨new, hself, hr.directory, hr.parent, hr.mount⟩
      · obtain ⟨x, hx, -⟩ := h.tree.roots hm
        rw [hr.free] at hx
        cases hx
    · obtain ⟨x, hx, hty, hp, hmt⟩ := h.tree.roots ((hroot_iff hrn).mp hm)
      exact ⟨x, (hkeep hx).2, hty, hp, hmt⟩
  · intro i e he
    rw [hr.table] at he
    obtain ⟨x, d, r, hx, hty, hp, ha, hroot⟩ := h.tree.points he
    exact ⟨x, d, r, (hkeep hx).2, hty, hp, by rwa [hbefore], hrootOf hroot⟩
  · intro c x hc
    rw [mountsOn, hr.table, ← mountsOn]
    by_cases hcn : c = n
    · subst hcn
      rw [hself, Option.some.injEq] at hc
      subst hc
      have hroot : v'.rootOf new.mount = some c := by rw [hr.mount, hr.rootOf, if_pos rfl]
      have hloose : v.parentOf c = none := by
        rw [Vfs.parentOf, hr.free]
        rfl
      rw [hr.references, anchor, if_pos (.inr hroot), h.tree.mountsOn_of_parentOf hloose,
        h.refs.freed hr.free]
    · rw [h.refs.count (hback hcn hc), anchor, anchor]
      simp only [hroot_iff hcn]
  · intro c hc
    rw [hr.nodes] at hc
    split at hc
    · cases hc
    · exact h.refs.freed hc

theorem attach {r : NodeId} {m : MountId} (h : Sound v ext) (hn : v.node n = some node)
    (hdir : node.type = .directory) (hp : node.parent ≠ none) (ha : node.mount ∈ attached v)
    (hm : v.rootOf m = some r)
    (hext : ∀ c, ext c = ext' c + pointsTo (some n) c) :
    Sound { v with table := v.table ++ [⟨n, m⟩] } ext' := by
  refine ⟨⟨h.tree.links.same fun _ => rfl, h.tree.climbs, h.tree.childless, h.tree.roots, ?_⟩, ?_, ?_⟩
  · intro i e he
    simp only [List.getElem?_append] at he
    split at he
    · rename_i hi
      obtain ⟨x, d, r, hx, hty, hpx, hax, hr⟩ := h.tree.points he
      refine ⟨x, d, r, hx, hty, hpx, ?_, hr⟩
      simpa [attachedBefore, List.take_append_of_le_length (Nat.le_of_lt hi)] using hax
    · rename_i hi
      rw [List.getElem?_singleton] at he
      split at he
      · rename_i hzero
        cases he
        obtain ⟨d, hd⟩ := Option.ne_none_iff_exists'.mp hp
        refine ⟨node, d, r, hn, hdir, hd, ?_, hm⟩
        have hlen : i = v.table.length := by omega
        rw [attachedBefore, hlen, List.take_left' rfl]
        exact ha
      · cases he
  · intro c x hx
    have hc := h.refs.count (n := c) hx
    have hsum : mountsOn { v with table := v.table ++ [⟨n, m⟩] } c = mountsOn v c + pointsTo (some n) c := by
      simp [mountsOn, pointsTo, List.countP_append, List.countP_singleton]
    rw [hsum]
    have hanchor : anchor { v with table := v.table ++ [⟨n, m⟩] } c x = anchor v c x := rfl
    rw [hanchor, hc, hext]
    omega
  · intro c hc
    have hz := h.refs.freed (n := c) hc
    rw [hext] at hz
    omega

end Sound

end CannedBsd
