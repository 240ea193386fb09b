import CannedBsd.Lib.Walks
import CannedBsd.Vfs.Walk

/-!
# Renaming

`cb_vfs_rename_paths` checks everything before it changes anything, then unlinks the node that has the
new name and hangs the moved node up under it. Seen from the root this moves one arrow of the tree:
what was below the old path is below the new one, and every other path leads where it led.

* `descend_unique`: at most one path leads to a node.
* `Rehung.grafted`: the checks of a rename and what it does to the nodes make up one moved arrow.
-/

namespace CannedBsd

open CannedBsd.Lib

variable {v v' : Vfs} {n d d' x : NodeId} {c : Bytes}

/-! ### Resolution as a walk -/

/-- One component of a path: look it up and cross into what is mounted there. -/
def descend (v : Vfs) (n : NodeId) (c : Bytes) : Except Errno NodeId :=
  match ramfsLookup v n c with
  | .error e => .error e
  | .ok x =>
    match crossDown v x with
    | none => .error .eio
    | some y => .ok y

theorem resolveFrom_eq_walk (v : Vfs) (n : NodeId) (cs : List Bytes) : resolveFrom v n cs = walk (descend v) n cs := by
  induction cs generalizing n with
  | nil => rfl
  | cons c cs ih =>
    rw [resolveFrom, walk, descend]
    cases ramfsLookup v n c with
    | error e => rfl
    | ok x =>
      dsimp only
      cases crossDown v x with
      | none => rfl
      | some y => exact ih y

theorem descend_ok : descend v n c = .ok d ↔ ∃ x, ramfsLookup v n c = .ok x ∧ crossDown v x = some d := by
  rw [descend]
  cases hx : ramfsLookup v n c with
  | error e => simp
  | ok x =>
    cases hy : crossDown v x with
    | none => simp [hy]
    | some y => simp [hy]

/-- The directory and the name a component was looked up with. -/
def comesFrom (v : Vfs) (n : NodeId) : Option (NodeId × Bytes) :=
  (v.node (crossUp v n)).bind fun node => node.parent.map fun d => (d, node.name)

theorem comesFrom_descend (hm : Mounted v) (h : descend v d c = .ok n) : comesFrom v n = some (d, c) := by
  obtain ⟨x, hx, hcross⟩ := descend_ok.mp h
  obtain ⟨dir, node, -, -, hn, hp, hname⟩ := ramfsLookup_ok hm.tree.links hx
  have hup := hm.crossUp_crossDown (by rw [Vfs.parentOf_of_node hn, hp]) hcross
  rw [comesFrom, hup, hn, Option.bind_some, hp, Option.map_some, hname]

theorem comesFrom_root (hm : Mounted v) : comesFrom v v.vfsRoot = none := by
  have hup : crossUp v v.vfsRoot = v.vfsRoot := by
    rw [crossUp]
    cases hf : v.table.find? fun e => v.rootOf e.mount = some v.vfsRoot with
    | none => rfl
    | some e =>
      have hroot : v.rootOf e.mount = some v.vfsRoot :=
        of_decide_eq_true (@List.find?_some _ (fun e : MountEntry => v.rootOf e.mount = some v.vfsRoot) _ _ hf)
      have hmem : e.mount ∈ v.table.map MountEntry.mount := List.mem_map_of_mem (List.mem_of_find?_eq_some hf)
      rw [hm.mount_unique hroot hm.root] at hmem
      exact absurd hmem (List.nodup_cons.mp hm.once).1
  rw [comesFrom, hup]
  cases hn : v.node v.vfsRoot with
  | none => rfl
  | some node =>
    have hloose := hm.root_loose
    rw [Vfs.parentOf_of_node hn] at hloose
    rw [Option.bind_some, hloose, Option.map_none]

/-- At most one path leads to a node. -/
theorem descend_unique (hm : Mounted v) {p q : List Bytes} (hp : walk (descend v) v.vfsRoot p = .ok x)
    (hq : walk (descend v) v.vfsRoot q = .ok x) : p = q :=
  walk_unique (comesFrom_descend hm) (comesFrom_root hm) hp hq

/-! ### Lookups after a change -/

/-- The node is a child of `d` under the name `c`. -/
def ChildNamed (v : Vfs) (d : NodeId) (c : Bytes) (x : NodeId) : Prop :=
  ∃ node, v.node x = some node ∧ node.parent = some d ∧ node.name = c

theorem ChildNamed.unique (hl : Links v) {y : NodeId} (hx : ChildNamed v d c x) (hy : ChildNamed v d c y) : x = y := by
  obtain ⟨node, hn, hp, hname⟩ := hx
  obtain ⟨node', hn', hp', hname'⟩ := hy
  exact hl.unique hn hn' hp hp' (hname.trans hname'.symm)

theorem findChild_eq_some (hl : Links v) {dir : Node} (hd : v.node d = some dir) :
    findChild v d c = some x ↔ ChildNamed v d c x := by
  constructor
  · exact fun hf => hl.findChild_some hd hf
  · rintro ⟨node, hn, hp, hname⟩
    cases hf : findChild v d c with
    | none => exact absurd hname (hl.findChild_none hd hf hn hp)
    | some y => rw [ChildNamed.unique hl (hl.findChild_some hd hf) ⟨node, hn, hp, hname⟩]

theorem lookup_of_child (hl : Links v) (h : ChildNamed v d c x) : ramfsLookup v d c = .ok x := by
  obtain ⟨node, hn, hp, hname⟩ := h
  obtain ⟨dir, hd, hty⟩ := hl.parent (by rw [Vfs.parentOf_of_node hn, hp])
  have hf : findChild v d c = some x := (findChild_eq_some hl hd).mpr ⟨node, hn, hp, hname⟩
  rw [ramfsLookup, hd]
  dsimp only
  rw [if_neg (not_not.mpr hty), hf]

/-- A lookup finds the same when the directory has the same type and the same child of that name. -/
theorem lookup_congr (hl : Links v) (hl' : Links v') (htype : (v'.node d).map Node.type = (v.node d).map Node.type)
    (hchild : ∀ x, ChildNamed v' d c x ↔ ChildNamed v d c x) : ramfsLookup v' d c = ramfsLookup v d c := by
  cases hd : v.node d with
  | none =>
    rw [hd, Option.map_none, Option.map_eq_none_iff] at htype
    rw [ramfsLookup, ramfsLookup, hd, htype]
  | some dir =>
    rw [hd, Option.map_some] at htype
    obtain ⟨dir', hd', hty⟩ := Option.map_eq_some_iff.mp htype
    have hfind : findChild v' d c = findChild v d c := by
      ext x
      rw [findChild_eq_some hl hd, findChild_eq_some hl' hd', hchild]
    rw [ramfsLookup, ramfsLookup, hd, hd']
    dsimp only
    rw [hty, hfind]

/-! ### What a rename does to the nodes -/

/-- A node without its links into sibling lists. -/
def Node.body (node : Node) : Node := { node with children := none, nextSibling := none }

def bodyOf (v : Vfs) (n : NodeId) : Option Node := (v.node n).map Node.body

theorem bodyOf_setNode (v : Vfs) (n : NodeId) (f : Node → Node) (c : NodeId) (hf : ∀ node, (f node).body = node.body) :
    bodyOf (v.setNode n f) c = bodyOf v c := by
  rw [bodyOf, bodyOf, Vfs.node_setNode]
  split
  · rw [Option.map_map]
    exact congrArg (fun g => (v.node c).map g) (funext hf)
  · rfl

theorem bodyOf_setChildren (v : Vfs) (n : NodeId) (next : Option NodeId) (c : NodeId) :
    bodyOf (v.setNode n fun node => { node with children := next }) c = bodyOf v c := by
  apply bodyOf_setNode
  intro node
  rfl

theorem bodyOf_setSibling (v : Vfs) (n : NodeId) (next : Option NodeId) (c : NodeId) :
    bodyOf (v.setNode n fun node => { node with nextSibling := next }) c = bodyOf v c := by
  apply bodyOf_setNode
  intro node
  rfl

theorem bodyOf_setNode_of_ne (v : Vfs) {n c : NodeId} (f : Node → Node) (hc : c ≠ n) :
    bodyOf (v.setNode n f) c = bodyOf v c := by
  rw [bodyOf, Vfs.node_setNode_of_ne v f hc, bodyOf]

theorem bodyOf_setLink (v : Vfs) (d : NodeId) (next : Option NodeId) (link : Link NodeId) (c : NodeId) :
    bodyOf (setLink v d next link) c = bodyOf v c := by
  cases link with
  | head => exact bodyOf_setChildren v d next c
  | after p => exact bodyOf_setSibling v p next c

theorem bodyOf_detachNode (v : Vfs) (d n : NodeId) (link : Link NodeId) (hc : x ≠ n) :
    bodyOf (detachNode v d n link) x = bodyOf v x := by
  rw [detachNode, bodyOf_setNode_of_ne _ _ hc, bodyOf_setLink]

/-- The moved node under its new name. -/
def renamedBody (h : Host) (d' : NodeId) (newName : Bytes) (node : Node) : Node :=
  { node with parent := some d', name := newName, ctime := h.wallClock }.body

theorem bodyOf_relinked (h : Host) (v : Vfs) (n d' : NodeId) (newName : Bytes) (d : NodeId) (link : Link NodeId) (c : NodeId) :
    bodyOf (relinked h v n d' newName d link) c =
      if c = n then (v.node n).map (renamedBody h d' newName) else bodyOf v c := by
  set w := setLink v d (v.nextOf n) link with hw
  set w₁ := w.setNode n fun node => { node with nextSibling := w.childrenOf d' } with hw₁
  set w₂ := w₁.setNode d' fun node => { node with children := some n } with hw₂
  have hbody : ∀ x, bodyOf w₂ x = bodyOf v x := by
    intro x
    rw [hw₂, bodyOf_setChildren, hw₁, bodyOf_setSibling, hw, bodyOf_setLink]
  show bodyOf (w₂.setNode n fun node => { node with parent := some d', name := newName, ctime := h.wallClock }) c = _
  split
  · rename_i hcn
    subst hcn
    have hn := hbody c
    rw [bodyOf, bodyOf] at hn
    rw [bodyOf, Vfs.node_setNode_self, Option.map_map]
    have hfun : ∀ node : Node, ({ node with parent := some d', name := newName, ctime := h.wallClock } : Node).body =
        renamedBody h d' newName node.body := fun node => rfl
    cases hx : w₂.node c with
    | none =>
      rw [hx, Option.map_none, eq_comm, Option.map_eq_none_iff] at hn
      rw [hn]
      rfl
    | some node =>
      rw [hx, Option.map_some, eq_comm] at hn
      obtain ⟨node', hn', heq⟩ := Option.map_eq_some_iff.mp hn
      rw [hn', Option.map_some, Option.map_some, Function.comp_apply, hfun, ← heq]
      rfl
  · rename_i hcn
    rw [bodyOf_setNode_of_ne _ _ hcn, hbody]

/-- A node that a descriptor still holds when its directory entry goes. -/
def unlinkedBody (node : Node) : Node := { node with parent := none, references := node.references - 1 }.body

/-- The node `n` hangs under `d'` with the new name, and the node that had the name is loose. -/
structure Rehung (h : Host) (ext : NodeId → ℕ) (v v' : Vfs) (n d' : NodeId) (newName : Bytes) (existing : Option NodeId) :
    Prop where
  mounts : SameMounts v v'
  links : Links v'
  moved : bodyOf v' n = (v.node n).map (renamedBody h d' newName)
  kept : ∀ {c}, c ≠ n → existing ≠ some c → bodyOf v' c = bodyOf v c
  loose : ∀ {e}, existing = some e → v'.parentOf e = none
  held : ∀ {e node}, existing = some e → v.node e = some node → 0 < ext e → bodyOf v' e = some (unlinkedBody node)

theorem parentOf_eq_body (v : Vfs) (n : NodeId) : v.parentOf n = (bodyOf v n).bind Node.parent := by
  rw [Vfs.parentOf, bodyOf]
  cases v.node n <;> rfl

variable {h : Host} {view : View} {ext : NodeId → ℕ} {newName oldPath newPath : Bytes} {existing : Option NodeId}

/-- A node that can be moved has a directory entry: from its new place one gets to the root of the
mount. -/
theorem Movable.parent (hm : Movable v n d') (ht : Tree v) (hn : Rooted v n) : ∃ d, v.parentOf n = some d := by
  obtain ⟨node, dir, hnode, hdir, -, hroot, hmount⟩ := hm.nodes
  obtain ⟨node', hnode', -, hanchor⟩ := hn
  rw [hnode, Option.some.injEq] at hnode'
  subst hnode'
  cases hp : node.parent with
  | some d => exact ⟨d, by rw [Vfs.parentOf_of_node hnode, hp]⟩
  | none =>
    exfalso
    rcases hanchor with hne | hself
    · exact hne hp
    · obtain ⟨r, hr, hclimb⟩ := ht.climb_root hdir hroot
      rw [← hmount, hself, Option.some.injEq] at hr
      subst hr
      exact hm.below hclimb

/-- `ramfs_rename` succeeds and hangs the node up. -/
theorem ramfsRename_body (h : Host) (newName : Bytes) (hl : Links v) (hp : v.parentOf n = some d) :
    (ramfsRename h v n d' newName).2 = .ok () ∧ SameMounts v (ramfsRename h v n d' newName).1 ∧
      ∀ c, bodyOf (ramfsRename h v n d' newName).1 c =
        if c = n then (v.node n).map (renamedBody h d' newName) else bodyOf v c := by
  obtain ⟨link, -, heq⟩ := ramfsRename_of_parent h d' newName hl hp
  rw [heq]
  exact ⟨rfl, sameMounts_relinked h v n d' newName d link, bodyOf_relinked h v n d' newName d link⟩

/-- Unlinking the node that has the new name succeeds. -/
theorem ramfsUnlink_file {e : NodeId} {node : Node} (hs : Sound v ext) (he : v.node e = some node)
    (hty : node.type ≠ .directory) (hp : v.parentOf e = some d) :
    ramfsUnlink v e = ((unlinkNode v e).1, .ok ()) ∧ Links (unlinkNode v e).1 ∧ SameMounts v (unlinkNode v e).1 ∧
      (unlinkNode v e).1.parentOf e = none ∧ (∀ {c}, c ≠ e → bodyOf (unlinkNode v e).1 c = bodyOf v c) ∧
      (0 < ext e → bodyOf (unlinkNode v e).1 e = some (unlinkedBody node)) := by
  have hch : node.children = none := by
    by_contra hch
    exact hty (hs.tree.directory_of_children he hch)
  have hpoint : ∀ entry ∈ v.table, entry.mountPoint ≠ e := by
    rintro entry hentry rfl
    obtain ⟨y, hy, hydir, -⟩ := hs.tree.point hentry
    rw [he, Option.some.injEq] at hy
    exact hty (hy ▸ hydir)
  obtain ⟨link, hlink, heq⟩ := unlinkNode_of_parent hs.tree.links hp
  have hdet : Sound (detachNode v d e link) fun c => ext c + pointsTo (some e) c :=
    hs.detach hp hlink (by rw [Vfs.childrenOf_of_node he, hch]) hpoint fun _ => rfl
  obtain ⟨link', hsame, hloose, hnodes⟩ := unlinkNode_nodes hs he hch hpoint hp
  have hpos : 0 < ext e + pointsTo (some e) e := by
    rw [pointsTo_self]
    omega
  refine ⟨?_, ?_, hsame, hloose, ?_, ?_⟩
  · rw [ramfsUnlink, he]
    simp only [if_neg hty, heq]
  · rw [heq]
    have hrel : Sound (ramfsNodeRelease (detachNode v d e link) e) ext := hdet.release fun c => rfl
    exact hrel.tree.links
  · intro c hce
    rw [bodyOf, hnodes c hce, ← bodyOf, bodyOf_detachNode v d e link' hce]
  · intro hheld
    obtain ⟨x, hx, ⟨-, hrel⟩ | ⟨hone, -, -⟩⟩ := hdet.release_cases hpos
    · have hbody : bodyOf (detachNode v d e link) e = some { node with parent := none }.body := by
        have hset : bodyOf (setLink v d (v.nextOf e) link) e = some node.body := by
          rw [bodyOf_setLink, bodyOf, he, Option.map_some]
        rw [bodyOf] at hset
        obtain ⟨y, hy, hybody⟩ := Option.map_eq_some_iff.mp hset
        rw [detachNode, bodyOf, Vfs.node_setNode_self, hy, Option.map_some, Option.map_some]
        exact congrArg (fun b : Node => some { b with parent := none }) hybody
      rw [heq]
      show bodyOf (ramfsNodeRelease (detachNode v d e link) e) e = _
      rw [hrel, bodyOf, Vfs.node_setNode_self, hx, Option.map_some, Option.map_some]
      rw [bodyOf, hx, Option.map_some, Option.some.injEq] at hbody
      exact congrArg (fun b : Node => some { b with references := b.references - 1 }) hbody
    · obtain ⟨-, -, -, hcount⟩ := hdet.last hx hpos hone
      rw [pointsTo_self] at hcount
      omega

/-- What `cb_vfs_rename_paths` can do. -/
inductive RenameRound (h : Host) (ext : NodeId → ℕ) (v : Vfs) (view : View) (oldPath newPath : Bytes) : Vfs × Except Errno Unit → Prop
  | refused (e : Errno) : RenameRound h ext v view oldPath newPath (v, .error e)
  | same {n d' : NodeId} {newName : Bytes} : renameTargets v view oldPath newPath = .ok (n, d', newName) →
      renameChecks h v n d' newName = .ok .same → RenameRound h ext v view oldPath newPath (v, .ok ())
  | moved {n d' : NodeId} {newName : Bytes} {existing : Option NodeId} {v' : Vfs} :
      renameTargets v view oldPath newPath = .ok (n, d', newName) →
      renameChecks h v n d' newName = .ok (.move existing) → Rehung h ext v v' n d' newName existing →
      RenameRound h ext v view oldPath newPath (v', .ok ())

theorem cbVfsRenamePaths_round (hv : Resolves v ext view) :
    RenameRound h ext v view oldPath newPath (cbVfsRenamePaths h v view oldPath newPath) := by
  have hlinks : Links (cbVfsRenamePaths h v view oldPath newPath).1 := by
    have hmoves := @cbVfsRenamePaths_moves v view (fun _ => 0) ext h oldPath newPath ⟨hv.sound, hv.root, hv.view⟩
    have hsound : Sound (cbVfsRenamePaths h v view oldPath newPath).1 fun c => ext c + 0 := hmoves.sound hv.sound
    exact hsound.tree.links
  rw [cbVfsRenamePaths] at hlinks ⊢
  cases ht : renameTargets v view oldPath newPath with
  | error e => exact .refused e
  | ok targets =>
    obtain ⟨n, d', newName⟩ := targets
    simp only [ht] at hlinks
    dsimp only
    obtain ⟨hn, hd, hname⟩ := renameTargets_rooted hv ht
    have hl := hv.sound.tree.links
    cases hc : renameChecks h v n d' newName with
    | error e => exact .refused e
    | ok plan =>
      cases plan with
      | same => exact .same ht hc
      | move existing =>
        obtain ⟨hmov, hex⟩ := renameChecks_ok hl hn hd hc
        obtain ⟨d, hp⟩ := hmov.parent hv.sound.tree hn
        cases existing with
        | none =>
          simp only [hc] at hlinks
          dsimp only
          obtain ⟨hok, hmounts, hbody⟩ := @ramfsRename_body v n d d' h newName hl hp
          generalize ramfsRename h v n d' newName = r at hok hmounts hbody hlinks ⊢
          obtain ⟨v', result⟩ := r
          dsimp only at hok hmounts hbody hlinks
          subst hok
          refine .moved ht hc ⟨hmounts, hlinks, ?_, ?_, ?_, ?_⟩
          · rw [hbody, if_pos rfl]
          · intro c hcn _
            rw [hbody, if_neg hcn]
          · intro e he
            cases he
          · intro e node he
            cases he
        | some e =>
          obtain ⟨hen, x, hx, hxp, hxn, hxty⟩ := hex
          have hpe : v.parentOf e = some d' := by rw [Vfs.parentOf_of_node hx, hxp]
          obtain ⟨hunlink, hl₁, hmounts₁, hloose, hbody₁, hheld⟩ := ramfsUnlink_file hv.sound hx hxty hpe
          simp only [hc, hunlink] at hlinks
          simp only [hunlink]
          generalize (unlinkNode v e).1 = w at hl₁ hmounts₁ hloose hbody₁ hheld hlinks ⊢
          have hp₁ : w.parentOf n = some d := by
            rw [parentOf_eq_body, hbody₁ (Ne.symm hen), ← parentOf_eq_body, hp]
          obtain ⟨hok, hmounts, hbody⟩ := @ramfsRename_body w n d d' h newName hl₁ hp₁
          generalize ramfsRename h w n d' newName = r at hok hmounts hbody hlinks ⊢
          obtain ⟨v', result⟩ := r
          dsimp only at hok hmounts hbody hlinks
          subst hok
          refine .moved ht hc ⟨hmounts₁.trans hmounts, hlinks, ?_, ?_, ?_, ?_⟩
          · have hsame := hbody₁ (Ne.symm hen)
            rw [bodyOf, bodyOf] at hsame
            rw [hbody, if_pos rfl]
            have hfun : ∀ o : Option Node, o.map (renamedBody h d' newName) =
                (o.map Node.body).map (renamedBody h d' newName) := by
              intro o
              cases o <;> rfl
            rw [hfun, hsame, ← hfun]
          · intro c hcn hce
            rw [hbody, if_neg hcn]
            exact hbody₁ fun heq => hce (congrArg some heq.symm)
          · intro e' he'
            cases he'
            rw [parentOf_eq_body, hbody, if_neg hen, ← parentOf_eq_body, hloose]
          · intro e' node he' hnode hpos
            cases he'
            rw [hx, Option.some.injEq] at hnode
            subst hnode
            rw [hbody, if_neg hen]
            exact hheld hpos

/-! ### Going down through mounts -/

/-- The place of a mount in the order of attachment. -/
def rankOf (v : Vfs) (m : MountId) : ℕ := (attached v).idxOf m

/-- A component stays in its mount, going down one parent pointer, or enters a mount that was attached
later. -/
theorem descend_mount (hm : Mounted v) {node : Node} {y : NodeId} (hx : v.node x = some node)
    (h : descend v x c = .ok y) :
    ∃ node', v.node y = some node' ∧
      (node'.mount = node.mount ∧ v.parentOf y = some x ∨ rankOf v node.mount < rankOf v node'.mount) := by
  obtain ⟨z, hz, hcross⟩ := descend_ok.mp h
  obtain ⟨dir, child, hdir, -, hchild, hp, -⟩ := ramfsLookup_ok hm.tree.links hz
  rw [hx, Option.some.injEq] at hdir
  subst hdir
  have hmount := hm.tree.links.mount hchild hp hx
  rw [crossDown] at hcross
  cases hf : v.table.find? fun e => e.mountPoint = z with
  | none =>
    simp only [hf, Option.some.injEq] at hcross
    subst hcross
    exact ⟨child, hchild, .inl ⟨hmount.symm, by rw [Vfs.parentOf_of_node hchild, hp]⟩⟩
  | some e =>
    simp only [hf] at hcross
    have hpoint : e.mountPoint = z := of_decide_eq_true (@List.find?_some _ (fun e : MountEntry => e.mountPoint = z) _ _ hf)
    obtain ⟨i, hi⟩ := List.mem_iff_getElem?.mp (List.mem_of_find?_eq_some hf)
    obtain ⟨pnode, d, r, hpnode, -, -, hbefore, hr⟩ := hm.tree.points hi
    obtain ⟨rnode, hrnode, -, -, hrm⟩ := hm.tree.roots hcross
    refine ⟨rnode, hrnode, .inr ?_⟩
    rw [hpoint, hchild, Option.some.injEq] at hpnode
    subst hpnode
    rw [← hmount] at hbefore
    have htake : attachedBefore v i = (attached v).take (i + 1) := by
      rw [attachedBefore, attached, List.take_succ_cons, List.map_take]
    rw [htake] at hbefore
    have hlow : rankOf v node.mount < i + 1 :=
      (List.mem_take_iff_idxOf_lt (List.mem_of_mem_take hbefore)).mp hbefore
    have hentry : (attached v)[i + 1]? = some e.mount := by
      rw [attached, List.getElem?_cons_succ, List.getElem?_map, hi]
      rfl
    obtain ⟨hlt, hget⟩ := List.getElem?_eq_some_iff.mp hentry
    have hhigh : rankOf v rnode.mount = i + 1 := by
      rw [hrm, ← hget]
      exact hm.once.idxOf_getElem (i + 1) hlt
    rw [hhigh]
    exact hlow

/-- Who walks down and ends in the same mount has gone down parent pointers only. -/
theorem climb_of_walk (hm : Mounted v) {cs : List Bytes} {node : Node} {y : NodeId} (hx : v.node x = some node)
    (h : walk (descend v) x cs = .ok y) :
    ∃ node', v.node y = some node' ∧ rankOf v node.mount ≤ rankOf v node'.mount ∧
      (node'.mount = node.mount → Climb v.parentOf y x) := by
  induction cs using List.reverseRecOn generalizing y with
  | nil =>
    cases h
    exact ⟨node, hx, le_rfl, fun _ => .refl⟩
  | append_singleton cs c ih =>
    obtain ⟨z, hz, hc⟩ := walk_snoc.mp h
    obtain ⟨znode, hznode, hle, hclimb⟩ := ih hz
    obtain ⟨ynode, hynode, ⟨hsame, hp⟩ | hlater⟩ := descend_mount hm hznode hc
    · refine ⟨ynode, hynode, hsame ▸ hle, fun heq => ?_⟩
      exact .step hp (hclimb (hsame.symm.trans heq))
    · refine ⟨ynode, hynode, hle.trans hlater.le, fun heq => ?_⟩
      rw [heq] at hlater
      exact absurd hlater (Nat.not_lt.mpr hle)

/-! ### The moved arrow -/

/-- The lookup that decides between the plans. -/
theorem renameChecks_lookup {plan : RenamePlan} (hc : renameChecks h v n d' newName = .ok plan) :
    isMountNode v n = false ∧ ramfsLookup v d' newName =
      match plan with
      | .same => .ok n
      | .move none => .error .enoent
      | .move (some e) => .ok e := by
  rw [renameChecks] at hc
  obtain ⟨-, hc⟩ := ok_of_guard hc
  obtain ⟨hmount, hc⟩ := ok_of_guard hc
  refine ⟨Bool.eq_false_iff.mpr hmount, ?_⟩
  cases hw : walkUp v.parentOf n (cbPathMax / 2) (some d') with
  | hit => simp [hw] at hc
  | tooLong => simp [hw] at hc
  | clear =>
    simp only [hw] at hc
    cases hs : ramfsStat v n with
    | error e => simp [hs] at hc
    | ok status =>
      simp only [hs] at hc
      cases hlk : ramfsLookup v d' newName with
      | error e =>
        have he : e = .enoent := by
          by_contra hne
          simp only [hlk] at hc
          cases hc
        subst he
        simp only [hlk] at hc
        obtain ⟨-, hc⟩ := ok_of_guard hc
        cases hc
        rfl
      | ok e =>
        simp only [hlk] at hc
        by_cases hen : e = n
        · rw [if_pos hen] at hc
          cases hc
          rw [hen]
        rw [if_neg hen] at hc
        cases hse : ramfsStat v e with
        | error e' => simp [hse] at hc
        | ok estatus =>
          simp only [hse] at hc
          obtain ⟨-, hc⟩ := ok_of_guard hc
          obtain ⟨-, hc⟩ := ok_of_guard hc
          obtain ⟨-, hc⟩ := ok_of_guard hc
          cases hc
          rfl

/-- A node that is no mount node is found as itself. -/
theorem crossDown_of_not_mountNode (hn : isMountNode v n = false) : crossDown v n = some n := by
  rw [crossDown]
  cases hf : v.table.find? fun e => e.mountPoint = n with
  | none => rfl
  | some e =>
    have hpoint : e.mountPoint = n := of_decide_eq_true (@List.find?_some _ (fun e : MountEntry => e.mountPoint = n) _ _ hf)
    exact absurd hpoint (not_point_of_not_mountNode hn e (List.mem_of_find?_eq_some hf))

theorem crossDown_file (ht : Tree v) {node : Node} (hn : v.node n = some node) (hty : node.type ≠ .directory) :
    crossDown v n = some n := by
  rw [crossDown]
  cases hf : v.table.find? fun e => e.mountPoint = n with
  | none => rfl
  | some e =>
    have hpoint : e.mountPoint = n := of_decide_eq_true (@List.find?_some _ (fun e : MountEntry => e.mountPoint = n) _ _ hf)
    obtain ⟨x, hx, hdir, -⟩ := ht.point (List.mem_of_find?_eq_some hf)
    rw [hpoint, hn, Option.some.injEq] at hx
    exact absurd (hx ▸ hdir) hty

/-- The last component of a path to a node that is no mount node is the node's name in its
directory. -/
theorem arrow_of_not_mountNode (hm : Mounted v) {os : List Bytes} {a : Bytes} (hn : isMountNode v n = false)
    (h : walk (descend v) v.vfsRoot (os ++ [a]) = .ok n) :
    ∃ d, walk (descend v) v.vfsRoot os = .ok d ∧ descend v d a = .ok n ∧ ChildNamed v d a n := by
  obtain ⟨d, hd, ha⟩ := walk_snoc.mp h
  obtain ⟨x, hx, hcross⟩ := descend_ok.mp ha
  obtain ⟨dir, node, -, -, hnode, hp, hname⟩ := ramfsLookup_ok hm.tree.links hx
  have hxn : x = n := by
    rw [crossDown] at hcross
    cases hf : v.table.find? fun e => e.mountPoint = x with
    | none =>
      simp only [hf, Option.some.injEq] at hcross
      exact hcross
    | some e =>
      simp only [hf] at hcross
      rw [isMountNode, List.any_eq_false] at hn
      refine absurd ?_ (hn e (List.mem_of_find?_eq_some hf))
      simp [hcross]
  subst hxn
  exact ⟨d, hd, ha, node, hnode, hp, hname⟩

theorem childNamed_iff_body : ChildNamed v d c x ↔ ∃ b, bodyOf v x = some b ∧ b.parent = some d ∧ b.name = c := by
  constructor
  · rintro ⟨node, hn, hp, hname⟩
    exact ⟨node.body, by rw [bodyOf, hn]; rfl, hp, hname⟩
  · rintro ⟨b, hb, hp, hname⟩
    obtain ⟨node, hn, rfl⟩ := Option.map_eq_some_iff.mp hb
    exact ⟨node, hn, hp, hname⟩

theorem type_eq_body (v : Vfs) (n : NodeId) : (v.node n).map Node.type = (bodyOf v n).map Node.type := by
  rw [bodyOf, Option.map_map]
  rfl

namespace Rehung

variable (hre : Rehung h ext v v' n d' newName existing)

include hre

/-- The children after a rename. -/
theorem childNamed (hn : ChildNamed v d c n) {x' : NodeId} {c' : Bytes} {y : NodeId}
    (hexisting : ∀ e, existing = some e → ChildNamed v d' newName e) (hold : ¬ (x' = d ∧ c' = c))
    (hnew : ¬ (x' = d' ∧ c' = newName)) : ChildNamed v' x' c' y ↔ ChildNamed v x' c' y := by
  obtain ⟨node, hnode, hp, hname⟩ := hn
  by_cases hyn : y = n
  · subst hyn
    have hbody := hre.moved
    rw [hnode, Option.map_some] at hbody
    constructor
    · intro hy
      obtain ⟨b, hb, hbp, hbn⟩ := childNamed_iff_body.mp hy
      rw [hbody, Option.some.injEq] at hb
      subst hb
      exact absurd ⟨(Option.some.inj hbp).symm, hbn.symm⟩ hnew
    · rintro ⟨x, hx, hxp, hxn⟩
      rw [hnode, Option.some.injEq] at hx
      subst hx
      rw [hp, Option.some.injEq] at hxp
      exact absurd ⟨hxp.symm, hxn.symm.trans hname⟩ hold
  · by_cases hye : existing = some y
    · constructor
      · rintro ⟨x, hx, hxp, -⟩
        have hloose := hre.loose hye
        rw [Vfs.parentOf_of_node hx, hxp] at hloose
        cases hloose
      · rintro ⟨x, hx, hxp, hxn⟩
        obtain ⟨x', hx', hxp', hxn'⟩ := hexisting y hye
        rw [hx, Option.some.injEq] at hx'
        subst hx'
        rw [hxp, Option.some.injEq] at hxp'
        exact absurd ⟨hxp', hxn.symm.trans hxn'⟩ hnew
    · rw [childNamed_iff_body, childNamed_iff_body, hre.kept hyn hye]

theorem type_keep {y : NodeId} (hy : existing ≠ some y) : (v'.node y).map Node.type = (v.node y).map Node.type := by
  rw [type_eq_body, type_eq_body]
  by_cases hyn : y = n
  · subst hyn
    rw [hre.moved, bodyOf, Option.map_map, Option.map_map]
    rfl
  · rw [hre.kept hyn hy]

theorem crossDown_eq (y : NodeId) : crossDown v' y = crossDown v y := by
  rw [crossDown, crossDown, hre.mounts.table, hre.mounts.rootOf]

theorem descend_eq {y : NodeId} {c' : Bytes} (h : ramfsLookup v' y c' = ramfsLookup v y c') : descend v' y c' = descend v y c' := by
  rw [descend, descend, h]
  cases ramfsLookup v y c' with
  | error e => rfl
  | ok z =>
    dsimp only
    rw [hre.crossDown_eq]

/-- **The moved arrow.**  The checks of a rename and what it does to the nodes make up one moved arrow. -/
theorem grafted (hm : Mounted v) {os ps : List Bytes} {a : Bytes} (hn : Rooted v n) (hd' : Rooted v d')
    (hc : renameChecks h v n d' newName = .ok (.move existing)) (hos : walk (descend v) v.vfsRoot (os ++ [a]) = .ok n)
    (hps : walk (descend v) v.vfsRoot ps = .ok d') :
    ∃ d, Grafted (descend v) (descend v') v.vfsRoot os ps a newName d d' n .enoent := by
  have hl := hm.tree.links
  obtain ⟨hmov, hex⟩ := renameChecks_ok hl hn hd' hc
  obtain ⟨hmount, hlookup⟩ := renameChecks_lookup hc
  obtain ⟨d, hd, harrow, hchild⟩ := arrow_of_not_mountNode hm hmount hos
  obtain ⟨node, dir, hnode, hdir, hdty, -, hsame⟩ := hmov.nodes
  have hself := crossDown_of_not_mountNode hmount
  -- the node that has the new name is a file, and no path goes on behind it
  have hfile : ∀ e, existing = some e → e ≠ n ∧ ChildNamed v d' newName e ∧
      ∃ x, v.node e = some x ∧ x.type ≠ .directory := by
    intro e he
    subst he
    obtain ⟨hen, x, hx, hxp, hxn, hxty⟩ := hex
    exact ⟨hen, ⟨x, hx, hxp, hxn⟩, x, hx, hxty⟩
  have hoccupied : ∀ y, descend v d' newName = .ok y → existing = some y := by
    intro y hy
    obtain ⟨z, hz, hcross⟩ := descend_ok.mp hy
    rw [hlookup] at hz
    cases existing with
    | none => cases hz
    | some e =>
      cases hz
      obtain ⟨-, -, x, hx, hxty⟩ := hfile z rfl
      rw [crossDown_file hm.tree hx hxty] at hcross
      exact hcross
  have hreach : ∀ y, existing = some y → walk (descend v) v.vfsRoot (ps ++ [newName]) = .ok y := by
    intro y hy
    subst hy
    obtain ⟨-, -, x, hx, hxty⟩ := hfile y rfl
    exact walk_snoc.mpr ⟨d', hps, descend_ok.mpr ⟨y, hlookup, crossDown_file hm.tree hx hxty⟩⟩
  have hdiff : ¬ (d = d' ∧ a = newName) := by
    rintro ⟨rfl, rfl⟩
    have hlk := lookup_of_child hl hchild
    rw [hlookup] at hlk
    cases existing with
    | none => cases hlk
    | some e =>
      cases hlk
      exact (hfile n rfl).1 rfl
  refine ⟨d, ⟨descend_unique hm, hd, harrow, hps, ?_, ?_, ?_, ?_, ?_⟩⟩
  · -- below the moved node there is no directory of its own mount that it could move to
    rintro ⟨s, hs⟩
    have hbelow : walk (descend v) n s = .ok d' := by
      rw [← hs, walk_append_ok hos] at hps
      exact hps
    obtain ⟨dnode, hdnode, -, hclimb⟩ := climb_of_walk hm hnode hbelow
    rw [hdir, Option.some.injEq] at hdnode
    subst hdnode
    exact hmov.below (hclimb hsame.symm)
  · rintro ⟨s, hs⟩
    rw [← hs, List.append_assoc (ps ++ [newName]) s [a], List.append_assoc ps] at hos
    obtain ⟨z, hz, hrest⟩ := walk_split hos
    rw [hps] at hz
    cases hz
    rw [List.singleton_append, walk] at hrest
    cases hy : descend v d' newName with
    | error e => simp [hy] at hrest
    | ok y =>
      simp only [hy] at hrest
      obtain ⟨-, -, x, hx, hxty⟩ := hfile y (hoccupied y hy)
      have hfail : ∀ c, descend v y c = .error .enotdir := by
        intro c
        rw [descend, ramfsLookup, hx]
        dsimp only
        rw [if_pos hxty]
      cases s with
      | nil =>
        rw [List.nil_append, walk, hfail] at hrest
        cases hrest
      | cons c s =>
        rw [List.cons_append, walk, hfail] at hrest
        cases hrest
  · refine descend_ok.mpr ⟨n, lookup_of_child hre.links ?_, ?_⟩
    · refine childNamed_iff_body.mpr ⟨renamedBody h d' newName node, ?_, rfl, rfl⟩
      rw [hre.moved, hnode, Option.map_some]
    · rw [hre.crossDown_eq, hself]
  · have hnone : ∀ y, ¬ ChildNamed v' d a y := by
      intro y hy
      by_cases hyn : y = n
      · subst hyn
        obtain ⟨b, hb, hbp, hbn⟩ := childNamed_iff_body.mp hy
        rw [hre.moved, hnode, Option.map_some, Option.some.injEq] at hb
        subst hb
        exact hdiff ⟨(Option.some.inj hbp).symm, hbn.symm⟩
      · by_cases hye : existing = some y
        · obtain ⟨x, hx, hxp, -⟩ := hy
          have hloose := hre.loose hye
          rw [Vfs.parentOf_of_node hx, hxp] at hloose
          cases hloose
        · rw [childNamed_iff_body, hre.kept hyn hye, ← childNamed_iff_body] at hy
          exact hyn (hy.unique hl hchild)
    obtain ⟨x, hx, hxp, -⟩ := hchild
    obtain ⟨ddir, hddir, hddty⟩ := hl.parent (by rw [Vfs.parentOf_of_node hx, hxp])
    have hde : existing ≠ some d := by
      intro he
      obtain ⟨-, -, y, hy, hyty⟩ := hfile d he
      rw [hddir, Option.some.injEq] at hy
      exact hyty (hy ▸ hddty)
    have htype := hre.type_keep hde
    rw [hddir, Option.map_some] at htype
    obtain ⟨ddir', hddir', hddty'⟩ := Option.map_eq_some_iff.mp htype
    have hfind : findChild v' d a = none := by
      cases hf : findChild v' d a with
      | none => rfl
      | some y => exact absurd ((findChild_eq_some hre.links hddir').mp hf) (hnone y)
    rw [descend, ramfsLookup, hddir']
    dsimp only
    rw [if_neg (not_not.mpr (hddty'.trans hddty)), hfind]
  · intro p y c' hp hpre hold hnew
    refine hre.descend_eq (lookup_congr hl hre.links (hre.type_keep fun hye => hpre ?_) fun z => ?_)
    · rw [descend_unique hm hp (hreach y hye)]
    · exact hre.childNamed hchild (fun e he => (hfile e he).2.1) hold hnew

/-- A child stays in its directory unless it moves to another one or its name is taken. -/
theorem parentOf_keep (hc : renameChecks h v n d' newName = .ok (.move existing))
    (ht : renameTargets v view oldPath newPath = .ok (n, d', newName)) {y : NodeId} (hp : v.parentOf y = some d)
    (hy : ¬ renamesAway h v view oldPath newPath y) : v'.parentOf y = some d := by
  have hye : existing ≠ some y := fun heq => hy ⟨n, d', newName, existing, ht, hc, .inr heq⟩
  rw [parentOf_eq_body]
  by_cases hyn : y = n
  · subst hyn
    have hstays : v.parentOf y = some d' := by
      by_contra hne
      exact hy ⟨y, d', newName, existing, ht, hc, .inl ⟨rfl, hne⟩⟩
    obtain ⟨node, hnode, -⟩ := Vfs.node_of_parentOf hp
    rw [hp, Option.some.injEq] at hstays
    rw [hre.moved, hnode, Option.map_some, Option.bind_some, hstays]
    rfl
  · rw [hre.kept hyn hye, ← parentOf_eq_body, hp]

end Rehung

theorem cbVfsRenamePaths_parentOf (hv : Resolves v ext view) {y : NodeId} (hp : v.parentOf y = some d)
    (hy : ¬ renamesAway h v view oldPath newPath y) :
    (cbVfsRenamePaths h v view oldPath newPath).1.parentOf y = some d := by
  have hround := @cbVfsRenamePaths_round v h view ext oldPath newPath hv
  generalize cbVfsRenamePaths h v view oldPath newPath = r at hround
  cases hround with
  | refused e => exact hp
  | same ht hc => exact hp
  | moved ht hc hre => exact hre.parentOf_keep hc ht hp hy

end CannedBsd
