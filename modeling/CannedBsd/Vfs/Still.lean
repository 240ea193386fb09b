import CannedBsd.Vfs.Resolve
import CannedBsd.Vfs.Listing

/-!
# A tree that does not change

Looking at the tree retains nodes and gives them back. As long as no last reference is given back this
changes counts only, and every path leads where it led.

* `Still.resolveFrom`, `Still.cwdParts`, `Still.ramfsStat`: lookups find what they found.
* `Sound.shared`: a node of the tree that something outside points to has two references.
-/

namespace CannedBsd

open CannedBsd.Lib

/-- Everything of a node but its count. -/
def Node.still (node : Node) : Node := { node with references := 0 }

/-- Both have the same nodes and mounts, up to the counts of the nodes. -/
structure Still (v v' : Vfs) : Prop where
  mounts : SameMounts v v'
  next : v'.nodes.next = v.nodes.next
  nodes : ∀ n, (v'.node n).map Node.still = (v.node n).map Node.still

namespace Still

variable {v v' v'' : Vfs} {n d : NodeId}

theorem refl (v : Vfs) : Still v v := ⟨.refl v, rfl, fun _ => rfl⟩

theorem trans (h : Still v v') (h' : Still v' v'') : Still v v'' :=
  ⟨h.mounts.trans h'.mounts, h'.next.trans h.next, fun n => (h'.nodes n).trans (h.nodes n)⟩

/-- A count of one node changes. -/
theorem recount (v : Vfs) (n : NodeId) (f : ℕ → ℕ) :
    Still v (v.setNode n fun node => { node with references := f node.references }) := by
  refine ⟨.setNode v n _, Heap.next_modify _ _ _, fun c => ?_⟩
  rw [Vfs.node_setNode]
  split
  · rw [Option.map_map]
    rfl
  · rfl

theorem retain (v : Vfs) (o : Option NodeId) : Still v (cbVfsNodeRetain v o) := by
  cases o with
  | none => exact .refl v
  | some n => exact .recount v n fun r => r + 1

/-- A reference that is not the last one is given back. -/
theorem release {o : Option NodeId} (h : ∀ n, o = some n → ∃ node, v.node n = some node ∧ 1 < node.references) :
    Still v (cbVfsNodeRelease v o) := by
  cases o with
  | none => exact .refl v
  | some n =>
    obtain ⟨node, hn, hmore⟩ := h n rfl
    have hlower : ramfsNodeRelease v n = v.setNode n fun x => { x with references := x.references - 1 } := by
      rw [ramfsNodeRelease, nodeRelease, hn]
      have hne : ¬ node.references - 1 = 0 := by omega
      simp only [if_neg hne]
    rw [cbVfsNodeRelease, hlower]
    exact .recount v n fun r => r - 1

/-! ### What the tree shows -/

/-- The node is there, and all that does not depend on its count is the same. -/
theorem node_some (h : Still v v') {node : Node} (hn : v.node n = some node) :
    ∃ node', v'.node n = some node' ∧ ∀ {β : Type} (f : Node → β), (∀ x, f (Node.still x) = f x) → f node' = f node := by
  have hmap := h.nodes n
  rw [hn, Option.map_some] at hmap
  obtain ⟨node', hn', heq⟩ := Option.map_eq_some_iff.mp hmap
  refine ⟨node', hn', fun f hf => ?_⟩
  rw [← hf node', heq, hf]

theorem node_none (h : Still v v') (hn : v.node n = none) : v'.node n = none := by
  have hmap := h.nodes n
  rw [hn, Option.map_none] at hmap
  exact Option.map_eq_none_iff.mp hmap

/-- What does not depend on the count of a node can be read off either. -/
theorem field (h : Still v v') {β : Type} (f : Node → β) (hf : ∀ node, f node.still = f node) :
    (v'.node n).map f = (v.node n).map f := by
  have hmap := congrArg (Option.map f) (h.nodes n)
  rw [Option.map_map, Option.map_map] at hmap
  rwa [show f ∘ Node.still = f from funext hf] at hmap

theorem bind (h : Still v v') {β : Type} (f : Node → Option β) (hf : ∀ node, f node.still = f node) :
    (v'.node n).bind f = (v.node n).bind f := by
  have hfield := @field v v' n h (Option β) f hf
  have hjoin : ∀ o : Option Node, o.bind f = (o.map f).join := by
    intro o
    cases o <;> rfl
  rw [hjoin, hjoin, hfield]

theorem parentOf (h : Still v v') : v'.parentOf = v.parentOf := funext fun _ => h.bind Node.parent fun _ => rfl

theorem nextOf (h : Still v v') : v'.nextOf = v.nextOf := funext fun _ => h.bind Node.nextSibling fun _ => rfl

theorem childrenOf (h : Still v v') : v'.childrenOf = v.childrenOf := funext fun _ => h.bind Node.children fun _ => rfl

theorem hasName (h : Still v v') (name : Bytes) : hasName v' name = hasName v name := by
  have hread : ∀ (w : Vfs) n, CannedBsd.hasName w name n = ((w.node n).map fun node => node.name == name).getD false := by
    intro w n
    rw [CannedBsd.hasName]
    cases w.node n <;> rfl
  funext n
  rw [hread, hread, h.field (fun node => node.name == name) fun _ => rfl]

theorem entry (h : Still v v') : v'.entry = v.entry := by
  funext n
  exact h.field (fun node => (⟨n, node.name, node.inode, node.type⟩ : Entry)) fun _ => rfl

theorem entriesOf (h : Still v v') : entriesOf v' = entriesOf v := by
  funext d
  rw [CannedBsd.entriesOf, CannedBsd.entriesOf, h.nextOf, h.next, h.childrenOf, h.entry]

theorem findChild (h : Still v v') : findChild v' = findChild v := by
  funext d name
  rw [CannedBsd.findChild, CannedBsd.findChild, h.nextOf, h.hasName, h.next, h.childrenOf]

theorem ramfsLookup (h : Still v v') : ramfsLookup v' = ramfsLookup v := by
  funext d name
  rw [CannedBsd.ramfsLookup, CannedBsd.ramfsLookup, h.findChild]
  cases hd : v.node d with
  | none => rw [h.node_none hd]
  | some dir =>
    obtain ⟨dir', hd', hfield⟩ := h.node_some hd
    rw [hd']
    dsimp only
    rw [hfield Node.type fun _ => rfl]

theorem crossDown (h : Still v v') : crossDown v' = crossDown v := by
  funext n
  rw [CannedBsd.crossDown, CannedBsd.crossDown, h.mounts.table, h.mounts.rootOf]

theorem crossUp (h : Still v v') : crossUp v' = crossUp v := by
  funext n
  rw [CannedBsd.crossUp, CannedBsd.crossUp, h.mounts.table, h.mounts.rootOf]

theorem resolveFrom (h : Still v v') (cs : List Bytes) : ∀ n, resolveFrom v' n cs = resolveFrom v n cs := by
  induction cs with
  | nil => exact fun _ => rfl
  | cons c cs ih =>
    intro n
    rw [CannedBsd.resolveFrom, CannedBsd.resolveFrom, h.ramfsLookup, h.crossDown]
    cases CannedBsd.ramfsLookup v n c with
    | error e => rfl
    | ok x =>
      dsimp only
      cases CannedBsd.crossDown v x with
      | none => rfl
      | some y => exact ih y

theorem cwdParts (h : Still v v') (root : Option NodeId) (room : ℕ) :
    ∀ node parts, cwdParts v' root room node parts = cwdParts v root room node parts := by
  induction room with
  | zero => exact fun _ _ => rfl
  | succ room ih =>
    intro node parts
    cases node with
    | none => rfl
    | some n =>
      rw [CannedBsd.cwdParts, CannedBsd.cwdParts, h.crossUp, h.parentOf]
      simp only [ih]

theorem renderParts (h : Still v v') (size : ℕ) (parts : List NodeId) :
    ∀ buffer, renderParts v' size buffer parts = renderParts v size buffer parts := by
  induction parts with
  | nil => exact fun _ => rfl
  | cons p parts ih =>
    intro buffer
    rw [CannedBsd.renderParts, CannedBsd.renderParts]
    cases hp : v.node p with
    | none => rw [h.node_none hp]
    | some node =>
      obtain ⟨node', hp', hfield⟩ := h.node_some hp
      rw [hp']
      dsimp only
      rw [hfield Node.name fun _ => rfl, ih]

/-! ### Paths -/

theorem lookupNode (h : Still v v') (view : View) (path : Bytes) :
    cbVfsLookupNode v' view path = cbVfsLookupNode v view path := by
  have hcwd : ∀ size, cwdString v' view size = cwdString v view size := by
    intro size
    rw [cwdString, cwdString, h.cwdParts]
    simp only [h.renderParts]
  rw [cbVfsLookupNode, cbVfsLookupNode, normalizeForTask, normalizeForTask, hcwd]
  simp only [resolveNormalized, h.resolveFrom]

theorem ramfsStat (h : Still v v') : ramfsStat v' = ramfsStat v := by
  have hcount : ∀ c, (v'.node c).any (fun child => decide (child.type = .directory)) =
      (v.node c).any fun child => decide (child.type = .directory) := by
    intro c
    have hmap := @field v v' c h Bool (fun child => decide (child.type = .directory)) fun _ => rfl
    have hany : ∀ o : Option Node, o.any (fun child => decide (child.type = .directory)) =
        (o.map fun child => decide (child.type = .directory)).getD false := by
      intro o
      cases o <;> rfl
    rw [hany, hany, hmap]
  funext n
  rw [CannedBsd.ramfsStat, CannedBsd.ramfsStat]
  cases hn : v.node n with
  | none => rw [h.node_none hn]
  | some node =>
    obtain ⟨node', hn', hfield⟩ := h.node_some hn
    have hlinks : ramfsLinkCount v' node' = ramfsLinkCount v node := by
      rw [ramfsLinkCount, ramfsLinkCount, h.nextOf, h.next, hfield Node.type fun _ => rfl,
        hfield Node.children fun _ => rfl]
      simp only [hcount]
    rw [hn']
    dsimp only
    rw [hlinks, h.mounts.mounts, hfield Node.inode fun _ => rfl, hfield Node.size fun _ => rfl,
      hfield Node.type fun _ => rfl, hfield Node.mode fun _ => rfl, hfield Node.mount fun _ => rfl,
      hfield Node.atime fun _ => rfl, hfield Node.mtime fun _ => rfl, hfield Node.ctime fun _ => rfl]

theorem lookupDirectory (h : Still v v') (view : View) (path : Bytes) :
    lookupDirectory v' view path = lookupDirectory v view path := by
  rw [CannedBsd.lookupDirectory, CannedBsd.lookupDirectory, h.lookupNode, h.ramfsStat]

theorem statPath (h : Still v v') (view : View) (path : Bytes) :
    cbVfsStatPath v' view path = cbVfsStatPath v view path := by
  rw [cbVfsStatPath, cbVfsStatPath, h.lookupNode, h.ramfsStat]

theorem rooted (h : Still v v') (hn : Rooted v n) : Rooted v' n := by
  obtain ⟨node, hnode, hmount, hplace⟩ := hn
  obtain ⟨node', hnode', hfield⟩ := h.node_some hnode
  have hsame : node'.mount = node.mount := hfield Node.mount fun _ => rfl
  refine ⟨node', hnode', ?_, ?_⟩
  · rwa [h.mounts.attached, hsame]
  · rwa [h.mounts.rootOf, hfield Node.parent fun _ => rfl, hsame]

end Still

/-- A node of the tree that something outside points to has two references. -/
theorem Sound.shared {v : Vfs} {ext : NodeId → ℕ} {n : NodeId} (h : Sound v ext) (hn : Rooted v n) (hext : 0 < ext n) :
    ∃ node, v.node n = some node ∧ 1 < node.references := by
  obtain ⟨node, hnode, -, hplace⟩ := hn
  have hcount := h.refs.count hnode
  rw [anchor, if_pos hplace] at hcount
  exact ⟨node, hnode, by omega⟩

end CannedBsd
